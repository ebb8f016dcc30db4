import QkdEkm.Ekm.Pool
import QkdEkm.Lib.Machine

/-!
# Conserve — the pool under concurrent threads

One thread runs `pull_once`, any number of others call `allocate` and
`expire_once`. What they do to the deques happens under the lock, so a
schedule is a sequence of locked sections and of answers of the source
in between. Each deque is a queue: keys enter behind and leave in front.
-/

namespace QkdEkm.Ekm

open QkdEkm.Common QkdEkm.Lib

/-- What the threads share, and where the pulling thread stands. -/
structure Shared where
  pool : KeyPool
  pull : Pull

/-- A pool of which nothing was ever asked. -/
def Shared.start : Shared := ⟨{}, .idle⟩

/-- The next section of the pulling thread, one peer's turn of some
`expire_once`, or a call of `allocate`. -/
inductive Section
  | pull (answer : EncKeys) (now : Time)
  | expire (peer : String) (now : Time)
  | allocate (store : Store) (peer : String)

def Shared.step (cfg : PoolConfig) (s : Shared) : Section → Shared × Unit
  | .pull answer now =>
    let (pool, pull) := s.pool.pull cfg answer now s.pull
    (⟨pool, pull⟩, ())
  | .expire peer now => ({ s with pool := (s.pool.expirePeer cfg now peer).1 }, ())
  | .allocate store peer => ({ s with pool := (s.pool.allocate cfg store peer).2 }, ())

/-- The keys of a peer that a section puts into its deque. -/
def enters (peer : String) (m : Moment Shared Section Unit) : List Key :=
  match m.act, m.pre.pull with
  | .pull _ _, .received p keys _ _ => if p = peer then keys else []
  | _, _ => []

/-- The keys of a peer that `enc_keys` returned. -/
def returned (peer : String) (m : Moment Shared Section Unit) : List Key :=
  match m.act, m.pre.pull with
  | .pull (.keys keys) _, .asking p _ _ => if p = peer then keys else []
  | _, _ => []

/-- The keys of a peer that a section takes out of its deque. -/
def leaves (cfg : PoolConfig) (peer : String) (m : Moment Shared Section Unit) : List Key :=
  match m.act with
  | .pull _ _ => []
  | .expire p now =>
    if p = peer then
      ((m.pre.pool.deques p).takeWhile fun entry => entry.2 < now - cfg.ttl).map (·.1)
    else []
  | .allocate _ p =>
    if p = peer ∧ p ∈ cfg.peers then ((m.pre.pool.deques p).take 1).map (·.1) else []

/-- The keys of a peer that are buffered. -/
def Shared.buffered (s : Shared) (peer : String) : List Key := (s.pool.deques peer).map (·.1)

/-- The keys of a peer that the pulling thread was given and has not
appended yet. -/
def Shared.inHand (s : Shared) (peer : String) : List Key :=
  match s.pull with
  | .received p keys _ _ => if p = peer then keys else []
  | _ => []

section

variable {cfg : PoolConfig} {s : Shared} {peer : String}

@[simp] theorem buffered_withDeque (pool : KeyPool) (pull : Pull) (p : String)
    (dq : List (Key × Time)) : (Shared.mk (pool.withDeque p dq) pull).buffered peer =
      if p = peer then dq.map (·.1) else (Shared.mk pool pull).buffered peer := by
  simp only [Shared.buffered, withDeque_deques, eq_comm]
  split <;> rfl

/-! ## One section -/

/-- **A section serves the deque first in, first out.** -/
theorem step_conserves (s : Shared) (a : Section) :
    s.buffered peer ++ enters peer (moment (Shared.step cfg) s a) =
      leaves cfg peer (moment (Shared.step cfg) s a) ++ (s.step cfg a).1.buffered peer := by
  cases a with
  | pull answer now =>
    simp only [Shared.step, enters, leaves, moment, List.nil_append]
    -- no round, its end, a peer's turn, the source's answer, and the append
    rcases hp : s.pull with _ | (_ | ⟨p, rest⟩) | ⟨p, n, rest⟩ | ⟨p, keys, receivedAt, rest⟩
    · simp [KeyPool.pull, Shared.buffered]
    · simp [KeyPool.pull, Shared.buffered]
    · simp [KeyPool.pull, Shared.buffered]
    · cases answer <;> simp [KeyPool.pull, Shared.buffered]
    · simp only [KeyPool.pull, buffered_withDeque]
      split
      · rename_i heq
        simp [Shared.buffered, heq, Function.comp_def]
      · simp [Shared.buffered]
  | expire p now =>
    simp only [Shared.step, enters, leaves, moment, KeyPool.expirePeer, buffered_withDeque,
      List.append_nil]
    split
    · rename_i heq
      rw [← List.map_append, List.takeWhile_append_dropWhile, heq]
      rfl
    · rfl
  | allocate store p =>
    simp only [Shared.step, enters, leaves, moment, KeyPool.allocate, List.append_nil]
    by_cases hp : p ∈ cfg.peers
    · rcases hdq : s.pool.deques p with _ | ⟨⟨key, at'⟩, rest⟩
      · simp [hp, Shared.buffered]
      · simp only [hp, if_true, and_true, buffered_withDeque]
        split
        · rename_i heq
          simp [Shared.buffered, ← heq, hdq]
        · rfl
    · simp [hp, Shared.buffered]

/-- What the source returned is in the hand of the thread until it is
appended. -/
theorem step_hands (s : Shared) (a : Section) :
    s.inHand peer ++ returned peer (moment (Shared.step cfg) s a) =
      enters peer (moment (Shared.step cfg) s a) ++ (s.step cfg a).1.inHand peer := by
  cases a with
  | pull answer now =>
    simp only [Shared.step, enters, returned, moment, Shared.inHand]
    rcases hp : s.pull with _ | (_ | ⟨p, rest⟩) | ⟨p, n, rest⟩ | ⟨p, keys, receivedAt, rest⟩
    · cases answer <;> rfl
    · cases answer <;> rfl
    · by_cases hn : min (cfg.target - s.pool.size p) maxPerRequest ≤ 0 <;>
        cases answer <;> simp [KeyPool.pull, hn]
    · cases answer <;> simp [KeyPool.pull]
    · cases answer <;> simp [KeyPool.pull]
  | expire p now => simp [Shared.step, enters, returned, moment, Shared.inHand]
  | allocate store p => simp [Shared.step, enters, returned, moment, Shared.inHand]

/-! ## The target -/

/-- `enc_keys` returns at most the number of keys asked for. -/
def Section.Bounded (pre : Shared) (a : Section) : Prop :=
  ∀ keys now peer n rest, a = .pull (.keys keys) now → pre.pull = .asking peer n rest →
    (keys.length : Int) ≤ n

/-- What is buffered, asked for or in hand has room in the buffer. -/
structure Room (cfg : PoolConfig) (s : Shared) : Prop where
  size : ∀ peer, (s.pool.size peer : Int) ≤ max cfg.target 0
  asked : ∀ peer n rest, s.pull = .asking peer n rest → s.pool.size peer + n ≤ cfg.target
  given : ∀ peer keys receivedAt rest, s.pull = .received peer keys receivedAt rest →
    (s.pool.size peer + keys.length : Int) ≤ cfg.target

theorem room_start : Room cfg .start where
  size := fun peer => Int.le_max_right _ _
  asked := by
    rintro _ _ _ ⟨⟩
  given := by
    rintro _ _ _ _ ⟨⟩

theorem size_withDeque (pool : KeyPool) (p : String) (dq : List (Key × Time)) :
    (pool.withDeque p dq).size peer = if peer = p then dq.length else pool.size peer := by
  simp only [KeyPool.size, withDeque_deques]
  split <;> rfl

/-- The other threads only take keys. -/
theorem Room.shrink (h : Room cfg s) {pool : KeyPool}
    (hle : ∀ peer, pool.size peer ≤ s.pool.size peer) : Room cfg { s with pool } where
  size := fun peer => by
    have := h.size peer
    have := hle peer
    show (pool.size peer : Int) ≤ _
    omega
  asked := fun peer n rest hp => by
    have := h.asked peer n rest hp
    have := hle peer
    show (pool.size peer : Int) + n ≤ _
    omega
  given := fun peer keys receivedAt rest hp => by
    have := h.given peer keys receivedAt rest hp
    have := hle peer
    show (pool.size peer + keys.length : Int) ≤ _
    omega

theorem expirePeer_size (now : Time) (p : String) (peer : String) :
    (s.pool.expirePeer cfg now p).1.size peer ≤ s.pool.size peer := by
  simp only [KeyPool.expirePeer, size_withDeque]
  split
  · rename_i heq
    subst heq
    exact (List.dropWhile_suffix _).length_le
  · exact Nat.le_refl _

theorem allocate_size (store : Store) (p : String) (peer : String) :
    (s.pool.allocate cfg store p).2.size peer ≤ s.pool.size peer := by
  unfold KeyPool.allocate
  split
  · split
    · exact Nat.le_refl _
    · rename_i hdq
      simp only [size_withDeque]
      split
      · rename_i heq
        subst heq
        simp [KeyPool.size, hdq]
      · exact Nat.le_refl _
  · exact Nat.le_refl _

/-- **No section fills the buffer past its target.** -/
theorem room_step (h : Room cfg s) {a : Section} (ha : a.Bounded s) :
    Room cfg (s.step cfg a).1 := by
  cases a with
  | expire p now => exact h.shrink (expirePeer_size now p)
  | allocate store p => exact h.shrink (allocate_size store p)
  | pull answer now =>
    simp only [Shared.step]
    -- nothing but the append fills a buffer, and the request for it left the room
    rcases hp : s.pull with _ | (_ | ⟨p, rest⟩) | ⟨p, n, rest⟩ | ⟨p, keys, receivedAt, rest⟩
    · exact ⟨h.size, by rintro _ _ _ ⟨⟩, by rintro _ _ _ _ ⟨⟩⟩
    · exact ⟨h.size, by rintro _ _ _ ⟨⟩, by rintro _ _ _ _ ⟨⟩⟩
    · simp only [KeyPool.pull]
      by_cases hn : min (cfg.target - s.pool.size p) maxPerRequest ≤ 0
      · rw [if_pos hn]
        exact ⟨h.size, by rintro _ _ _ ⟨⟩, by rintro _ _ _ _ ⟨⟩⟩
      · rw [if_neg hn]
        refine ⟨h.size, ?_, by rintro _ _ _ _ ⟨⟩⟩
        rintro _ _ _ ⟨⟩
        show (s.pool.size p : Int) + min (cfg.target - s.pool.size p) maxPerRequest ≤ cfg.target
        omega
    · cases answer with
      | keys keys =>
        refine ⟨h.size, by rintro _ _ _ ⟨⟩, ?_⟩
        rintro _ _ _ _ ⟨⟩
        have hroom := h.asked p n rest hp
        have hlen := ha keys now p n rest rfl hp
        show (s.pool.size p + keys.length : Int) ≤ cfg.target
        omega
      | unavailable | failed => exact ⟨h.size, by rintro _ _ _ ⟨⟩, by rintro _ _ _ _ ⟨⟩⟩
    · refine ⟨fun peer => ?_, by rintro _ _ _ ⟨⟩, by rintro _ _ _ _ ⟨⟩⟩
      have hroom := h.given p keys receivedAt rest hp
      simp only [KeyPool.pull, size_withDeque]
      split
      · rw [List.length_append, List.length_map]
        simp only [KeyPool.size] at hroom
        omega
      · exact h.size peer

end

/-- The schedule asks the source for no more than it returns. -/
def Scheduled (cfg : PoolConfig) (acts : List Section) : Prop :=
  ∀ m ∈ trace (Shared.step cfg) .start acts, m.act.Bounded m.pre

/-- **The pool conserves keys**, whatever the schedule: what left a
deque and what is in it are, in order, what entered it, and what entered
and what the pulling thread holds are what the source returned. No
deque ever holds more than the target, or than nothing if the target is
negative. -/
theorem pool_conserves (cfg : PoolConfig) (acts : List Section) (peer : String) :
    let t := trace (Shared.step cfg) .start acts
    let s := exec (Shared.step cfg) .start acts
    t.flatMap (leaves cfg peer) ++ s.buffered peer = t.flatMap (enters peer) ∧
      t.flatMap (enters peer) ++ s.inHand peer = t.flatMap (returned peer) ∧
      (Scheduled cfg acts → (s.pool.size peer : Int) ≤ max cfg.target 0) := by
  refine ⟨?_, ?_, fun hacts => ?_⟩
  · exact (trace_conserves (Shared.buffered · peer) _ _ step_conserves Shared.start acts).symm
  · exact (trace_conserves (Shared.inHand · peer) _ _ step_hands Shared.start acts).symm
  · refine (trace_invariant (fun _ s => Room cfg s) _ room_start ?_ hacts).size peer
    intro past s a h ha
    exact room_step h ha

/-- **A negative target is exceeded by an empty deque.** -/
theorem pool_exceeds_negative_target :
    ¬ ∀ (cfg : PoolConfig) (acts : List Section) (peer : String), Scheduled cfg acts →
      let t := trace (Shared.step cfg) .start acts
      let s := exec (Shared.step cfg) .start acts
      t.flatMap (leaves cfg peer) ++ s.buffered peer = t.flatMap (enters peer) ∧
        (s.pool.size peer : Int) ≤ cfg.target := by
  intro h
  have hempty := (h { peers := ["QKD2"], target := -1 } [] "QKD2" (by rintro _ ⟨⟩)).2
  exact absurd hempty (by decide)

end QkdEkm.Ekm
