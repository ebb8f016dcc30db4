import Mathlib.Algebra.GroupWithZero.Nat
import QkdEkm.Ekm.Pool
import QkdEkm.Lib.Dict
import QkdEkm.Lib.Machine

/-!
# Expiry — what `expire_once` leaves behind

A call of `expire_once` reads the clock and takes the lock once for each
peer, and looks no further than the first fresh entry. That is enough
because each deque is sorted by receipt time: one thread pulls, it reads
the clock after everything it appended before, and nobody else appends.
Other calls and allocations come in between any two sections.
-/

namespace QkdEkm.Ekm

open QkdEkm.Common QkdEkm.Lib

/-! ## `expire_once` -/

/-- Where a call of `expire_once` stands: before the turn of the next
peer, or between its reading of the clock and the lock. -/
inductive Sweep
  | next (peers : List String) (expired : Nat)
  | locking (peer : String) (cutoff : Time) (rest : List String) (expired : Nat)

/-- The next section of a call, and what it returns at its end. -/
def KeyPool.sweep (cfg : PoolConfig) (pool : KeyPool) (now : Time) :
    Sweep → KeyPool × (Sweep ⊕ Nat)
  | .next [] expired => (pool, .inr expired)
  | .next (peer :: rest) expired => (pool, .inl (.locking peer (now - cfg.ttl) rest expired))
  | .locking peer cutoff rest expired =>
    let dq := pool.deques peer
    let kept := dq.dropWhile fun entry => entry.2 < cutoff
    (pool.withDeque peer kept, .inl (.next rest (expired + (dq.length - kept.length))))

/-- With nothing between its reading of the clock and the lock, a turn is
`expirePeer`. -/
theorem sweep_eq_expirePeer (cfg : PoolConfig) (pool : KeyPool) (now t : Time) (peer : String)
    (rest : List String) (expired : Nat) :
    pool.sweep cfg t (.locking peer (now - cfg.ttl) rest expired) =
      ((pool.expirePeer cfg now peer).1,
        .inl (.next rest (expired + (pool.expirePeer cfg now peer).2))) := rfl

/-- What the threads share, and where each of them stands. -/
structure Buffers where
  pool : KeyPool := {}
  pull : Pull := .idle
  sweeps : Dict Nat Sweep := ∅
  nextId : Nat := 0
  clock : Time

/-- The next section of the pulling thread, a new call of `expire_once`,
the next section of a running one, or a call of `allocate`. -/
inductive PoolAct
  | pull (answer : EncKeys)
  | expireOnce
  | sweep (id : Nat)
  | allocate (store : Store) (peer : String)

/-- A section at a reading of the clock. The output is what a call of
`expire_once` returns, with its name. -/
def Buffers.step (cfg : PoolConfig) (b : Buffers) (a : Time × PoolAct) :
    Buffers × Option (Nat × Nat) :=
  let b := { b with clock := a.1 }
  match a.2 with
  | .pull answer =>
    let (pool, pull) := b.pool.pull cfg answer a.1 b.pull
    ({ b with pool, pull }, none)
  | .expireOnce =>
    ({ b with
       sweeps := b.sweeps.insert b.nextId (.next cfg.peers.eraseDups 0)
       nextId := b.nextId + 1 }, none)
  | .sweep id =>
    match b.sweeps.lookup id with
    | none => (b, none)
    | some sweep =>
      match b.pool.sweep cfg a.1 sweep with
      | (pool, .inl sweep) => ({ b with pool, sweeps := b.sweeps.insert id sweep }, none)
      | (pool, .inr expired) => ({ b with pool, sweeps := b.sweeps.erase id }, some (id, expired))
  | .allocate store peer => ({ b with pool := (b.pool.allocate cfg store peer).2 }, none)

/-- The clock does not go back. -/
def Forward (m : Moment Buffers (Time × PoolAct) (Option (Nat × Nat))) : Prop :=
  m.pre.clock ≤ m.act.1

instance : DecidablePred Forward := fun m => inferInstanceAs (Decidable (m.pre.clock ≤ m.act.1))

/-- The peer whose deque the call `id` goes through in a section. -/
def swept (id : Nat) (m : Moment Buffers (Time × PoolAct) (Option (Nat × Nat))) : Option String :=
  match m.act.2 with
  | .sweep id' =>
    if id' = id then
      match m.pre.sweeps.lookup id with
      | some (.locking peer _ _ _) => some peer
      | _ => none
    else none
  | _ => none

/-- The number of entries that the call `id` removes in a section. -/
def removed (id : Nat) (m : Moment Buffers (Time × PoolAct) (Option (Nat × Nat))) : Nat :=
  match swept id m with
  | some peer => (m.pre.pool.deques peer).length - (m.post.pool.deques peer).length
  | none => 0

/-! ## The order of a deque -/

/-- Every deque is sorted by receipt time; nothing in it is newer than
the clock, nor than what the pulling thread has in hand. -/
structure Ordered (b : Buffers) : Prop where
  sorted : ∀ peer, (b.pool.deques peer).Pairwise fun e e' => e.2 ≤ e'.2
  past : ∀ peer e, e ∈ b.pool.deques peer → e.2 ≤ b.clock
  hand : ∀ peer keys receivedAt rest, b.pull = .received peer keys receivedAt rest →
    receivedAt ≤ b.clock ∧ ∀ p e, e ∈ b.pool.deques p → e.2 ≤ receivedAt

section

variable {cfg : PoolConfig} {b : Buffers}

/-- In a sorted list the stale entries stand in front. -/
theorem dropWhile_eq_filter {α : Type} {l : List (α × Time)} {cutoff : Time}
    (h : l.Pairwise fun e e' => e.2 ≤ e'.2) :
    l.dropWhile (fun e => e.2 < cutoff) = l.filter fun e => cutoff ≤ e.2 := by
  induction l with
  | nil => rfl
  | cons e l ih =>
    obtain ⟨hle, hl⟩ := List.pairwise_cons.mp h
    by_cases he : e.2 < cutoff
    · have hnot : ¬ cutoff ≤ e.2 := Int.not_le.mpr he
      simp only [List.dropWhile_cons, List.filter_cons, decide_eq_true_eq, he, hnot, if_true,
        if_false]
      exact ih hl
    · -- `e` is fresh, and so is everything behind it
      have hfresh : ∀ e' ∈ e :: l, cutoff ≤ e'.2 := by
        intro e' he'
        rcases List.mem_cons.mp he' with rfl | he'
        · exact Int.not_lt.mp he
        · exact Int.le_trans (Int.not_lt.mp he) (hle e' he')
      rw [List.filter_eq_self.mpr fun e' he' => decide_eq_true (hfresh e' he')]
      simp [he]

/-- Threads that take entries from the front keep the order. -/
theorem Ordered.shrink (h : Ordered b) {pool : KeyPool} {sweeps : Dict Nat Sweep} {nextId : Nat}
    {now : Time} (hnow : b.clock ≤ now)
    (hsuffix : ∀ peer, pool.deques peer <:+ b.pool.deques peer) :
    Ordered { b with pool, sweeps, nextId, clock := now } where
  sorted := fun peer => (h.sorted peer).sublist (hsuffix peer).sublist
  past := fun peer e he => Int.le_trans (h.past peer e ((hsuffix peer).subset he)) hnow
  hand := by
    intro peer keys receivedAt rest hr
    obtain ⟨hle, hall⟩ := h.hand peer keys receivedAt rest hr
    exact ⟨Int.le_trans hle hnow, fun p e he => hall p e ((hsuffix p).subset he)⟩

variable (cfg) in
theorem sweep_suffix (pool : KeyPool) (now : Time) (sweep : Sweep) (p : String) :
    (pool.sweep cfg now sweep).1.deques p <:+ pool.deques p := by
  rcases sweep with ⟨_ | ⟨peer, rest⟩, expired⟩ | ⟨peer, cutoff, rest, expired⟩
  · exact List.suffix_refl _
  · exact List.suffix_refl _
  · exact withDeque_suffix (List.dropWhile_suffix _) p

/-- **The pulling thread keeps the order**: what it appends was received
after everything in the deques. -/
theorem ordered_pull (h : Ordered b) {now : Time} (hnow : b.clock ≤ now) (answer : EncKeys) :
    Ordered (b.step cfg (now, .pull answer)).1 := by
  have hkeep : ∀ source {pull}, (∀ peer keys receivedAt rest,
      pull = .received peer keys receivedAt rest → receivedAt = now) →
      Ordered { b with pool := { b.pool with sourceAvailable := source }, pull, clock := now } := by
    intro source pull hpull
    refine ⟨h.sorted, fun peer e he => Int.le_trans (h.past peer e he) hnow, ?_⟩
    intro peer keys receivedAt rest hr
    rw [hpull peer keys receivedAt rest hr]
    exact ⟨Int.le_refl _, fun p e he => Int.le_trans (h.past p e he) hnow⟩
  simp only [Buffers.step]
  -- no round, its end, a peer's turn, the source's answer, and the append
  rcases hp : b.pull with _ | (_ | ⟨p, rest⟩) | ⟨p, n, rest⟩ | ⟨p, keys, receivedAt, rest⟩
  · exact hkeep _ (by rintro _ _ _ _ ⟨⟩)
  · exact hkeep _ (by rintro _ _ _ _ ⟨⟩)
  · refine hkeep b.pool.sourceAvailable ?_
    intro peer keys receivedAt rest' hr
    simp only [KeyPool.pull] at hr
    split at hr <;> cases hr
  · cases answer with
    | keys keys => exact hkeep _ (by rintro _ _ _ _ ⟨⟩; rfl)
    | unavailable | failed => exact hkeep _ (by rintro _ _ _ _ ⟨⟩)
  · obtain ⟨hle, hall⟩ := h.hand p keys receivedAt rest hp
    have hnew : ∀ e ∈ keys.map (·, receivedAt), e.2 = receivedAt := by
      intro e he
      obtain ⟨key, _, rfl⟩ := List.mem_map.mp he
      rfl
    refine ⟨fun peer => ?_, fun peer e he => ?_, by rintro _ _ _ _ ⟨⟩⟩
    · simp only [KeyPool.pull, withDeque_deques]
      split
      · refine List.pairwise_append.mpr ⟨h.sorted p, ?_, ?_⟩
        · refine List.pairwise_of_forall_mem_list fun e he e' he' => ?_
          exact Int.le_of_eq ((hnew e he).trans (hnew e' he').symm)
        · intro e he e' he'
          rw [hnew e' he']
          exact hall p e he
      · exact h.sorted peer
    · simp only [KeyPool.pull, withDeque_deques] at he
      split at he
      · rcases List.mem_append.mp he with he | he
        · exact Int.le_trans (h.past p e he) hnow
        · rw [hnew e he]
          exact Int.le_trans hle hnow
      · exact Int.le_trans (h.past peer e he) hnow

/-- **Every section keeps the deques sorted.** -/
theorem ordered_step (h : Ordered b) {a : Time × PoolAct}
    (ha : Forward (moment (Buffers.step cfg) b a)) : Ordered (b.step cfg a).1 := by
  obtain ⟨now, act⟩ := a
  cases act with
  | pull answer => exact ordered_pull h ha answer
  | expireOnce => exact h.shrink ha fun peer => List.suffix_refl _
  | sweep id =>
    simp only [Buffers.step]
    split
    · exact h.shrink ha fun peer => List.suffix_refl _
    · rename_i sweep _
      have hsuffix := sweep_suffix cfg b.pool now sweep
      split <;> (rename_i heq; rw [heq] at hsuffix; exact h.shrink ha hsuffix)
  | allocate store peer => exact h.shrink ha (allocate_suffix cfg b.pool store peer)

/-! ## What a call returns -/

def Sweep.expired : Sweep → Nat
  | .next _ expired => expired
  | .locking _ _ _ expired => expired

/-- The peers that a call has yet to go through. -/
def Sweep.todo : Sweep → List String
  | .next peers _ => peers
  | .locking peer _ rest _ => peer :: rest

variable {past : List (Moment Buffers (Time × PoolAct) (Option (Nat × Nat)))}
  {m : Moment Buffers (Time × PoolAct) (Option (Nat × Nat))} {id : Nat}

/-- A running call has counted what it removed, and the peers it went
through and those to come are all peers. -/
structure Tallied (cfg : PoolConfig)
    (past : List (Moment Buffers (Time × PoolAct) (Option (Nat × Nat)))) (b : Buffers) : Prop where
  named : ∀ id sweep, b.sweeps.lookup id = some sweep → id < b.nextId
  unborn : ∀ id, b.nextId ≤ id → ∀ m ∈ past, swept id m = none
  tally : ∀ id sweep, b.sweeps.lookup id = some sweep →
    sweep.expired = (past.map (removed id)).sum ∧
      past.filterMap (swept id) ++ sweep.todo = cfg.peers.eraseDups

theorem removed_eq_zero (h : swept id m = none) : removed id m = 0 := by
  unfold removed
  rw [h]

theorem removed_of_swept {peer : String} (h : swept id m = some peer) :
    removed id m = (m.pre.pool.deques peer).length - (m.post.pool.deques peer).length := by
  unfold removed
  rw [h]

/-- A section in which the call is not at a lock adds nothing to it. -/
theorem tally_quiet (h : swept id m = none) :
    ((past ++ [m]).map (removed id)).sum = (past.map (removed id)).sum ∧
      (past ++ [m]).filterMap (swept id) = past.filterMap (swept id) := by
  simp [h, removed_eq_zero h]

theorem Tallied.unborn_tally (h : Tallied cfg past b) (hid : b.nextId ≤ id) :
    (past.map (removed id)).sum = 0 ∧ past.filterMap (swept id) = [] := by
  have hnone := h.unborn id hid
  constructor
  · have hzero : past.map (removed id) = past.map fun _ => 0 :=
      List.map_congr_left fun m hm => removed_eq_zero (hnone m hm)
    simp [hzero]
  · exact List.filterMap_eq_nil_iff.mpr hnone

/-- A section that leaves the calls alone keeps the tally. -/
theorem Tallied.keep (h : Tallied cfg past b) (hm : ∀ id, swept id m = none) {b' : Buffers}
    (hsweeps : b'.sweeps = b.sweeps) (hnext : b'.nextId = b.nextId) :
    Tallied cfg (past ++ [m]) b' where
  named := hsweeps ▸ hnext ▸ h.named
  unborn := by
    intro id hid m' hm'
    rcases List.mem_append.mp hm' with hm' | hm'
    · exact h.unborn id (hnext ▸ hid) m' hm'
    · rw [List.mem_singleton.mp hm']
      exact hm id
  tally := by
    intro id sweep hs
    rw [(tally_quiet (hm id)).1, (tally_quiet (hm id)).2]
    exact h.tally id sweep (hsweeps ▸ hs)

theorem swept_of_ne {id' : Nat} (hact : m.act.2 = .sweep id') (hne : id' ≠ id) :
    swept id m = none := by
  simp [swept, hact, hne]

/-- The next section of the call `id` keeps the tally, if it keeps its own. -/
theorem Tallied.advance (h : Tallied cfg past b) (hact : m.act.2 = .sweep id) {sweep : Sweep}
    (hl : b.sweeps.lookup id = some sweep) {b' : Buffers} {x : Option Sweep}
    (hlookup : ∀ id', b'.sweeps.lookup id' = if id' = id then x else b.sweeps.lookup id')
    (hnext : b'.nextId = b.nextId)
    (hown : ∀ sweep', x = some sweep' →
      sweep'.expired = sweep.expired + removed id m ∧
        (swept id m).toList ++ sweep'.todo = sweep.todo) :
    Tallied cfg (past ++ [m]) b' where
  named := by
    intro id' sweep' hs
    rw [hlookup] at hs
    rw [hnext]
    split at hs
    · rename_i heq
      exact heq ▸ h.named id sweep hl
    · exact h.named id' sweep' hs
  unborn := by
    intro id' hid m' hm'
    rw [hnext] at hid
    rcases List.mem_append.mp hm' with hm' | hm'
    · exact h.unborn id' hid m' hm'
    · rw [List.mem_singleton.mp hm']
      refine swept_of_ne hact ?_
      rintro rfl
      exact absurd (h.named id sweep hl) (Nat.not_lt.mpr hid)
  tally := by
    intro id' sweep' hs
    rw [hlookup] at hs
    split at hs
    · rename_i heq
      subst heq
      obtain ⟨hexp, htodo⟩ := h.tally id' sweep hl
      obtain ⟨hexp', htodo'⟩ := hown sweep' hs
      refine ⟨by simp [hexp', hexp], ?_⟩
      rw [← htodo, ← htodo', List.filterMap_append, List.append_assoc]
      cases hsw : swept id' m <;> simp [hsw]
    · rename_i hne
      have hquiet : swept id' m = none := swept_of_ne hact (Ne.symm hne)
      rw [(tally_quiet hquiet).1, (tally_quiet hquiet).2]
      exact h.tally id' sweep' hs

variable (cfg b id) in
theorem swept_sweep (now : Time) : swept id (moment (Buffers.step cfg) b (now, .sweep id)) =
    match b.sweeps.lookup id with
    | some (.locking peer _ _ _) => some peer
    | _ => none := by
  simp [swept, moment]

/-- A new call has removed nothing and has all peers to come. -/
theorem tallied_expireOnce (h : Tallied cfg past b) (now : Time) :
    Tallied cfg (past ++ [moment (Buffers.step cfg) b (now, .expireOnce)])
      (b.step cfg (now, .expireOnce)).1 := by
  have hquiet : ∀ id, swept id (moment (Buffers.step cfg) b (now, .expireOnce)) = none :=
    fun _ => rfl
  have hlookup : ∀ id, ((b.step cfg (now, .expireOnce)).1.sweeps.lookup id) =
      if id = b.nextId then some (.next cfg.peers.eraseDups 0) else b.sweeps.lookup id :=
    fun id => Dict.lookup_insert _ _ _ _
  have hnext : (b.step cfg (now, .expireOnce)).1.nextId = b.nextId + 1 := rfl
  refine ⟨?_, ?_, ?_⟩
  · intro id sweep hs
    rw [hlookup] at hs
    rw [hnext]
    split at hs
    · rename_i heq
      exact heq ▸ Nat.lt_succ_self _
    · exact Nat.lt_succ_of_lt (h.named id sweep hs)
  · intro id hid m hm
    rcases List.mem_append.mp hm with hm | hm
    · exact h.unborn id (Nat.le_of_succ_le hid) m hm
    · rw [List.mem_singleton.mp hm]
      exact hquiet id
  · intro id sweep hs
    rw [(tally_quiet (hquiet id)).1, (tally_quiet (hquiet id)).2]
    rw [hlookup] at hs
    split at hs
    · rename_i heq
      cases hs
      obtain ⟨hsum, hnil⟩ := h.unborn_tally (Nat.le_of_eq heq.symm)
      exact ⟨hsum.symm, by rw [hnil]; rfl⟩
    · exact h.tally id sweep hs

/-- The next section of a call that runs: it returns, it comes to a lock,
or it goes through a deque and counts. -/
theorem tallied_sweep (h : Tallied cfg past b) {sweep : Sweep}
    (hl : b.sweeps.lookup id = some sweep) (now : Time) :
    Tallied cfg (past ++ [moment (Buffers.step cfg) b (now, .sweep id)])
      (b.step cfg (now, .sweep id)).1 := by
  have hswept := swept_sweep cfg b id now
  rw [hl] at hswept
  rcases sweep with ⟨_ | ⟨peer, rest⟩, expired⟩ | ⟨peer, cutoff, rest, expired⟩
  all_goals dsimp only at hswept
  · refine h.advance rfl hl (x := none) (fun id' => ?_) ?_ (by rintro _ ⟨⟩)
    · simp [Buffers.step, hl, KeyPool.sweep]
    · simp [Buffers.step, hl, KeyPool.sweep]
  · refine h.advance rfl hl (x := some (.locking peer (now - cfg.ttl) rest expired))
      (fun id' => ?_) ?_ ?_
    · simp [Buffers.step, hl, KeyPool.sweep]
    · simp [Buffers.step, hl, KeyPool.sweep]
    · rintro _ ⟨⟩
      rw [removed_eq_zero hswept, hswept]
      exact ⟨rfl, rfl⟩
  · refine h.advance rfl hl (x := some (.next rest (expired +
      ((b.pool.deques peer).length -
        ((b.pool.deques peer).dropWhile fun entry => entry.2 < cutoff).length))))
      (fun id' => ?_) ?_ ?_
    · simp [Buffers.step, hl, KeyPool.sweep]
    · simp [Buffers.step, hl, KeyPool.sweep]
    · rintro _ ⟨⟩
      refine ⟨?_, by rw [hswept]; rfl⟩
      rw [removed_of_swept hswept]
      simp [moment, Buffers.step, hl, KeyPool.sweep, KeyPool.withDeque, Sweep.expired]

/-- **Every section keeps the tally.** -/
theorem tallied_step (h : Tallied cfg past b) (a : Time × PoolAct) :
    Tallied cfg (past ++ [moment (Buffers.step cfg) b a]) (b.step cfg a).1 := by
  obtain ⟨now, act⟩ := a
  cases act with
  | pull answer => exact h.keep (fun _ => rfl) rfl rfl
  | allocate store peer => exact h.keep (fun _ => rfl) rfl rfl
  | expireOnce => exact tallied_expireOnce h now
  | sweep id =>
    cases hl : b.sweeps.lookup id with
    | none =>
      have hb : (b.step cfg (now, .sweep id)).1 = { b with clock := now } := by
        simp only [Buffers.step, hl]
      rw [hb]
      refine h.keep (fun id' => ?_) rfl rfl
      by_cases hid : id = id'
      · rw [← hid, swept_sweep, hl]
      · exact swept_of_ne rfl hid
    | some sweep => exact tallied_sweep h hl now

/-! ## Any run -/

/-- A pool of which nothing was ever asked. -/
def Buffers.start (now : Time) : Buffers := { clock := now }

theorem ordered_start (now : Time) : Ordered (.start now) where
  sorted := fun peer => .nil
  past := by
    rintro peer e ⟨⟩
  hand := by
    rintro _ _ _ _ ⟨⟩

theorem tallied_start (now : Time) : Tallied cfg [] (.start now) where
  named := by
    rintro id sweep ⟨⟩
  unborn := by
    rintro id _ m ⟨⟩
  tally := by
    rintro id sweep ⟨⟩

theorem expiry_run {now : Time} {acts : List (Time × PoolAct)}
    (hclock : ∀ m ∈ trace (Buffers.step cfg) (.start now) acts, Forward m) :
    Ordered (exec (Buffers.step cfg) (.start now) acts) ∧
      Tallied cfg (trace (Buffers.step cfg) (.start now) acts)
        (exec (Buffers.step cfg) (.start now) acts) := by
  refine trace_invariant (fun past b => Ordered b ∧ Tallied cfg past b) Forward
    ⟨ordered_start now, tallied_start now⟩ ?_ hclock
  rintro past b a ⟨ho, ht⟩ ha
  exact ⟨ordered_step ho ha, tallied_step ht a⟩

/-- Under the lock a call removes the stale entries of its peer. -/
theorem sweep_locking (h : Ordered b) {peer : String} {cutoff : Time} {rest : List String}
    {expired : Nat} (hl : b.sweeps.lookup id = some (.locking peer cutoff rest expired))
    (now : Time) (p : String) : (b.step cfg (now, .sweep id)).1.pool.deques p =
      if p = peer then (b.pool.deques peer).filter (fun e => cutoff ≤ e.2)
      else b.pool.deques p := by
  simp only [Buffers.step, hl, KeyPool.sweep, withDeque_deques,
    dropWhile_eq_filter (h.sorted peer)]

theorem sweep_returns {now : Time} {n : Nat}
    (h : (b.step cfg (now, .sweep id)).2 = some (id, n)) :
    b.sweeps.lookup id = some (.next [] n) := by
  simp only [Buffers.step] at h
  split at h
  · cases h
  · rename_i sweep hl
    rcases sweep with ⟨_ | ⟨peer, rest⟩, expired⟩ | ⟨peer, cutoff, rest, expired⟩
    · cases h
      exact hl
    · cases h
    · cases h

end

/-- **Expiry is exact.** In every run of one pulling thread and any
number of calls of `expire_once` and `allocate`, over a clock that does
not go back: each deque is sorted by receipt time; a call leaves in a
deque the entries that are not older than its cutoff for that peer, in
order, and touches no other deque; and it returns the number of entries
that it removed, after one turn of every peer. -/
theorem expiry_exact (cfg : PoolConfig) (now : Time) {acts : List (Time × PoolAct)}
    (hclock : ∀ m ∈ trace (Buffers.step cfg) (.start now) acts, Forward m) :
    let b := exec (Buffers.step cfg) (.start now) acts
    let past := trace (Buffers.step cfg) (.start now) acts
    (∀ peer, (b.pool.deques peer).Pairwise fun e e' => e.2 ≤ e'.2) ∧
    (∀ id peer cutoff rest expired t,
      b.sweeps.lookup id = some (.locking peer cutoff rest expired) →
      ∀ p, (b.step cfg (t, .sweep id)).1.pool.deques p =
        if p = peer then (b.pool.deques peer).filter (fun e => cutoff ≤ e.2)
        else b.pool.deques p) ∧
    ∀ id t n, (b.step cfg (t, .sweep id)).2 = some (id, n) →
      n = (past.map (removed id)).sum ∧ past.filterMap (swept id) = cfg.peers.eraseDups := by
  intro b past
  obtain ⟨ho, ht⟩ := expiry_run hclock
  refine ⟨ho.sorted, ?_, ?_⟩
  · intro id peer cutoff rest expired t hl p
    exact sweep_locking ho hl t p
  · intro id t n hreturn
    obtain ⟨hexp, htodo⟩ := ht.tally id _ (sweep_returns hreturn)
    exact ⟨hexp, by simpa [Sweep.todo] using htodo⟩

/-- Two keys are received at 0 and one at 700; a call reads the clock at
700, and an allocation comes before its lock. -/
def twoBatches : List (Time × PoolAct) :=
  let pulls (t : Time) (keys : List Key) : List (Time × PoolAct) :=
    List.replicate 5 (t, .pull (.keys keys))
  pulls 0 [⟨"k1", []⟩, ⟨"k2", []⟩] ++ pulls 700 [⟨"k3", []⟩] ++
    [(700, .expireOnce), (700, .sweep 0), (701, .allocate .empty "QKD2"), (702, .sweep 0)]

/-- The call finds one stale key left, removes it and says so. -/
theorem expiry_exact_two_batches :
    let b := exec (Buffers.step { peers := ["QKD2"] }) (.start 0) twoBatches
    b.pool.deques "QKD2" = [(⟨"k3", []⟩, 700)] ∧
      (b.step { peers := ["QKD2"] } (702, .sweep 0)).2 = some (0, 1) ∧
      1 = ((trace (Buffers.step { peers := ["QKD2"] }) (.start 0) twoBatches).map
        (removed 0)).sum := by
  have hclock : ∀ m ∈ trace (Buffers.step { peers := ["QKD2"] }) (.start 0) twoBatches,
      Forward m := by decide
  exact ⟨rfl, rfl, ((expiry_exact { peers := ["QKD2"] } 0 hclock).2.2 0 702 1 rfl).1⟩

end QkdEkm.Ekm
