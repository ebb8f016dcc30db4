import QkdEkm.Vpn.App

/-!
# Slots — the key of one peer

For each public key the server holds an installed key and perhaps one
that waits to be activated. `Slot` is that much of the server, and
`step_slots` says what a step does to it: it installs a key at once,
announces one for later, activates the one that was announced, or does
nothing to any slot. That a slot has at most one pending key is the
invariant `Wf`: a live task is the registered one of its peer.
-/

namespace QkdEkm.Vpn

open QkdEkm.Common QkdEkm.Lib

/-! ## Tasks and where they are registered -/

/-- Every live task is the one registered for its peer; every peer that a
task or a suspended refresh is about has a record; and the names of
tasks and handlers to come are new. -/
structure Wf (s : Server) : Prop where
  tracked : ∀ t task, s.tasks.lookup t = some task →
    (s.registry task.work.kind).lookup task.work.pubkey = some t
  own : ∀ kind k t task, (s.registry kind).lookup k = some t → s.tasks.lookup t = some task →
    task.work.kind = kind ∧ task.work.pubkey = k
  registered : ∀ kind k t, (s.registry kind).lookup k = some t → t < s.nextId
  known : ∀ t task, s.tasks.lookup t = some task → task.work.pubkey ∈ s.peers
  called : ∀ c call, s.calls.lookup c = some call →
    c < s.nextId ∧ ∀ k q, call = .refresh k q → k ∈ s.peers

section

variable {s s' : Server}

theorem wf_boot (file : Option PeerTable) (wg : String → Option WgPeer) : Wf (boot file wg) where
  tracked := by
    rintro t task ⟨⟩
  own := by
    rintro (_ | _) k t task ⟨⟩
  registered := by
    rintro (_ | _) k t ⟨⟩
  known := by
    rintro t task ⟨⟩
  called := by
    rintro c call ⟨⟩

/-- Only the tasks, the registries and who has a record matter. -/
theorem Wf.congr (h : Wf s) (htasks : s'.tasks = s.tasks)
    (hreg : ∀ kind, s'.registry kind = s.registry kind) (hnext : s.nextId ≤ s'.nextId)
    (hpeers : ∀ k, k ∈ s.peers → k ∈ s'.peers)
    (hcalls : ∀ c call, s'.calls.lookup c = some call →
      c < s'.nextId ∧ ∀ k q, call = .refresh k q → k ∈ s'.peers) : Wf s' where
  tracked := by
    intro t task ht
    rw [hreg]
    exact h.tracked t task (htasks ▸ ht)
  own := by
    intro kind k t task hk ht
    rw [hreg] at hk
    exact h.own kind k t task hk (htasks ▸ ht)
  registered := by
    intro kind k t hk
    rw [hreg] at hk
    exact Nat.lt_of_lt_of_le (h.registered kind k t hk) hnext
  known := fun t task ht => hpeers _ (h.known t task (htasks ▸ ht))
  called := hcalls

theorem registry_cancel (t : Nat) (kind : Kind) : (s.cancel t).registry kind = s.registry kind := by
  cases kind <;> rfl

theorem Wf.cancel (h : Wf s) (t : Nat) : Wf (s.cancel t) := by
  have hold : ∀ {t' task}, (s.cancel t).tasks.lookup t' = some task →
      s.tasks.lookup t' = some task := by
    intro t' task ht'
    simp only [Server.cancel, Dict.lookup_erase] at ht'
    split at ht'
    · cases ht'
    · exact ht'
  refine ⟨?_, ?_, ?_, fun t' task ht' => h.known t' task (hold ht'), h.called⟩
  · intro t' task ht'
    rw [registry_cancel]
    exact h.tracked t' task (hold ht')
  · intro kind k t' task hk ht'
    rw [registry_cancel] at hk
    exact h.own kind k t' task hk (hold ht')
  · intro kind k t' hk
    rw [registry_cancel] at hk
    exact h.registered kind k t' hk

/-! ## Rescheduling -/

section

variable (delay : Time) (work : Work)

theorem cancelRegistered_lookup (kind : Kind) (k : String) (t : Nat) :
    (s.cancelRegistered kind k).tasks.lookup t =
      if (s.registry kind).lookup k = some t then none else s.tasks.lookup t := by
  unfold Server.cancelRegistered
  split
  · rename_i running hrunning
    simp only [Server.cancel, Dict.lookup_erase, hrunning, Option.some.injEq, eq_comm]
  · rename_i hnone
    simp [hnone]

/-- Cancelling touches the tasks alone. -/
theorem cancelRegistered_eq (s : Server) (kind : Kind) (k : String) :
    ∃ tasks, s.cancelRegistered kind k = { s with tasks } := by
  unfold Server.cancelRegistered
  split <;> exact ⟨_, rfl⟩

theorem reschedule_tasks (t : Nat) : (s.reschedule delay work).tasks.lookup t =
    if t = s.nextId then some ⟨delay, work⟩
    else if (s.registry work.kind).lookup work.pubkey = some t then none
    else s.tasks.lookup t := by
  obtain ⟨tasks, heq⟩ := cancelRegistered_eq s work.kind work.pubkey
  have htasks := cancelRegistered_lookup (s := s) work.kind work.pubkey t
  rw [← htasks, ← Dict.lookup_insert]
  unfold Server.reschedule Server.schedule Server.register
  rw [heq]
  cases work.kind <;> rfl

theorem reschedule_registry (kind : Kind) (k : String) :
    ((s.reschedule delay work).registry kind).lookup k =
      if kind = work.kind ∧ k = work.pubkey then some s.nextId
      else (s.registry kind).lookup k := by
  obtain ⟨tasks, heq⟩ := cancelRegistered_eq s work.kind work.pubkey
  unfold Server.reschedule Server.schedule Server.register
  rw [heq]
  cases work.kind <;> cases kind <;> simp [Server.registry]

/-- Rescheduling touches the tasks, one registry and the counter. -/
theorem reschedule_eq (s : Server) (delay : Time) (work : Work) : ∃ tasks timers activations,
    s.reschedule delay work = { s with tasks, timers, activations, nextId := s.nextId + 1 } := by
  obtain ⟨tasks, heq⟩ := cancelRegistered_eq s work.kind work.pubkey
  unfold Server.reschedule Server.schedule Server.register
  rw [heq]
  cases work.kind <;> exact ⟨_, _, _, rfl⟩

theorem Wf.reschedule (h : Wf s) (hk : work.pubkey ∈ s.peers) : Wf (s.reschedule delay work) := by
  obtain ⟨tasks, timers, activations, heq⟩ := reschedule_eq s delay work
  have hpeers : (s.reschedule delay work).peers = s.peers := by rw [heq]
  have hcalls : (s.reschedule delay work).calls = s.calls := by rw [heq]
  have hnext : (s.reschedule delay work).nextId = s.nextId + 1 := by rw [heq]
  have hold : ∀ {kind k t task}, (s.registry kind).lookup k = some t →
      (s.reschedule delay work).tasks.lookup t = some task →
      s.tasks.lookup t = some task ∧ (s.registry work.kind).lookup work.pubkey ≠ some t := by
    intro kind k t task hreg ht
    rw [reschedule_tasks, if_neg (Nat.ne_of_lt (h.registered kind k t hreg))] at ht
    split at ht
    · cases ht
    · rename_i hne
      exact ⟨ht, hne⟩
  refine ⟨?_, ?_, ?_, ?_, ?_⟩
  · intro t task ht
    rw [reschedule_registry]
    rw [reschedule_tasks] at ht
    split at ht
    · rename_i heq
      cases ht
      simp [heq]
    · split at ht
      · cases ht
      · rename_i hne
        have htracked := h.tracked t task ht
        rw [if_neg, htracked]
        rintro ⟨hkind, hpub⟩
        exact hne (hkind ▸ hpub ▸ htracked)
  · intro kind k t task hreg ht
    rw [reschedule_registry] at hreg
    split at hreg
    · rename_i hcond
      cases hreg
      rw [reschedule_tasks, if_pos rfl] at ht
      cases ht
      exact ⟨hcond.1.symm, hcond.2.symm⟩
    · exact h.own kind k t task hreg (hold hreg ht).1
  · intro kind k t hreg
    rw [hnext]
    rw [reschedule_registry] at hreg
    split at hreg
    · cases hreg
      exact Nat.lt_succ_self _
    · exact Nat.lt_succ_of_lt (h.registered kind k t hreg)
  · intro t task ht
    rw [hpeers]
    rw [reschedule_tasks] at ht
    split at ht
    · cases ht
      exact hk
    · split at ht
      · cases ht
      · exact h.known t task ht
  · rw [hcalls, hpeers, hnext]
    intro c call hc
    exact ⟨Nat.lt_succ_of_lt (h.called c call hc).1, (h.called c call hc).2⟩

end

/-! ## Slots -/

/-- The key that a task will install. -/
def Work.key? : Work → Option (String × Bytes)
  | .due _ => none
  | .activate _ keyId key => some (keyId, key)

/-- The key of one peer: what WireGuard has, what the record says, and
what waits to be activated. -/
structure Slot where
  psk : Option Bytes
  keyId : Option String
  pending : Option (String × Bytes)
  deriving DecidableEq

namespace Slot

def install (x : Slot) (keyId : String) (key : Bytes) : Slot :=
  { x with psk := some key, keyId := some keyId }

def announce (x : Slot) (keyId : String) (key : Bytes) : Slot :=
  { x with pending := some (keyId, key) }

def activate (x : Slot) (keyId : String) (key : Bytes) : Slot :=
  { x.install keyId key with pending := none }

/-- The key that is installed once nothing is pending. -/
def settled (x : Slot) : Option (String × Bytes) :=
  match x.pending, x.keyId, x.psk with
  | some p, _, _ => some p
  | none, some keyId, some key => some (keyId, key)
  | _, _, _ => none

theorem settled_install {x : Slot} (h : x.pending = none) (keyId : String) (key : Bytes) :
    (x.install keyId key).settled = some (keyId, key) := by
  simp [settled, install, h]

theorem settled_announce (x : Slot) (keyId : String) (key : Bytes) :
    (x.announce keyId key).settled = some (keyId, key) := rfl

/-- Activation changes when a key is in force, not which. -/
theorem settled_activate {x : Slot} {keyId : String} {key : Bytes}
    (h : x.pending = some (keyId, key)) : (x.activate keyId key).settled = x.settled := by
  simp [settled, activate, install, h]

theorem settled_eq_some {x : Slot} (h : x.pending = none) {keyId : String} {key : Bytes} :
    x.settled = some (keyId, key) ↔ x.keyId = some keyId ∧ x.psk = some key := by
  unfold settled
  rw [h]
  cases x.keyId <;> cases x.psk <;> simp

end Slot

def Server.pending (s : Server) (k : String) : Option (String × Bytes) :=
  (((s.registry .activation).lookup k).bind s.tasks.lookup).bind (·.work.key?)

def Server.slot (s : Server) (k : String) : Slot where
  psk := (s.wg k).map (·.psk)
  keyId := (s.peers.lookup k).bind (·.presharedKeyId)
  pending := s.pending k

/-- An activation for `k` is still to come. -/
def Server.Pending (s : Server) (k : String) : Prop :=
  ∃ t delay keyId key, s.tasks.lookup t = some ⟨delay, .activate k keyId key⟩

theorem pending_of_task (h : Wf s) {t : Nat} {delay : Time} {k keyId : String} {key : Bytes}
    (ht : s.tasks.lookup t = some ⟨delay, .activate k keyId key⟩) :
    s.pending k = some (keyId, key) := by
  have htracked : (s.registry .activation).lookup k = some t := h.tracked _ _ ht
  simp [Server.pending, htracked, ht, Work.key?]

theorem pending_eq_none (h : Wf s) {k : String} : s.pending k = none ↔ ¬ s.Pending k := by
  constructor
  · rintro hnone ⟨t, delay, keyId, key, ht⟩
    rw [pending_of_task h ht] at hnone
    cases hnone
  · intro hnot
    unfold Server.pending
    rcases hreg : (s.registry .activation).lookup k with _ | t
    · rfl
    · rcases ht : s.tasks.lookup t with _ | ⟨delay, work⟩
      · simp [ht]
      · obtain ⟨hkind, hpub⟩ := h.own _ _ _ _ hreg ht
        cases work with
        | due _ => cases hkind
        | activate k' keyId key =>
          obtain rfl : k' = k := hpub
          exact absurd ⟨t, delay, keyId, key, ht⟩ hnot

theorem pending_reschedule (h : Wf s) (delay : Time) (work : Work) (k : String) :
    (s.reschedule delay work).pending k =
      if work.kind = .activation ∧ k = work.pubkey then work.key? else s.pending k := by
  unfold Server.pending
  rw [reschedule_registry]
  by_cases hcond : work.kind = .activation ∧ k = work.pubkey
  · simp [hcond.1, hcond.2, reschedule_tasks]
  · rw [if_neg (by rwa [eq_comm (a := Kind.activation)]), if_neg hcond]
    rcases hreg : (s.registry .activation).lookup k with _ | t
    · rfl
    · have hne : t ≠ s.nextId := Nat.ne_of_lt (h.registered _ _ _ hreg)
      simp only [Option.bind_some, reschedule_tasks, if_neg hne]
      split
      · rename_i hwork
        -- a task registered twice is dead
        rcases ht : s.tasks.lookup t with _ | task
        · rfl
        · obtain ⟨hkind, hpub⟩ := h.own _ _ _ _ hreg ht
          obtain ⟨hkind', hpub'⟩ := h.own _ _ _ _ hwork ht
          exact absurd ⟨hkind'.symm.trans hkind, hpub.symm.trans hpub'⟩ hcond
      · rfl

theorem pending_cancel (h : Wf s) {t : Nat} {task : Task} (ht : s.tasks.lookup t = some task)
    (k : String) : (s.cancel t).pending k =
      if task.work.kind = .activation ∧ k = task.work.pubkey then none else s.pending k := by
  unfold Server.pending
  rw [registry_cancel]
  rcases hreg : (s.registry .activation).lookup k with _ | t'
  · simp
  · simp only [Option.bind_some, Server.cancel, Dict.lookup_erase]
    by_cases heq : t' = t
    · subst heq
      obtain ⟨hkind, hpub⟩ := h.own _ _ _ _ hreg ht
      simp [hkind, hpub]
    · have hcond : ¬ (task.work.kind = .activation ∧ k = task.work.pubkey) := by
        rintro ⟨hkind, rfl⟩
        have htracked := h.tracked t task ht
        rw [hkind, hreg] at htracked
        exact heq (Option.some.inj htracked)
      rw [if_neg heq, if_neg hcond]

/-! ## What a step does -/

/-- The tables after a key was installed, before the timer is armed. -/
def Server.withKey (settings : VpnSettings) (env : Env) (s : Server) (pubkey : String)
    (record : PeerRecord) (keyId : String) (key : Bytes) : Server :=
  let peers := s.peers.assign pubkey
    { record with
      presharedKeyId := some keyId
      refreshDue := false
      nextRefreshAt := some (env.installedAt + settings.refreshS) }
  { s with
    wg := Function.update s.wg pubkey (some ⟨key, record.clientIp⟩)
    peers
    file := some peers }

variable {settings : VpnSettings} {env : Env} {pubkey keyId : String} {record : PeerRecord}
  {key : Bytes}

theorem applyKey_ok (hwg : env.setPeer = .ok ()) (new : Bool) :
    s.applyKey settings env pubkey record keyId key new =
      (.ok (), (s.withKey settings env pubkey record keyId key).reschedule settings.refreshS
        (.due pubkey)) := by
  unfold Server.applyKey
  rw [hwg]
  rfl

theorem applyKey_error {e : WgError} (hwg : env.setPeer = .error e) (new : Bool) :
    s.applyKey settings env pubkey record keyId key new =
      (.error e, if new then { s with peers := s.peers.erase pubkey } else s) := by
  unfold Server.applyKey
  rw [hwg]

theorem mem_assign {peers : PeerTable} {k : String} :
    k ∈ peers.assign pubkey record ↔ k = pubkey ∨ k ∈ peers := by
  rw [← AList.lookup_isSome, Dict.lookup_assign, ← AList.lookup_isSome]
  split <;> simp [*]

theorem Wf.withKey (h : Wf s) : Wf (s.withKey settings env pubkey record keyId key) :=
  h.congr rfl (fun kind => by cases kind <;> rfl) (Nat.le_refl _)
    (fun _ hk => mem_assign.mpr (.inr hk)) fun c call hc =>
      ⟨(h.called c call hc).1, fun k q hk => mem_assign.mpr (.inr ((h.called c call hc).2 k q hk))⟩

theorem slot_withKey (k : String) : (s.withKey settings env pubkey record keyId key).slot k =
    if k = pubkey then (s.slot k).install keyId key else s.slot k := by
  have hpending : (s.withKey settings env pubkey record keyId key).pending k = s.pending k := rfl
  unfold Server.slot
  rw [hpending]
  simp only [Server.withKey, Function.update_apply, Dict.lookup_assign]
  split <;> rfl

theorem slot_reschedule (h : Wf s) (delay : Time) (work : Work) (k : String) :
    (s.reschedule delay work).slot k =
      if work.kind = .activation ∧ k = work.pubkey then { s.slot k with pending := work.key? }
      else s.slot k := by
  have hpending := pending_reschedule h delay work k
  obtain ⟨tasks, timers, activations, heq⟩ := reschedule_eq s delay work
  unfold Server.slot
  rw [hpending, heq]
  split <;> rfl

theorem slot_cancel (h : Wf s) {t : Nat} {task : Task} (ht : s.tasks.lookup t = some task)
    (k : String) : (s.cancel t).slot k =
      if task.work.kind = .activation ∧ k = task.work.pubkey then { s.slot k with pending := none }
      else s.slot k := by
  unfold Server.slot
  rw [pending_cancel h ht]
  split <;> rfl

variable (settings pubkey keyId record key) in
/-- A key that WireGuard accepted is installed at once. -/
theorem slot_applyKey (h : Wf s) (hwg : env.setPeer = .ok ()) (new : Bool) (k : String) :
    ((s.applyKey settings env pubkey record keyId key new).2).slot k =
      if k = pubkey then (s.slot k).install keyId key else s.slot k := by
  rw [applyKey_ok hwg]
  dsimp only
  rw [slot_reschedule h.withKey, if_neg (by rintro ⟨⟨⟩, _⟩), slot_withKey]

variable (settings env pubkey record keyId key) in
/-- The timer that an installed key arms is in order. -/
theorem Wf.applied (h : Wf s) : Wf ((s.withKey settings env pubkey record keyId key).reschedule
    settings.refreshS (.due pubkey)) :=
  h.withKey.reschedule settings.refreshS (.due pubkey) (mem_assign.mpr (.inl rfl))

/-! ## Any step keeps the tasks in order -/

theorem wf_suspend (h : Wf s) {call : Call}
    (hcall : ∀ k q, call = .refresh k q → k ∈ s.peers) : Wf (s.suspend call).2 := by
  refine h.congr rfl (fun kind => by cases kind <;> rfl) (Nat.le_succ _) (fun _ hk => hk) ?_
  intro c call' hc
  simp only [Server.suspend, Dict.lookup_insert] at hc ⊢
  split at hc
  · rename_i heq
    cases hc
    exact ⟨heq ▸ Nat.lt_succ_self _, hcall⟩
  · exact ⟨Nat.lt_succ_of_lt (h.called c call' hc).1, (h.called c call' hc).2⟩

theorem wf_dropCall (h : Wf s) (c : Nat) : Wf { s with calls := s.calls.erase c } := by
  refine h.congr rfl (fun kind => by cases kind <;> rfl) (Nat.le_refl _) (fun _ hk => hk) ?_
  intro c' call hc
  simp only [Dict.lookup_erase] at hc
  split at hc
  · cases hc
  · exact h.called c' call hc

theorem wf_withPeers (h : Wf s) {peers : PeerTable} {file : Option PeerTable}
    (hpeers : ∀ k, k ∈ s.peers → k ∈ peers) : Wf { s with peers, file } :=
  h.congr rfl (fun kind => by cases kind <;> rfl) (Nat.le_refl _) hpeers
    fun c call hc =>
      ⟨(h.called c call hc).1, fun k q hk => hpeers k ((h.called c call hc).2 k q hk)⟩

theorem wf_startConnection (h : Wf s) (qkdId : String)
    (answer : Except EkmError (String × Bytes)) :
    Wf (s.startConnection settings env pubkey qkdId answer).1 := by
  unfold Server.startConnection
  split
  · exact h
  · rename_i keyId key
    split
    · exact h
    · rename_i record new peers hrec
      have hwith : Wf { s with peers } := wf_withPeers h fun _ hk => recordFor_mem hrec hk
      cases hwg : env.setPeer with
      | ok _ =>
        rw [applyKey_ok hwg]
        have hwf := hwith.applied settings env pubkey keyId record key
        dsimp only
        split <;> exact hwf
      | error e =>
        have hwf : Wf
            (if new then { s with peers := peers.erase pubkey } else { s with peers }) := by
          cases new with
          | false => exact hwith
          | true =>
            refine wf_withPeers h fun k hk => ?_
            refine AList.mem_erase.mpr ⟨?_, recordFor_mem hrec hk⟩
            rintro rfl
            exact recordFor_new hrec hk
        rw [applyKey_error hwg]
        cases e <;> exact hwf

theorem wf_resume (h : Wf s) {call : Call} (hcall : ∀ k q, call = .refresh k q → k ∈ s.peers)
    (answer : Except EkmError (String × Bytes)) : Wf (s.resume settings env call answer).1 := by
  cases call with
  | start pubkey qkdId => exact wf_startConnection h qkdId answer
  | refresh pubkey qkdId =>
    cases answer with
    | error e => exact h
    | ok answer =>
      obtain ⟨keyId, key⟩ := answer
      exact h.reschedule settings.activationDelayS (.activate pubkey keyId key)
        (hcall pubkey qkdId rfl)

theorem wf_run (h : Wf s) (work : Work) : Wf (s.run settings env work) := by
  cases work with
  | due pubkey =>
    simp only [Server.run]
    split
    · exact h
    · exact wf_withPeers h fun k hk => mem_assign.mpr (.inr hk)
  | activate pubkey keyId key =>
    simp only [Server.run]
    split
    · exact h
    · cases hwg : env.setPeer with
      | ok _ =>
        rw [applyKey_ok hwg]
        exact h.applied settings env pubkey keyId _ key
      | error _ =>
        rw [applyKey_error hwg]
        exact h

variable (settings) in
/-- **Every step keeps the tasks in order.** -/
theorem wf_step (h : Wf s) (a : Act) : Wf (step settings s a).1 := by
  cases a with
  | start pubkey qkdId => exact wf_suspend h (by rintro k q ⟨⟩)
  | refresh pubkey =>
    simp only [step]
    split
    · exact h
    · rename_i record hrec
      refine wf_suspend h ?_
      rintro k q ⟨⟩
      exact AList.lookup_isSome.mp (hrec ▸ rfl)
  | answer c answer env =>
    simp only [step]
    split
    · exact h
    · rename_i call hcall
      exact wf_resume (wf_dropCall h c) (h.called c call hcall).2 answer
  | fire t env =>
    simp only [step]
    split
    · exact h
    · exact wf_run (h.cancel t) _
  | status => exact h
  | restart => exact wf_boot _ _

/-! ## What a step does to the slots -/

/-- A key id that a 200 answer names to a client, with the key. -/
structure Handout where
  pubkey : String
  keyId : String
  key : Bytes
  deriving DecidableEq

def Reply.presharedKeyId : Reply → Option String
  | .connected _ _ _ presharedKeyId _ _ _ _ => some presharedKeyId
  | .refreshing presharedKeyId _ => some presharedKeyId
  | _ => none

def handout (s : Server) (a : Act) (out : Output) : Option Handout :=
  match a, out with
  | .answer c (.ok (_, key)) _, .answers ⟨200, reply⟩ =>
    (s.calls.lookup c).bind fun call =>
      reply.presharedKeyId.map fun keyId => ⟨call.pubkey, keyId, key⟩
  | _, _ => none

theorem handout_nothing (s : Server) (a : Act) : handout s a .nothing = none := by
  unfold handout
  split
  · cases ‹Output.nothing = _›
  · rfl

/-- A step of one process in which the `wg` calls succeed. -/
def Act.Smooth : Act → Prop
  | .answer _ _ env | .fire _ env =>
    env.setPeer = .ok () ∧ ∃ publicKey, env.publicKey = .ok publicKey
  | .restart => False
  | _ => True

/-- The ways a step treats the slots. -/
inductive SlotStep (s : Server) (a : Act) : Option Handout → (String → Slot) → Prop
  | same : SlotStep s a none s.slot
  | installed {c k q keyId key env} (ha : a = .answer c (.ok (keyId, key)) env)
      (hc : s.calls.lookup c = some (.start k q)) :
    SlotStep s a (some ⟨k, keyId, key⟩)
      (Function.update s.slot k ((s.slot k).install keyId key))
  | announced {c k q keyId key env} (ha : a = .answer c (.ok (keyId, key)) env)
      (hc : s.calls.lookup c = some (.refresh k q)) :
    SlotStep s a (some ⟨k, keyId, key⟩)
      (Function.update s.slot k ((s.slot k).announce keyId key))
  | activated {t delay k keyId key env} (ha : a = .fire t env)
      (ht : s.tasks.lookup t = some ⟨delay, .activate k keyId key⟩) :
    SlotStep s a none (Function.update s.slot k ((s.slot k).activate keyId key))

theorem slot_due (k : String) : (s.run settings env (.due pubkey)).slot k = s.slot k := by
  simp only [Server.run]
  split
  · rfl
  · rename_i record hrec
    have hpending : ∀ peers file, ({ s with peers, file } : Server).pending k = s.pending k :=
      fun _ _ => rfl
    simp only [Server.slot, Server.save, hpending, Dict.lookup_assign]
    split
    · rename_i hk
      rw [hk, hrec]
      rfl
    · rfl

theorem slots_activate (h : Wf s) (hwg : env.setPeer = .ok ()) {t : Nat} {delay : Time}
    (ht : s.tasks.lookup t = some ⟨delay, .activate pubkey keyId key⟩) :
    ((s.cancel t).run settings env (.activate pubkey keyId key)).slot =
      Function.update s.slot pubkey ((s.slot pubkey).activate keyId key) := by
  obtain ⟨record, hrec⟩ := Option.isSome_iff_exists.mp (AList.lookup_isSome.mpr (h.known t _ ht))
  have hrec' : (s.cancel t).peers.lookup pubkey = some record := hrec
  funext k
  simp only [Server.run, hrec']
  rw [slot_applyKey settings pubkey keyId record key (h.cancel t) hwg, slot_cancel h ht,
    Function.update_apply]
  simp only [Work.kind, Work.pubkey, true_and]
  split
  · rename_i hk
    rw [hk]
    rfl
  · rfl

variable (settings pubkey keyId key) in
/-- A start whose `wg` calls succeed installs the key it names, or there
is no address. -/
theorem startConnection_ends (h : Wf s) (hwg : env.setPeer = .ok ()) {publicKey : String}
    (hpub : env.publicKey = .ok publicKey) (qkdId : String) :
    s.startConnection settings env pubkey qkdId (.ok (keyId, key)) =
        (s, httpError 503 "tunnel address pool exhausted") ∨
      ∃ s' clientIp, s.startConnection settings env pubkey qkdId (.ok (keyId, key)) =
          (s', ⟨200, .connected settings.serverPeer publicKey settings.publicEndpoint keyId clientIp
            settings.allowedIps env.answeredAt settings.refreshS⟩) ∧
        s'.slot = Function.update s.slot pubkey ((s.slot pubkey).install keyId key) := by
  simp only [Server.startConnection]
  split
  · exact .inl rfl
  · rename_i record new peers hrec
    have hlookup := recordFor_lookup hrec
    have hwith : Wf { s with peers } := wf_withPeers h fun _ hk => recordFor_mem hrec hk
    have hslot := slot_applyKey settings pubkey keyId record key hwith hwg new
    rw [applyKey_ok hwg] at hslot ⊢
    simp only [hpub]
    refine .inr ⟨_, _, rfl, ?_⟩
    funext k
    rw [hslot, Function.update_apply]
    split
    · rename_i hk
      rw [hk]
      rfl
    · rename_i hk
      have hpending : ({ s with peers } : Server).pending k = s.pending k := rfl
      simp only [Server.slot, hpending, hlookup, if_neg hk]

variable (settings) in
/-- **Inversion of the slots.** -/
theorem step_slots (h : Wf s) {a : Act} (ha : a.Smooth) :
    SlotStep s a (handout s a (step settings s a).2) (step settings s a).1.slot := by
  cases a with
  | start pubkey qkdId => exact .same
  | refresh pubkey =>
    simp only [step]
    split <;> exact .same
  | answer c answer env =>
    obtain ⟨hwg, publicKey, hpub⟩ := ha
    simp only [step]
    split
    · rw [handout_nothing]
      exact .same
    · rename_i call hcall
      have hdrop := wf_dropCall h c
      cases answer with
      | error e =>
        cases call <;> exact .same
      | ok answer =>
        obtain ⟨keyId, key⟩ := answer
        cases call with
        | start pubkey qkdId =>
          simp only [Server.resume]
          rcases startConnection_ends settings pubkey keyId key hdrop hwg hpub qkdId with
            heq | ⟨s', clientIp, heq, hslot⟩
          · rw [heq]
            exact .same
          · rw [heq]
            simp only [handout, hcall, hslot]
            exact .installed rfl hcall
        | refresh pubkey qkdId =>
          have hslot := slot_reschedule hdrop settings.activationDelayS
            (.activate pubkey keyId key)
          have heq : (({ s with calls := s.calls.erase c } : Server).reschedule
              settings.activationDelayS (.activate pubkey keyId key)).slot =
              Function.update s.slot pubkey ((s.slot pubkey).announce keyId key) := by
            funext k
            rw [hslot, Function.update_apply]
            simp only [Work.kind, Work.pubkey, true_and]
            split
            · rename_i hk
              rw [hk]
              rfl
            · rfl
          simp only [Server.resume, Server.refreshConnection, handout, hcall, heq]
          exact .announced rfl hcall
  | fire t env =>
    simp only [step]
    split
    · exact .same
    · rename_i task htask
      obtain ⟨delay, work⟩ := task
      cases work with
      | due pubkey =>
        have hslot : ((s.cancel t).run settings env (.due pubkey)).slot = s.slot := by
          funext k
          rw [slot_due, slot_cancel h htask, if_neg (by rintro ⟨⟨⟩, _⟩)]
        rw [hslot]
        exact .same
      | activate pubkey keyId key =>
        rw [slots_activate h ha.1 htask]
        exact .activated rfl htask
  | status => exact .same
  | restart => cases ha

end

end QkdEkm.Vpn
