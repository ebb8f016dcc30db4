import QkdEkm.Vpn.Slots

/-!
# Calls — the suspended handlers

A handler that waits for its key is touched by its own answer alone, and
so is the slot of a peer that only one handler is about.
-/

namespace QkdEkm.Vpn

open QkdEkm.Common QkdEkm.Lib

section

variable {settings : VpnSettings} {env : Env} {s : Server} {pubkey : String}

variable (settings env s pubkey) in
theorem applyKey_calls (record : PeerRecord) (keyId : String) (key : Bytes) (new : Bool) :
    (s.applyKey settings env pubkey record keyId key new).2.calls = s.calls := by
  cases hwg : env.setPeer with
  | ok _ =>
    rw [applyKey_ok hwg]
    obtain ⟨tasks, timers, activations, heq⟩ := reschedule_eq
      (s.withKey settings env pubkey record keyId key) settings.refreshS (.due pubkey)
    dsimp only
    rw [heq]
    rfl
  | error e =>
    rw [applyKey_error hwg]
    cases new <;> rfl

theorem startConnection_calls (qkdId : String) (answer : Except EkmError (String × Bytes)) :
    (s.startConnection settings env pubkey qkdId answer).1.calls = s.calls := by
  unfold Server.startConnection
  split
  · rfl
  · rename_i keyId key
    split
    · rfl
    · rename_i record new peers _
      have hcalls := applyKey_calls settings env { s with peers } pubkey record keyId key new
      split
      · rename_i heq
        rw [heq] at hcalls
        exact hcalls
      · rename_i heq
        rw [heq] at hcalls
        exact hcalls
      · rename_i heq
        rw [heq] at hcalls
        split <;> exact hcalls

theorem resume_calls (call : Call) (answer : Except EkmError (String × Bytes)) :
    (s.resume settings env call answer).1.calls = s.calls := by
  cases call with
  | start pubkey qkdId => exact startConnection_calls qkdId answer
  | refresh pubkey qkdId =>
    cases answer with
    | error e => rfl
    | ok answer =>
      obtain ⟨tasks, timers, activations, heq⟩ := reschedule_eq s settings.activationDelayS
        (.activate pubkey answer.1 answer.2)
      simp only [Server.resume, Server.refreshConnection, heq]

theorem run_calls (work : Work) : (s.run settings env work).calls = s.calls := by
  cases work with
  | due pubkey =>
    simp only [Server.run]
    split <;> rfl
  | activate pubkey keyId key =>
    simp only [Server.run]
    split
    · rfl
    · exact applyKey_calls _ _ _ _ _ _ _ _

/-- An answer ends its own call and no other. -/
theorem calls_answer (c : Nat) (answer : Except EkmError (String × Bytes)) (c' : Nat) :
    (step settings s (.answer c answer env)).1.calls.lookup c' =
      if c' = c then none else s.calls.lookup c' := by
  simp only [step]
  split
  · rename_i hnone
    split
    · rename_i heq
      exact heq ▸ hnone
    · rfl
  · rw [resume_calls]
    exact Dict.lookup_erase _ _ _

variable (settings) in
theorem calls_fire (t : Nat) : (step settings s (.fire t env)).1.calls = s.calls := by
  simp only [step]
  split
  · rfl
  · exact run_calls _

variable (settings) in
/-- A new handler is the only new call. -/
theorem calls_request {a : Act} (ha : a = .refresh pubkey ∨ ∃ qkdId, a = .start pubkey qkdId)
    (c : Nat) : ∃ call, call.pubkey = pubkey ∧
      ((step settings s a).1.calls.lookup c = s.calls.lookup c ∨
        (c = s.nextId ∧ (step settings s a).1.calls.lookup c = some call)) := by
  have harrive : ∀ (call : Call) (qkdId : String), (arrive s call qkdId).1.calls.lookup c =
      s.calls.lookup c ∨ (c = s.nextId ∧ (arrive s call qkdId).1.calls.lookup c = some call) := by
    intro call qkdId
    have hlookup : (arrive s call qkdId).1.calls.lookup c =
        if c = s.nextId then some call else s.calls.lookup c := Dict.lookup_insert _ _ _ _
    rw [hlookup]
    split
    · rename_i heq
      exact .inr ⟨heq, rfl⟩
    · exact .inl rfl
  obtain rfl | ⟨qkdId, rfl⟩ := ha
  · simp only [step]
    split
    · exact ⟨.refresh pubkey "", rfl, .inl rfl⟩
    · exact ⟨_, rfl, harrive _ _⟩
  · exact ⟨_, rfl, harrive _ _⟩

/-! ## The slots of other peers -/

/-- A step that answers no call about `k` leaves `k` on its way. -/
theorem settled_step (h : Wf s) {a : Act} (ha : a.Smooth) {k : String}
    (hk : ∀ c answer env call, a = .answer c answer env → s.calls.lookup c = some call →
      call.pubkey ≠ k) :
    ((step settings s a).1.slot k).settled = (s.slot k).settled ∧
      ((s.slot k).pending = none → ((step settings s a).1.slot k).pending = none) := by
  have hslots := step_slots settings h ha
  generalize handout s a (step settings s a).2 = told at hslots
  generalize (step settings s a).1.slot = slots at hslots ⊢
  cases hslots with
  | same => exact ⟨rfl, id⟩
  | @installed c k' q keyId key env ha hc | @announced c k' q keyId key env ha hc =>
    have hne : k' ≠ k := hk _ _ _ _ ha hc
    rw [Function.update_of_ne hne.symm]
    exact ⟨rfl, id⟩
  | @activated t delay k' keyId key env ha ht =>
    rw [Function.update_apply]
    split
    · rename_i heq
      subst heq
      exact ⟨Slot.settled_activate (pending_of_task h ht), fun _ => rfl⟩
    · exact ⟨rfl, id⟩

/-! ## The answer to a handler -/

theorem noKey_status (e : EkmError) : (Server.noKey e).status ≠ 200 := by
  cases e <;> simp [Server.noKey, httpError, unhandled]

variable (settings) in
/-- The answer to a start for a peer that nothing is pending for: the
key it names is in force at once, or it names none. -/
theorem answer_start (h : Wf s) {c : Nat} {qkdId : String}
    (hc : s.calls.lookup c = some (.start pubkey qkdId)) (hfree : (s.slot pubkey).pending = none)
    {answer : Except EkmError (String × Bytes)} (ha : (Act.answer c answer env).Smooth) :
    (∃ keyId key q publicKey endpoint clientIp allowedIps t refreshS,
        answer = .ok (keyId, key) ∧
        (step settings s (.answer c answer env)).2 = .answers ⟨200, .connected q publicKey
          endpoint keyId clientIp allowedIps t refreshS⟩ ∧
        ((step settings s (.answer c answer env)).1.slot pubkey).settled = some (keyId, key)) ∨
      ∃ r, (step settings s (.answer c answer env)).2 = .answers r ∧ r.status ≠ 200 := by
  obtain ⟨hwg, publicKey, hpub⟩ := ha
  simp only [step, hc, Server.resume]
  rcases answer with e | ⟨keyId, key⟩
  · exact .inr ⟨_, rfl, noKey_status e⟩
  · rcases startConnection_ends settings pubkey keyId key (wf_dropCall h c) hwg hpub qkdId with
      heq | ⟨s', clientIp, heq, hslot⟩
    · rw [heq]
      exact .inr ⟨_, rfl, (by decide : (503 : Nat) ≠ 200)⟩
    · rw [heq]
      refine .inl ⟨keyId, key, _, _, _, _, _, _, _, rfl, rfl, ?_⟩
      rw [hslot, Function.update_self]
      exact Slot.settled_install hfree keyId key

variable (settings env) in
/-- The answer to a refresh: the key it names is announced, or it names
none and nothing changed. -/
theorem answer_refresh (h : Wf s) {c : Nat} {qkdId : String}
    (hc : s.calls.lookup c = some (.refresh pubkey qkdId))
    (answer : Except EkmError (String × Bytes)) :
    (∃ keyId key t, answer = .ok (keyId, key) ∧
        (step settings s (.answer c answer env)).2 = .answers ⟨200, .refreshing keyId t⟩ ∧
        ((step settings s (.answer c answer env)).1.slot pubkey).settled = some (keyId, key)) ∨
      ∃ r, (step settings s (.answer c answer env)).2 = .answers r ∧ r.status ≠ 200 ∧
        (step settings s (.answer c answer env)).1.slot = s.slot := by
  simp only [step, hc, Server.resume]
  rcases answer with e | ⟨keyId, key⟩
  · exact .inr ⟨_, rfl, noKey_status e, rfl⟩
  · refine .inl ⟨keyId, key, _, rfl, rfl, ?_⟩
    simp only [Server.refreshConnection]
    rw [slot_reschedule (wf_dropCall h c), if_pos ⟨rfl, rfl⟩]
    rfl

end

end QkdEkm.Vpn
