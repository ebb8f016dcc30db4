import QkdEkm.Lib.Machine
import QkdEkm.Vpn.Slots

/-!
# Supersede — does the newest announced key win?

A refresh cancels the activation that an earlier refresh scheduled. A
start installs its key at once and cancels nothing: an activation that
is pending then puts the older key back. Along every run in which no
start overtakes a pending activation, a peer ends up with the newest key
it was told about.
-/

namespace QkdEkm.Vpn

open QkdEkm.Common QkdEkm.Lib

/-- What is known of the newest key of `k` after one more step. -/
def newerKey (k : String) (newest : Option (String × Bytes)) (m : Moment Server Act Output) :
    Option (String × Bytes) :=
  match handout m.pre m.act m.out with
  | some h => if h.pubkey = k then some (h.keyId, h.key) else newest
  | none => newest

/-- The key that the last 200 answer for `k` names. -/
def newestKey (ms : List (Moment Server Act Output)) (k : String) : Option (String × Bytes) :=
  ms.foldl (newerKey k) none

/-- A start is given its key while an activation of its peer is pending. -/
def Overtakes (s : Server) (a : Act) : Prop :=
  ∃ c k q keyId key env, a = .answer c (.ok (keyId, key)) env ∧
    s.calls.lookup c = some (.start k q) ∧ s.Pending k

/-- Every peer is going to have the newest key it was told about. -/
structure Settles (past : List (Moment Server Act Output)) (s : Server) : Prop where
  wf : Wf s
  newest : ∀ k p, newestKey past k = some p → (s.slot k).settled = some p

section

variable {settings : VpnSettings} {s : Server}

theorem wf_exec (file : Option PeerTable) (wg : String → Option WgPeer) (acts : List Act) :
    Wf (exec (step settings) (boot file wg) acts) :=
  exec_invariant Wf (wf_boot file wg) (fun _ a h => wf_step settings h a) acts

theorem settles_boot (file : Option PeerTable) (wg : String → Option WgPeer) :
    Settles [] (boot file wg) where
  wf := wf_boot file wg
  newest := by
    rintro k p ⟨⟩

/-- **A step that does not overtake keeps the newest key ahead.** -/
theorem settles_step {past : List (Moment Server Act Output)} (h : Settles past s) {a : Act}
    (ha : a.Smooth) (hover : ¬ Overtakes s a) :
    Settles (past ++ [moment (step settings) s a]) (step settings s a).1 := by
  refine ⟨wf_step settings h.wf a, fun k p hp => ?_⟩
  have hslots := step_slots settings h.wf ha
  simp only [newestKey, List.foldl_append, List.foldl_cons, List.foldl_nil] at hp
  change newerKey k (newestKey past k) (moment (step settings) s a) = some p at hp
  simp only [newerKey, moment] at hp
  generalize handout s a (step settings s a).2 = told at hslots hp
  generalize (step settings s a).1.slot = slots at hslots ⊢
  cases hslots with
  | same => exact h.newest k p hp
  | @installed c k' q keyId key env ha hc =>
    -- no smooth install finds a key pending, or it would overtake it
    have hfree : (s.slot k').pending = none :=
      (pending_eq_none h.wf).mpr fun hpending => hover ⟨c, k', q, keyId, key, env, ha, hc, hpending⟩
    dsimp only at hp
    rw [Function.update_apply]
    split at hp
    · rename_i hk
      cases hp
      rw [if_pos hk.symm]
      exact Slot.settled_install hfree keyId key
    · rename_i hk
      rw [if_neg (Ne.symm hk)]
      exact h.newest k p hp
  | @announced c k' q keyId key env ha hc =>
    dsimp only at hp
    rw [Function.update_apply]
    split at hp
    · rename_i hk
      cases hp
      rw [if_pos hk.symm]
      exact Slot.settled_announce _ keyId key
    · rename_i hk
      rw [if_neg (Ne.symm hk)]
      exact h.newest k p hp
  | @activated t delay k' keyId key env ha ht =>
    rw [Function.update_apply]
    split
    · rename_i hk
      subst hk
      -- the timer that fires is the pending key's own
      have hpending : (s.slot k).pending = some (keyId, key) := pending_of_task h.wf ht
      rw [Slot.settled_activate hpending]
      exact h.newest k p hp
    · exact h.newest k p hp

theorem settles_run {file : Option PeerTable} {wg : String → Option WgPeer} {acts : List Act}
    (hacts : ∀ a ∈ acts, a.Smooth)
    (hover : ∀ m ∈ trace (step settings) (boot file wg) acts, ¬ Overtakes m.pre m.act) :
    Settles (trace (step settings) (boot file wg) acts)
      (exec (step settings) (boot file wg) acts) := by
  refine trace_invariant Settles (fun m => m.act.Smooth ∧ ¬ Overtakes m.pre m.act)
    (settles_boot file wg) ?_ ?_
  · rintro past s a h ⟨ha, hover⟩
    exact settles_step h ha hover
  · intro m hm
    obtain ⟨before, after, hsplit, _⟩ := mem_trace hm
    exact ⟨hacts _ (hsplit ▸ List.mem_append_right _ (List.mem_cons_self ..)), hover m hm⟩

end

/-- **The newest announced key wins** in every run in which no start
overtakes an activation: once nothing is pending for `k`, WireGuard and
the record have the key that the last 200 answer for `k` named. -/
theorem newest_key_wins (settings : VpnSettings) (file : Option PeerTable)
    (wg : String → Option WgPeer) {acts : List Act} (hacts : ∀ a ∈ acts, a.Smooth)
    (hover : ∀ m ∈ trace (step settings) (boot file wg) acts, ¬ Overtakes m.pre m.act)
    {k keyId : String} {key : Bytes}
    (hidle : ¬ (exec (step settings) (boot file wg) acts).Pending k)
    (hnewest : newestKey (trace (step settings) (boot file wg) acts) k = some (keyId, key)) :
    (∃ allowedIps, (exec (step settings) (boot file wg) acts).wg k = some ⟨key, allowedIps⟩) ∧
      ∃ record, (exec (step settings) (boot file wg) acts).peers.lookup k = some record ∧
        record.presharedKeyId = some keyId := by
  have h := settles_run hacts hover
  generalize exec (step settings) (boot file wg) acts = s at h hidle ⊢
  have hsettled := h.newest k _ hnewest
  obtain ⟨hid, hpsk⟩ := (Slot.settled_eq_some ((pending_eq_none h.wf).mpr hidle)).mp hsettled
  constructor
  · obtain ⟨peer, hpeer, hkey⟩ := Option.map_eq_some_iff.mp hpsk
    exact ⟨peer.allowedIps, hkey ▸ hpeer⟩
  · exact Option.bind_eq_some_iff.mp hid

/-- A peer starts with `k1` and refreshes to `k2`, which is yet to be activated. -/
def refreshed : List Act :=
  [.start clientPub "QKD2", .answer 0 (.ok ("k1", (sample 1))) calm, .refresh clientPub,
    .answer 2 (.ok ("k2", (sample 2))) calm]

theorem newest_key_wins_refreshed :
    (∃ allowedIps, (exec (step demo) (boot none fun _ => none) (refreshed ++ [.fire 3 calm])).wg clientPub
        = some ⟨sample 2, allowedIps⟩) ∧
      ∃ record, (exec (step demo) (boot none fun _ => none)
          (refreshed ++ [.fire 3 calm])).peers.lookup clientPub = some record ∧
        record.presharedKeyId = some "k2" := by
  have hsmooth : ∀ a ∈ refreshed ++ [.fire 3 calm], a.Smooth := by
    intro a ha
    simp only [refreshed, List.cons_append, List.nil_append, List.mem_cons, List.not_mem_nil,
      or_false] at ha
    rcases ha with rfl | rfl | rfl | rfl | rfl <;> simp [Act.Smooth, calm]
  have hover : ∀ m ∈ trace (step demo) (boot none fun _ => none) (refreshed ++ [.fire 3 calm]),
      ¬ Overtakes m.pre m.act := by
    rintro m hm ⟨c, k, q, keyId, key, env, hact, hcall, t, delay, keyId', key', htask⟩
    simp only [refreshed, List.cons_append, List.nil_append, trace, List.mem_cons,
      List.not_mem_nil, or_false] at hm
    rcases hm with rfl | rfl | rfl | rfl | rfl <;> cases hact
    · cases htask
    · cases hcall
  exact newest_key_wins demo none (fun _ => none) hsmooth hover
    ((pending_eq_none (wf_exec _ _ _)).mp rfl) rfl

/-- **An older key comes back**: a start installs `k3`, then the
activation that it overtook installs `k2`. -/
theorem newest_key_loses :
    ¬ ∀ acts : List Act, (∀ a ∈ acts, a.Smooth) → ∀ (k keyId : String) (key : Bytes),
      ¬ (exec (step demo) (boot none fun _ => none) acts).Pending k →
      newestKey (trace (step demo) (boot none fun _ => none) acts) k = some (keyId, key) →
      (∃ allowedIps, (exec (step demo) (boot none fun _ => none) acts).wg k =
          some ⟨key, allowedIps⟩) ∧
        ∃ record, (exec (step demo) (boot none fun _ => none) acts).peers.lookup k =
          some record ∧ record.presharedKeyId = some keyId := by
  intro h
  obtain ⟨⟨_, hwg⟩, _⟩ := h
    (refreshed ++ [.start clientPub "QKD2", .answer 4 (.ok ("k3", (sample 3))) calm, .fire 3 calm])
    (by
      intro a ha
      simp only [refreshed, List.cons_append, List.nil_append, List.mem_cons, List.not_mem_nil,
        or_false] at ha
      rcases ha with rfl | rfl | rfl | rfl | rfl | rfl | rfl <;> simp [Act.Smooth, calm])
    clientPub "k3" (sample 3)
    ((pending_eq_none (wf_exec _ _ _)).mp rfl) rfl
  cases hwg

end QkdEkm.Vpn
