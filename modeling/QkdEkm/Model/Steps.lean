import QkdEkm.Model.Enumerate

/-!
# Steps — what one event can do

`enabled` builds strings and states; a proof wants the event itself.
`Event` names the events, `Event.Enabled` their guards and
`Event.apply` their effects, and `mem_enabled` says that a labelled
transition is exactly an enabled event. Every later result splits on
`Event` and never unfolds `enabled`.
-/

namespace QkdEkm.Model

open QkdEkm.Ekm (Mode)

inductive Event
  | ingest (k : String)
  | expire (k : String)
  | allocEkm (k v : String)
  | allocVpn (k : String) (e : Nat)
  | activateVpn
  | abandonPending
  | sessionEnd
  | rejectStale (e : Option Nat)
  | srcDown
  | srcUp
  | ekmDown
  | ekmUp
  | authorityWithdraw
  | authorityGrant
  | reconcile
  | recover
  deriving DecidableEq

def Event.label (rules : Rules) : Event → String
  | .ingest k => "ingest:" ++ k
  | .expire k => "expire:" ++ k
  | .allocEkm k v => "alloc_ekm:" ++ k ++ ":" ++ v
  | .allocVpn k e =>
    "alloc_vpn:" ++ k ++ (if rules.allocVpnAnyFutureEpoch then ":" ++ toString e else "")
  | .activateVpn => "activate_vpn"
  | .abandonPending => "abandon_pending"
  | .sessionEnd => "session_end"
  | .rejectStale (some e) => "reject_stale:" ++ toString e
  | .rejectStale none => "reject_stale"
  | .srcDown => "src_down"
  | .srcUp => "src_up"
  | .ekmDown => "ekm_down"
  | .ekmUp => "ekm_up"
  | .authorityWithdraw => "authority_withdraw"
  | .authorityGrant => "authority_grant"
  | .reconcile => "reconcile"
  | .recover => "recover"

/-- Whether the replay of some epoch is offered for rejection. -/
def stale (rules : Rules) (s : State) : Bool :=
  if rules.rejectStaleNeedsActive then s.kv.isSome else decide (0 < s.epoch)

/-- Whether continuity authority may change. -/
def policyOk (rules : Rules) (s : State) : Prop :=
  rules.authorityOnlyWhenDegraded = false ∨ mode s ≠ .ready

/-- The guard of each event. -/
def Event.Enabled (dom : Domain) (rules : Rules) (s : State) : Event → Prop
  | .ingest k =>
    s.sq = true ∧ (s.se = true ∨ rules.ingestNeedsEkm = false) ∧
      k ∈ dom.ids ∧ k ∉ s.pool ∧ k ∉ consumed s ∧ k ∉ s.expired
  | .expire k =>
    (rules.expireNeedsSourceDown = false ∨ s.sq = false) ∧ k ∈ retained s rules
  | .allocEkm k v =>
    s.se = true ∧ (s.sq = true ∨ rules.allocEkmNeedsSource = false) ∧
      k ∈ retained s rules ∧ v ∈ dom.versions ∧ some v ≠ s.ke ∧ v ∉ ekmObjects s
  | .allocVpn k e =>
    s.se = true ∧ nextEpoch s ≤ dom.maxEpoch ∧
      (s.kp = none ∨ rules.vpnPendingReplaceable = true) ∧
      (s.kv = none ∨ rules.allocVpnNeedsNoActive = false) ∧
      k ∈ retained s rules ∧ e ∈ allocEpochs dom s rules
  | .activateVpn =>
    rules.activateMerged = false ∧ ∃ k e, s.kp = some (k, e) ∧ s.epoch < e
  | .abandonPending => rules.abandonPending = true ∧ ∃ k e, s.kp = some (k, e)
  | .sessionEnd => rules.sessionEnd = true ∧ s.kv.isSome = true
  | .rejectStale (some e) =>
    stale rules s = true ∧ rules.rejectStalePerEpoch = true ∧ e ∈ List.range' 1 s.epoch
  | .rejectStale none => stale rules s = true ∧ rules.rejectStalePerEpoch = false
  | .srcDown => s.sq = true ∨ rules.depTogglesUnconditional = true
  | .srcUp => s.sq = false ∨ rules.depTogglesUnconditional = true
  | .ekmDown => s.se = true ∨ rules.depTogglesUnconditional = true
  | .ekmUp => s.se = false ∨ rules.depTogglesUnconditional = true
  | .authorityWithdraw =>
    policyOk rules s ∧ (s.authority = true ∨ rules.depTogglesUnconditional = true)
  | .authorityGrant =>
    policyOk rules s ∧ (s.authority = false ∨ rules.depTogglesUnconditional = true)
  | .reconcile =>
    rules.restorationDetected = true ∧ s.detected = true ∧ s.sq = true ∧ s.se = true
  | .recover =>
    s.sq = true ∧ s.se = true ∧ s.recovery = true ∧
      (s.authority = true ∨ rules.recoverNeedsAuthority = false)

/-- The effect of each event. -/
def Event.apply (rules : Rules) (s : State) : Event → State
  | .ingest k => poolAdd s k rules
  | .expire k => expireOne s rules k
  | .allocEkm k v =>
    { poolTake s k rules with bindings := insert (k, .ekm v) s.bindings, ke := some v }
  | .allocVpn k e => allocVpnOne s rules k e
  | .activateVpn =>
    match s.kp with
    | some (k, e) => { s with kv := some (k, e), epoch := e, kp := none }
    | none => s
  | .abandonPending =>
    match s.kp with
    | some (_, e) =>
      if rules.abandonConsumesEpoch then { s with kp := none, epoch := e, kv := none }
      else { s with kp := none }
    | none => s
  | .sessionEnd => { s with kv := none }
  | .rejectStale _ => s
  | .srcDown => interrupt s rules (some false) none
  | .srcUp => restore s rules (some true) none
  | .ekmDown =>
    let down := interrupt s rules none (some false)
    if rules.ekmDownClearsActive then { down with ke := none } else down
  | .ekmUp => restore s rules none (some true)
  | .authorityWithdraw => withdrawn s rules
  | .authorityGrant => { s with authority := true }
  | .reconcile => { s with detected := false, recovery := true }
  | .recover => recovered s rules

/-! ## The inversion of `enabled` -/

/-- Some event of the kind `mk` is enabled and makes the transition. -/
def Made {α : Type} (dom : Domain) (rules : Rules) (s : State) (mk : α → Event)
    (l : String) (t : State) : Prop :=
  ∃ a, (mk a).Enabled dom rules s ∧ l = (mk a).label rules ∧ t = (mk a).apply rules s

section Families

variable (dom : Domain) {rules : Rules} {s t : State} {l : String}

attribute [local simp] Event.Enabled Event.label Event.apply

theorem mem_ingestEvents :
    (l, t) ∈ ingestEvents dom s rules ↔ Made dom rules s .ingest l t := by
  simp only [ingestEvents, Made, Event.Enabled, Event.label, Event.apply]
  split <;> rename_i h <;> simp at h
  · simp only [List.mem_map, List.mem_filter, Prod.mk.injEq, decide_eq_true_eq]
    grind
  · simp only [List.not_mem_nil, false_iff]
    grind

theorem mem_expireEvents :
    (l, t) ∈ expireEvents s rules ↔ Made dom rules s .expire l t := by
  simp only [expireEvents, Made, Event.Enabled, Event.label, Event.apply]
  split <;> rename_i h <;> simp at h
  · simp only [List.mem_map, Prod.mk.injEq]
    grind
  · simp only [List.not_mem_nil, false_iff]
    grind

theorem mem_allocEkmEvents :
    (l, t) ∈ allocEkmEvents dom s rules ↔
      Made dom rules s (fun kv : String × String => .allocEkm kv.1 kv.2) l t := by
  simp only [allocEkmEvents, Made, Event.Enabled, Event.label, Event.apply]
  split <;> rename_i h <;> simp at h
  · simp only [List.mem_flatMap, List.mem_map, List.mem_filter, Prod.mk.injEq, Prod.exists,
      decide_eq_true_eq]
    grind
  · simp only [List.not_mem_nil, false_iff]
    grind

theorem mem_allocVpnEvents :
    (l, t) ∈ allocVpnEvents dom s rules ↔
      Made dom rules s (fun ke : String × Nat => .allocVpn ke.1 ke.2) l t := by
  simp only [allocVpnEvents, Made, Event.Enabled, Event.label, Event.apply]
  split <;> rename_i h <;> simp at h
  · simp only [List.mem_flatMap, List.mem_map, Prod.mk.injEq, Prod.exists]
    grind
  · simp only [List.not_mem_nil, false_iff]
    grind

theorem mem_activateEvents :
    (l, t) ∈ activateEvents s rules ↔
      Made dom rules s (fun _ : Unit => .activateVpn) l t := by
  simp only [activateEvents, Made, Event.Enabled, Event.label, Event.apply]
  rcases s.kp with _ | ⟨k, e⟩
  · simp
  · split <;> rename_i h <;> simp at h ⊢
    grind

theorem mem_abandonEvents :
    (l, t) ∈ abandonEvents s rules ↔
      Made dom rules s (fun _ : Unit => .abandonPending) l t := by
  simp only [abandonEvents, Made, Event.Enabled, Event.label, Event.apply]
  rcases s.kp with _ | ⟨k, e⟩
  · simp
  · by_cases h : rules.abandonPending = true
    · simp [h]
    · simp [h]

theorem mem_sessionEndEvents :
    (l, t) ∈ sessionEndEvents s rules ↔
      Made dom rules s (fun _ : Unit => .sessionEnd) l t := by
  simp only [sessionEndEvents, Made, Event.Enabled, Event.label, Event.apply]
  split <;> rename_i h <;> simp at h ⊢ <;> grind

theorem mem_rejectStaleEvents :
    (l, t) ∈ rejectStaleEvents s rules ↔ Made dom rules s .rejectStale l t := by
  have hst : (if rules.rejectStaleNeedsActive then s.kv.isSome else decide (0 < s.epoch))
      = stale rules s := rfl
  simp only [rejectStaleEvents, Made, hst]
  constructor
  · intro h
    split at h
    · rename_i hc
      rw [Bool.and_eq_true] at hc
      obtain ⟨e, he, heq⟩ := List.mem_map.mp h
      cases heq
      exact ⟨some e, ⟨hc.1, hc.2, he⟩, rfl, rfl⟩
    · rename_i hc
      split at h
      · rename_i hs
        cases List.mem_singleton.mp h
        exact ⟨none, ⟨hs, by simpa [hs] using hc⟩, rfl, rfl⟩
      · exact absurd h List.not_mem_nil
  · rintro ⟨_ | e, he, rfl, rfl⟩
    · simp [he.1, he.2, Event.label]
    · rw [if_pos (by simp [he.1, he.2.1])]
      exact List.mem_map.mpr ⟨e, he.2.2, rfl⟩

theorem mem_dependencyEvents :
    (l, t) ∈ dependencyEvents s rules ↔
      ∃ ev ∈ [Event.srcDown, .srcUp, .ekmDown, .ekmUp],
        ev.Enabled dom rules s ∧ l = ev.label rules ∧ t = ev.apply rules s := by
  simp only [dependencyEvents, List.mem_append, List.mem_cons, List.not_mem_nil, or_false,
    exists_eq_or_imp, exists_eq_left, Event.Enabled, Event.label, Event.apply]
  refine or_assoc.trans (or_assoc.trans ?_)
  refine or_congr ?_ (or_congr ?_ (or_congr ?_ ?_)) <;>
    split <;> rename_i h <;> simp at h ⊢ <;> grind

theorem mem_authorityEvents :
    (l, t) ∈ authorityEvents s rules ↔
      ∃ ev ∈ [Event.authorityWithdraw, .authorityGrant],
        ev.Enabled dom rules s ∧ l = ev.label rules ∧ t = ev.apply rules s := by
  simp only [authorityEvents, List.mem_cons, List.not_mem_nil, or_false,
    exists_eq_or_imp, exists_eq_left, Event.Enabled, Event.label, Event.apply, policyOk]
  split
  · rename_i hp
    simp at hp
    rw [List.mem_append]
    refine or_congr ?_ ?_ <;> split <;> rename_i h <;> simp at h ⊢ <;> grind
  · rename_i hp
    simp at hp ⊢
    grind

theorem mem_reconcileEvents :
    (l, t) ∈ reconcileEvents s rules ↔
      Made dom rules s (fun _ : Unit => .reconcile) l t := by
  simp only [reconcileEvents, Made, Event.Enabled, Event.label, Event.apply]
  split <;> rename_i h <;> simp at h ⊢ <;> grind

theorem mem_recoverEvents :
    (l, t) ∈ recoverEvents s rules ↔
      Made dom rules s (fun _ : Unit => .recover) l t := by
  simp only [recoverEvents, Made, Event.Enabled, Event.label, Event.apply]
  split <;> rename_i h <;> simp at h ⊢ <;> grind

variable {dom}

/-- **Inversion**: a labelled transition is an enabled event. -/
theorem fires_iff : Fires dom rules s l t ↔
    ∃ ev : Event, ev.Enabled dom rules s ∧ l = ev.label rules ∧ t = ev.apply rules s := by
  constructor
  · intro h
    simp only [Fires, enabled, List.mem_append, mem_ingestEvents dom, mem_expireEvents dom,
      mem_allocEkmEvents dom, mem_allocVpnEvents dom, mem_activateEvents dom,
      mem_abandonEvents dom, mem_sessionEndEvents dom, mem_rejectStaleEvents dom,
      mem_dependencyEvents dom, mem_authorityEvents dom, mem_reconcileEvents dom,
      mem_recoverEvents dom, or_assoc] at h
    rcases h with ⟨_, h⟩ | ⟨_, h⟩ | ⟨_, h⟩ | ⟨_, h⟩ | ⟨_, h⟩ | ⟨_, h⟩ | ⟨_, h⟩ | ⟨_, h⟩ |
      ⟨_, _, h⟩ | ⟨_, _, h⟩ | ⟨_, h⟩ | ⟨_, h⟩ <;> exact ⟨_, h⟩
  · rintro ⟨ev, h⟩
    cases ev with
    | ingest k => simp [Fires, enabled, (mem_ingestEvents dom).mpr ⟨k, h⟩]
    | expire k => simp [Fires, enabled, (mem_expireEvents dom).mpr ⟨k, h⟩]
    | allocEkm k v => simp [Fires, enabled, (mem_allocEkmEvents dom).mpr ⟨(k, v), h⟩]
    | allocVpn k e => simp [Fires, enabled, (mem_allocVpnEvents dom).mpr ⟨(k, e), h⟩]
    | activateVpn => simp [Fires, enabled, (mem_activateEvents dom).mpr ⟨(), h⟩]
    | abandonPending => simp [Fires, enabled, (mem_abandonEvents dom).mpr ⟨(), h⟩]
    | sessionEnd => simp [Fires, enabled, (mem_sessionEndEvents dom).mpr ⟨(), h⟩]
    | rejectStale e => simp [Fires, enabled, (mem_rejectStaleEvents dom).mpr ⟨e, h⟩]
    | srcDown | srcUp | ekmDown | ekmUp =>
      simp [Fires, enabled, (mem_dependencyEvents dom).mpr ⟨_, by simp, h⟩]
    | authorityWithdraw | authorityGrant =>
      simp [Fires, enabled, (mem_authorityEvents dom).mpr ⟨_, by simp, h⟩]
    | reconcile => simp [Fires, enabled, (mem_reconcileEvents dom).mpr ⟨(), h⟩]
    | recover => simp [Fires, enabled, (mem_recoverEvents dom).mpr ⟨(), h⟩]

/-- An enabled event fires. -/
theorem Event.Enabled.fires {ev : Event} (h : ev.Enabled dom rules s) :
    Fires dom rules s (ev.label rules) (ev.apply rules s) :=
  fires_iff.mpr ⟨ev, h, rfl, rfl⟩

end Families

end QkdEkm.Model
