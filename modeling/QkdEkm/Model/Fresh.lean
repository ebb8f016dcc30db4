import QkdEkm.Model.Safety

/-!
# Fresh — what a run never uses twice

The state properties say nothing of the past. `History` ties the events
of a run to the state it ends in: every binding event is still visible
in the bindings, and every activated epoch is at most the authoritative
one. What an event may bind or activate next is then new.
-/

namespace QkdEkm.Model

open QkdEkm.Lib

/-! ## Runs of events -/

/-- The event `ev` makes a transition. -/
def Happens (dom : Domain) (rules : Rules) (s : State) (ev : Event) (t : State) : Prop :=
  ev.Enabled dom rules s ∧ t = ev.apply rules s

/-- The state after some events. -/
def after (rules : Rules) (s : State) (evs : List Event) : State :=
  evs.foldl (fun s ev => ev.apply rules s) s

/-- The binding that an allocation makes. -/
def Event.bound : Event → Option Binding
  | .allocEkm k v => some (k, .ekm v)
  | .allocVpn k e => some (k, .vpn e)
  | _ => none

/-- The identifier and the epoch that an event makes authoritative. -/
def Event.activated (rules : Rules) (s : State) : Event → Option (String × Nat)
  | .activateVpn => s.kp
  | .allocVpn k e => if rules.activateMerged then some (k, e) else none
  | _ => none

/-- What the events of a run make authoritative, in order. -/
def activations (rules : Rules) : State → List Event → List (String × Nat)
  | _, [] => []
  | s, ev :: evs => (ev.activated rules s).toList ++ activations rules (ev.apply rules s) evs

section

variable {dom : Domain} {rules : Rules} {s t : State}

theorem eq_after {evs : List Event} (h : Run (Happens dom rules) s evs t) :
    t = after rules s evs := by
  induction h with
  | nil => rfl
  | snoc _ hs ih =>
    rw [hs.2, ih]
    simp [after]

theorem activations_append (evs : List Event) (ev : Event) :
    activations rules s (evs ++ [ev]) =
      activations rules s evs ++ (ev.activated rules (after rules s evs)).toList := by
  induction evs generalizing s with
  | nil => simp [activations, after]
  | cons e evs ih => simp [activations, ih, after]

/-- **Labelled runs are runs of events.** -/
theorem run_fires_iff {ls : List String} : Run (Fires dom rules) s ls t ↔
    ∃ evs, ls = evs.map (Event.label rules) ∧ Run (Happens dom rules) s evs t := by
  constructor
  · intro h
    induction h with
    | nil => exact ⟨[], rfl, .nil⟩
    | snoc _ hs ih =>
      obtain ⟨evs, rfl, hr⟩ := ih
      obtain ⟨ev, he, rfl, rfl⟩ := fires_iff.mp hs
      exact ⟨evs ++ [ev], by simp, hr.snoc ⟨he, rfl⟩⟩
  · rintro ⟨evs, rfl, h⟩
    induction h with
    | nil => exact .nil
    | snoc _ hs ih =>
      rw [List.map_append]
      exact ih.snoc (hs.2 ▸ hs.1.fires)

/-! ## What one event adds -/

theorem apply_bindings (ev : Event) :
    (ev.apply rules s).bindings = ev.bound.elim s.bindings (insert · s.bindings) := by
  cases ev with
  | ingest k => simp [Event.apply, Event.bound]
  | expire k =>
    simp only [Event.apply, Event.bound, expireOne]
    split <;> simp
  | allocEkm k v => rfl
  | allocVpn k e =>
    simp only [Event.apply, Event.bound, allocVpnOne]
    split <;> rfl
  | activateVpn =>
    simp only [Event.apply, Event.bound]
    split <;> rfl
  | abandonPending =>
    simp only [Event.apply, Event.bound]
    split
    · split <;> rfl
    · rfl
  | sessionEnd | rejectStale _ | authorityGrant | reconcile => rfl
  | srcDown | srcUp | ekmDown | ekmUp | authorityWithdraw | recover =>
    simp only [Event.apply, Event.bound, interrupt, restore, withdrawn, recovered, Option.elim]
    repeat' split
    all_goals rfl

/-- An allocation binds an identifier and a target that are both new. -/
theorem bound_new {ev : Event} (h : Inv dom rules s) (he : ev.Enabled dom rules s)
    {k : String} {u : Target} (hb : ev.bound = some (k, u)) :
    (∀ u', (k, u') ∉ s.bindings) ∧ ∀ k', (k', u) ∉ s.bindings := by
  cases ev with
  | allocEkm k' v =>
    cases hb
    obtain ⟨_, _, hk, _, _, hu⟩ := he
    refine ⟨fun u' hm => h.stock.bound_not_pooled k u' hm (h.retained_pooled hk), ?_⟩
    exact fun k' hm => hu (mem_ekmObjects.mpr ⟨k', hm⟩)
  | allocVpn k' e =>
    cases hb
    obtain ⟨_, hn, _, _, hk, hep⟩ := he
    refine ⟨fun u' hm => h.stock.bound_not_pooled k u' hm (h.retained_pooled hk), ?_⟩
    intro k' hm
    have hlt := lt_nextEpoch.1 k' e hm
    have hle := (mem_allocEpochs hn hep).1
    omega
  | _ => cases hb

/-- The epoch moves forward only, and an activation moves it. -/
theorem apply_epoch {ev : Event} (h : Inv dom rules s) (he : ev.Enabled dom rules s) :
    s.epoch ≤ (ev.apply rules s).epoch ∧
      ∀ k e, ev.activated rules s = some (k, e) →
        s.epoch < e ∧ e = (ev.apply rules s).epoch ∧
          (k, Target.vpn e) ∈ (ev.apply rules s).bindings := by
  cases ev with
  | allocVpn k e =>
    obtain ⟨_, hn, _, _, _, hep⟩ := he
    -- the next epoch is past the current one, in every reading
    have hlt : s.epoch < e := Nat.lt_of_lt_of_le lt_nextEpoch.2 (mem_allocEpochs hn hep).1
    simp only [Event.apply, Event.activated, allocVpnOne]
    split
    · refine ⟨Nat.le_of_lt hlt, ?_⟩
      rintro _ _ ⟨⟩
      exact ⟨hlt, rfl, Finset.mem_insert_self ..⟩
    · exact ⟨by simp, by rintro _ _ ⟨⟩⟩
  | activateVpn =>
    obtain ⟨_, k, e, hp, hlt⟩ := he
    simp only [Event.apply, Event.activated, hp]
    refine ⟨Nat.le_of_lt hlt, ?_⟩
    rintro _ _ ⟨⟩
    exact ⟨hlt, rfl, (h.control.kp_bound k e hp).1⟩
  | abandonPending =>
    obtain ⟨_, k, e, hp⟩ := he
    have hlt := (h.control.kp_bound k e hp).2
    simp only [Event.apply, Event.activated, hp]
    refine ⟨?_, by rintro _ _ ⟨⟩⟩
    -- the epoch of an abandoned key is consumed or not
    split
    · exact Nat.le_of_lt hlt
    · exact Nat.le_refl _
  | ingest k => exact ⟨by simp [Event.apply], by rintro _ _ ⟨⟩⟩
  | expire k =>
    refine ⟨?_, by rintro _ _ ⟨⟩⟩
    simp only [Event.apply, expireOne]
    split <;> simp
  | allocEkm k v => exact ⟨by simp [Event.apply], by rintro _ _ ⟨⟩⟩
  | sessionEnd | rejectStale _ | authorityGrant | reconcile =>
    exact ⟨Nat.le_refl _, by rintro _ _ ⟨⟩⟩
  | srcDown | srcUp | ekmDown | ekmUp | authorityWithdraw | recover =>
    refine ⟨Nat.le_of_eq ?_, by rintro _ _ ⟨⟩⟩
    simp only [Event.apply, interrupt, restore, withdrawn, recovered]
    repeat' split
    all_goals rfl

/-! ## What a run leaves behind -/

/-- Two events bind different identifiers to different targets, and the
later one does not ingest what the earlier one bound. -/
def Event.Apart (a b : Event) : Prop :=
  ∀ k u, a.bound = some (k, u) →
    b ≠ .ingest k ∧ ∀ k' u', b.bound = some (k', u') → k' ≠ k ∧ u' ≠ u

/-- The events of a run are still visible in the state it ends in. -/
structure History (dom : Domain) (rules : Rules) (evs : List Event) (s : State) : Prop where
  inv : Inv dom rules s
  bound : ∀ ev ∈ evs, ∀ b, ev.bound = some b → b ∈ s.bindings
  apart : evs.Pairwise Event.Apart
  active : ∀ a ∈ activations rules initial evs, (a.1, Target.vpn a.2) ∈ s.bindings ∧ a.2 ≤ s.epoch
  rising : (activations rules initial evs).Pairwise fun a b => a.2 < b.2 ∧ a.1 ≠ b.1

theorem history_initial : History dom rules [] initial where
  inv := inv_initial dom rules
  bound := by
    rintro _ ⟨⟩
  apart := .nil
  active := by
    rintro _ ⟨⟩
  rising := .nil

theorem bindings_subset (s : State) (ev : Event) : s.bindings ⊆ (ev.apply rules s).bindings := by
  rw [apply_bindings]
  cases ev.bound with
  | none => exact Finset.Subset.refl _
  | some b => exact Finset.subset_insert _ _

/-- An earlier event is apart from the one that is enabled now. -/
theorem History.apart_next {evs : List Event} (h : History dom rules evs s) {ev : Event}
    (he : ev.Enabled dom rules s) : ∀ a ∈ evs, a.Apart ev := by
  intro a ha k u hb
  have hm := h.bound a ha _ hb
  constructor
  · rintro rfl
    exact he.2.2.2.2.1 (mem_consumed.mpr ⟨u, hm⟩)
  · intro k' u' hb'
    obtain ⟨hid, htarget⟩ := bound_new h.inv he hb'
    constructor
    · rintro rfl
      exact hid u hm
    · rintro rfl
      exact htarget k hm

/-- **One more event.** -/
theorem history_step {evs : List Event} (h : History dom rules evs s)
    (hs : s = after rules initial evs) {ev : Event} (he : ev.Enabled dom rules s) :
    History dom rules (evs ++ [ev]) (ev.apply rules s) := by
  obtain ⟨hle, hact⟩ := apply_epoch h.inv he
  have hsub : s.bindings ⊆ (ev.apply rules s).bindings := bindings_subset s ev
  refine ⟨inv_apply h.inv he, ?_, ?_, ?_, ?_⟩
  · intro a ha b hb
    rcases List.mem_append.mp ha with ha | ha
    · exact hsub (h.bound a ha b hb)
    · rw [List.mem_singleton.mp ha] at hb
      rw [apply_bindings, hb]
      exact Finset.mem_insert_self ..
  · refine List.pairwise_append.mpr ⟨h.apart, List.pairwise_singleton .., ?_⟩
    intro a ha b hb
    exact List.mem_singleton.mp hb ▸ h.apart_next he a ha
  · intro a ha
    rw [activations_append, ← hs] at ha
    rcases List.mem_append.mp ha with ha | ha
    · obtain ⟨hm, hep⟩ := h.active a ha
      exact ⟨hsub hm, Nat.le_trans hep hle⟩
    · obtain ⟨_, hep, hm⟩ := hact a.1 a.2 (Option.mem_toList.mp ha)
      exact ⟨hm, Nat.le_of_eq hep⟩
  · rw [activations_append, ← hs]
    refine List.pairwise_append.mpr ⟨h.rising, ?_, ?_⟩
    · cases ev.activated rules s <;> simp
    · intro a ha b hb
      obtain ⟨hm, hep⟩ := h.active a ha
      obtain ⟨hlt, hep', hm'⟩ := hact b.1 b.2 (Option.mem_toList.mp hb)
      have hnew : a.2 < b.2 := by omega
      refine ⟨hnew, fun heq => ?_⟩
      -- an identifier has one binding, so the epochs would be equal too
      have hsame := Target.vpn.inj
        ((inv_apply h.inv he).stock.id_unique a.1 _ _ (hsub hm) (heq ▸ hm'))
      omega

theorem history_run {evs : List Event} (h : Run (Happens dom rules) initial evs s) :
    History dom rules evs s := by
  induction h with
  | nil => exact history_initial
  | snoc hr hs ih =>
    rw [hs.2]
    exact history_step ih (eq_after hr) hs.1

theorem grows_run {evs : List Event} (hi : Inv dom rules s) (h : Run (Happens dom rules) s evs t) :
    Inv dom rules t ∧ s.bindings ⊆ t.bindings ∧ s.epoch ≤ t.epoch := by
  induction h with
  | nil => exact ⟨hi, Finset.Subset.refl _, Nat.le_refl _⟩
  | snoc _ hs ih =>
    obtain ⟨hi, hsub, hle⟩ := ih
    rw [hs.2]
    exact ⟨inv_apply hi hs.1, hsub.trans (bindings_subset _ _),
      Nat.le_trans hle (apply_epoch hi hs.1).1⟩

end

/-- **Key freshness over whole runs**, under every reading. The labelled
runs of the model are the runs of its events. Along each of them the
bindings grow and the epoch does not decrease; an allocation takes an
identifier that no other one takes and no later event ingests, for a
purpose and object that no other one binds; and the epochs made
authoritative increase, each with an identifier of its own. -/
theorem key_freshness (dom : Domain) (rules : Rules) :
    (∀ s ls t, Run (Fires dom rules) s ls t ↔
      ∃ evs, ls = evs.map (Event.label rules) ∧ Run (Happens dom rules) s evs t) ∧
    ∀ evs s, Run (Happens dom rules) initial evs s →
      (∀ later t, Run (Happens dom rules) s later t →
        s.bindings ⊆ t.bindings ∧ s.epoch ≤ t.epoch) ∧
      evs.Pairwise (fun a b => ∀ k u, a.bound = some (k, u) →
        b ≠ .ingest k ∧ ∀ k' u', b.bound = some (k', u') → k' ≠ k ∧ u' ≠ u) ∧
      (activations rules initial evs).Pairwise (fun a b => a.2 < b.2 ∧ a.1 ≠ b.1) := by
  refine ⟨fun s ls t => run_fires_iff, fun evs s h => ?_⟩
  have hist := history_run h
  refine ⟨fun later t hl => ?_, hist.apart, hist.rising⟩
  exact (grows_run hist.inv hl).2

end QkdEkm.Model
