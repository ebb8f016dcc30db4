import QkdEkm.Model.Safety

/-!
# Shape — the states of the calibrated model, described

Under `defaultRules` a reachable state is any combination of the four
flags over an allocation core, and a core is described without mention
of any event. `Shape` is that description; this module proves that no
event leaves it, `Descent` that every such state is reached.
-/

namespace QkdEkm.Model

open QkdEkm.Lib

/-- The epochs that `bound` binds. -/
def epochs (bound : Finset Binding) : Finset Nat :=
  (bound.image fun b => b.2.epoch?).eraseNone

/-- The active version is a bound one, and absent only if none is bound. -/
def ActiveVersion (bound : Finset Binding) : Option String → Prop
  | none => ∀ k v, (k, Target.ekm v) ∉ bound
  | some v => ∃ k, (k, Target.ekm v) ∈ bound

/-- `kv` and `epoch` are the binding and the number of the greatest of
the epochs `es`; absent and zero if there is none. -/
def Latest (bound : Finset Binding) (es : Finset Nat) (kv : Option (String × Nat))
    (epoch : Nat) : Prop :=
  (es = ∅ ∧ kv = none ∧ epoch = 0) ∨
    (IsGreatest (es : Set Nat) epoch ∧ ∃ k, (k, Target.vpn epoch) ∈ bound ∧ kv = some (k, epoch))

/-- Either nothing is pending and the greatest bound epoch is active, or
the greatest is pending and the second greatest is active. -/
def Sessions (bound : Finset Binding) (kp kv : Option (String × Nat)) (epoch : Nat) : Prop :=
  match kp with
  | none => Latest bound (epochs bound) kv epoch
  | some (k, m) =>
    IsGreatest (epochs bound : Set Nat) m ∧ (k, Target.vpn m) ∈ bound ∧
      Latest bound ((epochs bound).erase m) kv epoch

/-- A state of the calibrated model; the four flags are free. -/
structure Shape (dom : Domain) (s : State) : Prop extends Inventory dom s.pool s.bindings where
  expired : s.expired = initial.expired
  suspended : s.suspended = initial.suspended
  detected : s.detected = initial.detected
  order : s.order = initial.order
  version : ActiveVersion s.bindings s.ke
  sessions : Sessions s.bindings s.kp s.kv s.epoch

/-! ## The bound epochs -/

theorem mem_epochs {bound : Finset Binding} {e : Nat} :
    e ∈ epochs bound ↔ ∃ k, (k, Target.vpn e) ∈ bound :=
  mem_vpnObjects (s := { bindings := bound })

theorem epochs_insert_vpn (bound : Finset Binding) (k : String) (e : Nat) :
    epochs (insert (k, .vpn e) bound) = insert e (epochs bound) := by
  ext e'
  simp only [mem_epochs, Finset.mem_insert, Prod.mk.injEq, Target.vpn.injEq]
  constructor
  · rintro ⟨j, ⟨_, rfl⟩ | hj⟩
    · exact .inl rfl
    · exact .inr ⟨j, hj⟩
  · rintro (rfl | ⟨j, hj⟩)
    · exact ⟨k, .inl ⟨rfl, rfl⟩⟩
    · exact ⟨j, .inr hj⟩

/-- `ActiveVersion` reads only the EKM bindings. -/
theorem ActiveVersion.congr {bound bound' : Finset Binding} {ke : Option String}
    (h : ActiveVersion bound ke)
    (hb : ∀ k v, (k, Target.ekm v) ∈ bound' ↔ (k, Target.ekm v) ∈ bound) :
    ActiveVersion bound' ke := by
  cases ke with
  | none => exact fun k v hm => h k v ((hb k v).mp hm)
  | some v =>
    obtain ⟨k, hk⟩ := h
    exact ⟨k, (hb k v).mpr hk⟩

/-- Some version can be active. -/
theorem exists_activeVersion (bound : Finset Binding) : ∃ ke, ActiveVersion bound ke := by
  by_cases h : ∃ k v, (k, Target.ekm v) ∈ bound
  · obtain ⟨k, v, hb⟩ := h
    exact ⟨some v, k, hb⟩
  · exact ⟨none, fun k v hb => h ⟨k, v, hb⟩⟩

/-! ## The latest of some epochs -/

section Latest

variable {bound : Finset Binding} {es : Finset Nat} {kv : Option (String × Nat)} {epoch : Nat}

theorem Latest.mono {bound' : Finset Binding} (h : Latest bound es kv epoch)
    (hsub : ∀ k, ∀ e ∈ es, (k, Target.vpn e) ∈ bound → (k, Target.vpn e) ∈ bound') :
    Latest bound' es kv epoch := by
  rcases h with h | ⟨hg, k, hb, rfl⟩
  · exact .inl h
  · exact .inr ⟨hg, k, hsub k epoch hg.1 hb, rfl⟩

/-- The latest epoch is below any bound of the epochs. -/
theorem Latest.lt (h : Latest bound es kv epoch) {m : Nat} (hm : 0 < m)
    (hlt : ∀ e ∈ es, e < m) : epoch < m := by
  rcases h with ⟨_, _, rfl⟩ | ⟨hg, _⟩
  · exact hm
  · exact hlt epoch hg.1

theorem Latest.zero (h : Latest bound es kv epoch) (hkv : kv = none) : epoch = 0 := by
  rcases h with ⟨_, _, rfl⟩ | ⟨_, j, _, rfl⟩
  · rfl
  · cases hkv

variable (bound) in
/-- Bound epochs have a latest one. -/
theorem exists_latest (hsub : es ⊆ epochs bound) : ∃ kv epoch, Latest bound es kv epoch := by
  rcases es.eq_empty_or_nonempty with rfl | hne
  · exact ⟨none, 0, .inl ⟨rfl, rfl, rfl⟩⟩
  · obtain ⟨k, hk⟩ := mem_epochs.mp (hsub (es.max'_mem hne))
    exact ⟨_, _, .inr ⟨es.isGreatest_max' hne, k, hk, rfl⟩⟩

/-- `Latest` and `Sessions` read only the VPN bindings. -/
theorem Sessions.congr {bound' : Finset Binding} {kp : Option (String × Nat)}
    (h : Sessions bound kp kv epoch)
    (hb : ∀ k e, (k, Target.vpn e) ∈ bound' ↔ (k, Target.vpn e) ∈ bound) :
    Sessions bound' kp kv epoch := by
  have hes : epochs bound' = epochs bound := by
    ext e
    simp only [mem_epochs, hb]
  unfold Sessions at h ⊢
  rw [hes]
  split at h
  · exact h.mono fun k e _ => (hb k e).mpr
  · exact ⟨h.1, (hb _ _).mpr h.2.1, h.2.2.mono fun k e _ => (hb k e).mpr⟩

/-- There is only one. -/
theorem Latest.unique {kv' : Option (String × Nat)} {epoch' : Nat}
    (hu : ∀ k k' t, (k, t) ∈ bound → (k', t) ∈ bound → k = k')
    (h : Latest bound es kv epoch) (h' : Latest bound es kv' epoch') :
    kv = kv' ∧ epoch = epoch' := by
  rcases h with ⟨rfl, rfl, rfl⟩ | ⟨hg, k, hk, rfl⟩
  · rcases h' with ⟨_, rfl, rfl⟩ | ⟨hg', _⟩
    · exact ⟨rfl, rfl⟩
    · simpa using hg'.1
  · rcases h' with ⟨rfl, _⟩ | ⟨hg', k', hk', rfl⟩
    · simpa using hg.1
    · obtain rfl := hg.unique hg'
      obtain rfl := hu k k' _ hk hk'
      exact ⟨rfl, rfl⟩

end Latest

/-! ## What `Shape` adds to the safety invariant -/

/-- The part of `Shape` that is peculiar to the calibrated reading. -/
structure Calibrated (s : State) : Prop where
  expired : s.expired = ∅
  suspended : s.suspended = false
  detected : s.detected = false
  version : ActiveVersion s.bindings s.ke
  sessions : Sessions s.bindings s.kp s.kv s.epoch

section Calibrated

variable {dom : Domain} {s : State}

theorem Inv.shape (h : Inv dom defaultRules s) (hc : Calibrated s) : Shape dom s where
  __ := h.stock.toInventory
  expired := hc.expired
  suspended := hc.suspended
  detected := hc.detected
  order := h.stock.no_order rfl
  version := hc.version
  sessions := hc.sessions

theorem calibrated_initial : Calibrated initial := by
  refine ⟨rfl, rfl, rfl, ?_, .inl ⟨rfl, rfl, rfl⟩⟩
  intro k v
  exact Finset.notMem_empty _

theorem mem_retained {k : String} : k ∈ retained s defaultRules ↔ k ∈ s.pool :=
  Finset.mem_sort _

theorem mem_allocEpochs_default {e : Nat} :
    e ∈ allocEpochs dom s defaultRules ↔ nextEpoch s ≤ e ∧ e ≤ dom.maxEpoch := by
  simp only [allocEpochs, defaultRules, if_true, List.mem_range'_1]
  omega

theorem apply_allocEkm (s : State) (k v : String) :
    (Event.allocEkm k v).apply defaultRules s =
      { s with pool := s.pool.erase k, bindings := insert (k, .ekm v) s.bindings, ke := some v } :=
  rfl

theorem apply_allocVpn (s : State) (k : String) (e : Nat) :
    (Event.allocVpn k e).apply defaultRules s =
      { s with
        pool := s.pool.erase k
        bindings := insert (k, .vpn e) s.bindings
        kp := some (k, e) } :=
  rfl

theorem calibrated_allocEkm (h : Calibrated s) (k v : String) :
    Calibrated ((Event.allocEkm k v).apply defaultRules s) := by
  rw [apply_allocEkm]
  refine ⟨h.expired, h.suspended, h.detected, ⟨k, Finset.mem_insert_self ..⟩, ?_⟩
  exact h.sessions.congr fun _ _ => by simp

/-- A new epoch is allocated past all the bound ones and left pending. -/
theorem calibrated_allocVpn (h : Calibrated s) {k : String} {e : Nat}
    (he : (Event.allocVpn k e).Enabled dom defaultRules s) :
    Calibrated ((Event.allocVpn k e).apply defaultRules s) := by
  obtain ⟨_, _, hkp, _, _, hep⟩ := he
  have hkp : s.kp = none := hkp.resolve_right (by simp [defaultRules])
  have hlt : ∀ e' ∈ epochs s.bindings, e' < e := by
    intro e' he'
    obtain ⟨j, hj⟩ := mem_epochs.mp he'
    have := lt_nextEpoch.1 j e' hj
    have := (mem_allocEpochs_default.mp hep).1
    omega
  rw [apply_allocVpn]
  have hs := h.sessions
  rw [hkp] at hs
  have hnew : e ∉ epochs s.bindings := fun hm => Nat.lt_irrefl e (hlt e hm)
  refine ⟨h.expired, h.suspended, h.detected, h.version.congr fun _ _ => by simp, ?_,
    Finset.mem_insert_self .., ?_⟩
  · rw [epochs_insert_vpn, Finset.coe_insert]
    refine ⟨Set.mem_insert _ _, ?_⟩
    rintro e' (rfl | he')
    · exact Nat.le_refl _
    · exact Nat.le_of_lt (hlt e' he')
  · rw [epochs_insert_vpn, Finset.erase_insert hnew]
    exact hs.mono fun _ _ _ hb => Finset.mem_insert_of_mem hb

/-- The pending epoch is the greatest, so once active it is the latest. -/
theorem calibrated_activateVpn (h : Calibrated s) :
    Calibrated (Event.activateVpn.apply defaultRules s) := by
  unfold Event.apply
  dsimp only
  split
  · rename_i k e hkp
    have hs := h.sessions
    rw [hkp] at hs
    exact ⟨h.expired, h.suspended, h.detected, h.version, .inr ⟨hs.1, k, hs.2.1, rfl⟩⟩
  · exact h

/-- **No event leaves the calibrated shape.** -/
theorem calibrated_apply {ev : Event} (h : Calibrated s)
    (he : ev.Enabled dom defaultRules s) : Calibrated (ev.apply defaultRules s) := by
  cases ev with
  | ingest k | expire k | srcDown | srcUp | ekmDown | ekmUp | authorityWithdraw
  | authorityGrant =>
    exact ⟨h.expired, h.suspended, h.detected, h.version, h.sessions⟩
  | allocEkm k v => exact calibrated_allocEkm h k v
  | allocVpn k e => exact calibrated_allocVpn h he
  | activateVpn => exact calibrated_activateVpn h
  | abandonPending | sessionEnd | reconcile => exact absurd he.1 (by decide)
  | rejectStale e => exact h
  | recover => exact ⟨h.expired, rfl, h.detected, h.version, h.sessions⟩

/-- Every reachable state of the calibrated model has the shape. -/
theorem shape_reached (h : Reached dom defaultRules s) : Shape dom s := by
  have hc : Calibrated s := h.invariant calibrated_initial fun _ _ _ hc hf => by
    obtain ⟨ev, he, _, rfl⟩ := fires_iff.mp hf
    exact calibrated_apply hc he
  exact (inv_reached h).shape hc

end Calibrated

end QkdEkm.Model
