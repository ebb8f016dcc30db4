import QkdEkm.Model.Count

/-!
# Depth — the closed form of the greatest depth

`Descent` identifies the recorded depth of a state with its `cost`; here
the cost is maximised over the states of the shape. A matching of all
the epochs that find an identifier, then of all the versions that still
do, with every other identifier in the pool, attains the maximum.
-/

namespace QkdEkm.Model

open QkdEkm.Lib

/-- The greatest depth over `n` identifiers, `V` versions and `E` epochs. -/
def greatestDepth (n V E : Nat) : Nat := n + 5 + 2 * min E n + min V (n - min E n)

section

variable {dom : Domain} {bound : Finset Binding}

/-- The bindings of one purpose are as many as the objects they bind. -/
theorem card_purpose {α : Type} (h : IsMatching bound) (mk : α → Target)
    (hmk : Function.Injective mk) {p : Target → Bool} (hp : ∀ t, p t = true ↔ ∃ a, mk a = t)
    {as : Finset α} (has : ∀ a, a ∈ as ↔ ∃ k, (k, mk a) ∈ bound) :
    (bound.filter fun b => p b.2).card = as.card := by
  have himage : (bound.filter fun b => p b.2).image Prod.snd = as.image mk := by
    ext t
    simp only [Finset.mem_image, Finset.mem_filter, Prod.exists, exists_eq_right, has, hp]
    constructor
    · rintro ⟨k, hb, a, rfl⟩
      exact ⟨a, ⟨k, hb⟩, rfl⟩
    · rintro ⟨a, ⟨k, hb⟩, rfl⟩
      exact ⟨k, hb, a, rfl⟩
  have hinj : Set.InjOn Prod.snd (bound.filter fun b => p b.2 : Set Binding) := by
    rintro ⟨k, t⟩ hb ⟨k', t'⟩ hb' heq
    cases heq
    rw [h.right_unique k k' t (Finset.mem_of_mem_filter _ hb) (Finset.mem_of_mem_filter _ hb')]
  rw [← Finset.card_image_of_injOn hinj, himage, Finset.card_image_of_injective _ hmk]

theorem card_ekmBindings (h : IsMatching bound) :
    (ekmBindings bound).card = (versions bound).card := by
  refine card_purpose h .ekm (by rintro _ _ ⟨⟩; rfl) (fun t => ?_) fun v => mem_versions
  cases t <;> simp [Target.isEkm]

theorem card_vpnBindings (h : IsMatching bound) :
    (vpnBindings bound).card = (epochs bound).card := by
  refine card_purpose h .vpn (by rintro _ _ ⟨⟩; rfl) (fun t => ?_) fun e => mem_epochs
  cases t <;> simp [Target.isVpn]

theorem card_bound (bound : Finset Binding) :
    bound.card = (ekmBindings bound).card + (vpnBindings bound).card := by
  have hvpn : vpnBindings bound = bound.filter fun b => ¬ b.2.isEkm = true := by
    refine Finset.filter_congr fun b _ => ?_
    cases b.2 <;> simp [Target.isEkm, Target.isVpn]
  rw [hvpn, ekmBindings, Finset.card_filter_add_card_filter_not]

theorem Inventory.matching {pool : Finset String} (h : Inventory dom pool bound) :
    IsMatching bound :=
  ⟨h.id_unique, h.target_unique⟩

/-- Pool and bindings share out the identifiers. -/
theorem Inventory.card_le (hids : dom.ids.Nodup) {pool : Finset String}
    (h : Inventory dom pool bound) : pool.card + bound.card ≤ dom.ids.length := by
  obtain ⟨hm, hpool⟩ := inventory_iff.mp h
  obtain ⟨hle, hleft⟩ := card_left hids hm
  have := Finset.card_le_card hpool
  omega

theorem Inventory.versions_le (hver : dom.versions.Nodup) {pool : Finset String}
    (h : Inventory dom pool bound) : (versions bound).card ≤ dom.versions.length := by
  rw [← List.toFinset_card_of_nodup hver]
  refine Finset.card_le_card fun v hv => ?_
  obtain ⟨k, hb⟩ := mem_versions.mp hv
  exact List.mem_toFinset.mpr (h.bound_versions k v hb)

theorem Inventory.epochs_le {pool : Finset String} (h : Inventory dom pool bound) :
    (epochs bound).card ≤ dom.maxEpoch := by
  have hsub : epochs bound ⊆ Finset.Icc 1 dom.maxEpoch := by
    intro e he
    obtain ⟨k, hb⟩ := mem_epochs.mp he
    exact Finset.mem_Icc.mpr (h.bound_epochs k e hb)
  simpa using Finset.card_le_card hsub

/-- No state of the shape costs more. -/
theorem Shape.cost_le (hids : dom.ids.Nodup) (hver : dom.versions.Nodup) {s : State}
    (h : Shape dom s) :
    cost s ≤ greatestDepth dom.ids.length dom.versions.length dom.maxEpoch := by
  have hcard := h.card_le hids
  have hb := card_bound s.bindings
  have hv := h.versions_le hver
  have he := h.epochs_le
  have hflag : (if s.authority then 0 else 1) + flagCost s.sq s.se s.recovery ≤ 5 := by
    cases s.authority <;> cases s.sq <;> cases s.se <;> cases s.recovery <;> decide
  have hcore : coreCost s.pool s.bindings s.kp.isSome ≤ s.pool.card + s.bindings.card
      + (ekmBindings s.bindings).card + 2 * (vpnBindings s.bindings).card := Nat.sub_le _ _
  rw [card_ekmBindings h.matching, card_vpnBindings h.matching] at hb hcore
  unfold cost greatestDepth
  omega

/-- Some state of the shape costs as much. -/
theorem exists_cost_eq (hids : dom.ids.Nodup) (hver : dom.versions.Nodup) :
    ∃ s, Shape dom s ∧
      cost s = greatestDepth dom.ids.length dom.versions.length dom.maxEpoch := by
  have hn := List.toFinset_card_of_nodup hids
  have hV := List.toFinset_card_of_nodup hver
  have hE : (Finset.Icc 1 dom.maxEpoch).card = dom.maxEpoch := by simp
  obtain ⟨T, hT, hTcard⟩ := Finset.exists_subset_card_eq
    (hE ▸ Nat.min_le_left dom.maxEpoch dom.ids.length)
  obtain ⟨S, hS, hScard⟩ := Finset.exists_subset_card_eq
    (hV ▸ Nat.min_le_left dom.versions.length (dom.ids.length - min dom.maxEpoch dom.ids.length))
  -- as many epochs as identifiers allow, then as many versions as are left
  have hpos : 0 < (covering dom.ids.toFinset (targetsOf S T)).card := by
    rw [card_covering, card_targetsOf, hn, Nat.descFactorial_pos]
    omega
  obtain ⟨bound, hb⟩ := Finset.card_pos.mp hpos
  have hsub : targetsOf S T ⊆ bindable dom :=
    Finset.union_subset_union (Finset.image_subset_image hS) (Finset.image_subset_image hT)
  have hm := covering_subset hsub hb
  obtain ⟨ke, hke⟩ := exists_activeVersion bound
  obtain ⟨kv, epoch, hl⟩ := exists_latest bound (Finset.Subset.refl _)
  refine ⟨{
    sq := false, se := false, authority := false, recovery := true
    pool := dom.ids.toFinset \ bound.image Prod.fst
    bindings := bound, ke, kp := none, kv, epoch }, ?_, ?_⟩
  · exact { inventory_iff.mpr ⟨hm, Finset.Subset.refl _⟩ with
      expired := rfl, suspended := rfl, detected := rfl, order := rfl
      version := hke, sessions := hl }
  · obtain ⟨hv, he⟩ := covering_objects hb
    obtain ⟨hle, hleft⟩ := card_left hids hm
    have hcard := card_covering_bound hb
    have hmatch := (mem_matchings.mp hm).2
    simp only [cost, coreCost, flagCost, card_ekmBindings hmatch, card_vpnBindings hmatch, hleft,
      hv, he, greatestDepth]
    simp
    omega

end

/-- **The depth of the calibrated model**: the enumeration records every
reachable state at its cost, the greatest recorded depth is the closed
form, and for the declared domain it is sixteen. -/
theorem calibrated_depth (dom : Domain) (hids : dom.ids.Nodup) (hver : dom.versions.Nodup) :
    (∃ r, RunReturns dom defaultRules none r ∧
      (∀ s, Reached dom defaultRules s → r.states.lookup s = some (cost s)) ∧
      r.maxDepth = greatestDepth dom.ids.length dom.versions.length dom.maxEpoch) ∧
    greatestDepth 4 2 3 = 16 := by
  obtain ⟨r, hr⟩ := run_returns dom defaultRules none
  have hx := exact_of_returns hr
  refine ⟨⟨r, hr, fun s hs => (hx.states s _).mpr (reached_iff.mp hs).dist, ?_⟩, by decide⟩
  refine hx.maxDepth.unique ⟨?_, ?_⟩
  · obtain ⟨s, hs, hc⟩ := exists_cost_eq hids hver
    exact ⟨s, hc ▸ hs.dist⟩
  · rintro n ⟨s, hn⟩
    have hs := reached_iff.mp hn.reachable
    rw [hn.unique hs.dist]
    exact hs.cost_le hids hver

theorem calibrated_depth_declared :
    ∃ r, RunReturns declared defaultRules none r ∧ r.maxDepth = 16 := by
  obtain ⟨⟨r, hr, _, hmax⟩, hd⟩ := calibrated_depth declared (by decide) (by decide)
  exact ⟨r, hr, hmax.trans hd⟩

end QkdEkm.Model
