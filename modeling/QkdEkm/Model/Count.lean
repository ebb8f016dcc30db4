import Mathlib.Data.Nat.Choose.Sum
import Mathlib.Order.Interval.Set.Nat
import Mathlib.Tactic.Ring
import QkdEkm.Lib.Matching
import QkdEkm.Model.Descent
import QkdEkm.Model.Exact

/-!
# Count — the closed form of the number of states

A state of the calibrated shape is a matching between identifiers and
targets together with independent choices: a part of the identifiers
left over for the pool, an active version, whether the newest epoch is
pending, and four flags. `code` reads them off a state, `code_bijOn`
says that they determine it, and what is left is to count matchings.
-/

namespace QkdEkm.Model

open QkdEkm.Lib

/-! ## The closed form -/

/-- The choices of `ne` bound versions and the active one among them. -/
def versionVariants (V ne : Nat) : Nat := if ne = 0 then 1 else ne * V.choose ne

/-- The choices of `nv` bound epochs, the newest pending or activated. -/
def epochVariants (E nv : Nat) : Nat := if nv = 0 then 1 else 2 * E.choose nv

/-- The allocation cores over `n` identifiers, `V` versions and `E`
epochs. -/
def coreCount (n V E : Nat) : Nat :=
  ∑ p ∈ (Finset.range (V + 1) ×ˢ Finset.range (E + 1)).filter (fun p => p.1 + p.2 ≤ n),
    versionVariants V p.1 * epochVariants E p.2 * n.descFactorial (p.1 + p.2)
      * 2 ^ (n - p.1 - p.2)

def stateCount (n V E : Nat) : Nat := 16 * coreCount n V E

/-! ## Coding a state by its choices -/

/-- The versions that `bound` binds. -/
def versions (bound : Finset Binding) : Finset String :=
  (bound.image fun b => b.2.version?).eraseNone

theorem mem_versions {bound : Finset Binding} {v : String} :
    v ∈ versions bound ↔ ∃ k, (k, Target.ekm v) ∈ bound :=
  mem_ekmObjects (s := { bindings := bound })

/-- The targets that can be bound. -/
def bindable (dom : Domain) : Finset Target :=
  dom.versions.toFinset.image .ekm ∪ (Finset.Icc 1 dom.maxEpoch).image .vpn

/-- Pool, active version, pending, flags. -/
abbrev Choice := Finset String × Option String × Bool × (Bool × Bool × Bool × Bool)

def activeVersions (bound : Finset Binding) : Finset (Option String) :=
  if versions bound = ∅ then {none} else (versions bound).image some

def pendings (bound : Finset Binding) : Finset Bool :=
  if epochs bound = ∅ then {false} else Finset.univ

/-- What can be chosen once the bindings are fixed. -/
def choices (dom : Domain) (bound : Finset Binding) : Finset Choice :=
  (dom.ids.toFinset \ bound.image Prod.fst).powerset ×ˢ
    (activeVersions bound ×ˢ (pendings bound ×ˢ Finset.univ))

noncomputable def codes (dom : Domain) : Finset (Σ _ : Finset Binding, Choice) :=
  (matchings dom.ids.toFinset (bindable dom)).sigma (choices dom)

def code (s : State) : Σ _ : Finset Binding, Choice :=
  ⟨s.bindings, s.pool, s.ke, s.kp.isSome, s.sq, s.se, s.authority, s.recovery⟩

theorem mem_activeVersions {bound : Finset Binding} {ke : Option String} :
    ke ∈ activeVersions bound ↔ ActiveVersion bound ke := by
  have hempty : versions bound = ∅ ↔ ∀ k v, (k, Target.ekm v) ∉ bound := by
    rw [Finset.eq_empty_iff_forall_notMem]
    simp only [mem_versions, not_exists]
    exact forall_comm
  unfold activeVersions
  split
  · rename_i h
    rw [Finset.mem_singleton]
    rcases ke with _ | v
    · exact ⟨fun _ => hempty.mp h, fun _ => rfl⟩
    · simpa [ActiveVersion] using fun k => hempty.mp h k v
  · rename_i h
    rw [Finset.mem_image]
    rcases ke with _ | v
    · simpa [ActiveVersion] using fun hn => h (hempty.mpr hn)
    · simp [ActiveVersion, mem_versions]

/-- Sessions are determined by the bindings and whether one is pending. -/
theorem Sessions.unique {bound : Finset Binding} {kp kp' kv kv' : Option (String × Nat)}
    {epoch epoch' : Nat} (hu : ∀ k k' t, (k, t) ∈ bound → (k', t) ∈ bound → k = k')
    (h : Sessions bound kp kv epoch) (h' : Sessions bound kp' kv' epoch')
    (hp : kp.isSome = kp'.isSome) : kp = kp' ∧ kv = kv' ∧ epoch = epoch' := by
  rcases kp with _ | ⟨k, m⟩ <;> rcases kp' with _ | ⟨k', m'⟩
  · exact ⟨rfl, Latest.unique hu h h'⟩
  · cases hp
  · cases hp
  · obtain ⟨hg, hb, hl⟩ := h
    obtain ⟨hg', hb', hl'⟩ := h'
    obtain rfl := hg.unique hg'
    obtain rfl := hu k k' _ hb hb'
    exact ⟨rfl, Latest.unique hu hl hl'⟩

theorem exists_sessions {bound : Finset Binding} {pending : Bool} (h : pending ∈ pendings bound) :
    ∃ kp kv epoch, Sessions bound kp kv epoch ∧ kp.isSome = pending := by
  unfold pendings at h
  cases pending with
  | false =>
    obtain ⟨kv, epoch, hl⟩ := exists_latest bound (Finset.Subset.refl _)
    exact ⟨none, kv, epoch, hl, rfl⟩
  | true =>
    split at h
    · simp at h
    · rename_i hne
      have hg := (epochs bound).isGreatest_max' (Finset.nonempty_iff_ne_empty.mpr hne)
      obtain ⟨k, hk⟩ := mem_epochs.mp hg.1
      obtain ⟨kv, epoch, hl⟩ := exists_latest bound (Finset.erase_subset _ _)
      exact ⟨some (k, _), kv, epoch, ⟨hg, hk, hl⟩, rfl⟩

theorem Sessions.mem_pendings {bound : Finset Binding} {kp kv : Option (String × Nat)}
    {epoch : Nat} (h : Sessions bound kp kv epoch) : kp.isSome ∈ pendings bound := by
  unfold pendings
  rcases kp with _ | ⟨k, m⟩
  · split <;> simp
  · rw [if_neg (Finset.ne_empty_of_mem (mem_epochs.mpr ⟨k, h.2.1⟩))]
    exact Finset.mem_univ _

section

variable {dom : Domain}

theorem mem_bindable {t : Target} : t ∈ bindable dom ↔
    (∃ v ∈ dom.versions, t = .ekm v) ∨ ∃ e, (1 ≤ e ∧ e ≤ dom.maxEpoch) ∧ t = .vpn e := by
  simp only [bindable, Finset.mem_union, Finset.mem_image, List.mem_toFinset, Finset.mem_Icc,
    eq_comm]

/-- The inventories are the matchings with a pool from what is left. -/
theorem inventory_iff {pool : Finset String} {bound : Finset Binding} :
    Inventory dom pool bound ↔ bound ∈ matchings dom.ids.toFinset (bindable dom) ∧
      pool ⊆ dom.ids.toFinset \ bound.image Prod.fst := by
  rw [mem_matchings]
  constructor
  · intro h
    refine ⟨⟨?_, h.id_unique, h.target_unique⟩, ?_⟩
    · rintro ⟨k, t⟩ hb
      refine Finset.mem_product.mpr ⟨List.mem_toFinset.mpr (h.bound_ids k t hb), ?_⟩
      rw [mem_bindable]
      cases t with
      | ekm v => exact .inl ⟨v, h.bound_versions k v hb, rfl⟩
      | vpn e => exact .inr ⟨e, h.bound_epochs k e hb, rfl⟩
    · intro k hk
      rw [Finset.mem_sdiff, List.mem_toFinset]
      refine ⟨h.pool_ids k hk, fun hm => ?_⟩
      obtain ⟨⟨_, t⟩, hb, rfl⟩ := Finset.mem_image.mp hm
      exact h.bound_not_pooled _ t hb hk
  · rintro ⟨⟨hsub, hm⟩, hpool⟩
    have htarget : ∀ k t, (k, t) ∈ bound → t ∈ bindable dom :=
      fun k t hb => (Finset.mem_product.mp (hsub hb)).2
    have hleft : ∀ k ∈ pool, k ∈ dom.ids ∧ ∀ t, (k, t) ∉ bound := by
      intro k hk
      obtain ⟨hi, hn⟩ := Finset.mem_sdiff.mp (hpool hk)
      exact ⟨List.mem_toFinset.mp hi, fun t hb => hn (Finset.mem_image.mpr ⟨_, hb, rfl⟩)⟩
    refine ⟨fun k hk => (hleft k hk).1, fun k t hb => ?_, fun k v hb => ?_, fun k e hb => ?_,
      hm.left_unique, hm.right_unique, fun k t hb hk => (hleft k hk).2 t hb⟩
    · exact List.mem_toFinset.mp (Finset.mem_product.mp (hsub hb)).1
    · simpa using mem_bindable.mp (htarget k _ hb)
    · simpa using mem_bindable.mp (htarget k _ hb)

/-- **A state of the calibrated shape is its code.** -/
theorem code_bijOn (dom : Domain) : Set.BijOn code {s | Shape dom s} (codes dom) := by
  refine ⟨?_, ?_, ?_⟩
  · intro s h
    obtain ⟨hm, hpool⟩ := inventory_iff.mp h.toInventory
    simp only [codes, code, Finset.coe_sigma, Set.mem_sigma_iff, Finset.mem_coe]
    refine ⟨hm, ?_⟩
    simp only [choices, Finset.mem_product, Finset.mem_powerset, Finset.mem_univ, and_true]
    exact ⟨hpool, mem_activeVersions.mpr h.version, h.sessions.mem_pendings⟩
  · intro s h s' h' heq
    simp only [code, Sigma.mk.injEq, heq_eq_eq, Prod.mk.injEq] at heq
    obtain ⟨hb, hpool, hke, hkp, hsq, hse, ha, hr⟩ := heq
    obtain ⟨hkp, hkv, hep⟩ := h.sessions.unique h.target_unique (hb ▸ h'.sessions) hkp
    have hx := h.expired.trans h'.expired.symm
    have hsu := h.suspended.trans h'.suspended.symm
    have hd := h.detected.trans h'.detected.symm
    have ho := h.order.trans h'.order.symm
    cases s
    cases s'
    simp only at *
    subst_vars
    rfl
  · rintro ⟨bound, pool, ke, pending, sq, se, authority, recovery⟩ hc
    simp only [codes, Finset.coe_sigma, Set.mem_sigma_iff, Finset.mem_coe, choices,
      Finset.mem_product, Finset.mem_powerset, Finset.mem_univ, and_true] at hc
    obtain ⟨hm, hpool, hke, hpend⟩ := hc
    obtain ⟨kp, kv, epoch, hs, rfl⟩ := exists_sessions hpend
    refine ⟨{ sq, se, pool, bindings := bound, ke, kp, kv, epoch, authority, recovery }, ?_, rfl⟩
    exact { inventory_iff.mpr ⟨hm, hpool⟩ with
      expired := rfl, suspended := rfl, detected := rfl, order := rfl
      version := mem_activeVersions.mp hke, sessions := hs }

/-! ## Counting the codes -/

theorem card_activeVersions (bound : Finset Binding) :
    (activeVersions bound).card =
      if (versions bound).card = 0 then 1 else (versions bound).card := by
  unfold activeVersions
  simp only [Finset.card_eq_zero]
  split
  · rfl
  · exact Finset.card_image_of_injective _ (Option.some_injective _)

theorem card_pendings (bound : Finset Binding) :
    (pendings bound).card = if (epochs bound).card = 0 then 1 else 2 := by
  unfold pendings
  simp only [Finset.card_eq_zero]
  split <;> rfl

/-- The targets of the versions `S` and the epochs `T`. -/
def targetsOf (S : Finset String) (T : Finset Nat) : Finset Target :=
  S.image .ekm ∪ T.image .vpn

theorem mem_targetsOf {S : Finset String} {T : Finset Nat} {t : Target} :
    t ∈ targetsOf S T ↔ (∃ v ∈ S, t = .ekm v) ∨ ∃ e ∈ T, t = .vpn e := by
  simp only [targetsOf, Finset.mem_union, Finset.mem_image, eq_comm]

theorem card_targetsOf (S : Finset String) (T : Finset Nat) :
    (targetsOf S T).card = S.card + T.card := by
  rw [targetsOf, Finset.card_union_of_disjoint, Finset.card_image_of_injective,
    Finset.card_image_of_injective]
  · intro a b h
    cases h
    rfl
  · intro a b h
    cases h
    rfl
  · rw [Finset.disjoint_left]
    intro t hs ht
    obtain ⟨_, _, rfl⟩ := Finset.mem_image.mp hs
    simp at ht

/-- A matching that covers `S` and `T` binds exactly these. -/
theorem covering_objects {A : Finset String} {S : Finset String} {T : Finset Nat}
    {bound : Finset Binding} (hm : bound ∈ covering A (targetsOf S T)) :
    versions bound = S ∧ epochs bound = T := by
  have htarget : ∀ t, (∃ k, (k, t) ∈ bound) ↔ t ∈ targetsOf S T := by
    intro t
    rw [← (mem_covering.mp hm).2.2]
    simp
  constructor
  · ext v
    rw [mem_versions, htarget, mem_targetsOf]
    simp
  · ext e
    rw [mem_epochs, htarget, mem_targetsOf]
    simp

theorem card_covering_bound {A : Finset String} {S : Finset String} {T : Finset Nat}
    {bound : Finset Binding} (hm : bound ∈ covering A (targetsOf S T)) :
    bound.card = S.card + T.card := by
  obtain ⟨_, hmatch, hcov⟩ := mem_covering.mp hm
  rw [← hmatch.card_image_snd, hcov, card_targetsOf]

/-- The bindings use up an identifier each. -/
theorem card_left (hids : dom.ids.Nodup) {W : Finset Target} {bound : Finset Binding}
    (hm : bound ∈ matchings dom.ids.toFinset W) :
    bound.card ≤ dom.ids.length ∧
      (dom.ids.toFinset \ bound.image Prod.fst).card = dom.ids.length - bound.card := by
  obtain ⟨hsub, hmatch⟩ := mem_matchings.mp hm
  have himage : bound.image Prod.fst ⊆ dom.ids.toFinset := by
    intro k hk
    obtain ⟨b, hb, rfl⟩ := Finset.mem_image.mp hk
    exact (Finset.mem_product.mp (hsub hb)).1
  have hle := Finset.card_le_card himage
  rw [hmatch.card_image_fst, List.toFinset_card_of_nodup hids] at hle
  refine ⟨hle, ?_⟩
  rw [Finset.card_sdiff_of_subset himage, hmatch.card_image_fst,
    List.toFinset_card_of_nodup hids]

/-- The choices over a matching that covers `S` and `T`. -/
theorem card_choices (hids : dom.ids.Nodup) {S : Finset String} {T : Finset Nat}
    {bound : Finset Binding} (hm : bound ∈ covering dom.ids.toFinset (targetsOf S T)) :
    (choices dom bound).card = 2 ^ (dom.ids.length - S.card - T.card) *
      ((if S.card = 0 then 1 else S.card) * ((if T.card = 0 then 1 else 2) * 16)) := by
  obtain ⟨hv, he⟩ := covering_objects hm
  have hleft := (card_left hids (covering_subset (Finset.Subset.refl _) hm)).2
  rw [card_covering_bound hm, ← Nat.sub_sub] at hleft
  rw [choices, Finset.card_product, Finset.card_product, Finset.card_product,
    Finset.card_powerset, card_activeVersions, card_pendings, hv, he, hleft]
  rfl

/-- Sets of targets are pairs of a set of versions and one of epochs. -/
theorem sum_bindable (f : Finset Target → Nat) :
    ∑ U ∈ (bindable dom).powerset, f U =
      ∑ S ∈ dom.versions.toFinset.powerset, ∑ T ∈ (Finset.Icc 1 dom.maxEpoch).powerset,
        f (targetsOf S T) := by
  rw [← Finset.sum_product']
  symm
  refine Finset.sum_nbij (fun p => targetsOf p.1 p.2) ?_ ?_ ?_ fun _ _ => rfl
  · rintro ⟨S, T⟩ hp
    obtain ⟨hS, hT⟩ := Finset.mem_product.mp hp
    exact Finset.mem_powerset.mpr (Finset.union_subset_union
      (Finset.image_subset_image (Finset.mem_powerset.mp hS))
      (Finset.image_subset_image (Finset.mem_powerset.mp hT)))
  · rintro ⟨S, T⟩ _ ⟨S', T'⟩ _ heq
    have hmem : ∀ t, t ∈ targetsOf S T ↔ t ∈ targetsOf S' T' := fun t => by
      rw [show targetsOf S T = targetsOf S' T' from heq]
    refine Prod.ext (Finset.ext fun v => ?_) (Finset.ext fun e => ?_)
    · simpa [mem_targetsOf] using hmem (.ekm v)
    · simpa [mem_targetsOf] using hmem (.vpn e)
  · intro U hU
    have hU := Finset.mem_powerset.mp hU
    refine ⟨(dom.versions.toFinset.filter (.ekm · ∈ U),
      (Finset.Icc 1 dom.maxEpoch).filter (.vpn · ∈ U)), ?_, ?_⟩
    · exact Finset.mem_product.mpr ⟨Finset.mem_powerset.mpr (Finset.filter_subset _ _),
        Finset.mem_powerset.mpr (Finset.filter_subset _ _)⟩
    · ext t
      have hb : t ∈ U → t ∈ bindable dom := fun h => hU h
      rw [mem_bindable] at hb
      rw [mem_targetsOf]
      simp only [Finset.mem_filter, List.mem_toFinset, Finset.mem_Icc]
      constructor
      · rintro (⟨v, ⟨_, hv⟩, rfl⟩ | ⟨e, ⟨_, he⟩, rfl⟩)
        · exact hv
        · exact he
      · intro ht
        rcases hb ht with ⟨v, hv, rfl⟩ | ⟨e, he, rfl⟩
        · exact .inl ⟨v, ⟨hv, ht⟩, rfl⟩
        · exact .inr ⟨e, ⟨he, ht⟩, rfl⟩

/-- The number of codes over `ne` given versions and `nv` given epochs. -/
def codesOver (n ne nv : Nat) : Nat :=
  n.descFactorial (ne + nv) * (2 ^ (n - ne - nv) *
    ((if ne = 0 then 1 else ne) * ((if nv = 0 then 1 else 2) * 16)))

/-- Summed over the ways to choose them, the codes make the closed form. -/
theorem sum_codesOver (n V E : Nat) :
    ∑ ne ∈ Finset.range (V + 1), V.choose ne * ∑ nv ∈ Finset.range (E + 1),
      E.choose nv * codesOver n ne nv = stateCount n V E := by
  have hzero : ∀ ne nv, ¬ ne + nv ≤ n → codesOver n ne nv = 0 := by
    intro ne nv h
    rw [codesOver, Nat.descFactorial_eq_zero_iff_lt.mpr (by omega), Nat.zero_mul]
  rw [stateCount, coreCount, Finset.sum_filter, Finset.sum_product, Finset.mul_sum]
  refine Finset.sum_congr rfl fun ne _ => ?_
  rw [Finset.mul_sum, Finset.mul_sum]
  refine Finset.sum_congr rfl fun nv _ => ?_
  split
  · simp only [codesOver, versionVariants, epochVariants]
    by_cases hne : ne = 0 <;> by_cases hnv : nv = 0 <;> simp [hne, hnv] <;> ring
  · rename_i h
    simp [hzero ne nv h]

theorem card_codes (hids : dom.ids.Nodup) (hver : dom.versions.Nodup) :
    (codes dom).card = stateCount dom.ids.length dom.versions.length dom.maxEpoch := by
  have hover : ∀ S T, ∑ m ∈ covering dom.ids.toFinset (targetsOf S T), (choices dom m).card
      = codesOver dom.ids.length S.card T.card := by
    intro S T
    rw [Finset.sum_const_nat fun m hm => card_choices hids hm, card_covering, card_targetsOf,
      List.toFinset_card_of_nodup hids, codesOver]
  rw [codes, Finset.card_sigma, sum_matchings, sum_bindable, ← sum_codesOver]
  simp only [hover]
  rw [Finset.sum_powerset_apply_card (fun ne => ∑ T ∈ (Finset.Icc 1 dom.maxEpoch).powerset,
    codesOver dom.ids.length ne T.card), List.toFinset_card_of_nodup hver]
  refine Finset.sum_congr rfl fun ne _ => ?_
  rw [Finset.sum_powerset_apply_card (codesOver dom.ids.length ne), Nat.card_Icc,
    Nat.add_sub_cancel]
  simp only [nsmul_eq_mul, Nat.cast_id]

/-- The states of the calibrated shape, counted. -/
theorem ncard_reached (hids : dom.ids.Nodup) (hver : dom.versions.Nodup) :
    {s | Reached dom defaultRules s}.ncard =
      stateCount dom.ids.length dom.versions.length dom.maxEpoch := by
  have hset : {s | Reached dom defaultRules s} = {s | Shape dom s} :=
    Set.ext fun _ => reached_iff
  rw [hset, ← (code_bijOn dom).injOn.ncard_image, (code_bijOn dom).image_eq,
    Set.ncard_coe_finset, card_codes hids hver]

end

/-- **The number of states of the calibrated model**, as the reachable
closure and as what the enumeration returns; for the declared domain it
is 45,824. -/
theorem calibrated_state_count (dom : Domain) (hids : dom.ids.Nodup)
    (hver : dom.versions.Nodup) :
    {s | Reached dom defaultRules s}.ncard =
        stateCount dom.ids.length dom.versions.length dom.maxEpoch ∧
    (∃ r, RunReturns dom defaultRules none r ∧ r.states.entries.length =
        stateCount dom.ids.length dom.versions.length dom.maxEpoch) ∧
    stateCount 4 2 3 = 45824 := by
  have hcount := ncard_reached hids hver
  obtain ⟨r, hr⟩ := run_returns dom defaultRules none
  refine ⟨hcount, ⟨r, hr, ?_⟩, by decide⟩
  have hbij := (exact_of_returns hr).index
  rw [← hcount, ← hbij.injOn.ncard_image, hbij.image_eq, Set.ncard_Iio_nat]

theorem calibrated_state_count_declared :
    {s | Reached declared defaultRules s}.ncard = 45824 :=
  have h := calibrated_state_count declared (by decide) (by decide)
  h.1.trans h.2.2

end QkdEkm.Model
