import Mathlib.Algebra.BigOperators.Group.Finset.Powerset
import QkdEkm.Lib.Subsets
import QkdEkm.Model.Count
import QkdEkm.Model.Labels

/-!
# Census — sums over the calibrated states

The codes of `Count` turn a sum over the reachable states into one over
versions, epochs, matchings and choices. Here a quantity of a state is
summed that way: `sum_codes` takes the sum apart, and what remains for
each quantity is its sum over the choices left by given bindings.
-/

namespace QkdEkm.Model

open QkdEkm.Lib

/-! ## What the bindings and the choices say of the control fields -/

theorem Latest.epoch_eq {bound : Finset Binding} {es : Finset Nat}
    {kv : Option (String × Nat)} {epoch : Nat} (h : Latest bound es kv epoch) :
    epoch = top es := by
  rcases h with ⟨rfl, _, rfl⟩ | ⟨hg, _⟩
  · rfl
  · exact (top_eq hg).symm

theorem Latest.isSome_iff {bound : Finset Binding} {es : Finset Nat}
    {kv : Option (String × Nat)} {epoch : Nat} (h : Latest bound es kv epoch) :
    kv.isSome ↔ es.Nonempty := by
  rcases h with ⟨rfl, rfl, _⟩ | ⟨hg, k, _, rfl⟩
  · simp
  · exact ⟨fun _ => ⟨epoch, hg.1⟩, fun _ => rfl⟩

/-- The active epoch: the greatest bound one, or the next if that is
pending. -/
def activeEpoch (pending : Bool) (T : Finset Nat) : Nat := if pending then second T else top T

section

variable {bound : Finset Binding} {kp kv : Option (String × Nat)} {epoch : Nat}

theorem Sessions.epoch_eq (h : Sessions bound kp kv epoch) :
    epoch = activeEpoch kp.isSome (epochs bound) := by
  cases kp with
  | none => exact Latest.epoch_eq h
  | some p =>
    obtain ⟨hg, _, hl⟩ := h
    have hm : top (epochs bound) = p.2 := top_eq hg
    rw [hl.epoch_eq, activeEpoch, second, hm]
    rfl

theorem Sessions.epoch_le (h : Sessions bound kp kv epoch) : epoch ≤ top (epochs bound) := by
  rw [h.epoch_eq, activeEpoch]
  split
  · exact Finset.sup_mono (Finset.erase_subset _ _)
  · exact Nat.le_refl _

/-- A session is active unless no epoch is bound or the only one is
pending. -/
theorem Sessions.active_iff (h : Sessions bound kp kv epoch) :
    kv.isSome ↔ (if kp.isSome then 1 else 0) < (epochs bound).card := by
  cases kp with
  | none =>
    rw [Latest.isSome_iff h, ← Finset.card_pos]
    rfl
  | some p =>
    obtain ⟨hg, _, hl⟩ := h
    rw [hl.isSome_iff, ← Finset.card_pos, Finset.card_erase_of_mem (Finset.mem_coe.mp hg.1)]
    simp only [Option.isSome_some, if_true]
    omega

end

theorem ActiveVersion.isSome_iff {bound : Finset Binding} {ke : Option String}
    (h : ActiveVersion bound ke) : ke.isSome ↔ 0 < (versions bound).card := by
  rw [Finset.card_pos]
  cases ke with
  | none =>
    refine ⟨fun hn => absurd hn Bool.false_ne_true, fun ⟨v, hv⟩ => ?_⟩
    obtain ⟨k, hk⟩ := mem_versions.mp hv
    exact absurd hk (h k v)
  | some v =>
    obtain ⟨k, hk⟩ := h
    exact ⟨fun _ => ⟨v, mem_versions.mpr ⟨k, hk⟩⟩, fun _ => rfl⟩

/-! ## Sums over the codes -/

section

variable {dom : Domain}

/-- **A sum over the codes**, by the numbers of the versions and of the
epochs that are bound: `F` sums over the choices and `G` over the sets of
epochs. -/
theorem sum_codes (hids : dom.ids.Nodup) (hver : dom.versions.Nodup)
    {f : (Σ _ : Finset Binding, Choice) → Nat} {F : Nat → Finset Nat → Nat} {G : Nat → Nat → Nat}
    (hF : ∀ (S : Finset String) (T : Finset Nat),
      ∀ bound ∈ covering dom.ids.toFinset (targetsOf S T),
        ∑ x ∈ choices dom bound, f ⟨bound, x⟩ = (if S.card = 0 then 1 else S.card) * F S.card T)
    (hG : ∀ ne nv, ∑ T ∈ (Finset.Icc 1 dom.maxEpoch).powersetCard nv, F ne T = G ne nv) :
    ∑ c ∈ codes dom, f c =
      ∑ p ∈ (Finset.range (dom.versions.length + 1) ×ˢ Finset.range (dom.maxEpoch + 1)).filter
          (fun p => p.1 + p.2 ≤ dom.ids.length),
        versionVariants dom.versions.length p.1 * dom.ids.length.descFactorial (p.1 + p.2) *
          G p.1 p.2 := by
  have hover : ∀ S T, ∑ m ∈ covering dom.ids.toFinset (targetsOf S T),
      ∑ x ∈ choices dom m, f ⟨m, x⟩ = dom.ids.length.descFactorial (S.card + T.card) *
        ((if S.card = 0 then 1 else S.card) * F S.card T) := by
    intro S T
    rw [Finset.sum_const_nat (hF S T), card_covering, card_targetsOf,
      List.toFinset_card_of_nodup hids]
  rw [codes, Finset.sum_sigma, sum_matchings, sum_bindable]
  simp only [hover]
  rw [Finset.sum_powerset_apply_card (fun ne => ∑ T ∈ (Finset.Icc 1 dom.maxEpoch).powerset,
    dom.ids.length.descFactorial (ne + T.card) * ((if ne = 0 then 1 else ne) * F ne T)),
    List.toFinset_card_of_nodup hver, Finset.sum_filter, Finset.sum_product]
  simp only [nsmul_eq_mul, Nat.cast_id]
  refine Finset.sum_congr rfl fun ne _ => ?_
  rw [Finset.sum_powerset, Nat.card_Icc, Nat.add_sub_cancel, Finset.mul_sum]
  refine Finset.sum_congr rfl fun nv _ => ?_
  have hsize : ∀ T ∈ (Finset.Icc 1 dom.maxEpoch).powersetCard nv,
      dom.ids.length.descFactorial (ne + T.card) * ((if ne = 0 then 1 else ne) * F ne T) =
        dom.ids.length.descFactorial (ne + nv) * (if ne = 0 then 1 else ne) * F ne T := by
    intro T hT
    rw [(Finset.mem_powersetCard.mp hT).2, Nat.mul_assoc]
  have hvariants : versionVariants dom.versions.length ne =
      dom.versions.length.choose ne * if ne = 0 then 1 else ne := by
    by_cases hne : ne = 0 <;> simp [versionVariants, hne, Nat.mul_comm]
  rw [Finset.sum_congr rfl hsize, ← Finset.mul_sum, hG]
  by_cases hle : ne + nv ≤ dom.ids.length
  · rw [if_pos hle, hvariants]
    ring
  · have hnone := Nat.descFactorial_eq_zero_iff_lt.mpr (Nat.lt_of_not_le hle)
    simp [hle, hnone]

/-- A sum over the choices of what does not depend on the active version. -/
theorem sum_choices (bound : Finset Binding)
    (g : Finset String → Bool → Bool × Bool × Bool × Bool → Nat) :
    ∑ x ∈ choices dom bound, g x.1 x.2.2.1 x.2.2.2 =
      (if (versions bound).card = 0 then 1 else (versions bound).card) *
        ∑ pending ∈ pendings bound,
          ∑ pool ∈ (dom.ids.toFinset \ bound.image Prod.fst).powerset,
            ∑ flags, g pool pending flags := by
  rw [choices, Finset.sum_product_right, Finset.sum_product]
  dsimp only
  rw [Finset.sum_const, card_activeVersions, nsmul_eq_mul, Nat.cast_id, Finset.sum_product]
  exact congrArg _ (Finset.sum_congr rfl fun _ _ => Finset.sum_comm)

/-- A sum over the reachable states is a sum over the codes. -/
theorem sum_reached (f : (Σ _ : Finset Binding, Choice) → Nat) :
    ∑ s ∈ (finite_reached dom defaultRules).toFinset, f (code s) = ∑ c ∈ codes dom, f c := by
  have hbij := code_bijOn dom
  refine Finset.sum_nbij code ?_ ?_ ?_ fun _ _ => rfl
  · intro s hs
    exact hbij.mapsTo (reached_iff.mp ((finite_reached dom defaultRules).mem_toFinset.mp hs))
  · intro s hs s' hs' heq
    exact hbij.injOn (reached_iff.mp ((finite_reached dom defaultRules).mem_toFinset.mp hs))
      (reached_iff.mp ((finite_reached dom defaultRules).mem_toFinset.mp hs')) heq
  · intro c hc
    obtain ⟨s, hs, rfl⟩ := hbij.surjOn hc
    exact ⟨s, (finite_reached dom defaultRules).mem_toFinset.mpr (reached_iff.mpr hs), rfl⟩

end

end QkdEkm.Model
