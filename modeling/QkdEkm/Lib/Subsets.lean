import Mathlib.Data.Nat.Choose.Sum
import Mathlib.Order.Interval.Finset.Nat
import Mathlib.Order.Lattice.Nat
import Mathlib.Tactic.Ring

/-!
# Subsets — sums over the subsets of an interval

Counting labelled steps needs more than the number of `k`-subsets of
`1..n`: it needs the sum of their greatest elements, of the second
greatest ones, and of the room that is left above them. Each is a
binomial coefficient up to a factor, by induction on `n`: the `k + 1`
subsets of `1..n + 1` are those of `1..n` and the `k`-subsets with
`n + 1` put in.
-/

namespace QkdEkm.Lib

/-- The greatest element; zero if there is none. -/
def top (T : Finset Nat) : Nat := T.sup id

/-- The greatest element but one; zero if there is none. -/
def second (T : Finset Nat) : Nat := top (T.erase (top T))

theorem le_top {T : Finset Nat} {m : Nat} (h : m ∈ T) : m ≤ top T :=
  Finset.le_sup (f := id) h

theorem top_le {T : Finset Nat} {n : Nat} (h : T ⊆ Finset.Icc 1 n) : top T ≤ n :=
  Finset.sup_le fun _ hm => (Finset.mem_Icc.mp (h hm)).2

theorem top_eq {T : Finset Nat} {m : Nat} (h : IsGreatest (T : Set Nat) m) : top T = m := by
  refine Nat.le_antisymm (Finset.sup_le fun i hi => h.2 hi) (le_top h.1)

@[simp] theorem top_empty : top ∅ = 0 := rfl

section Above

variable {T : Finset Nat} {n : Nat} (h : T ⊆ Finset.Icc 1 n)
include h

theorem succ_notMem : n + 1 ∉ T := by
  intro hm
  have := (Finset.mem_Icc.mp (h hm)).2
  omega

theorem top_insert_succ : top (insert (n + 1) T) = n + 1 := by
  refine top_eq ⟨Finset.mem_coe.mpr (Finset.mem_insert_self ..), ?_⟩
  intro m hm
  rcases Finset.mem_insert.mp hm with rfl | hm
  · exact Nat.le_refl _
  · have := (Finset.mem_Icc.mp (h hm)).2
    omega

theorem second_insert_succ : second (insert (n + 1) T) = top T := by
  rw [second, top_insert_succ h, Finset.erase_insert (succ_notMem h)]

end Above

/-- **The recurrence of the sums over subsets of one size.** -/
theorem sum_powersetCard_succ (k n : Nat) (f : Finset Nat → Nat) :
    ∑ T ∈ (Finset.Icc 1 (n + 1)).powersetCard (k + 1), f T =
      ∑ T ∈ (Finset.Icc 1 n).powersetCard (k + 1), f T +
        ∑ T ∈ (Finset.Icc 1 n).powersetCard k, f (insert (n + 1) T) := by
  have hset : Finset.Icc 1 (n + 1) = insert (n + 1) (Finset.Icc 1 n) := by
    ext m
    simp only [Finset.mem_Icc, Finset.mem_insert]
    omega
  have hsub : ∀ {j : Nat} {T : Finset Nat}, T ∈ (Finset.Icc 1 n).powersetCard j →
      T ⊆ Finset.Icc 1 n := fun hT => (Finset.mem_powersetCard.mp hT).1
  rw [hset, Finset.powersetCard_succ_insert (succ_notMem (Finset.Subset.refl _)),
    Finset.sum_union, Finset.sum_image]
  · intro T hT T' hT' heq
    have h := congrArg (Finset.erase · (n + 1)) heq
    simpa only [Finset.erase_insert (succ_notMem (hsub hT)),
      Finset.erase_insert (succ_notMem (hsub hT'))] using h
  · rw [Finset.disjoint_left]
    intro T hT hT'
    obtain ⟨T', _, rfl⟩ := Finset.mem_image.mp hT'
    exact succ_notMem (hsub hT) (Finset.mem_insert_self ..)

theorem powersetCard_none (k : Nat) : (∅ : Finset Nat).powersetCard (k + 1) = ∅ :=
  Finset.powersetCard_eq_empty.mpr (Nat.succ_pos k)

/-- The room above the subsets of one size. -/
theorem sum_room (k n : Nat) :
    ∑ T ∈ (Finset.Icc 1 n).powersetCard k, (n - top T) = n.choose (k + 1) := by
  induction n generalizing k with
  | zero => cases k <;> simp
  | succ n ih =>
    cases k with
    | zero => simp
    | succ k =>
      have hroom : ∀ T ∈ (Finset.Icc 1 n).powersetCard (k + 1), n + 1 - top T = n - top T + 1 := by
        intro T hT
        have := top_le (Finset.mem_powersetCard.mp hT).1
        omega
      have hnone : ∀ T ∈ (Finset.Icc 1 n).powersetCard k,
          n + 1 - top (insert (n + 1) T) = 0 := by
        intro T hT
        rw [top_insert_succ (Finset.mem_powersetCard.mp hT).1, Nat.sub_self]
      rw [sum_powersetCard_succ, Finset.sum_congr rfl hroom, Finset.sum_congr rfl hnone,
        Finset.sum_add_distrib, ih, Finset.sum_const_zero, Finset.sum_const,
        Finset.card_powersetCard, Nat.card_Icc, Nat.choose_succ_succ' n (k + 1)]
      simp only [nsmul_eq_mul, Nat.cast_id, Nat.add_sub_cancel, Nat.mul_one]
      omega

/-- The greatest elements of the subsets of one size. -/
theorem sum_top (k n : Nat) :
    ∑ T ∈ (Finset.Icc 1 n).powersetCard k, top T = k * (n + 1).choose (k + 1) := by
  induction n generalizing k with
  | zero => cases k <;> simp [powersetCard_none, Nat.choose_eq_zero_of_lt]
  | succ n ih =>
    cases k with
    | zero => simp
    | succ k =>
      have htop : ∀ T ∈ (Finset.Icc 1 n).powersetCard k, top (insert (n + 1) T) = n + 1 :=
        fun T hT => top_insert_succ (Finset.mem_powersetCard.mp hT).1
      have habsorb := Nat.add_one_mul_choose_eq n k
      rw [sum_powersetCard_succ, ih, Finset.sum_congr rfl htop, Finset.sum_const,
        Finset.card_powersetCard, Nat.card_Icc, Nat.add_sub_cancel, nsmul_eq_mul, Nat.cast_id,
        Nat.choose_succ_succ (n + 1) (k + 1), Nat.mul_comm (n.choose k), habsorb]
      ring

/-- The second greatest elements of the subsets of one size. -/
theorem sum_second (k n : Nat) :
    ∑ T ∈ (Finset.Icc 1 n).powersetCard (k + 1), second T = k * (n + 1).choose (k + 2) := by
  induction n generalizing k with
  | zero => simp [powersetCard_none, Nat.choose_eq_zero_of_lt]
  | succ n ih =>
    have hsecond : ∀ T ∈ (Finset.Icc 1 n).powersetCard k, second (insert (n + 1) T) = top T :=
      fun T hT => second_insert_succ (Finset.mem_powersetCard.mp hT).1
    rw [sum_powersetCard_succ, ih, Finset.sum_congr rfl hsecond, sum_top,
      Nat.choose_succ_succ (n + 1) (k + 1)]
    ring

/-- The sizes of all the subsets. -/
theorem two_mul_sum_card {α : Type*} [DecidableEq α] (A : Finset α) :
    2 * ∑ T ∈ A.powerset, T.card = A.card * 2 ^ A.card := by
  -- each subset against its complement
  have hcompl : ∑ T ∈ A.powerset, T.card = ∑ T ∈ A.powerset, (A \ T).card := by
    refine Finset.sum_nbij' (A \ ·) (A \ ·) ?_ ?_ ?_ ?_ ?_
    · exact fun T _ => Finset.mem_powerset.mpr Finset.sdiff_subset
    · exact fun T _ => Finset.mem_powerset.mpr Finset.sdiff_subset
    · exact fun T hT => Finset.sdiff_sdiff_eq_self (Finset.mem_powerset.mp hT)
    · exact fun T hT => Finset.sdiff_sdiff_eq_self (Finset.mem_powerset.mp hT)
    · exact fun T hT => by rw [Finset.sdiff_sdiff_eq_self (Finset.mem_powerset.mp hT)]
  have hpair : ∀ T ∈ A.powerset, T.card + (A \ T).card = A.card := by
    intro T hT
    have hsub := Finset.mem_powerset.mp hT
    have := Finset.card_le_card hsub
    rw [Finset.card_sdiff_of_subset hsub]
    omega
  calc 2 * ∑ T ∈ A.powerset, T.card
      = ∑ T ∈ A.powerset, T.card + ∑ T ∈ A.powerset, (A \ T).card := by omega
    _ = ∑ T ∈ A.powerset, A.card := by
        rw [← Finset.sum_add_distrib]
        exact Finset.sum_congr rfl hpair
    _ = A.card * 2 ^ A.card := by
        rw [Finset.sum_const, Finset.card_powerset, nsmul_eq_mul, Nat.cast_id, Nat.mul_comm]

end QkdEkm.Lib
