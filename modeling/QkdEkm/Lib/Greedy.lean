import Mathlib.Data.List.Basic
import Mathlib.Order.Bounds.Basic

/-!
# Greedy — matching a subsequence in one pass

`greedy e a` walks through `a` once and counts how much of `e` it meets,
always waiting for the next element of `e`. The count is the length of
the longest prefix of `e` that is a subsequence of `a`
(`greedy_isGreatest`). `greedyFrom` is the same walk with an index into
`e` for its state.
-/

namespace QkdEkm.Lib

universe u

variable {α : Type u} [DecidableEq α]

/-- How many leading elements of `e` occur in `a`, in order. -/
def greedy : List α → List α → Nat
  | [], _ => 0
  | _ :: _, [] => 0
  | x :: e, y :: a => if x = y then greedy e a + 1 else greedy (x :: e) a

/-- The walk through `a` with `k` elements of `e` already met. -/
def greedyFrom (e : List α) (k : Nat) (a : List α) : Nat :=
  a.foldl (fun k y => if e[k]? = some y then k + 1 else k) k

theorem greedy_nil_right (e : List α) : greedy e [] = 0 := by
  cases e <;> rfl

theorem greedyFrom_eq (e : List α) (k : Nat) (a : List α) :
    greedyFrom e k a = k + greedy (e.drop k) a := by
  induction a generalizing k with
  | nil => simp [greedyFrom, greedy_nil_right]
  | cons y a ih =>
    have hstep : greedyFrom e k (y :: a) =
        greedyFrom e (if e[k]? = some y then k + 1 else k) a := rfl
    rw [hstep, ih]
    rcases hk : e[k]? with _ | x
    · have hdrop : e.drop k = [] := List.drop_eq_nil_iff.mpr (List.getElem?_eq_none_iff.mp hk)
      simp [hdrop, greedy]
    · obtain ⟨hlt, hx⟩ := List.getElem?_eq_some_iff.mp hk
      have hdrop : e.drop k = x :: e.drop (k + 1) := by
        rw [List.drop_eq_getElem_cons hlt, hx]
      by_cases hxy : x = y
      · simp only [hxy, if_true] at hdrop ⊢
        rw [hdrop, greedy, if_pos rfl]
        omega
      · rw [if_neg (by simpa using hxy), hdrop, greedy, if_neg hxy]

variable {e a : List α}

theorem greedy_le_length : greedy e a ≤ e.length := by
  fun_induction greedy e a with
  | case1 a => exact Nat.zero_le _
  | case2 x e => exact Nat.zero_le _
  | case3 e y a ih => simpa using ih
  | case4 x e y a hxy ih => exact ih

/-- What is counted occurs. -/
theorem take_greedy_sublist : (e.take (greedy e a)).Sublist a := by
  fun_induction greedy e a with
  | case1 a => exact List.nil_sublist _
  | case2 x e => exact List.Sublist.refl _
  | case3 e y a ih => exact ih.cons_cons y
  | case4 x e y a hxy ih => exact ih.cons y

/-- Waiting for the next element misses nothing. -/
theorem le_greedy {k : Nat} (hk : k ≤ e.length) (h : (e.take k).Sublist a) : k ≤ greedy e a := by
  fun_induction greedy e a generalizing k with
  | case1 a => exact hk
  | case2 x e =>
    cases k with
    | zero => exact Nat.le_refl _
    | succ k => exact absurd (List.eq_nil_of_sublist_nil h) (List.cons_ne_nil _ _)
  | case3 e y a ih =>
    cases k with
    | zero => exact Nat.zero_le _
    | succ k =>
      refine Nat.succ_le_succ (ih (Nat.le_of_succ_le_succ hk) ?_)
      cases h with
      | cons _ h => exact (List.sublist_cons_self _ _).trans h
      | cons_cons _ h => exact h
  | case4 x e y a hxy ih =>
    refine ih hk ?_
    cases k with
    | zero => exact List.nil_sublist _
    | succ k =>
      cases h with
      | cons _ h => exact h
      | cons_cons _ h => exact absurd rfl hxy

/-- **The greedy count is optimal.** -/
theorem greedy_isGreatest (e a : List α) :
    IsGreatest {k | k ≤ e.length ∧ (e.take k).Sublist a} (greedy e a) :=
  ⟨⟨greedy_le_length, take_greedy_sublist⟩, fun _ h => le_greedy h.1 h.2⟩

theorem greedy_eq_length : greedy e a = e.length ↔ e.Sublist a := by
  constructor
  · intro h
    have := take_greedy_sublist (e := e) (a := a)
    rwa [h, List.take_length] at this
  · intro h
    refine Nat.le_antisymm greedy_le_length (le_greedy (Nat.le_refl _) ?_)
    rwa [List.take_length]

end QkdEkm.Lib
