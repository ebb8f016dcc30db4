import Mathlib.Data.List.Sort
import Mathlib.Order.Defs.LinearOrder

/-!
# StableSort — sorting by a key

`sortBy key l` sorts `l` by the key of its elements and keeps the order
of elements with equal keys. A part of the list comes out in its old
order exactly if it was in the order of the keys already
(`sortBy_filter_iff`).
-/

namespace QkdEkm.Lib

universe u v

variable {α : Type u} {κ : Type v} [LinearOrder κ] (key : α → κ)

/-- `sorted(l, key=key)`. -/
def sortBy (l : List α) : List α := l.mergeSort fun a b => decide (key a ≤ key b)

variable {key} {l : List α}

theorem sortBy_perm : (sortBy key l).Perm l := List.mergeSort_perm _ _

theorem le_trans_key (a b c : α) (hab : decide (key a ≤ key b) = true)
    (hbc : decide (key b ≤ key c) = true) : decide (key a ≤ key c) = true :=
  decide_eq_true (le_trans (of_decide_eq_true hab) (of_decide_eq_true hbc))

theorem le_total_key (a b : α) : (decide (key a ≤ key b) || decide (key b ≤ key a)) = true := by
  simpa using le_total (key a) (key b)

theorem sortBy_sorted : (sortBy key l).Pairwise fun a b => key a ≤ key b :=
  (List.pairwise_mergeSort le_trans_key le_total_key l).imp of_decide_eq_true

/-- Elements that carry more than what is sorted are sorted with it. -/
theorem sortBy_map {β : Type*} (f : β → α) (l : List β) :
    sortBy key (l.map f) = (sortBy (fun b => key (f b)) l).map f :=
  (List.map_mergeSort (r := fun a b => decide (key (f a) ≤ key (f b))) (f := f)
    fun _ _ _ _ => rfl).symm

/-- What is in order stays in order. -/
theorem sublist_sortBy {c : List α} (hc : c.Pairwise fun a b => key a ≤ key b)
    (hsub : c.Sublist l) : c.Sublist (sortBy key l) :=
  List.sublist_mergeSort le_trans_key le_total_key (hc.imp decide_eq_true) hsub

/-- **A part of the list keeps its order if and only if the keys are in
order there.** -/
theorem sortBy_filter_iff {p : α → Bool} : (sortBy key l).filter p = l.filter p ↔
    (l.filter p).Pairwise fun a b => key a ≤ key b := by
  constructor
  · intro h
    rw [← h]
    exact sortBy_sorted.filter p
  · intro h
    have hsub : (l.filter p).Sublist ((sortBy key l).filter p) := by
      have hboth := (sublist_sortBy h List.filter_sublist).filter p
      simpa only [List.filter_filter, Bool.and_self] using hboth
    exact (hsub.eq_of_length (sortBy_perm.filter p).length_eq.symm).symm

/-- **Ties come out in the order they went in.** -/
theorem sortBy_stable {before : α → α → Prop} (hl : l.Pairwise before) :
    (sortBy key l).Pairwise fun a b => key a < key b ∨ key a = key b ∧ before a b := by
  rw [List.pairwise_iff_forall_sublist]
  intro a b hab
  have hle : key a ≤ key b := List.pairwise_iff_forall_sublist.mp sortBy_sorted hab
  refine hle.lt_or_eq.imp_right fun heq => ⟨heq, ?_⟩
  -- among the elements with this key nothing moves
  have hsame : (sortBy key l).filter (fun x => decide (key x = key a)) =
      l.filter fun x => decide (key x = key a) := by
    refine sortBy_filter_iff.mpr (List.pairwise_of_forall_mem_list fun x hx y hy => ?_)
    have hx := of_decide_eq_true (List.mem_filter.mp hx).2
    have hy := of_decide_eq_true (List.mem_filter.mp hy).2
    rw [hx, hy]
  have hpair : [a, b].Sublist (l.filter fun x => decide (key x = key a)) := by
    have := hab.filter fun x => decide (key x = key a)
    rw [hsame] at this
    simpa [heq] using this
  exact List.pairwise_iff_forall_sublist.mp hl (hpair.trans List.filter_sublist)

end QkdEkm.Lib
