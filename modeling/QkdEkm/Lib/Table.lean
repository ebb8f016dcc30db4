import Mathlib.Data.List.Pairwise

/-!
# Table — rows under uniqueness constraints

A table is a list of rows in insertion order no two of which clash.
`insert?` refuses a row that clashes, as a plain `INSERT` does;
`replace` removes the rows it clashes with first, as an
`INSERT OR REPLACE` does.
-/

namespace QkdEkm.Lib

universe u

structure Table (R : Type u) (clash : R → R → Prop) where
  rows : List R
  unique : rows.Pairwise fun a b => ¬ clash a b

namespace Table

variable {R : Type u} {clash : R → R → Prop}

def empty : Table R clash := ⟨[], List.Pairwise.nil⟩

variable [DecidableRel clash]

/-- Whether `r` clashes with a row of the table. -/
def clashes (t : Table R clash) (r : R) : Bool := t.rows.any fun a => decide (clash a r)

theorem clashes_iff {t : Table R clash} {r : R} :
    t.clashes r = true ↔ ∃ a ∈ t.rows, clash a r := by
  simp [clashes]

theorem not_clash {t : Table R clash} {r : R} (h : t.clashes r = false) :
    ∀ a ∈ t.rows, ¬ clash a r := by
  intro a ha hc
  rw [clashes_iff.mpr ⟨a, ha, hc⟩] at h
  cases h

/-- The table with `r` appended, unless it clashes. -/
def insert? (t : Table R clash) (r : R) : Option (Table R clash) :=
  if h : t.clashes r = true then none
  else some ⟨t.rows ++ [r], by
    refine List.pairwise_append.mpr ⟨t.unique, List.pairwise_singleton _ _, ?_⟩
    intro a ha b hb
    rw [List.mem_singleton.mp hb]
    exact not_clash (Bool.eq_false_iff.mpr h) a ha⟩

/-- The table with `r` in the place of whatever it clashes with. -/
def replace (t : Table R clash) (r : R) : Table R clash where
  rows := t.rows.filter (fun a => !decide (clash a r)) ++ [r]
  unique := by
    refine List.pairwise_append.mpr ⟨t.unique.filter _, List.pairwise_singleton _ _, ?_⟩
    intro a ha b hb
    rw [List.mem_singleton.mp hb]
    simpa using (List.mem_filter.mp ha).2

theorem insert?_eq_some {t t' : Table R clash} {r : R} (h : t.insert? r = some t') :
    t.clashes r = false ∧ t'.rows = t.rows ++ [r] := by
  unfold insert? at h
  split at h
  · cases h
  · rename_i hc
    cases h
    exact ⟨Bool.eq_false_iff.mpr hc, rfl⟩

theorem insert?_eq_none {t : Table R clash} {r : R} (h : t.insert? r = none) :
    ∃ a ∈ t.rows, clash a r := by
  unfold insert? at h
  split at h
  · rename_i hc
    exact clashes_iff.mp hc
  · cases h

theorem mem_replace {t : Table R clash} {r a : R} :
    a ∈ (t.replace r).rows ↔ a = r ∨ (a ∈ t.rows ∧ ¬ clash a r) := by
  simp [replace, or_comm]

/-! ## Finding a row by its key -/

omit [DecidableRel clash] in
/-- A search by a property of which all holders clash finds the holder. -/
theorem find?_eq_some {t : Table R clash} {p : R → Bool} {r : R}
    (hp : ∀ a b, p a = true → p b = true → clash a b) :
    t.rows.find? p = some r ↔ r ∈ t.rows ∧ p r = true := by
  constructor
  · intro h
    exact ⟨List.mem_of_find?_eq_some h, List.find?_some h⟩
  · rintro ⟨hm, hr⟩
    have huniq := t.unique
    revert hm huniq
    generalize t.rows = l
    intro hm huniq
    induction l with
    | nil => cases hm
    | cons a l ih =>
      cases hm with
      | head => rw [List.find?_cons, hr]
      | tail _ hm =>
        have hpw := List.pairwise_cons.mp huniq
        have hna : p a = false := by
          cases hpa : p a with
          | false => rfl
          | true => exact absurd (hp a r hpa hr) (hpw.1 r hm)
        rw [List.find?_cons, hna]
        exact ih hm hpw.2

omit [DecidableRel clash] in
/-- The row that satisfies such a property is the only one. -/
theorem filter_eq_singleton {t : Table R clash} {p : R → Bool} {r : R}
    (hp : ∀ a b, p a = true → p b = true → clash a b) (hm : r ∈ t.rows) (hr : p r = true) :
    t.rows.filter p = [r] := by
  obtain ⟨before, after, hrows⟩ := List.append_of_mem hm
  have hpw := t.unique
  rw [hrows] at hpw ⊢
  obtain ⟨_, hafter, hbefore⟩ := List.pairwise_append.mp hpw
  have hleft : before.filter p = [] := by
    refine List.filter_eq_nil_iff.mpr fun a ha hpa => ?_
    exact hbefore a ha r (List.mem_cons_self ..) (hp a r hpa hr)
  have hright : after.filter p = [] := by
    refine List.filter_eq_nil_iff.mpr fun a ha hpa => ?_
    exact (List.pairwise_cons.mp hafter).1 a ha (hp r a hr hpa)
  rw [List.filter_append, hleft, List.filter_cons_of_pos hr, hright, List.nil_append]

/-- After a replacement, the search for the new row finds it. -/
theorem find?_replace_self {t : Table R clash} {p : R → Bool} {r : R}
    (hp : ∀ a b, p a = true → p b = true → clash a b) (hr : p r = true) :
    (t.replace r).rows.find? p = some r :=
  (find?_eq_some hp).mpr ⟨mem_replace.mpr (.inl rfl), hr⟩

/-- Other searches find what they found. -/
theorem find?_replace_of_ne {t : Table R clash} {p : R → Bool} {r : R} (hr : p r = false)
    (hp : ∀ a, p a = true → ¬ clash a r) :
    (t.replace r).rows.find? p = t.rows.find? p := by
  have hfilter : (t.rows.filter fun a => !decide (clash a r)).find? p = t.rows.find? p := by
    rw [List.find?_filter]
    congr 1
    funext a
    cases hpa : p a with
    | false => simp
    | true => simp [hp a hpa]
  simp [replace, hfilter, hr]

end Table

end QkdEkm.Lib
