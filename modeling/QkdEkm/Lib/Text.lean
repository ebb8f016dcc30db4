import Mathlib.Data.List.TakeDrop
import Mathlib.Data.List.TakeWhile
import Mathlib.Data.String.Basic

/-!
# Text — splitting a string at a separator

Python's `partition` and `rpartition` for a one-character separator,
without the separator itself in the result; `strip` for the white space
of Unicode, and `splitlines` for its line breaks. A decimal number is read back from its digits.
-/

namespace QkdEkm.Lib

/-- What stands before and after the first `c`; the whole string and
`""` if there is none. -/
def partition (s : String) (c : Char) : String × String :=
  let (a, b) := s.toList.span (· ≠ c)
  (String.ofList a, String.ofList (b.drop 1))

/-- What stands before and after the last `c`; `""` and the whole string
if there is none. -/
def rpartition (s : String) (c : Char) : String × String :=
  let (a, b) := s.toList.reverse.span (· ≠ c)
  (String.ofList (b.drop 1).reverse, String.ofList a.reverse)

theorem span_append_sep {c : Char} {a b : List Char} (h : c ∉ a) :
    (a ++ c :: b).span (· ≠ c) = (a, c :: b) := by
  rw [List.span_eq_takeWhile_dropWhile]
  have hall : ∀ x ∈ a, decide (x ≠ c) = true := by
    intro x hx
    exact decide_eq_true fun he => h (he ▸ hx)
  rw [List.takeWhile_append_of_pos hall, List.dropWhile_append_of_pos hall]
  simp

theorem span_no_sep {c : Char} {a : List Char} (h : c ∉ a) :
    a.span (· ≠ c) = (a, []) := by
  rw [List.span_eq_takeWhile_dropWhile]
  have hall : ∀ x ∈ a, decide (x ≠ c) = true := by
    intro x hx
    exact decide_eq_true fun he => h (he ▸ hx)
  rw [List.takeWhile_eq_self_iff.mpr hall, List.dropWhile_eq_nil_iff.mpr hall]

/-- A separator-free head is split off whole. -/
theorem partition_append {a b sep : String} {c : Char} (hsep : sep.toList = [c])
    (h : c ∉ a.toList) : partition (a ++ sep ++ b) c = (a, b) := by
  have ht : (a ++ sep ++ b).toList = a.toList ++ c :: b.toList := by
    simp [hsep]
  simp only [partition, ht, span_append_sep h]
  simp

theorem partition_no_sep {a : String} {c : Char} (h : c ∉ a.toList) :
    partition a c = (a, "") := by
  simp only [partition, span_no_sep h]
  simp

/-- **Joining non-empty texts is injective**, for a separator that is in
none of them. -/
theorem intercalate_inj {sep : String} {c : Char} (hsep : sep.toList = [c]) {l l' : List String}
    (hl : ∀ s ∈ l, s ≠ "" ∧ c ∉ s.toList) (hl' : ∀ s ∈ l', s ≠ "" ∧ c ∉ s.toList)
    (h : sep.intercalate l = sep.intercalate l') : l = l' := by
  have hsplit : ∀ l : List String, (∀ s ∈ l, s ≠ "" ∧ c ∉ s.toList) →
      (sep.intercalate l).toList.splitOn c = if l = [] then [[]] else l.map String.toList := by
    intro l hl
    rw [String.toList_intercalate, hsep]
    split
    · rename_i hnil
      subst hnil
      rfl
    · rename_i hne
      refine List.splitOn_intercalate c ?_ (by simpa using hne)
      intro s hs
      obtain ⟨t, ht, rfl⟩ := List.mem_map.mp hs
      exact (hl t ht).2
  have hone : ∀ {l : List String}, (∀ s ∈ l, s ≠ "" ∧ c ∉ s.toList) →
      l.map String.toList ≠ [[]] := by
    intro l hl heq
    have hm : ([] : List Char) ∈ l.map String.toList := by simp [heq]
    obtain ⟨t, ht, hnil⟩ := List.mem_map.mp hm
    exact (hl t ht).1 (by simpa using hnil)
  have heq := hsplit l hl
  rw [h, hsplit l' hl'] at heq
  split at heq
  · rename_i hnil'
    split at heq
    · rename_i hnil
      rw [hnil, hnil']
    · exact absurd heq.symm (hone hl)
  · split at heq
    · exact absurd heq (hone hl')
    · exact (List.map_injective_iff.mpr fun _ _ => String.toList_inj.mp) heq.symm

/-- The characters that `str.isspace` accepts. -/
def isSpace (c : Char) : Bool :=
  decide (c.toNat ∈ [9, 10, 11, 12, 13, 28, 29, 30, 31, 32, 133, 160, 5760, 8192, 8193, 8194, 8195,
    8196, 8197, 8198, 8199, 8200, 8201, 8202, 8232, 8233, 8239, 8287, 12288])

/-- `s.strip()`. -/
def strip (s : List Char) : List Char :=
  ((s.dropWhile isSpace).reverse.dropWhile isSpace).reverse

/-- The characters that end a line. -/
def isLineBreak (c : Char) : Bool :=
  decide (c.toNat ∈ [10, 11, 12, 13, 28, 29, 30, 133, 8232, 8233])

/-- `s.splitlines()`. A carriage return and a line feed end one line. -/
def splitlines : List Char → List (List Char)
  | [] => []
  | '\r' :: '\n' :: s => [] :: splitlines s
  | c :: s =>
    if isLineBreak c then [] :: splitlines s
    else
      match splitlines s with
      | [] => [[c]]
      | line :: lines => (c :: line) :: lines

/-- A line without line breaks is split off whole. -/
theorem splitlines_append {line : List Char} (h : ∀ c ∈ line, isLineBreak c = false)
    (rest : List Char) : splitlines (line ++ '\n' :: rest) = line :: splitlines rest := by
  induction line with
  | nil => simp [splitlines, isLineBreak]
  | cons c line ih =>
    obtain ⟨hc, hline⟩ := List.forall_mem_cons.mp h
    have hreturn : c ≠ '\r' := by
      rintro rfl
      cases hc
    have hcons : splitlines (c :: (line ++ '\n' :: rest)) =
        match splitlines (line ++ '\n' :: rest) with
        | [] => [[c]]
        | line :: lines => (c :: line) :: lines := by
      rw [splitlines.eq_3 c _ fun _ hcr _ => hreturn hcr, hc]
      rfl
    rw [List.cons_append, hcons, ih hline]

/-- **Lines are read back as they were written.** -/
theorem splitlines_flatMap {lines : List (List Char)}
    (h : ∀ line ∈ lines, ∀ c ∈ line, isLineBreak c = false) :
    splitlines (lines.flatMap fun line => line ++ ['\n']) = lines := by
  induction lines with
  | nil => rfl
  | cons line lines ih =>
    obtain ⟨hline, hlines⟩ := List.forall_mem_cons.mp h
    rw [List.flatMap_cons, List.append_assoc, List.singleton_append, splitlines_append hline,
      ih hlines]

/-- Different numbers have different decimal forms. -/
theorem toString_nat_inj {m n : Nat} : toString m = toString n ↔ m = n := by
  refine ⟨fun h => ?_, fun h => h ▸ rfl⟩
  have hdigits : Nat.toDigits 10 m = Nat.toDigits 10 n := by
    rw [← Nat.toList_repr, ← Nat.toList_repr]
    exact congrArg String.toList h
  rw [← Nat.ofDigitChars_ten_toDigits (n := m), hdigits, Nat.ofDigitChars_ten_toDigits]

end QkdEkm.Lib
