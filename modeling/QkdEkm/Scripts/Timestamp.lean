import QkdEkm.Scripts.Redact

/-!
# Timestamp — the timestamp in front of a log line

A timestamp has one form of fixed length, so a line begins with at most
one, and reading it does not depend on what follows.
-/

namespace QkdEkm.Scripts

open QkdEkm.Lib.Regex QkdEkm.Lib

section

variable (cc : CharClass)

/-- `\d{n}`. -/
def digits (n : Nat) : Regex := times (one cc.digit) n

/-- `\d{4}-\d{2}-\d{2} \d{2}:\d{2}:\d{2}\.\d{3}`. -/
def timestampBody : Regex :=
  cat [digits cc 4, lit "-", digits cc 2, lit "-", digits cc 2, lit " ", digits cc 2, lit ":",
    digits cc 2, lit ":", digits cc 2, lit ".", digits cc 3]

/-- `_TIMESTAMP`. -/
def timestamp : Regex := seq start (timestampBody cc)

/-- `_timestamp`. -/
def timestampOf (line : List Char) : List Char :=
  match (timestamp cc).matchLength [] line with
  | some n => line.take n
  | none => []

/-- The text has the form of a timestamp. -/
def IsTimestamp (ts : List Char) : Prop := (timestampBody cc).Consumes [] ts []

end

variable {cc : CharClass} {ts rest line : List Char}

theorem timestampBody_fixed : (timestampBody cc).fixed = true := rfl

theorem IsTimestamp.takes (h : IsTimestamp cc ts) (before after : List Char) :
    (timestampBody cc).Consumes before ts after :=
  consumes_of_fixed timestampBody_fixed h before after

theorem IsTimestamp.ne_nil (h : IsTimestamp cc ts) : ts ≠ [] :=
  ne_nil_of_consumes (r := timestampBody cc) rfl h

/-- A timestamp consists of digits and what stands between them. -/
theorem IsTimestamp.chars (h : IsTimestamp cc ts) :
    ∀ c ∈ ts, cc.digit c = true ∨ c ∈ ['-', ' ', ':', '.'] := by
  have hdigits : ∀ n, (digits cc n).Within fun c => cc.digit c = true ∨ c ∈ ['-', ' ', ':', '.'] :=
    within_times fun _ => .inl
  refine consumes_within (r := timestampBody cc) (within_cat ?_) h
  simp only [List.forall_mem_cons, List.not_mem_nil, false_implies, implies_true, and_true]
  refine ⟨hdigits 4, ?_, hdigits 2, ?_, hdigits 2, ?_, hdigits 2, ?_, hdigits 2, ?_, hdigits 2, ?_,
    hdigits 3⟩
  all_goals exact within_lit (by simp)

/-- **A timestamp in front of a line is read whole.** -/
theorem timestampOf_append (h : IsTimestamp cc ts) (rest : List Char) :
    timestampOf cc (ts ++ rest) = ts := by
  have hlength : (timestamp cc).matchLength [] (ts ++ rest) = some ts.length := by
    rw [timestamp, start_matchLength, matchLength, ends_of_fixed timestampBody_fixed h]
    simp
  simp only [timestampOf, hlength, List.take_left]

/-- A line without a timestamp in front has none. -/
theorem timestampOf_cases (line : List Char) : timestampOf cc line = [] ∨
    IsTimestamp cc (timestampOf cc line) ∧ ∃ rest, line = timestampOf cc line ++ rest := by
  rcases hlength : (timestamp cc).matchLength [] line with _ | n
  · exact .inl (by simp only [timestampOf, hlength])
  · refine .inr ?_
    rw [timestamp, start_matchLength] at hlength
    obtain ⟨m, after, rfl, rfl, hm⟩ := matchLength_eq_some hlength
    have hts : IsTimestamp cc m := consumes_of_fixed timestampBody_fixed hm [] []
    rw [timestampOf_append hts]
    exact ⟨hts, after, rfl⟩

end QkdEkm.Scripts
