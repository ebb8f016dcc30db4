import Mathlib.Data.List.Basic
import Mathlib.Data.List.Infix

/-!
# Regex — regular expressions that backtrack

`ends` lists where a pattern can end in a text, in the order in which a
backtracking matcher tries the ends; the first one is the match.
`Consumes` says the same without the order. `search` looks for a match
anywhere, and `sub` replaces the matches from left to right. What `sub`
does to a text is a `Rewrites`: it keeps a character where no match
begins, and replaces the matches. A part of the text that no match
touches stays (`Rewrites.around`), and a part of the result that cannot
come from a replacement was there before (`Rewrites.kept`). What stands
next to it is kept as well, or the match that was replaced
(`Rewrites.last`, `Rewrites.first`).
-/

namespace QkdEkm.Lib

/-- Patterns. Repetitions are greedy; the last three look at the
characters around a position and take none. -/
inductive Regex
  | empty
  | one (p : Char → Bool)
  | many (p : Char → Bool)
  | seq (r s : Regex)
  | alt (r s : Regex)
  | notBehind (p : Char → Bool)
  | notAhead (p : Char → Bool)
  | boundary (word : Char → Bool)

namespace Regex

/-! ## Derived patterns -/

def opt (r : Regex) : Regex := alt r empty

def cat (rs : List Regex) : Regex := rs.foldr seq empty

def lit (s : String) : Regex := cat (s.toList.map fun c => one (· == c))

/-- `r{n}`. -/
def times (r : Regex) (n : Nat) : Regex := cat (List.replicate n r)

/-- `r{0,n}`. -/
def upTo (r : Regex) : Nat → Regex
  | 0 => empty
  | n + 1 => opt (seq r (upTo r n))

/-- `r{min,max}`. -/
def between (r : Regex) (min max : Nat) : Regex := seq (times r min) (upTo r (max - min))

/-- `[p]{min,}`. -/
def atLeast (p : Char → Bool) (min : Nat) : Regex := seq (times (one p) min) (many p)

/-! ## Matching -/

/-- The ends of `[p]*`, the longest first. -/
def manyEnds (p : Char → Bool) (before : List Char) : List Char → List (List Char × List Char)
  | [] => [(before, [])]
  | c :: text =>
    if p c then manyEnds p (c :: before) text ++ [(before, c :: text)] else [(before, c :: text)]

/-- The ends of a pattern in `text`, which stands after `before`. What
stands before a position is reversed. -/
def ends : Regex → List Char → List Char → List (List Char × List Char)
  | empty, before, text => [(before, text)]
  | one _, _, [] => []
  | one p, before, c :: text => if p c then [(c :: before, text)] else []
  | many p, before, text => manyEnds p before text
  | seq r s, before, text => (r.ends before text).flatMap fun pos => s.ends pos.1 pos.2
  | alt r s, before, text => r.ends before text ++ s.ends before text
  | notBehind p, before, text => if before.head?.any p then [] else [(before, text)]
  | notAhead p, before, text => if text.head?.any p then [] else [(before, text)]
  | boundary word, before, text =>
    if before.head?.any word = text.head?.any word then [] else [(before, text)]

/-- The pattern takes `m` where it stands between `before` and `after`. -/
def Consumes : Regex → List Char → List Char → List Char → Prop
  | empty, _, m, _ => m = []
  | one p, _, m, _ => ∃ c, p c = true ∧ m = [c]
  | many p, _, m, _ => ∀ c ∈ m, p c = true
  | seq r s, before, m, after => ∃ m₁ m₂, m = m₁ ++ m₂ ∧ r.Consumes before m₁ (m₂ ++ after) ∧
      s.Consumes (m₁.reverse ++ before) m₂ after
  | alt r s, before, m, after => r.Consumes before m after ∨ s.Consumes before m after
  | notBehind p, before, m, _ => m = [] ∧ ∀ c ∈ before.head?, p c = false
  | notAhead p, _, m, after => m = [] ∧ ∀ c ∈ after.head?, p c = false
  | boundary word, before, m, after => m = [] ∧ before.head?.any word ≠ after.head?.any word

/-- Whether a pattern may take nothing. -/
def nullable : Regex → Bool
  | one _ => false
  | seq r s => r.nullable && s.nullable
  | alt r s => r.nullable || s.nullable
  | empty | many _ | notBehind _ | notAhead _ | boundary _ => true

theorem ne_nil_of_consumes {r : Regex} (hr : r.nullable = false) {before m after : List Char}
    (h : r.Consumes before m after) : m ≠ [] := by
  induction r generalizing before m after with
  | empty | many _ | notBehind _ | notAhead _ | boundary _ => cases hr
  | one p =>
    obtain ⟨c, _, rfl⟩ := h
    exact List.cons_ne_nil _ _
  | seq r s ihr ihs =>
    obtain ⟨m₁, m₂, rfl, h₁, h₂⟩ := h
    rw [ne_eq, List.append_eq_nil_iff]
    rcases Bool.and_eq_false_iff.mp hr with hr | hs
    · exact fun hnil => ihr hr h₁ hnil.1
    · exact fun hnil => ihs hs h₂ hnil.2
  | alt r s ihr ihs =>
    obtain ⟨hr, hs⟩ := Bool.or_eq_false_iff.mp hr
    exact h.elim (ihr hr) (ihs hs)

theorem mem_manyEnds {p : Char → Bool} {before text before' text' : List Char} :
    (before', text') ∈ manyEnds p before text ↔
      ∃ m, text = m ++ text' ∧ before' = m.reverse ++ before ∧ ∀ c ∈ m, p c = true := by
  have hstop : ∀ {before text}, (before', text') = (before, text) →
      ∃ m, text = m ++ text' ∧ before' = m.reverse ++ before ∧ ∀ c ∈ m, p c = true := by
    rintro _ _ ⟨⟩
    exact ⟨[], rfl, rfl, by simp⟩
  induction text generalizing before with
  | nil =>
    rw [manyEnds, List.mem_singleton]
    constructor
    · exact hstop
    · rintro ⟨m, hm, rfl, _⟩
      obtain ⟨rfl, rfl⟩ := List.append_eq_nil_iff.mp hm.symm
      rfl
  | cons c text ih =>
    by_cases hc : p c = true
    · rw [manyEnds, if_pos hc, List.mem_append, List.mem_singleton]
      constructor
      · rintro (h | h)
        · obtain ⟨m, rfl, rfl, hm⟩ := ih.mp h
          exact ⟨c :: m, rfl, by simp, by simpa [hc] using hm⟩
        · exact hstop h
      · rintro ⟨_ | ⟨d, m⟩, hm, rfl, hall⟩
        · exact .inr (by rw [hm]; rfl)
        · obtain ⟨rfl, rfl⟩ := List.cons.inj hm
          refine .inl (ih.mpr ⟨m, rfl, by simp, ?_⟩)
          exact fun d hd => hall d (List.mem_cons_of_mem _ hd)
    · rw [manyEnds, if_neg hc, List.mem_singleton]
      constructor
      · exact hstop
      · rintro ⟨_ | ⟨d, m⟩, hm, rfl, hall⟩
        · rw [hm]
          rfl
        · obtain ⟨rfl, rfl⟩ := List.cons.inj hm
          exact absurd (hall c (List.mem_cons_self ..)) hc

/-- A pattern that takes nothing where `P` holds. -/
theorem mem_stay {P : Prop} [Decidable P] {before text before' text' : List Char} :
    (before', text') ∈ (if P then [] else [(before, text)]) ↔
      ∃ m, text = m ++ text' ∧ before' = m.reverse ++ before ∧ m = [] ∧ ¬ P := by
  by_cases h : P
  · simp [h]
  · rw [if_neg h, List.mem_singleton]
    constructor
    · rintro ⟨⟩
      exact ⟨[], rfl, rfl, rfl, h⟩
    · rintro ⟨_, rfl, rfl, rfl, _⟩
      rfl

theorem any_head? {p : Char → Bool} {text : List Char} :
    ¬ text.head?.any p = true ↔ ∀ c ∈ text.head?, p c = false := by
  cases text <;> simp

/-- **The ends are those of the texts that the pattern takes.** -/
theorem mem_ends {r : Regex} {before text before' text' : List Char} :
    (before', text') ∈ r.ends before text ↔
      ∃ m, text = m ++ text' ∧ before' = m.reverse ++ before ∧ r.Consumes before m text' := by
  induction r generalizing before text before' text' with
  | empty =>
    have h : (before', text') ∈ (if False then [] else [(before, text)]) ↔ _ := mem_stay
    simpa [ends, Consumes] using h
  | one p =>
    cases text with
    | nil => simp [ends, Consumes]
    | cons c text =>
      by_cases hc : p c = true
      · rw [ends, if_pos hc, List.mem_singleton]
        constructor
        · rintro ⟨⟩
          exact ⟨[c], rfl, rfl, c, hc, rfl⟩
        · rintro ⟨_, hm, rfl, d, _, rfl⟩
          obtain ⟨rfl, rfl⟩ := List.cons.inj hm
          rfl
      · rw [ends, if_neg hc]
        constructor
        · rintro ⟨⟩
        · rintro ⟨_, hm, _, d, hd, rfl⟩
          obtain ⟨rfl, _⟩ := List.cons.inj hm
          exact absurd hd hc
  | many p => exact mem_manyEnds
  | seq r s ihr ihs =>
    rw [ends, List.mem_flatMap]
    constructor
    · rintro ⟨⟨before₁, text₁⟩, hr, hs⟩
      obtain ⟨m₁, rfl, rfl, h₁⟩ := ihr.mp hr
      obtain ⟨m₂, rfl, rfl, h₂⟩ := ihs.mp hs
      exact ⟨m₁ ++ m₂, by simp, by simp, m₁, m₂, rfl, h₁, h₂⟩
    · rintro ⟨_, rfl, rfl, m₁, m₂, rfl, h₁, h₂⟩
      refine ⟨(m₁.reverse ++ before, m₂ ++ text'), ihr.mpr ⟨m₁, by simp, rfl, h₁⟩, ?_⟩
      exact ihs.mpr ⟨m₂, rfl, by simp, h₂⟩
  | alt r s ihr ihs =>
    rw [ends, List.mem_append, ihr, ihs]
    simp only [Consumes, and_or_left, exists_or]
  | notBehind p =>
    rw [ends, mem_stay]
    simp only [any_head?, Consumes]
  | notAhead p =>
    rw [ends, mem_stay]
    constructor
    · rintro ⟨_, rfl, rfl, rfl, h⟩
      exact ⟨[], rfl, rfl, rfl, any_head?.mp h⟩
    · rintro ⟨_, rfl, rfl, rfl, h⟩
      exact ⟨[], rfl, rfl, rfl, any_head?.mpr h⟩
  | boundary word =>
    rw [ends, mem_stay]
    constructor
    · rintro ⟨_, rfl, rfl, rfl, h⟩
      exact ⟨[], rfl, rfl, rfl, h⟩
    · rintro ⟨_, rfl, rfl, rfl, h⟩
      exact ⟨[], rfl, rfl, rfl, h⟩

/-! ## What the derived patterns take -/

section

variable {p : Char → Bool} {before m after : List Char}

theorem consumes_cat_cons {r : Regex} {rs : List Regex} :
    (cat (r :: rs)).Consumes before m after ↔ ∃ m₁ m₂, m = m₁ ++ m₂ ∧
      r.Consumes before m₁ (m₂ ++ after) ∧ (cat rs).Consumes (m₁.reverse ++ before) m₂ after :=
  Iff.rfl

theorem consumes_lit {s : String} : (lit s).Consumes before m after ↔ m = s.toList := by
  unfold lit
  generalize s.toList = l
  induction l generalizing before m with
  | nil => rfl
  | cons c l ih =>
    rw [List.map_cons, consumes_cat_cons]
    constructor
    · rintro ⟨_, m₂, rfl, ⟨d, hd, rfl⟩, h₂⟩
      rw [ih.mp h₂, beq_iff_eq.mp hd]
      rfl
    · rintro rfl
      exact ⟨[c], l, rfl, ⟨c, beq_iff_eq.mpr rfl, rfl⟩, ih.mpr rfl⟩

/-- What a sequence takes holds its fixed parts. -/
theorem infix_of_consumes_cat {s : String} {rs : List Regex} (hs : lit s ∈ rs)
    (h : (cat rs).Consumes before m after) : s.toList <:+: m := by
  induction rs generalizing before m with
  | nil => cases hs
  | cons r rs ih =>
    obtain ⟨m₁, m₂, rfl, h₁, h₂⟩ := consumes_cat_cons.mp h
    rcases List.mem_cons.mp hs with rfl | hs
    · rw [consumes_lit.mp h₁]
      exact (List.prefix_append ..).isInfix
    · exact (ih hs h₂).trans (List.suffix_append ..).isInfix

theorem consumes_times_one {n : Nat} :
    (times (one p) n).Consumes before m after ↔ m.length = n ∧ ∀ c ∈ m, p c = true := by
  unfold times
  induction n generalizing before m with
  | zero =>
    rw [List.replicate_zero, List.length_eq_zero_iff]
    exact ⟨fun h => ⟨h, by simp [show m = [] from h]⟩, fun h => h.1⟩
  | succ n ih =>
    rw [List.replicate_succ, consumes_cat_cons]
    constructor
    · rintro ⟨_, m₂, rfl, ⟨c, hc, rfl⟩, h₂⟩
      obtain ⟨hlen, hall⟩ := ih.mp h₂
      exact ⟨by simp [hlen], by simpa [hc] using hall⟩
    · rintro ⟨hlen, hall⟩
      obtain ⟨c, m', rfl⟩ := List.exists_cons_of_length_eq_add_one hlen
      refine ⟨[c], m', rfl, ⟨c, hall c (List.mem_cons_self ..), rfl⟩, ih.mpr ⟨?_, ?_⟩⟩
      · simpa using hlen
      · exact fun d hd => hall d (List.mem_cons_of_mem _ hd)

theorem consumes_upTo_one {n : Nat} :
    (upTo (one p) n).Consumes before m after ↔ m.length ≤ n ∧ ∀ c ∈ m, p c = true := by
  induction n generalizing before m with
  | zero =>
    rw [Nat.le_zero, List.length_eq_zero_iff]
    exact ⟨fun h => ⟨h, by simp [show m = [] from h]⟩, fun h => h.1⟩
  | succ n ih =>
    constructor
    · rintro (⟨_, m₂, rfl, ⟨c, hc, rfl⟩, h₂⟩ | h)
      · obtain ⟨hlen, hall⟩ := ih.mp h₂
        exact ⟨by simpa using hlen, by simpa [hc] using hall⟩
      · rw [show m = [] from h]
        exact ⟨Nat.zero_le _, by simp⟩
    · rintro ⟨hlen, hall⟩
      cases m with
      | nil => exact .inr rfl
      | cons c m =>
        refine .inl ⟨[c], m, rfl, ⟨c, hall c (List.mem_cons_self ..), rfl⟩, ih.mpr ⟨?_, ?_⟩⟩
        · simpa using hlen
        · exact fun d hd => hall d (List.mem_cons_of_mem _ hd)

theorem consumes_between_one {min max : Nat} (h : min ≤ max) :
    (between (one p) min max).Consumes before m after ↔
      (min ≤ m.length ∧ m.length ≤ max) ∧ ∀ c ∈ m, p c = true := by
  constructor
  · rintro ⟨m₁, m₂, rfl, h₁, h₂⟩
    obtain ⟨hlen₁, hall₁⟩ := consumes_times_one.mp h₁
    obtain ⟨hlen₂, hall₂⟩ := consumes_upTo_one.mp h₂
    rw [List.length_append]
    refine ⟨by omega, fun c hc => ?_⟩
    exact (List.mem_append.mp hc).elim (hall₁ c) (hall₂ c)
  · rintro ⟨⟨hmin, hmax⟩, hall⟩
    refine ⟨m.take min, m.drop min, (List.take_append_drop ..).symm, ?_, ?_⟩
    · refine consumes_times_one.mpr ⟨by rw [List.length_take]; omega, fun c hc => ?_⟩
      exact hall c (List.mem_of_mem_take hc)
    · refine consumes_upTo_one.mpr ⟨by rw [List.length_drop]; omega, fun c hc => ?_⟩
      exact hall c (List.mem_of_mem_drop hc)

end

/-! ## The characters of a pattern -/

/-- What the pattern takes consists of such characters. -/
def Within (P : Char → Prop) : Regex → Prop
  | one p | many p => ∀ c, p c = true → P c
  | seq r s | alt r s => r.Within P ∧ s.Within P
  | empty | notBehind _ | notAhead _ | boundary _ => True

section

variable {P : Char → Prop}

theorem within_cat {rs : List Regex} (h : ∀ r ∈ rs, r.Within P) : (cat rs).Within P := by
  induction rs with
  | nil => trivial
  | cons r rs ih =>
    exact ⟨h r (List.mem_cons_self ..), ih fun s hs => h s (List.mem_cons_of_mem _ hs)⟩

theorem within_lit {s : String} (h : ∀ c ∈ s.toList, P c) : (lit s).Within P := by
  refine within_cat fun r hr => ?_
  obtain ⟨c, hc, rfl⟩ := List.mem_map.mp hr
  intro d hd
  rw [beq_iff_eq.mp hd]
  exact h c hc

theorem within_times {r : Regex} (h : r.Within P) (n : Nat) : (times r n).Within P := by
  refine within_cat fun s hs => ?_
  rwa [List.eq_of_mem_replicate hs]

theorem within_atLeast {p : Char → Bool} (h : ∀ c, p c = true → P c) (n : Nat) :
    (atLeast p n).Within P :=
  ⟨within_times (r := one p) h n, h⟩

theorem consumes_within {r : Regex} (hr : r.Within P) {before m after : List Char}
    (h : r.Consumes before m after) : ∀ c ∈ m, P c := by
  induction r generalizing before m after with
  | empty =>
    rw [show m = [] from h]
    simp
  | one p =>
    obtain ⟨c, hc, rfl⟩ := h
    simpa using hr c hc
  | many p => exact fun c hc => hr c (h c hc)
  | seq r s ihr ihs =>
    obtain ⟨m₁, m₂, rfl, h₁, h₂⟩ := h
    intro c hc
    exact (List.mem_append.mp hc).elim (ihr hr.1 h₁ c) (ihs hr.2 h₂ c)
  | alt r s ihr ihs => exact h.elim (ihr hr.1) (ihs hr.2)
  | notBehind _ | notAhead _ | boundary _ =>
    rw [h.1]
    simp

end

/-! ## Searching -/

def searchFrom (r : Regex) (before : List Char) : List Char → Bool
  | [] => !(r.ends before []).isEmpty
  | c :: text => !(r.ends before (c :: text)).isEmpty || searchFrom r (c :: before) text

/-- `search`. -/
def search (r : Regex) (text : List Char) : Bool := r.searchFrom [] text

theorem searchFrom_of_consumes {r : Regex} {m after : List Char} (before u : List Char)
    (h : r.Consumes (u.reverse ++ before) m after) :
    r.searchFrom before (u ++ (m ++ after)) = true := by
  have hhere : ∀ before' : List Char, r.Consumes before' m after →
      (r.ends before' (m ++ after)).isEmpty = false := by
    intro before' h'
    have hmem : (m.reverse ++ before', after) ∈ r.ends before' (m ++ after) :=
      mem_ends.mpr ⟨m, rfl, rfl, h'⟩
    rw [List.isEmpty_eq_false_iff]
    exact List.ne_nil_of_mem hmem
  induction u generalizing before with
  | nil =>
    have hhere := hhere before h
    rw [List.nil_append]
    generalize m ++ after = text at hhere ⊢
    cases text with
    | nil => rw [searchFrom, hhere]; rfl
    | cons c text => rw [searchFrom, hhere]; rfl
  | cons c u ih =>
    rw [List.cons_append, searchFrom, ih (c :: before) (by simpa using h), Bool.or_true]

/-- **A search finds what is there.** -/
theorem search_of_consumes {r : Regex} {u m after : List Char}
    (h : r.Consumes u.reverse m after) : r.search (u ++ (m ++ after)) = true :=
  searchFrom_of_consumes [] u (by simpa using h)

/-! ## Replacing -/

/-- The length of the match at a position. -/
def matchLength (r : Regex) (before text : List Char) : Option Nat :=
  (r.ends before text).head?.map fun pos => text.length - pos.2.length

/-- The text with the matches replaced, after the next `skip` characters,
which belong to a match. Only matches of a character or more count. -/
def subFrom (r : Regex) (repl : List Char) : List Char → Nat → List Char → List Char
  | _, _, [] => []
  | before, skip + 1, c :: text => subFrom r repl (c :: before) skip text
  | before, 0, c :: text =>
    match r.matchLength before (c :: text) with
    | some (n + 1) => repl ++ subFrom r repl (c :: before) n text
    | _ => c :: subFrom r repl (c :: before) 0 text

/-- `sub`. -/
def sub (r : Regex) (repl text : List Char) : List Char := r.subFrom repl [] 0 text

theorem matchLength_eq_some {r : Regex} {before text : List Char} {n : Nat}
    (h : r.matchLength before text = some n) :
    ∃ m after, text = m ++ after ∧ m.length = n ∧ r.Consumes before m after := by
  obtain ⟨⟨before', after⟩, hhead, rfl⟩ := Option.map_eq_some_iff.mp h
  obtain ⟨m, rfl, _, hm⟩ := mem_ends.mp (List.mem_of_mem_head? hhead)
  exact ⟨m, after, rfl, by simp, hm⟩

theorem consumes_of_matchLength {r : Regex} {before m after : List Char}
    (h : r.matchLength before (m ++ after) = some m.length) : r.Consumes before m after := by
  obtain ⟨m', after', htext, hlen, hm⟩ := matchLength_eq_some h
  obtain ⟨rfl, rfl⟩ := List.append_inj htext hlen.symm
  exact hm

/-- Where a pattern that never takes nothing takes something, there is a
match. -/
theorem matchLength_of_consumes {r : Regex} (hr : r.nullable = false)
    {before m after : List Char} (h : r.Consumes before m after) :
    ∃ n, r.matchLength before (m ++ after) = some (n + 1) := by
  have hmem : (m.reverse ++ before, after) ∈ r.ends before (m ++ after) :=
    mem_ends.mpr ⟨m, rfl, rfl, h⟩
  obtain ⟨pos, rest, hends⟩ := List.exists_cons_of_ne_nil (List.ne_nil_of_mem hmem)
  have hlen : r.matchLength before (m ++ after) = some ((m ++ after).length - pos.2.length) := by
    rw [matchLength, hends]
    rfl
  obtain ⟨m', after', htext, hm', hc⟩ := matchLength_eq_some hlen
  have hpos : 0 < m'.length := List.length_pos_iff.mpr (ne_nil_of_consumes hr hc)
  exact ⟨m'.length - 1, by rw [hlen, ← hm', Nat.sub_add_cancel hpos]⟩

/-! ## Patterns with one way to match -/

/-- The start of the text. -/
def start : Regex := notBehind fun _ => true

/-- Patterns that take a fixed number of characters and look at no
others. -/
def fixed : Regex → Bool
  | empty | one _ => true
  | seq r s => r.fixed && s.fixed
  | many _ | alt _ _ | notBehind _ | notAhead _ | boundary _ => false

/-- What a fixed pattern takes, it takes everywhere, and nothing else. -/
theorem ends_of_fixed {r : Regex} (hr : r.fixed = true) {before m after : List Char}
    (h : r.Consumes before m after) (before' rest : List Char) :
    r.ends before' (m ++ rest) = [(m.reverse ++ before', rest)] := by
  induction r generalizing before m after before' rest with
  | empty =>
    rw [show m = [] from h]
    rfl
  | one p =>
    obtain ⟨c, hc, rfl⟩ := h
    simp [ends, hc]
  | seq r s ihr ihs =>
    obtain ⟨hr, hs⟩ := Bool.and_eq_true_iff.mp hr
    obtain ⟨m₁, m₂, rfl, h₁, h₂⟩ := h
    rw [ends, List.append_assoc, ihr hr h₁, List.flatMap_cons, List.flatMap_nil, List.append_nil,
      ihs hs h₂, List.reverse_append, List.append_assoc]
  | many _ | alt _ _ | notBehind _ | notAhead _ | boundary _ => cases hr

theorem consumes_of_fixed {r : Regex} (hr : r.fixed = true) {before m after : List Char}
    (h : r.Consumes before m after) (before' after' : List Char) :
    r.Consumes before' m after' := by
  have hmem : (m.reverse ++ before', after') ∈ r.ends before' (m ++ after') := by
    rw [ends_of_fixed hr h]
    exact List.mem_singleton_self _
  obtain ⟨m', htext, _, hm'⟩ := mem_ends.mp hmem
  rwa [List.append_cancel_right htext]

/-- Two texts that a fixed pattern takes in one place are the same. -/
theorem fixed_unique {r : Regex} (hr : r.fixed = true) {before m after m' after' : List Char}
    (h : r.Consumes before m after) (h' : r.Consumes before m' after')
    (htext : m ++ after = m' ++ after') : m = m' := by
  have hmem : (m'.reverse ++ before, after') ∈ r.ends before (m' ++ after') :=
    mem_ends.mpr ⟨m', rfl, rfl, h'⟩
  rw [← htext, ends_of_fixed hr h, List.mem_singleton] at hmem
  cases (Prod.mk.inj hmem).2
  exact List.append_cancel_right htext

/-- A greedy repetition first takes as much as it can. -/
theorem head?_manyEnds (p : Char → Bool) (before text : List Char) :
    (manyEnds p before text).head? =
      some ((text.takeWhile p).reverse ++ before, text.dropWhile p) := by
  induction text generalizing before with
  | nil => rfl
  | cons c text ih =>
    by_cases hc : p c = true
    · rw [manyEnds, if_pos hc, List.head?_append, ih, List.takeWhile_cons_of_pos hc,
        List.dropWhile_cons_of_pos hc]
      simp
    · rw [manyEnds, if_neg hc, List.takeWhile_cons_of_neg hc, List.dropWhile_cons_of_neg hc]
      rfl

/-- Behind the start of the text an anchored pattern has no match. -/
theorem start_ends_cons {r : Regex} (c : Char) (before text : List Char) :
    (seq start r).ends (c :: before) text = [] := by
  simp [ends, start]

theorem subFrom_start_cons {r : Regex} (repl : List Char) (c : Char) (before text : List Char) :
    (seq start r).subFrom repl (c :: before) 0 text = text := by
  induction text generalizing c before with
  | nil => rfl
  | cons d text ih =>
    rw [subFrom, matchLength, start_ends_cons]
    exact congrArg (d :: ·) (ih d (c :: before))

theorem subFrom_start_skip {r : Regex} (repl : List Char) (c : Char) (before : List Char)
    (skip : Nat) (text : List Char) :
    (seq start r).subFrom repl (c :: before) skip text = text.drop skip := by
  induction text generalizing c before skip with
  | nil => cases skip <;> rfl
  | cons d text ih =>
    cases skip with
    | zero => exact subFrom_start_cons repl c before _
    | succ skip => exact ih d (c :: before) skip

/-- **An anchored pattern is replaced once, at the start of the text.** -/
theorem sub_start {r : Regex} (repl text : List Char) :
    (seq start r).sub repl text =
      match (seq start r).matchLength [] text with
      | some (n + 1) => repl ++ text.drop (n + 1)
      | _ => text := by
  cases text with
  | nil =>
    show [] = _
    split
    · rename_i n hn
      obtain ⟨m, after, hm, hlen, _⟩ := matchLength_eq_some hn
      rw [(List.append_eq_nil_iff.mp hm.symm).1] at hlen
      cases hlen
    · rfl
  | cons c text =>
    rw [sub, subFrom]
    split
    · rw [subFrom_start_skip]
      rfl
    · rw [subFrom_start_cons]

theorem start_ends_nil {r : Regex} (text : List Char) :
    (seq start r).ends [] text = r.ends [] text := by
  simp [ends, start]

theorem start_matchLength {r : Regex} (text : List Char) :
    (seq start r).matchLength [] text = r.matchLength [] text := by
  rw [matchLength, start_ends_nil, matchLength]

/-! ## Rewritings -/

/-- The text `y` is `x` with the matches replaced, from left to right.
Before it stands `before`, and `tail` after it. -/
inductive Rewrites (r : Regex) (repl tail : List Char) : List Char → List Char → List Char → Prop
  | nil {before} : Rewrites r repl tail before [] []
  | keep {before c x y} (hno : ∀ n, r.matchLength before (c :: (x ++ tail)) ≠ some (n + 1))
      (h : Rewrites r repl tail (c :: before) x y) :
    Rewrites r repl tail before (c :: x) (c :: y)
  | replace {before m x y} (hne : m ≠ [])
      (hm : r.matchLength before (m ++ (x ++ tail)) = some m.length)
      (h : Rewrites r repl tail (m.reverse ++ before) x y) :
    Rewrites r repl tail before (m ++ x) (repl ++ y)

/-- No match begins in `w`, which stands between `before` and `after`. -/
def Unmatched (r : Regex) (before w after : List Char) : Prop :=
  ∀ w₁ c w₂, w = w₁ ++ c :: w₂ →
    ∀ n, r.matchLength (w₁.reverse ++ before) (c :: (w₂ ++ after)) ≠ some (n + 1)

/-- The matches in `u ++ (w ++ v)` stay clear of `w`. -/
structure Avoids (r : Regex) (before u w v : List Char) : Prop where
  enters : ∀ u₁ u₂ m s, u = u₁ ++ u₂ → u₂ ≠ [] → u₂ ++ (w ++ v) = m ++ s →
    r.Consumes (u₁.reverse ++ before) m s → m.length ≤ u₂.length
  begins : ∀ w₁ w₂ m s, w = w₁ ++ w₂ → w₂ ≠ [] → w₂ ++ v = m ++ s →
    m ≠ [] → ¬ r.Consumes (w₁.reverse ++ (u.reverse ++ before)) m s

/-- No part of `w` can come from the replacement: neither is there an end
of the one that begins the other, nor does the one contain the other. -/
structure Apart (repl w : List Char) : Prop where
  begins : ∀ s ∈ repl.tails, s ≠ [] → ¬ s <+: w ∧ ¬ w <+: s
  enters : ∀ t ∈ w.tails, t ≠ [] → ¬ t <+: repl ∧ ¬ repl <+: t

instance (repl w : List Char) : Decidable (Apart repl w) :=
  decidable_of_iff ((∀ s ∈ repl.tails, s ≠ [] → ¬ s <+: w ∧ ¬ w <+: s) ∧
      ∀ t ∈ w.tails, t ≠ [] → ¬ t <+: repl ∧ ¬ repl <+: t)
    ⟨fun h => ⟨h.1, h.2⟩, fun h => ⟨h.begins, h.enters⟩⟩

section

variable {r : Regex} {repl tail before x y u w v : List Char}

theorem subFrom_rewrites (before : List Char) (skip : Nat) (text : List Char)
    (h : skip ≤ text.length) : Rewrites r repl [] ((text.take skip).reverse ++ before)
      (text.drop skip) (r.subFrom repl before skip text) := by
  induction text generalizing before skip with
  | nil =>
    rw [List.drop_nil, subFrom]
    exact .nil
  | cons c text ih =>
    cases skip with
    | succ skip =>
      rw [subFrom]
      simpa using ih (c :: before) skip (by simpa using h)
    | zero =>
      rw [subFrom, List.take_zero, List.drop_zero, List.reverse_nil, List.nil_append]
      split
      · rename_i n hn
        obtain ⟨_ | ⟨d, m⟩, after, hm, hlen, hc⟩ := matchLength_eq_some hn
        · cases hlen
        · obtain ⟨rfl, htext⟩ := List.cons.inj hm
          obtain rfl : text = m ++ after := htext
          obtain rfl : m.length = n := by simpa using hlen
          have hrest := ih (c :: before) m.length (by simp)
          rw [List.take_left, List.drop_left] at hrest
          refine .replace (m := c :: m) (List.cons_ne_nil _ _) (by simpa using hn) ?_
          simpa using hrest
      · rename_i hno
        exact .keep (by simpa using hno) (ih (c :: before) 0 (Nat.zero_le _))

/-- **What `sub` does is a rewriting.** -/
theorem sub_rewrites (x : List Char) : Rewrites r repl [] [] x (r.sub repl x) := by
  exact subFrom_rewrites [] 0 x (Nat.zero_le _)

theorem Unmatched.nil {after : List Char} : Unmatched r before [] after := by
  intro w₁ c w₂ h
  cases w₁ with
  | nil => cases h
  | cons d w₁ => cases h

theorem Unmatched.cons {c : Char} {after : List Char}
    (hc : ∀ n, r.matchLength before (c :: (w ++ after)) ≠ some (n + 1))
    (h : Unmatched r (c :: before) w after) : Unmatched r before (c :: w) after := by
  intro w₁ d w₂ hw
  cases w₁ with
  | nil =>
    obtain ⟨rfl, rfl⟩ := List.cons.inj hw
    exact hc
  | cons e w₁ =>
    obtain ⟨rfl, rfl⟩ := List.cons.inj hw
    simpa using h w₁ d w₂ rfl

/-- Nothing that the pattern takes begins in an unmatched text. -/
theorem Unmatched.not_consumes (hr : r.nullable = false) {after w₁ w₂ m s : List Char}
    (h : Unmatched r before w after) (hw : w = w₁ ++ w₂) (hne : w₂ ≠ [])
    (hm : w₂ ++ after = m ++ s) : ¬ r.Consumes (w₁.reverse ++ before) m s := by
  intro hc
  obtain ⟨c, w₂, rfl⟩ := List.exists_cons_of_ne_nil hne
  obtain ⟨n, hn⟩ := matchLength_of_consumes hr hc
  rw [← hm] at hn
  exact h w₁ c w₂ hw n hn

theorem Unmatched.not_here (hr : r.nullable = false) {after m s : List Char}
    (h : Unmatched r before w after) (hne : w ≠ []) (hm : w ++ after = m ++ s) :
    ¬ r.Consumes before m s := fun hc =>
  h.not_consumes hr (List.nil_append w).symm hne hm (by simpa using hc)

/-- A text that cannot hold the first character of the replacement. -/
theorem not_prefix_of_notMem {a : Char} {rest t : List Char} (hne : t ≠ []) (ha : a ∉ t) :
    ¬ t <+: a :: rest ∧ ¬ a :: rest <+: t := by
  obtain ⟨c, t, rfl⟩ := List.exists_cons_of_ne_nil hne
  have hac : a ≠ c := fun h => ha (h ▸ List.mem_cons_self ..)
  exact ⟨fun h => hac (List.cons_prefix_cons.mp h).1.symm,
    fun h => hac (List.cons_prefix_cons.mp h).1⟩

/-- What follows a kept character is kept, up to where a replacement can
begin. -/
theorem Rewrites.keeps_of (hw : ∀ t ∈ w.tails, t ≠ [] → ¬ t <+: repl ∧ ¬ repl <+: t)
    (h : Rewrites r repl tail before x (w ++ v)) :
    ∃ v', x = w ++ v' ∧ Unmatched r before w (v' ++ tail) ∧
      Rewrites r repl tail (w.reverse ++ before) v' v := by
  induction w generalizing before x with
  | nil => exact ⟨x, rfl, .nil, h⟩
  | cons c w ih =>
    have hhere := hw (c :: w) ((List.mem_tails _ _).mpr (List.suffix_refl _)) (List.cons_ne_nil _ _)
    have hrest : ∀ t ∈ w.tails, t ≠ [] → ¬ t <+: repl ∧ ¬ repl <+: t := fun t ht =>
      hw t ((List.mem_tails _ _).mpr (((List.mem_tails _ _).mp ht).trans (List.suffix_cons c w)))
    generalize hy : c :: w ++ v = y at h
    cases h with
    | nil => cases hy
    | keep hno h =>
      obtain ⟨rfl, rfl⟩ := List.cons.inj hy
      obtain ⟨v', rfl, hidle, hv⟩ := ih hrest h
      exact ⟨v', rfl, .cons (by simpa using hno) hidle, by simpa using hv⟩
    | @replace _ m x y hne hm h =>
      rcases List.prefix_or_prefix_of_prefix (List.prefix_append (c :: w) v)
        (hy ▸ List.prefix_append repl y) with h | h
      · exact absurd h hhere.1
      · exact absurd h hhere.2

theorem Rewrites.keeps {a : Char} {rest : List Char} (hw : a ∉ w)
    (h : Rewrites r (a :: rest) tail before x (w ++ v)) :
    ∃ v', x = w ++ v' ∧ Unmatched r before w (v' ++ tail) ∧
      Rewrites r (a :: rest) tail (w.reverse ++ before) v' v :=
  h.keeps_of fun _ ht hne =>
    not_prefix_of_notMem hne fun ha => hw (((List.mem_tails _ _).mp ht).subset ha)

/-- What has no part in a replacement was there before. -/
theorem Rewrites.kept_of (hne : w ≠ []) (hw : Apart repl w)
    (h : Rewrites r repl tail before x (u ++ (w ++ v))) :
    ∃ u' v', x = u' ++ (w ++ v') ∧ Rewrites r repl (w ++ v' ++ tail) before u' u ∧
      Unmatched r (u'.reverse ++ before) w (v' ++ tail) ∧
      Rewrites r repl tail (w.reverse ++ (u'.reverse ++ before)) v' v := by
  generalize hy : u ++ (w ++ v) = y at h
  induction h generalizing u with
  | nil =>
    obtain ⟨_, hwv⟩ := List.append_eq_nil_iff.mp hy
    exact absurd (List.append_eq_nil_iff.mp hwv).1 hne
  | @keep before c x y hno h ih =>
    cases u with
    | nil =>
      have hkeep := Rewrites.keep hno h
      rw [← hy] at hkeep
      obtain ⟨v', hx, hidle, hv⟩ := hkeep.keeps_of hw.enters
      exact ⟨[], v', hx, .nil, hidle, hv⟩
    | cons d u =>
      obtain ⟨rfl, hu⟩ := List.cons.inj hy
      obtain ⟨u', v', rfl, hleft, hidle, hright⟩ := ih hu
      exact ⟨d :: u', v', rfl, .keep (by simpa using hno) hleft, by simpa using hidle,
        by simpa using hright⟩
  | @replace before m x y hm₀ hm h ih =>
    have hinside : ∀ u₁, u = repl ++ u₁ → u₁ ++ (w ++ v) = y →
        ∃ u' v', m ++ x = u' ++ (w ++ v') ∧ Rewrites r repl (w ++ v' ++ tail) before u' u ∧
          Unmatched r (u'.reverse ++ before) w (v' ++ tail) ∧
          Rewrites r repl tail (w.reverse ++ (u'.reverse ++ before)) v' v := by
      rintro u₁ rfl hu
      obtain ⟨u', v', rfl, hleft, hidle, hright⟩ := ih hu
      exact ⟨m ++ u', v', by simp, .replace hm₀ (by simpa using hm) hleft, by simpa using hidle,
        by simpa using hright⟩
    rcases List.append_eq_append_iff.mp hy with ⟨t, ht, hwv⟩ | ⟨u₁, hu, hy⟩
    · -- the replacement ends inside `w`, unless it ends where `w` begins
      by_cases htnil : t = []
      · subst htnil
        exact hinside [] (by simpa using ht.symm) (by simpa using hwv)
      · have hapart := hw.begins t ((List.mem_tails _ _).mpr ⟨u, ht.symm⟩) htnil
        have hboth : t <+: w ++ v := hwv ▸ List.prefix_append _ _
        rcases List.prefix_or_prefix_of_prefix hboth (List.prefix_append w v) with h | h
        · exact absurd h hapart.1
        · exact absurd h hapart.2
    · exact hinside u₁ hu hy.symm

/-- **What cannot come from a replacement was there before.** -/
theorem Rewrites.kept {a : Char} {rest : List Char} (hne : w ≠ [])
    (hhead : ∀ c ∈ w.head?, c ∉ a :: rest) (hw : a ∉ w)
    (h : Rewrites r (a :: rest) tail before x (u ++ (w ++ v))) :
    ∃ u' v', x = u' ++ (w ++ v') ∧
      Rewrites r (a :: rest) (w ++ v' ++ tail) before u' u ∧
      Unmatched r (u'.reverse ++ before) w (v' ++ tail) ∧
      Rewrites r (a :: rest) tail (w.reverse ++ (u'.reverse ++ before)) v' v := by
  refine h.kept_of hne ⟨fun s hs hsne => ?_, fun t ht htne => ?_⟩
  · obtain ⟨c, w, rfl⟩ := List.exists_cons_of_ne_nil hne
    have hc : c ∉ s := fun hc => hhead c rfl (((List.mem_tails _ _).mp hs).subset hc)
    exact (not_prefix_of_notMem hsne hc).imp id id
  · exact not_prefix_of_notMem htne fun ha => hw (((List.mem_tails _ _).mp ht).subset ha)

/-- A text in which no match begins is kept. -/
theorem Rewrites.stays (h : Rewrites r repl tail before (w ++ x) y)
    (hno : ∀ w₁ w₂ m s, w = w₁ ++ w₂ → w₂ ≠ [] → w₂ ++ (x ++ tail) = m ++ s → m ≠ [] →
      ¬ r.Consumes (w₁.reverse ++ before) m s) :
    ∃ y', y = w ++ y' ∧ Rewrites r repl tail (w.reverse ++ before) x y' := by
  induction w generalizing before y with
  | nil => exact ⟨y, rfl, h⟩
  | cons c w ih =>
    have hrest : ∀ w₁ w₂ m s, w = w₁ ++ w₂ → w₂ ≠ [] → w₂ ++ (x ++ tail) = m ++ s → m ≠ [] →
        ¬ r.Consumes (w₁.reverse ++ (c :: before)) m s := by
      rintro w₁ w₂ m s rfl hne hm hm₀
      simpa using hno (c :: w₁) w₂ m s rfl hne hm hm₀
    generalize hx : c :: w ++ x = x' at h
    cases h with
    | nil => cases hx
    | keep _ h =>
      obtain ⟨rfl, rfl⟩ := List.cons.inj hx
      obtain ⟨y', rfl, hy'⟩ := ih h hrest
      exact ⟨y', rfl, by simpa using hy'⟩
    | @replace _ m x'' y hne hm h =>
      refine absurd (consumes_of_matchLength hm) ?_
      refine hno [] (c :: w) m (x'' ++ tail) rfl (List.cons_ne_nil _ _) ?_ hne
      rw [← List.append_assoc, hx, List.append_assoc]

/-- A text can be cut where no match crosses. -/
theorem Rewrites.split (h : Rewrites r repl tail before (u ++ x) y)
    (hcross : ∀ u₁ u₂ m s, u = u₁ ++ u₂ → u₂ ≠ [] → u₂ ++ (x ++ tail) = m ++ s →
      r.Consumes (u₁.reverse ++ before) m s → m.length ≤ u₂.length) :
    ∃ y₁ y₂, y = y₁ ++ y₂ ∧ Rewrites r repl (x ++ tail) before u y₁ ∧
      Rewrites r repl tail (u.reverse ++ before) x y₂ := by
  generalize hx : u ++ x = x' at h
  induction h generalizing u with
  | nil =>
    obtain ⟨rfl, rfl⟩ := List.append_eq_nil_iff.mp hx
    exact ⟨[], [], rfl, .nil, .nil⟩
  | @keep before c x' y hno h ih =>
    cases u with
    | nil =>
      obtain rfl : x = c :: x' := hx
      exact ⟨[], _, rfl, .nil, .keep hno h⟩
    | cons d u =>
      obtain ⟨rfl, rfl⟩ := List.cons.inj hx
      obtain ⟨y₁, y₂, rfl, hleft, hright⟩ := ih (fun u₁ u₂ m s hu hne hm hc =>
        hcross (d :: u₁) u₂ m s (by rw [hu]; rfl) hne hm (by simpa using hc)) rfl
      exact ⟨d :: y₁, y₂, rfl, .keep (by simpa using hno) hleft, by simpa using hright⟩
  | @replace before m x' y hne hm h ih =>
    by_cases hu : u = []
    · subst hu
      obtain rfl : x = m ++ x' := hx
      exact ⟨[], _, rfl, .nil, .replace hne hm h⟩
    · have hlen : m.length ≤ u.length := hcross [] u m (x' ++ tail) rfl hu
        (by rw [← List.append_assoc, hx, List.append_assoc]) (consumes_of_matchLength hm)
      -- the match ends inside `u`
      obtain ⟨u', rfl⟩ : ∃ u', u = m ++ u' :=
        List.prefix_of_prefix_length_le (List.prefix_append m x') (hx ▸ List.prefix_append u x)
          hlen |>.imp fun _ h => h.symm
      obtain rfl : u' ++ x = x' := by simpa using hx
      obtain ⟨y₁, y₂, rfl, hleft, hright⟩ := ih (fun u₁ u₂ m' s hu hne hm hc =>
        hcross (m ++ u₁) u₂ m' s (by rw [hu, List.append_assoc]) hne hm (by simpa using hc)) rfl
      exact ⟨repl ++ y₁, y₂, by simp, .replace hne (by simpa using hm) hleft, by simpa using hright⟩

/-- **What no match touches is kept.** -/
theorem Rewrites.around (h : Rewrites r repl tail before (u ++ (w ++ v)) y)
    (ha : Avoids r before u w (v ++ tail)) :
    ∃ u' v', y = u' ++ (w ++ v') ∧ Rewrites r repl (w ++ v ++ tail) before u u' ∧
      Rewrites r repl tail (w.reverse ++ (u.reverse ++ before)) v v' := by
  obtain ⟨u', y₂, rfl, hleft, hrest⟩ := h.split (by simpa using ha.enters)
  obtain ⟨v', rfl, hright⟩ := hrest.stays ha.begins
  exact ⟨u', v', rfl, hleft, hright⟩

theorem unmatched_of_not_consumes (h : ∀ w₁ w₂ m s, w = w₁ ++ w₂ → w₂ ≠ [] → w₂ ++ v = m ++ s →
    m ≠ [] → ¬ r.Consumes (w₁.reverse ++ before) m s) : Unmatched r before w v := by
  intro w₁ c w₂ hw n hn
  obtain ⟨m, s, hm, hlen, hc⟩ := matchLength_eq_some hn
  exact h w₁ (c :: w₂) m s hw (List.cons_ne_nil _ _) hm
    (List.ne_nil_of_length_eq_add_one hlen) hc

theorem Avoids.unmatched (h : Avoids r before u w v) :
    Unmatched r (u.reverse ++ before) w v :=
  unmatched_of_not_consumes h.begins

/-- A rewriting keeps the last character, or replaces a match at the end. -/
theorem Rewrites.last (h : Rewrites r repl tail before x y) :
    x.getLast? = y.getLast? ∨ ∃ x₀ y₀ m, x = x₀ ++ m ∧ y = y₀ ++ repl ∧
      r.Consumes (x₀.reverse ++ before) m tail := by
  induction h with
  | nil => exact .inl rfl
  | @keep before c x y hno h ih =>
    rcases ih with ih | ⟨x₀, y₀, m, rfl, rfl, hm⟩
    · exact .inl (by rw [List.getLast?_cons, List.getLast?_cons, ih])
    · exact .inr ⟨c :: x₀, c :: y₀, m, rfl, rfl, by simpa using hm⟩
  | @replace before m x y hne hm h ih =>
    rcases ih with ih | ⟨x₀, y₀, m', rfl, rfl, hm'⟩
    · cases hx : x.getLast? with
      | none =>
        obtain rfl := List.getLast?_eq_none_iff.mp hx
        obtain rfl := List.getLast?_eq_none_iff.mp (ih.symm.trans hx)
        exact .inr ⟨[], [], m, by simp, by simp,
          consumes_of_matchLength (by simpa using hm)⟩
      | some c => exact .inl (by rw [List.getLast?_append, List.getLast?_append, ← ih, hx]; rfl)
    · exact .inr ⟨m ++ x₀, repl ++ y₀, m', by simp, by simp, by simpa using hm'⟩

/-- A rewriting keeps the first character, or replaces a match there. -/
theorem Rewrites.first (h : Rewrites r repl tail before x y) :
    x.head? = y.head? ∨ ∃ m x' y', x = m ++ x' ∧ y = repl ++ y' ∧
      r.Consumes before m (x' ++ tail) ∧ Rewrites r repl tail (m.reverse ++ before) x' y' := by
  cases h with
  | nil => exact .inl rfl
  | keep hno h => exact .inl rfl
  | replace hne hm h => exact .inr ⟨_, _, _, rfl, rfl, consumes_of_matchLength hm, h⟩

/-- What holds of the last character, and of that of the replacement, holds
of the last one that comes out. -/
theorem Rewrites.last_of {P : Char → Prop} (h : Rewrites r repl tail before x y)
    (hne : repl ≠ []) (hrepl : ∀ c ∈ repl.getLast?, P c) (hx : ∀ c ∈ x.getLast?, P c) :
    ∀ c ∈ y.getLast?, P c := by
  rcases h.last with hsame | ⟨_, y₀, _, _, rfl, _⟩
  · rwa [← hsame]
  · rwa [List.getLast?_append_of_ne_nil _ hne]

/-- The same of the first one. -/
theorem Rewrites.first_of {P : Char → Prop} (h : Rewrites r repl tail before x y)
    (hne : repl ≠ []) (hrepl : ∀ c ∈ repl.head?, P c) (hx : ∀ c ∈ x.head?, P c) :
    ∀ c ∈ y.head?, P c := by
  rcases h.first with hsame | ⟨_, _, y', _, rfl, _⟩
  · rwa [← hsame]
  · rwa [List.head?_append_of_ne_nil _ hne]

/-- Nothing comes out only where nothing goes in. -/
theorem Rewrites.eq_nil (h : Rewrites r repl tail before x []) (hne : repl ≠ []) : x = [] := by
  generalize hy : ([] : List Char) = y at h
  cases h with
  | nil => rfl
  | keep _ _ => cases hy
  | replace _ _ _ => exact absurd (List.append_eq_nil_iff.mp hy.symm).1 hne

/-- Nothing comes out of nothing. -/
theorem Rewrites.of_nil (h : Rewrites r repl tail before [] y) : y = [] := by
  generalize hx : ([] : List Char) = x at h
  cases h with
  | nil => rfl
  | keep _ _ => cases hx
  | replace hne _ _ => exact absurd (List.append_eq_nil_iff.mp hx.symm).1 hne

/-- Where there is something to take, a rewriting replaces a match. -/
theorem Rewrites.taken (hr : r.nullable = false) {m : List Char}
    (h : Rewrites r repl tail before (m ++ x) y) (hm : r.Consumes before m (x ++ tail)) :
    ∃ m' x' y', m ++ x = m' ++ x' ∧ y = repl ++ y' ∧ r.Consumes before m' (x' ++ tail) ∧
      Rewrites r repl tail (m'.reverse ++ before) x' y' := by
  obtain ⟨n, hn⟩ := matchLength_of_consumes hr hm
  rw [← List.append_assoc] at hn
  generalize hx : m ++ x = x₀ at h hn
  cases h with
  | nil => exact absurd (List.append_eq_nil_iff.mp hx).1 (ne_nil_of_consumes hr hm)
  | keep hno h => exact absurd hn (hno n)
  | replace hne hm' h => exact ⟨_, _, _, rfl, rfl, consumes_of_matchLength hm', h⟩

end

end Regex

end QkdEkm.Lib
