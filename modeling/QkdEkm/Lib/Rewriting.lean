import Mathlib.Data.List.Forall2
import QkdEkm.Lib.Regex

/-!
# Rewriting — what is left when the matches are replaced

A text is `Free` of a pattern if no match stands in it: a search finds
nothing, and a replacement changes nothing. A pattern is `Guarded` if it
asks its neighbours only not to be of one kind. Replacing the matches of
one pattern leaves a text free of a guarded one, as long as what is
replaced neither holds a part of a match nor changes the kind of its
neighbours (`Guarded.free_self`, `Guarded.free_sub`). A part in front of
the text in which no match begins can be set aside (`sub_append`).
-/

namespace QkdEkm.Lib.Regex

/-- No match stands in the text. -/
def Free (r : Regex) (text : List Char) : Prop :=
  ∀ u m after, text = u ++ (m ++ after) → ¬ r.Consumes u.reverse m after

section

variable {r : Regex} {repl text x y u w v before before' after after' m : List Char}

/-! ## Searching and replacing -/

theorem exists_of_ends (h : (!(r.ends before text).isEmpty) = true) :
    ∃ m after, text = m ++ after ∧ r.Consumes before m after := by
  rw [Bool.not_eq_true', List.isEmpty_eq_false_iff] at h
  obtain ⟨⟨before', after⟩, hmem⟩ := List.exists_mem_of_ne_nil _ h
  obtain ⟨m, htext, _, hm⟩ := mem_ends.mp hmem
  exact ⟨m, after, htext, hm⟩

theorem exists_of_searchFrom (h : r.searchFrom before text = true) :
    ∃ u m after, text = u ++ (m ++ after) ∧ r.Consumes (u.reverse ++ before) m after := by
  induction text generalizing before with
  | nil =>
    obtain ⟨m, after, htext, hm⟩ := exists_of_ends h
    exact ⟨[], m, after, htext, hm⟩
  | cons c text ih =>
    rw [searchFrom, Bool.or_eq_true] at h
    rcases h with h | h
    · obtain ⟨m, after, htext, hm⟩ := exists_of_ends h
      exact ⟨[], m, after, htext, hm⟩
    · obtain ⟨u, m, after, rfl, hm⟩ := ih h
      exact ⟨c :: u, m, after, rfl, by simpa using hm⟩

/-- **A search finds nothing exactly in a free text.** -/
theorem search_eq_false_iff : r.search text = false ↔ r.Free text := by
  constructor
  · rintro h u m after rfl hm
    rw [search_of_consumes hm] at h
    cases h
  · intro h
    by_contra hsearch
    rw [Bool.not_eq_false] at hsearch
    obtain ⟨u, m, after, htext, hm⟩ := exists_of_searchFrom hsearch
    exact h u m after htext (by simpa using hm)

/-- **A free text is left as it is.** -/
theorem sub_of_free (h : r.Free x) : r.sub repl x = x := by
  have hrw : Rewrites r repl [] [] (x ++ []) (r.sub repl x) := by
    rw [List.append_nil]
    exact sub_rewrites x
  obtain ⟨y, hy, hnil⟩ := hrw.stays fun w₁ w₂ m s hw _ hm _ hc =>
    h w₁ m s (by rw [hw, ← hm]; simp) (by simpa using hc)
  rw [hy, hnil.of_nil, List.append_nil]

theorem free_of_unmatched (hr : r.nullable = false) (h : Unmatched r [] x []) : r.Free x := by
  intro u m after hx hm
  have hne : m ++ after ≠ [] := fun hnil =>
    ne_nil_of_consumes hr hm (List.append_eq_nil_iff.mp hnil).1
  exact h.not_consumes hr hx hne (List.append_nil _) (by simpa using hm)

/-- A property of the characters that the replacement has as well. -/
theorem Rewrites.forall_mem {tail : List Char} {P : Char → Prop} (hrepl : ∀ c ∈ repl, P c)
    (h : Rewrites r repl tail before x y) (hx : ∀ c ∈ x, P c) : ∀ c ∈ y, P c := by
  induction h with
  | nil => exact hx
  | keep _ _ ih =>
    rw [List.forall_mem_cons] at hx ⊢
    exact ⟨hx.1, ih hx.2⟩
  | replace _ _ _ ih =>
    rw [List.forall_mem_append] at hx ⊢
    exact ⟨hrepl, ih hx.2⟩

/-- A property of the characters that comes out, and that every match has,
went in. -/
theorem Rewrites.forall_mem_source {tail : List Char} {P : Char → Prop}
    (hr : ∀ {before m after}, r.Consumes before m after → ∀ c ∈ m, P c)
    (h : Rewrites r repl tail before x y) (hy : ∀ c ∈ y, P c) : ∀ c ∈ x, P c := by
  induction h with
  | nil => exact hy
  | keep _ _ ih =>
    rw [List.forall_mem_cons] at hy ⊢
    exact ⟨hy.1, ih hy.2⟩
  | replace _ hm _ ih =>
    rw [List.forall_mem_append] at hy ⊢
    exact ⟨hr (consumes_of_matchLength hm), ih hy.2⟩

/-- A property of the characters that comes out, and that the replacement
has not, went in. -/
theorem Rewrites.forall_mem_of_replacement {tail : List Char} {P : Char → Prop}
    (hrepl : ¬ ∀ c ∈ repl, P c) (h : Rewrites r repl tail before x y) (hy : ∀ c ∈ y, P c) :
    ∀ c ∈ x, P c := by
  induction h with
  | nil => exact hy
  | keep _ _ ih =>
    rw [List.forall_mem_cons] at hy ⊢
    exact ⟨hy.1, ih hy.2⟩
  | replace _ _ _ _ =>
    rw [List.forall_mem_append] at hy
    exact absurd hy.1 hrepl

/-- Where every match is the replacement already, nothing changes. -/
theorem Rewrites.eq_self {tail : List Char} (h : Rewrites r repl tail before x y)
    (hsame : ∀ u m v, x = u ++ (m ++ v) → m ≠ [] →
      r.matchLength (u.reverse ++ before) (m ++ (v ++ tail)) = some m.length → m = repl) :
    y = x := by
  induction h with
  | nil => rfl
  | @keep before c x y hno h ih =>
    refine congrArg (c :: ·) (ih fun u m v hx hne hm => hsame (c :: u) m v (by rw [hx]; rfl) hne ?_)
    simpa using hm
  | @replace before m x y hne hm h ih =>
    rw [hsame [] m x rfl hne (by simpa using hm), ih fun u m' v hx hne' hm' =>
      hsame (m ++ u) m' v (by rw [hx, List.append_assoc]) hne' (by simpa using hm')]

/-- A text in front is kept, or replaced from its first match on. -/
theorem Rewrites.lead {tail : List Char} (h : Rewrites r repl tail before (u ++ x) y) :
    (Unmatched r before u (x ++ tail) ∧ ∃ y', y = u ++ y' ∧
      Rewrites r repl tail (u.reverse ++ before) x y') ∨
    ∃ u₀ c u₁ m s y', u = u₀ ++ c :: u₁ ∧ Unmatched r before u₀ (c :: (u₁ ++ (x ++ tail))) ∧
      c :: (u₁ ++ (x ++ tail)) = m ++ s ∧ m ≠ [] ∧ r.Consumes (u₀.reverse ++ before) m s ∧
      y = u₀ ++ (repl ++ y') := by
  induction u generalizing before y with
  | nil => exact .inl ⟨.nil, y, rfl, h⟩
  | cons c u ih =>
    generalize hx : c :: u ++ x = x' at h
    cases h with
    | nil => cases hx
    | keep hno h =>
      obtain ⟨rfl, rfl⟩ := List.cons.inj hx
      rcases ih h with ⟨hidle, y', rfl, hy⟩ | ⟨u₀, d, u₁, m, s, y', rfl, hidle, hm, hne, hc, rfl⟩
      · exact .inl ⟨.cons (by simpa using hno) hidle, y', rfl, by simpa using hy⟩
      · exact .inr ⟨c :: u₀, d, u₁, m, s, y', rfl, .cons (by simpa using hno) hidle, hm, hne,
          by simpa using hc, rfl⟩
    | @replace _ m x'' y hne hm h =>
      have hsplit : c :: (u ++ (x ++ tail)) = m ++ (x'' ++ tail) := by
        rw [← List.append_assoc m, ← hx]
        simp
      exact .inr ⟨[], c, u, m, _, y, rfl, .nil, hsplit, hne, consumes_of_matchLength hm, rfl⟩

theorem fixed_lit (s : String) : (lit s).fixed = true := by
  unfold lit
  generalize s.toList = l
  induction l with
  | nil => rfl
  | cons c l ih => exact ih

/-- A repetition behind a fixed text takes all that it can. -/
theorem matchLength_greedy {s : String} {p : Char → Bool} {n : Nat}
    (h : (seq (lit s) (atLeast p 1)).matchLength before (s.toList ++ text) = some n) :
    n = s.toList.length + (text.takeWhile p).length := by
  have htakes : (lit s).Consumes [] s.toList [] := consumes_lit.mpr rfl
  have hlit : (lit s).ends before (s.toList ++ text) = [(s.toList.reverse ++ before, text)] :=
    ends_of_fixed (fixed_lit s) htakes before text
  rw [matchLength, ends, hlit, List.flatMap_cons, List.flatMap_nil, List.append_nil] at h
  cases text with
  | nil => cases h
  | cons c text =>
    by_cases hc : p c = true
    · have hends : (atLeast p 1).ends (s.toList.reverse ++ before) (c :: text) =
          manyEnds p (c :: (s.toList.reverse ++ before)) text := by
        simp [atLeast, times, cat, ends, hc]
      rw [hends, head?_manyEnds, Option.map_some] at h
      have hsum := congrArg List.length (List.takeWhile_append_dropWhile (p := p) (l := text))
      rw [List.length_append] at hsum
      rw [List.takeWhile_cons_of_pos hc, List.length_cons]
      have hn : (s.toList ++ c :: text).length - (text.dropWhile p).length = n := Option.some.inj h
      rw [List.length_append, List.length_cons] at hn
      omega
    · have hends : (atLeast p 1).ends (s.toList.reverse ++ before) (c :: text) = [] := by
        simp [atLeast, times, cat, ends, hc]
      rw [hends] at h
      cases h

/-! ## Neighbours -/

/-- Patterns that look at no neighbour. -/
def blind : Regex → Bool
  | empty | one _ | many _ => true
  | seq r s | alt r s => r.blind && s.blind
  | notBehind _ | notAhead _ | boundary _ => false

theorem consumes_of_blind (hr : r.blind = true) (h : r.Consumes before m after) :
    r.Consumes before' m after' := by
  induction r generalizing before before' m after after' with
  | empty | one _ | many _ => exact h
  | seq r s ihr ihs =>
    obtain ⟨hr, hs⟩ := Bool.and_eq_true_iff.mp hr
    obtain ⟨m₁, m₂, rfl, h₁, h₂⟩ := h
    exact ⟨m₁, m₂, rfl, ihr hr h₁, ihs hs h₂⟩
  | alt r s ihr ihs =>
    obtain ⟨hr, hs⟩ := Bool.and_eq_true_iff.mp hr
    exact h.imp (ihr hr) (ihs hs)
  | notBehind _ | notAhead _ | boundary _ => cases hr

/-- The pattern takes the texts of `S`, between characters that are not of
the kind `q`. -/
def Guarded (q : Char → Bool) (S : List Char → Prop) (r : Regex) : Prop :=
  ∀ before m after, r.Consumes before m after ↔
    (∀ c ∈ before.head?, q c = false) ∧ (∀ c ∈ after.head?, q c = false) ∧ S m

theorem guarded_of_blind (hr : r.blind = true) :
    r.Guarded (fun _ => false) fun m => r.Consumes [] m [] := by
  intro before m after
  exact ⟨fun h => ⟨fun _ _ => rfl, fun _ _ => rfl, consumes_of_blind hr h⟩,
    fun h => consumes_of_blind hr h.2.2⟩

/-- What `r` replaces neither holds a part of `w` nor changes the kind of
what stands next to it. -/
structure Clear (r : Regex) (repl : List Char) (q : Char → Bool) (w : List Char) : Prop where
  ne_nil : w ≠ []
  apart : Apart repl w
  ends : ∀ before m after, r.Consumes before m (w ++ after) → ∀ c ∈ m.getLast?, q c = false
  starts : ∀ before m after, r.Consumes (w.reverse ++ before) m after →
    ∀ c ∈ m.head?, q c = false

/-- A text without the ends of the replacement, and with a character that
it lacks. -/
theorem apart_of_notMem (hne : repl ≠ []) (hhead : ∀ c ∈ repl.head?, c ∉ w)
    (hlast : ∀ c ∈ repl.getLast?, c ∉ w) {b : Char} (hb : b ∈ w) (hrepl : b ∉ repl) :
    Apart repl w where
  begins := by
    intro s hs hsne
    rw [List.mem_tails] at hs
    refine ⟨fun h => ?_, fun h => hrepl (hs.subset (h.subset hb))⟩
    obtain ⟨c, hc⟩ := Option.ne_none_iff_exists'.mp (mt List.getLast?_eq_none_iff.mp hsne)
    obtain ⟨front, rfl⟩ := hs
    exact hlast c (by rw [List.getLast?_append_of_ne_nil _ hsne, hc]; rfl)
      (h.subset (List.mem_of_getLast? hc))
  enters := by
    intro t ht htne
    rw [List.mem_tails] at ht
    obtain ⟨a, rest, rfl⟩ := List.exists_cons_of_ne_nil hne
    exact not_prefix_of_notMem htne fun ha => hhead a rfl (ht.subset ha)

variable {q : Char → Bool} {S : List Char → Prop} {target : Regex}

/-- **A match that comes out went in**, at a place where the pattern found
nothing to replace. -/
theorem Guarded.found (ht : target.Guarded q S) (hw : Clear r repl q w)
    (hr : r.nullable = false) (hrw : Rewrites r repl [] [] x (u ++ (w ++ v)))
    (h : target.Consumes u.reverse w v) :
    ∃ u' v', x = u' ++ (w ++ v') ∧ target.Consumes u'.reverse w v' ∧
      Unmatched r u'.reverse w v' := by
  obtain ⟨u', v', rfl, hleft, hidle, hright⟩ := hrw.kept_of hw.ne_nil hw.apart
  obtain ⟨hbefore, hafter, hS⟩ := (ht _ _ _).mp h
  refine ⟨u', v', rfl, (ht _ _ _).mpr ⟨?_, ?_, hS⟩, by simpa using hidle⟩
  · rw [List.head?_reverse] at hbefore ⊢
    rcases hleft.last with hsame | ⟨x₀, _, m, rfl, _, hm⟩
    · rwa [hsame]
    · rw [List.getLast?_append_of_ne_nil _ (ne_nil_of_consumes hr hm)]
      exact hw.ends _ m v' (by simpa using hm)
  · rcases hright.first with hsame | ⟨m, s, _, rfl, _, hm, _⟩
    · rwa [hsame]
    · rw [List.head?_append_of_ne_nil _ (ne_nil_of_consumes hr hm)]
      exact hw.starts _ m _ hm

/-- **Nothing is left of what was replaced.** -/
theorem Guarded.free_self (ht : target.Guarded q S) (hr : target.nullable = false)
    (hw : ∀ w, w <:+: target.sub repl x → S w → Clear target repl q w) :
    target.Free (target.sub repl x) := by
  intro u w v htext h
  have hclear := hw w ⟨u, v, by rw [htext, List.append_assoc]⟩ ((ht _ _ _).mp h).2.2
  obtain ⟨u', v', _, hm, hidle⟩ := ht.found hclear hr (htext ▸ sub_rewrites x) h
  exact hidle.not_here hr hclear.ne_nil rfl hm

/-- **Replacing brings nothing back.** -/
theorem Guarded.free_sub (ht : target.Guarded q S) (hr : r.nullable = false)
    (hw : ∀ w, w <:+: r.sub repl x → S w → Clear r repl q w) (hx : target.Free x) :
    target.Free (r.sub repl x) := by
  intro u w v htext h
  have hclear := hw w ⟨u, v, by rw [htext, List.append_assoc]⟩ ((ht _ _ _).mp h).2.2
  obtain ⟨u', v', hx', hm, _⟩ := ht.found hclear hr (htext ▸ sub_rewrites x) h
  exact hx u' w v' hx' hm

/-! ## A part in front -/

/-- The kinds of characters that the pattern looks back for. -/
def behind : Regex → List (Char → Bool)
  | notBehind p | boundary p => [p]
  | seq r s | alt r s => r.behind ++ s.behind
  | empty | one _ | many _ | notAhead _ => []

/-- The pattern cannot tell what stands before. -/
def Alike (r : Regex) (before before' : List Char) : Prop :=
  ∀ p ∈ r.behind, before.head?.any p = before'.head?.any p

theorem Alike.append (h : r.Alike before before') (m : List Char) :
    r.Alike (m ++ before) (m ++ before') := by
  cases m with
  | nil => exact h
  | cons c m => exact fun _ _ => rfl

/-- The same ends, after the same text. -/
def SameEnd (before before' : List Char) (p q : List Char × List Char) : Prop :=
  p.2 = q.2 ∧ ∃ m, p.1 = m ++ before ∧ q.1 = m ++ before'

theorem manyEnds_alike (p : Char → Bool) (m before before' text : List Char) :
    List.Forall₂ (SameEnd before before') (manyEnds p (m ++ before) text)
      (manyEnds p (m ++ before') text) := by
  induction text generalizing m with
  | nil => exact .cons ⟨rfl, m, rfl, rfl⟩ .nil
  | cons c text ih =>
    rw [manyEnds, manyEnds]
    split
    · exact List.rel_append (ih (c :: m)) (.cons ⟨rfl, m, rfl, rfl⟩ .nil)
    · exact .cons ⟨rfl, m, rfl, rfl⟩ .nil

theorem ends_alike (h : r.Alike before before') (text : List Char) :
    List.Forall₂ (SameEnd before before') (r.ends before text) (r.ends before' text) := by
  have hstay : ∀ text, SameEnd before before' (before, text) (before', text) :=
    fun _ => ⟨rfl, [], rfl, rfl⟩
  induction r generalizing before before' text with
  | empty => exact .cons (hstay text) .nil
  | one p =>
    cases text with
    | nil => exact .nil
    | cons c text =>
      rw [ends, ends]
      split
      · exact .cons ⟨rfl, [c], rfl, rfl⟩ .nil
      · exact .nil
  | many p => exact manyEnds_alike p [] before before' text
  | seq r s ihr ihs =>
    rw [ends, ends]
    obtain ⟨hr, hs⟩ := List.forall_mem_append.mp h
    refine List.rel_flatMap (ihr hr text hstay) ?_
    rintro ⟨_, text'⟩ ⟨_, _⟩ ⟨rfl, m, rfl, rfl⟩
    refine (ihs (Alike.append hs m) text' fun _ => ⟨rfl, [], rfl, rfl⟩).imp ?_
    rintro _ _ ⟨htext, m', h₁, h₂⟩
    exact ⟨htext, m' ++ m, by rw [h₁, List.append_assoc], by rw [h₂, List.append_assoc]⟩
  | alt r s ihr ihs =>
    obtain ⟨hr, hs⟩ := List.forall_mem_append.mp h
    exact List.rel_append (ihr hr text hstay) (ihs hs text hstay)
  | notAhead p =>
    rw [ends, ends]
    split
    · exact .nil
    · exact .cons (hstay text) .nil
  | notBehind p | boundary p =>
    rw [ends, ends, h p (List.mem_singleton_self p)]
    split
    · exact .nil
    · exact .cons (hstay text) .nil

theorem matchLength_alike (h : r.Alike before before') (text : List Char) :
    r.matchLength before text = r.matchLength before' text := by
  have hends := ends_alike h text
  rw [matchLength, matchLength]
  generalize r.ends before text = ends at hends
  generalize r.ends before' text = ends' at hends
  cases hends with
  | nil => rfl
  | cons hpos _ => exact congrArg (fun rest => some (text.length - rest.length)) hpos.1

theorem subFrom_alike (h : r.Alike before before') (skip : Nat) (text : List Char) :
    r.subFrom repl before skip text = r.subFrom repl before' skip text := by
  induction text generalizing before before' skip with
  | nil => cases skip <;> rfl
  | cons c text ih =>
    have hnext := fun skip => ih (h.append [c]) skip
    cases skip with
    | succ skip => exact hnext skip
    | zero =>
      rw [subFrom, subFrom, matchLength_alike h]
      split
      · exact congrArg (repl ++ ·) (hnext _)
      · exact congrArg (c :: ·) (hnext 0)

theorem subFrom_append (hno : Unmatched r before w x) :
    r.subFrom repl before 0 (w ++ x) = w ++ r.subFrom repl (w.reverse ++ before) 0 x := by
  induction w generalizing before with
  | nil => rfl
  | cons c w ih =>
    have hhere := hno [] c w rfl
    have hrest : Unmatched r (c :: before) w x := fun w₁ d w₂ hw n => by
      simpa using hno (c :: w₁) d w₂ (by rw [hw]; rfl) n
    rw [List.cons_append, subFrom]
    split
    · rename_i n hn
      exact absurd hn (hhere n)
    · rw [ih hrest]
      simp

/-- A match that begins in a part ends there before the part's last
character, if it does not take that. -/
theorem stops {b : Char} (hlast : w.getLast? = some b) (hm : w ++ x = m ++ v) (hb : b ∉ m) :
    ∃ t, w = m ++ (t ++ [b]) ∧ v = t ++ b :: x := by
  obtain ⟨t, rfl⟩ := List.getLast?_eq_some_iff.mp hlast
  rw [List.append_assoc] at hm
  rcases List.append_eq_append_iff.mp hm with ⟨a, rfl, ha⟩ | ⟨a, rfl, ha⟩
  · cases a with
    | nil => exact ⟨[], by simp, ha.symm⟩
    | cons d a =>
      cases ha
      exact absurd (by simp) hb
  · exact ⟨a, by simp, by rw [ha]; rfl⟩

/-- **A part in front in which no match begins can be set aside**, where
the pattern cannot tell it from the start of the text. -/
theorem sub_append (hno : Unmatched r [] w x) (halike : r.Alike [] w.reverse) :
    r.sub repl (w ++ x) = w ++ r.sub repl x := by
  rw [sub, subFrom_append hno, List.append_nil, ← subFrom_alike halike, sub]

end

end QkdEkm.Lib.Regex
