import QkdEkm.Scripts.Redact

/-!
# Transcript — what a published transcript may still contain

The rule for addresses and the search for them are one expression, which
passes over an address next to a period. A line that passes the check has
no address exactly if the rule met none of that kind. The rules after it
may still free such an address of a word that stood next to it, or take
its last group away: `Coming` says which of them are still to come, and
`Passes` what one of them does about it.
-/

namespace QkdEkm.Scripts

open QkdEkm.Lib QkdEkm.Lib.Regex

/-! ## Addresses -/

section

variable (cc : CharClass)

/-- One to three digits. -/
def Group (g : List Char) : Prop := (∀ c ∈ g, cc.digit c = true) ∧ 1 ≤ g.length ∧ g.length ≤ 3

/-- Four groups with periods between them. -/
def Quad (run : List Char) : Prop :=
  ∃ a b c d, Group cc a ∧ Group cc b ∧ Group cc c ∧ Group cc d ∧
    run = a ++ '.' :: b ++ '.' :: c ++ '.' :: d

/-- An address: four groups that neither continue a word or a longer run
of groups nor are continued by one. -/
structure AddressAt (before run after : List Char) : Prop where
  quad : Quad cc run
  noWordBefore : ∀ c ∈ before.getLast?, cc.word c = false
  noGroupBefore : ∀ u d, before = u ++ [d, '.'] → cc.digit d = false
  noWordAfter : ∀ c ∈ after.head?, cc.word c = false
  noGroupAfter : ∀ v d, after = '.' :: d :: v → cc.digit d = false

def HasAddress (text : List Char) : Prop :=
  ∃ before run after, text = before ++ run ++ after ∧ AddressAt cc before run after

/-! ## Addresses next to a period -/

/-- Which rules are still to come: the one for addresses, the one for
keys, those for the peers' names. -/
structure Coming where
  address : Bool
  key : Bool
  names : List String

def IsPeer (name : String) : Prop := name = "QKD1" ∨ name = "QKD2"

/-- One of the names ends the text, as a word of its own. -/
def EndsName (names : List String) (text : List Char) : Prop :=
  ∃ before, ∃ name ∈ names, text = before ++ name.toList ∧
    ∀ c ∈ before.getLast?, cc.word c = false

/-- The length of a network, which the rule takes along. -/
def Mask (mask : List Char) : Prop :=
  mask = [] ∨ ∃ length, mask = '/' :: length ∧ (1 ≤ length.length ∧ length.length ≤ 2) ∧
    ∀ c ∈ length, cc.digit c = true

/-- What the rule for addresses takes begins the text, after a character
that is neither word nor period. -/
def BeginsAddress (text : List Char) : Prop :=
  ∃ run mask rest, text = run ++ mask ++ rest ∧ Quad cc run ∧ Mask cc mask ∧
    ∀ c ∈ rest.head?, wordOrPeriod cc c = false

/-- A WireGuard key begins with `g` and goes on in `after`. No character
of keys follows it, or an address that goes away. -/
def KeyFrom (address : Bool) (g after : List Char) : Prop :=
  ∃ key rest, after = key ++ '=' :: rest ∧ (g ++ key).length = 43 ∧
    (∀ c ∈ g ++ key, base64 c = true) ∧
    ((∀ c ∈ rest.head?, padded c = false) ∨ address = true ∧ BeginsAddress cc rest)

/-- A key takes the end of the run. -/
def KeyTakes (address : Bool) (run after : List Char) : Prop :=
  ∃ init c g, run = init ++ c :: g ∧ g ≠ [] ∧ padded c = false ∧ KeyFrom cc address g after

/-- What may stand before a run: no word and no period; or a period that
does not follow a group, where a name that goes away is no group. -/
inductive LeftSide (names : List String) : (before period : List Char) → Prop
  | bare {before} (h : ∀ c ∈ before.getLast?, wordOrPeriod cc c = false) :
    LeftSide names before []
  | period {before} (h : ∀ c ∈ before.getLast?, cc.digit c = false) :
    LeftSide names before ['.']
  | name {before} (h : EndsName cc names before) : LeftSide names before ['.']

/-- What may stand after a run: no word and no period; or a period that
no group follows, where a key that goes away is no group. Such a key may
also follow directly, where it does not take the end of the run. -/
inductive RightSide (coming : Coming) (run : List Char) : (period after : List Char) → Prop
  | bare {after} (h : ∀ c ∈ after.head?, wordOrPeriod cc c = false)
    (hkeep : coming.key = true → ¬ KeyTakes cc coming.address run after) :
    RightSide coming run [] after
  | period {after} (h : ∀ c ∈ after.head?, cc.digit c = false) :
    RightSide coming run ['.'] after
  | key {after} (hkey : coming.key = true) (h : KeyFrom cc coming.address [] after) :
    RightSide coming run ['.'] after
  | bareKey {after} (hkey : coming.key = true) (h : KeyFrom cc coming.address [] after)
    (hlast : ∀ c ∈ run.getLast?, padded c = false) : RightSide coming run [] after

/-- The text has an address with a period directly before or after it. -/
def Exposed (coming : Coming) (text : List Char) : Prop :=
  ∃ before left run right after, text = before ++ (left ++ (run ++ right) ++ after) ∧
    Quad cc run ∧ LeftSide cc coming.names before left ∧ RightSide cc coming run right after ∧
    (left = ['.'] ∨ right = ['.'])

/-- The line that the rule for addresses meets has an address that it
passes over. -/
def Missed (line : List Char) : Prop :=
  Exposed cc ⟨true, true, ["QKD1", "QKD2"]⟩ (reachesIpv4 cc line)

end

section

variable {cc : CharClass}

/-! ## The shape of a run -/

theorem Group.first {g : List Char} (h : Group cc g) : ∃ c g', g = c :: g' ∧ cc.digit c = true := by
  obtain ⟨hall, hmin, _⟩ := h
  cases g with
  | nil => cases hmin
  | cons c g' => exact ⟨c, g', rfl, hall c (List.mem_cons_self ..)⟩

theorem Group.last {g : List Char} (h : Group cc g) :
    ∃ g' c, g = g' ++ [c] ∧ cc.digit c = true := by
  obtain ⟨hall, hmin, _⟩ := h
  rcases List.eq_nil_or_concat g with rfl | ⟨g', c, rfl⟩
  · cases hmin
  · exact ⟨g', c, List.concat_eq_append .., hall c (by simp)⟩

theorem Quad.first {run : List Char} (h : Quad cc run) :
    ∃ c run', run = c :: run' ∧ cc.digit c = true := by
  obtain ⟨a, b, c, d, ha, _, _, _, rfl⟩ := h
  obtain ⟨e, a', rfl, he⟩ := ha.first
  exact ⟨e, _, rfl, he⟩

theorem Quad.last {run : List Char} (h : Quad cc run) :
    ∃ run' c, run = run' ++ [c] ∧ cc.digit c = true := by
  obtain ⟨a, b, c, d, _, _, _, hd, rfl⟩ := h
  obtain ⟨d', e, rfl, he⟩ := hd.last
  exact ⟨a ++ '.' :: b ++ '.' :: c ++ '.' :: d', e, by simp, he⟩

theorem Quad.plain {run : List Char} (h : Quad cc run) :
    ∀ c ∈ run, cc.digit c = true ∨ c = '.' := by
  obtain ⟨a, b, c, d, ha, hb, hc, hd, rfl⟩ := h
  intro e he
  simp only [List.mem_append, List.mem_cons] at he
  rcases he with ((he | rfl | he) | rfl | he) | rfl | he
  · exact .inl (ha.1 e he)
  · exact .inr rfl
  · exact .inl (hb.1 e he)
  · exact .inr rfl
  · exact .inl (hc.1 e he)
  · exact .inr rfl
  · exact .inl (hd.1 e he)

theorem digit_period : cc.digit '.' = false := cc.digit_ascii '.' (by decide)

/-- Three periods stand between the groups. -/
theorem Quad.count {run : List Char} (h : Quad cc run) : run.count '.' = 3 := by
  have hnone : ∀ {g}, Group cc g → g.count '.' = 0 := by
    intro g hg
    refine List.count_eq_zero.mpr fun hmem => ?_
    have hd := hg.1 _ hmem
    rw [digit_period] at hd
    cases hd
  obtain ⟨a, b, c, d, ha, hb, hc, hd, rfl⟩ := h
  simp [List.count_append, hnone ha, hnone hb, hnone hc, hnone hd]

theorem word_of_wordOrPeriod {c : Char} (h : wordOrPeriod cc c = false) : cc.word c = false :=
  (Bool.or_eq_false_iff.mp h).1

theorem digit_of_word {c : Char} (h : cc.word c = false) : cc.digit c = false := by
  by_contra hd
  rw [Bool.not_eq_false] at hd
  rw [cc.word_of_digit c hd] at h
  cases h

/-- A digit is a word character. -/
theorem not_digit {c : Char} (hd : cc.digit c = true) (h : cc.word c = false) : False := by
  rw [digit_of_word h] at hd
  cases hd

theorem not_period (h : wordOrPeriod cc '.' = false) : False := by
  rw [wordOrPeriod, beq_self_eq_true, Bool.or_true] at h
  cases h

theorem word_period : cc.word '.' = false := by
  rw [cc.word_ascii '.' (by decide)]
  decide

/-- Digits and periods are what the rule's lookarounds refuse. -/
theorem wordOrPeriod_of_plain {c : Char} (h : cc.digit c = true ∨ c = '.') :
    wordOrPeriod cc c = true := by
  rcases h with h | rfl
  · rw [wordOrPeriod, cc.word_of_digit c h, Bool.true_or]
  · rw [wordOrPeriod, beq_self_eq_true, Bool.or_true]

theorem LeftSide.eq {names : List String} {before left : List Char}
    (h : LeftSide cc names before left) : left = [] ∨ left = ['.'] := by
  cases h with
  | bare _ => exact .inl rfl
  | period _ | name _ => exact .inr rfl

theorem RightSide.eq {coming : Coming} {run right after : List Char}
    (h : RightSide cc coming run right after) : right = [] ∨ right = ['.'] := by
  cases h with
  | bare _ _ | bareKey _ _ _ => exact .inl rfl
  | period _ | key _ _ => exact .inr rfl

/-- A run with the periods next to it consists of digits and periods. -/
theorem Quad.plain_core {left run right : List Char} (h : Quad cc run)
    (hl : left = [] ∨ left = ['.']) (hr : right = [] ∨ right = ['.']) :
    ∀ c ∈ left ++ (run ++ right), cc.digit c = true ∨ c = '.' := by
  intro c hc
  rcases List.mem_append.mp hc with hc | hc
  · rcases hl with rfl | rfl
    · cases hc
    · exact .inr (List.mem_singleton.mp hc)
  · rcases List.mem_append.mp hc with hc | hc
    · exact h.plain c hc
    · rcases hr with rfl | rfl
      · cases hc
      · exact .inr (List.mem_singleton.mp hc)

/-- With a period next to it there is one more than an address has. -/
theorem Quad.count_core {left run right : List Char} (h : Quad cc run)
    (hdot : left = ['.'] ∨ right = ['.']) : 4 ≤ (left ++ (run ++ right)).count '.' := by
  rw [List.count_append, List.count_append, h.count]
  rcases hdot with rfl | rfl
  · rw [List.count_singleton_self]
    omega
  · rw [List.count_singleton_self]
    omega

/-! ## What a rule does next to a run -/

variable (cc) in
/-- A rule that leaves runs alone, and turns what may stand next to one
before it into what may stand there after it. -/
structure Passes (r : Regex) (rest : List Char) (now later : Coming) : Prop where
  plain : ∀ c ∈ '<' :: rest, cc.digit c = false ∧ c ≠ '.' ∧ c ≠ 'Q'
  avoids : ∀ {u left run right v}, Quad cc run → (left = ['.'] ∨ right = ['.']) →
    LeftSide cc now.names u left → RightSide cc now run right v →
    Avoids r [] u (left ++ (run ++ right)) v
  left : ∀ {u u' left run tail}, Quad cc run →
    Rewrites r ('<' :: rest) (left ++ (run ++ tail)) [] u u' →
    (LeftSide cc now.names u left ↔ LeftSide cc later.names u' left)
  right : ∀ {before run right v v'}, Quad cc run →
    Rewrites r ('<' :: rest) [] ((run ++ right).reverse ++ before) v v' →
    Unmatched r before (run ++ right) v →
    (RightSide cc now run right v ↔ RightSide cc later run right v')

variable {r : Regex} {rest x : List Char} {now later : Coming}

/-- No match begins in the second half of an unmatched text. -/
theorem unmatched_right {before w₁ w₂ after : List Char}
    (h : Unmatched r before (w₁ ++ w₂) after) : Unmatched r (w₁.reverse ++ before) w₂ after := by
  intro u c v hw n
  have hn := h (w₁ ++ u) c v (by rw [hw, List.append_assoc]) n
  simpa using hn

/-- **A rule that passes exposes no run and hides none.** -/
theorem Passes.exposed (h : Passes cc r rest now later) :
    Exposed cc now x ↔ Exposed cc later (r.sub ('<' :: rest) x) := by
  have hrw : Rewrites r ('<' :: rest) [] [] x (r.sub ('<' :: rest) x) := sub_rewrites x
  constructor
  · rintro ⟨u, left, run, right, v, rfl, hrun, hl, hr, hdot⟩
    obtain ⟨u', v', hy, hleft, hright⟩ := hrw.around (by simpa using h.avoids hrun hdot hl hr)
    -- no match touches the run, so both sides are rewritten on their own
    have hno := unmatched_right (h.avoids hrun hdot hl hr).unmatched
    have hleft : Rewrites r ('<' :: rest) (left ++ (run ++ (right ++ v))) [] u u' := by
      simpa using hleft
    have hright : Rewrites r ('<' :: rest) []
        ((run ++ right).reverse ++ (left.reverse ++ (u.reverse ++ []))) v v' := by
      simpa using hright
    exact ⟨u', left, run, right, v', hy, hrun, (h.left hrun hleft).mp hl,
      (h.right hrun hright hno).mp hr, hdot⟩
  · rintro ⟨u', left, run, right, v', hy, hrun, hl, hr, hdot⟩
    have hnot : ∀ c ∈ '<' :: rest, c ∉ left ++ (run ++ right) := by
      intro c hc hmem
      obtain ⟨hdigit, hperiod, _⟩ := h.plain c hc
      rcases hrun.plain_core hl.eq hr.eq c hmem with hd | hd
      · rw [hd] at hdigit
        cases hdigit
      · exact hperiod hd
    obtain ⟨c, run', hc, _⟩ := hrun.first
    rw [hy] at hrw
    -- no replacement writes digits or periods, so the run was there before
    obtain ⟨u, v, rfl, hleft, hno, hright⟩ := hrw.kept (by simp [hc])
      (fun c hc hmem => hnot c hmem (List.mem_of_mem_head? hc)) (hnot '<' (List.mem_cons_self ..))
    rw [List.append_nil v] at hno
    have hleft : Rewrites r ('<' :: rest) (left ++ (run ++ (right ++ v))) [] u u' := by
      simpa using hleft
    have hright : Rewrites r ('<' :: rest) []
        ((run ++ right).reverse ++ (left.reverse ++ (u.reverse ++ []))) v v' := by
      simpa using hright
    exact ⟨u, left, run, right, v, rfl, hrun, (h.left hrun hleft).mpr hl,
      (h.right hrun hright (unmatched_right hno)).mpr hr, hdot⟩

theorem lit_plain {l : List Char}
    (h : l.all (fun c => decide (c.toNat < 128) && !c.isDigit && c != '.' && c != 'Q') = true) :
    ∀ c ∈ l, cc.digit c = false ∧ c ≠ '.' ∧ c ≠ 'Q' := by
  intro c hc
  have hall := List.all_eq_true.mp h c hc
  simp only [Bool.and_eq_true, decide_eq_true_eq, Bool.not_eq_true', bne_iff_ne] at hall
  obtain ⟨⟨⟨hascii, hdigit⟩, hperiod⟩, hq⟩ := hall
  exact ⟨by rw [cc.digit_ascii c hascii, hdigit], hperiod, hq⟩

/-- What a text that is longer than `front` takes of the rest. -/
theorem reaches {front w m s : List Char} (hm : front ++ w = m ++ s)
    (hlen : ¬ m.length ≤ front.length) : ∃ c a, m = front ++ c :: a ∧ w = c :: a ++ s := by
  rcases List.append_eq_append_iff.mp hm with ⟨a, rfl, hw⟩ | ⟨a, rfl, _⟩
  · cases a with
    | nil => exact absurd (by simp) hlen
    | cons c a => exact ⟨c, a, rfl, hw⟩
  · exact absurd (by simp) hlen

/-- Where in a name a text begins, and with what. -/
theorem begins_in_name {d : Char} {w₁ w₂ v m s : List Char}
    (hw : ['Q', 'K', 'D', d] = w₁ ++ w₂) (hne : w₂ ≠ []) (hm : w₂ ++ v = m ++ s)
    (hm₀ : m ≠ []) :
    (w₁ = [] ∧ m.head? = some 'Q') ∨ (w₁ = ['Q'] ∧ m.head? = some 'K') ∨
      (w₁ = ['Q', 'K'] ∧ m.head? = some 'D') ∨ (w₁ = ['Q', 'K', 'D'] ∧ m.head? = some d) := by
  obtain ⟨c, m, rfl⟩ := List.exists_cons_of_ne_nil hm₀
  obtain ⟨e, w₂, rfl⟩ := List.exists_cons_of_ne_nil hne
  obtain ⟨rfl, _⟩ := List.cons.inj hm
  match w₁, hw with
  | [], hw =>
    cases hw
    exact .inl ⟨rfl, rfl⟩
  | [_], hw =>
    cases hw
    exact .inr (.inl ⟨rfl, rfl⟩)
  | [_, _], hw =>
    cases hw
    exact .inr (.inr (.inl ⟨rfl, rfl⟩))
  | [_, _, _], hw =>
    cases hw
    exact .inr (.inr (.inr ⟨rfl, rfl⟩))
  | _ :: _ :: _ :: _ :: w₁, hw => simp at hw

/-! ## The left side -/

variable {repl tail u u' left run : List Char} {a : Char}

theorem IsPeer.shape {name : String} (h : IsPeer name) :
    ∃ d, name.toList = ['Q', 'K', 'D', d] ∧ (d = '1' ∨ d = '2') := by
  rcases h with rfl | rfl
  · exact ⟨'1', rfl, .inl rfl⟩
  · exact ⟨'2', rfl, .inr rfl⟩

theorem word_ascii {c : Char} (h : c.toNat < 128) (hc : c.isAlphanum = true) :
    cc.word c = true := by
  rw [cc.word_ascii c h, hc, Bool.true_or]

theorem word_Q : cc.word 'Q' = true := word_ascii (by decide) (by decide)

/-- No digit, no word and no period closes a replacement. -/
theorem closes {rest : List Char} (h : ('<' :: rest).getLast? = some '>') :
    ∀ c ∈ ('<' :: rest).getLast?, wordOrPeriod cc c = false := by
  intro c hc
  rw [h] at hc
  cases hc
  rw [wordOrPeriod, cc.word_ascii '>' (by decide)]
  decide

theorem opens (rest : List Char) : ∀ c ∈ ('<' :: rest).head?, wordOrPeriod cc c = false := by
  rintro c ⟨⟩
  rw [wordOrPeriod, cc.word_ascii '<' (by decide)]
  decide

/-- What ended a text before the rule, where the rule replaces nothing
that a word or a period follows, or only what ends in neither. -/
theorem last_before {P : Char → Prop} (hP : ∀ c, wordOrPeriod cc c = false → P c)
    (hends : ∀ before m after, r.Consumes before m after →
      (∀ c ∈ after.head?, wordOrPeriod cc c = false) ∨
        ∃ m' c, m = m' ++ [c] ∧ wordOrPeriod cc c = false)
    (hrw : Rewrites r repl (a :: tail) [] u u') (ha : wordOrPeriod cc a = true)
    (h : ∀ c ∈ u'.getLast?, P c) : ∀ c ∈ u.getLast?, P c := by
  rcases hrw.last with hsame | ⟨x₀, _, m, rfl, _, hm⟩
  · rwa [hsame]
  · rcases hends _ _ _ hm with hnext | ⟨m', c, rfl, hc⟩
    · have hnone := hnext a rfl
      rw [ha] at hnone
      cases hnone
    · intro d hd
      rw [← List.append_assoc, List.getLast?_concat] at hd
      cases hd
      exact hP c hc

/-- A name that ends what comes out was there before. -/
theorem endsName_before {names : List String} (hnames : ∀ name ∈ names, IsPeer name)
    (hplain : 'Q' ∉ '<' :: rest) (hrw : Rewrites r ('<' :: rest) tail [] u u')
    (hlast : ∀ {tail u u'}, Rewrites r ('<' :: rest) ('Q' :: tail) [] u u' →
      (∀ c ∈ u'.getLast?, cc.word c = false) → ∀ c ∈ u.getLast?, cc.word c = false)
    (h : EndsName cc names u') : EndsName cc names u := by
  obtain ⟨front, name, hmem, rfl, hword⟩ := h
  obtain ⟨d, hname, hd⟩ := (hnames name hmem).shape
  have hrw' : Rewrites r ('<' :: rest) tail [] u (front ++ (name.toList ++ [])) := by
    simpa using hrw
  obtain ⟨u₀, v, rfl, hleft, _, hright⟩ := hrw'.kept (by rw [hname]; exact List.cons_ne_nil _ _)
    (by rw [hname]; rintro _ ⟨⟩; exact hplain)
    (by rw [hname]; rcases hd with rfl | rfl <;> decide)
  obtain rfl := hright.eq_nil (List.cons_ne_nil _ _)
  rw [hname] at hleft
  exact ⟨u₀, name, hmem, by simp, hlast hleft hword⟩

/-- A name that no match touches stays. -/
theorem endsName_after {front : List Char} {name : String}
    (hclose : ('<' :: rest).getLast? = some '>')
    (ha : Avoids r [] front name.toList tail)
    (hrw : Rewrites r ('<' :: rest) tail [] (front ++ name.toList) u')
    (hword : ∀ c ∈ front.getLast?, cc.word c = false) {names : List String}
    (hmem : name ∈ names) : EndsName cc names u' := by
  have hrw' : Rewrites r ('<' :: rest) tail [] (front ++ (name.toList ++ [])) u' := by
    simpa using hrw
  obtain ⟨front', _, rfl, hleft, hright⟩ := hrw'.around ha
  obtain rfl := hright.of_nil
  refine ⟨front', name, hmem, by simp, hleft.last_of (List.cons_ne_nil _ _) ?_ hword⟩
  exact fun c hc => word_of_wordOrPeriod (closes hclose c hc)

/-- **A rule that ends at a word or period, or in neither, changes nothing
on the left side of a run.** -/
theorem leftSide_iff {names : List String} (hnames : ∀ name ∈ names, IsPeer name)
    (hplain : 'Q' ∉ '<' :: rest) (hclose : ('<' :: rest).getLast? = some '>')
    (hends : ∀ before m after, r.Consumes before m after →
      (∀ c ∈ after.head?, wordOrPeriod cc c = false) ∨
        ∃ m' c, m = m' ++ [c] ∧ wordOrPeriod cc c = false)
    (hname : ∀ name, IsPeer name → ∀ u v, Avoids r [] u name.toList ('.' :: v))
    (hrun : Quad cc run) (hrw : Rewrites r ('<' :: rest) (left ++ (run ++ tail)) [] u u') :
    LeftSide cc names u left ↔ LeftSide cc names u' left := by
  obtain ⟨d, run', rfl, hd⟩ := hrun.first
  constructor
  · intro h
    cases h with
    | bare h => exact .bare (hrw.last_of (List.cons_ne_nil _ _) (closes hclose) h)
    | period h =>
      refine .period (hrw.last_of (List.cons_ne_nil _ _) (fun c hc => ?_) h)
      exact digit_of_word (word_of_wordOrPeriod (closes hclose c hc))
    | name h =>
      obtain ⟨front, name, hmem, rfl, hword⟩ := h
      exact .name (endsName_after hclose (hname name (hnames name hmem) _ _) hrw hword hmem)
  · intro h
    cases h with
    | bare h =>
      exact .bare (last_before (fun _ hc => hc) hends hrw (wordOrPeriod_of_plain (.inl hd)) h)
    | period h =>
      exact .period (last_before (fun _ hc => digit_of_word (word_of_wordOrPeriod hc)) hends hrw
        (wordOrPeriod_of_plain (.inr rfl)) h)
    | name h =>
      refine .name (endsName_before hnames hplain hrw (fun hrw hword => ?_) h)
      exact last_before (fun _ hc => word_of_wordOrPeriod hc) hends hrw
        (by rw [wordOrPeriod, word_Q, Bool.true_or]) hword

/-! ## The rule for addresses -/

variable {before m after w v : List Char}

theorem group_takes : (group cc).Consumes before m after ↔ Group cc m :=
  (consumes_between_one (by decide)).trans And.comm

theorem periodGroup_takes : (seq (lit ".") (group cc)).Consumes before m after ↔
    ∃ g, m = '.' :: g ∧ Group cc g := by
  constructor
  · rintro ⟨_, g, rfl, hperiod, hg⟩
    obtain rfl := consumes_lit.mp hperiod
    exact ⟨g, rfl, group_takes.mp hg⟩
  · rintro ⟨g, rfl, hg⟩
    exact ⟨['.'], g, rfl, consumes_lit.mpr rfl, group_takes.mpr hg⟩

theorem mask_takes : (opt (seq (lit "/") (between (one cc.digit) 1 2))).Consumes before m after ↔
    Mask cc m := by
  constructor
  · rintro (⟨_, length, rfl, hslash, hlen⟩ | rfl)
    · obtain rfl := consumes_lit.mp hslash
      exact .inr ⟨length, rfl, (consumes_between_one (by decide)).mp hlen⟩
    · exact .inl rfl
  · rintro (rfl | ⟨length, rfl, hlen⟩)
    · exact .inr rfl
    · exact .inl ⟨['/'], length, rfl, consumes_lit.mpr rfl,
        (consumes_between_one (by decide)).mpr hlen⟩

theorem ipv4_takes : (ipv4 cc).Consumes before m after ↔
    (∀ c ∈ before.head?, wordOrPeriod cc c = false) ∧
      (∀ c ∈ after.head?, wordOrPeriod cc c = false) ∧
      ∃ run mask, m = run ++ mask ∧ Quad cc run ∧ Mask cc mask := by
  constructor
  · rintro ⟨_, _, rfl, ⟨rfl, hbefore⟩, a, _, rfl, ha, _, _, rfl, hgroups, mask, _, rfl, hmask, _,
      _, rfl, ⟨rfl, hafter⟩, hnil⟩
    obtain rfl : _ = [] := hnil
    obtain ⟨_, _, rfl, h₁, _, _, rfl, h₂, _, _, rfl, h₃, hnil⟩ := hgroups
    obtain rfl : _ = [] := hnil
    obtain ⟨b, rfl, hb⟩ := periodGroup_takes.mp h₁
    obtain ⟨c, rfl, hc⟩ := periodGroup_takes.mp h₂
    obtain ⟨d, rfl, hd⟩ := periodGroup_takes.mp h₃
    exact ⟨hbefore, hafter, a ++ '.' :: b ++ '.' :: c ++ '.' :: d, mask, by simp,
      ⟨a, b, c, d, group_takes.mp ha, hb, hc, hd, rfl⟩, mask_takes.mp hmask⟩
  · rintro ⟨hbefore, hafter, _, mask, rfl, ⟨a, b, c, d, ha, hb, hc, hd, rfl⟩, hmask⟩
    refine ⟨[], _, rfl, ⟨rfl, hbefore⟩, a, '.' :: b ++ ('.' :: c ++ '.' :: d) ++ mask, by simp,
      group_takes.mpr ha, '.' :: b ++ ('.' :: c ++ '.' :: d), mask, by simp, ?_, ?_⟩
    · exact ⟨'.' :: b, '.' :: c ++ '.' :: d, rfl, periodGroup_takes.mpr ⟨b, rfl, hb⟩, '.' :: c,
        '.' :: d, rfl, periodGroup_takes.mpr ⟨c, rfl, hc⟩, '.' :: d, [], by simp,
        periodGroup_takes.mpr ⟨d, rfl, hd⟩, rfl⟩
    · exact ⟨mask, [], by simp, mask_takes.mpr hmask, [], [], rfl, ⟨rfl, hafter⟩, rfl⟩

/-- A match consists of digits, periods and a slash. -/
theorem ipv4_chars (h : (ipv4 cc).Consumes before m after) :
    ∀ c ∈ m, cc.digit c = true ∨ c = '.' ∨ c = '/' := by
  obtain ⟨_, _, run, mask, rfl, hrun, hmask⟩ := ipv4_takes.mp h
  intro c hc
  rcases List.mem_append.mp hc with hc | hc
  · exact (hrun.plain c hc).imp_right .inl
  · rcases hmask with rfl | ⟨length, rfl, _, hlen⟩
    · cases hc
    · rcases List.mem_cons.mp hc with rfl | hc
      · exact .inr (.inr rfl)
      · exact .inl (hlen c hc)

theorem ipv4_count (h : (ipv4 cc).Consumes before m after) : m.count '.' = 3 := by
  obtain ⟨_, _, run, mask, rfl, hrun, hmask⟩ := ipv4_takes.mp h
  rw [List.count_append, hrun.count]
  rcases hmask with rfl | ⟨length, rfl, _, hlen⟩
  · rfl
  · have hnone : '.' ∉ length := fun hmem => by
      have hd := hlen '.' hmem
      rw [digit_period] at hd
      cases hd
    simp [List.count_eq_zero.mpr hnone]

/-- No match reaches into digits and periods with a fourth period. -/
theorem ipv4_not_into (hw : ∀ c ∈ w, wordOrPeriod cc c = true) (hcount : 4 ≤ w.count '.')
    (front : List Char) {s : List Char} (hm : front ++ (w ++ v) = m ++ s)
    (h : (ipv4 cc).Consumes before m s) : m.length ≤ front.length := by
  have hshort : ∀ b, m ≠ front ++ (w ++ b) := by
    rintro b rfl
    have hthree := ipv4_count h
    rw [List.count_append, List.count_append] at hthree
    omega
  rcases List.append_eq_append_iff.mp hm with ⟨a, rfl, hwv⟩ | ⟨a, rfl, _⟩
  · rcases List.append_eq_append_iff.mp hwv with ⟨b, rfl, _⟩ | ⟨b, rfl, rfl⟩
    · exact absurd rfl (hshort b)
    · -- the match would end inside `w`
      cases b with
      | nil => exact absurd (by simp) (hshort [])
      | cons c b =>
        have hnone := (ipv4_takes.mp h).2.1 c rfl
        rw [hw c (by simp)] at hnone
        cases hnone
  · simp

theorem ipv4_avoids (hw : ∀ c ∈ w, wordOrPeriod cc c = true) (hcount : 4 ≤ w.count '.')
    (before u v : List Char) : Avoids (ipv4 cc) before u w v where
  enters := fun _ _ _ _ _ _ hm h => ipv4_not_into hw hcount _ hm h
  begins := by
    intro w₁ w₂ m s hw₁ _ hm hne h
    rcases List.eq_nil_or_concat w₁ with rfl | ⟨init, c, rfl⟩
    · obtain rfl : w = w₂ := hw₁
      have hlen := ipv4_not_into hw hcount [] hm h
      exact hne (List.length_eq_zero_iff.mp (Nat.le_zero.mp hlen))
    · have hnone := (ipv4_takes.mp h).1 c (by simp)
      rw [hw c (by simp [hw₁])] at hnone
      cases hnone

/-- No character of an address is a letter of a name. -/
theorem not_letter {c : Char} (h : cc.digit c = true ∨ c = '.' ∨ c = '/') :
    c ∉ ['Q', 'K', 'D'] := by
  intro hc
  have hdigit : cc.digit c = false := by
    simp only [List.mem_cons, List.not_mem_nil, or_false] at hc
    rcases hc with rfl | rfl | rfl <;> exact cc.digit_ascii _ (by decide)
  rcases h with h | rfl | rfl
  · rw [h] at hdigit
    cases hdigit
  · exact absurd hc (by decide)
  · exact absurd hc (by decide)

/-- A letter is no part of a match, and no match begins after one. -/
theorem ipv4_avoids_name {name : String} (h : IsPeer name) (u v : List Char) :
    Avoids (ipv4 cc) [] u name.toList v := by
  obtain ⟨d, hname, _⟩ := h.shape
  have hout : ∀ {before m s}, (ipv4 cc).Consumes before m s → ∀ c ∈ m, c ∉ ['Q', 'K', 'D'] :=
    fun hm c hc => not_letter (ipv4_chars hm c hc)
  rw [hname]
  constructor
  · intro u₁ u₂ m s _ _ hm hc
    by_contra hlen
    obtain ⟨c, a, rfl, hrest⟩ := reaches hm hlen
    obtain ⟨rfl, _⟩ := List.cons.inj hrest
    exact hout hc 'Q' (by simp) (by simp)
  · intro w₁ w₂ m s hw hne hm hm₀ hc
    rcases begins_in_name hw hne hm hm₀ with ⟨_, hfirst⟩ | ⟨_, hfirst⟩ | ⟨_, hfirst⟩ | ⟨rfl, _⟩
    · exact hout hc 'Q' (List.mem_of_mem_head? hfirst) (by simp)
    · exact hout hc 'K' (List.mem_of_mem_head? hfirst) (by simp)
    · exact hout hc 'D' (List.mem_of_mem_head? hfirst) (by simp)
    · have hnone := word_of_wordOrPeriod ((ipv4_takes.mp hc).1 'D' rfl)
      rw [word_ascii (by decide) (by decide)] at hnone
      cases hnone

theorem not_in_key {key : List Char} {c : Char} (hall : ∀ c ∈ key, base64 c = true)
    (hc : padded c = false) : c ∉ key ++ ['='] := by
  obtain ⟨hbase, heq⟩ := Bool.or_eq_false_iff.mp hc
  intro hmem
  rcases List.mem_append.mp hmem with hmem | hmem
  · rw [hall c hmem] at hbase
    cases hbase
  · rw [List.mem_singleton.mp hmem] at heq
    cases heq

/-- A key with no address to go away is followed by no character of keys. -/
theorem KeyFrom.closed {g v : List Char} (h : KeyFrom cc false g v) :
    ∃ key rest, v = key ++ '=' :: rest ∧ (g ++ key).length = 43 ∧
      (∀ c ∈ g ++ key, base64 c = true) ∧ ∀ c ∈ rest.head?, padded c = false := by
  obtain ⟨key, rest, rfl, hlen, hall, hnext | ⟨⟨⟩, _⟩⟩ := h
  exact ⟨key, rest, rfl, hlen, hall, hnext⟩

/-- **The rule for addresses keeps keys**, and puts an end to one that an
address follows. -/
theorem ipv4_keyFrom {g before v v' : List Char}
    (hrw : Rewrites (ipv4 cc) ('<' :: rest) [] before v v') :
    KeyFrom cc true g v ↔ KeyFrom cc false g v' := by
  constructor
  · rintro ⟨key, next, rfl, hlen, hall, hnext⟩
    have hno : ∀ w₁ w₂ m s, key ++ ['='] = w₁ ++ w₂ → w₂ ≠ [] → w₂ ++ (next ++ []) = m ++ s →
        m ≠ [] → ¬ (ipv4 cc).Consumes (w₁.reverse ++ before) m s := by
      intro w₁ w₂ m s hw hne hm _ hc
      have hperiod : '.' ∈ m := by
        rw [← List.count_pos_iff, ipv4_count hc]
        decide
      have hequals : '=' ∉ m := fun hmem => by
        rcases ipv4_chars hc '=' hmem with hd | hd | hd
        · rw [cc.digit_ascii '=' (by decide)] at hd
          cases hd
        · cases hd
        · cases hd
      have hkey : '.' ∉ key ++ ['='] :=
        not_in_key (fun c hc => hall c (List.mem_append_right _ hc)) (by decide)
      rcases List.append_eq_append_iff.mp hm with ⟨a, rfl, _⟩ | ⟨a, rfl, _⟩
      · -- the match would take the key's last character
        obtain ⟨init, c, rfl⟩ := (List.eq_nil_or_concat w₂).resolve_left hne
        rw [List.concat_eq_append, ← List.append_assoc] at hw
        obtain ⟨_, hlast⟩ := List.append_inj' hw rfl
        cases hlast
        exact hequals (by simp)
      · exact hkey (by rw [hw]; simp [hperiod])
    have hrw' : Rewrites (ipv4 cc) ('<' :: rest) [] before (key ++ ['='] ++ next) v' := by
      simpa using hrw
    obtain ⟨next', rfl, hright⟩ := hrw'.stays hno
    refine ⟨key, next', by simp, hlen, hall, .inl ?_⟩
    -- an address behind the key goes away, and a bracket stands there instead
    rcases hnext with hnext | ⟨_, run, mask, s, rfl, hrun, hmask, hs⟩
    · exact hright.first_of (List.cons_ne_nil _ _) (by rintro _ ⟨⟩; rfl) hnext
    · have htakes : (ipv4 cc).Consumes ((key ++ ['=']).reverse ++ before) (run ++ mask)
          (s ++ []) := by
        refine ipv4_takes.mpr ⟨?_, by simpa using hs, run, mask, rfl, hrun, hmask⟩
        intro c hc
        rw [List.reverse_append] at hc
        cases hc
        rw [wordOrPeriod, cc.word_ascii '=' (by decide)]
        decide
      obtain ⟨_, _, y', _, rfl, _, _⟩ := hright.taken rfl htakes
      rintro _ ⟨⟩
      rfl
  · intro h
    obtain ⟨key, next', rfl, hlen, hall, hnext⟩ := h.closed
    have hopen : '<' ∉ key ++ ['='] :=
      not_in_key (fun c hc => hall c (List.mem_append_right _ hc)) (by decide)
    have hrw' : Rewrites (ipv4 cc) ('<' :: rest) [] before v (key ++ ['='] ++ next') := by
      simpa using hrw
    obtain ⟨next, rfl, _, hright⟩ := hrw'.keeps hopen
    refine ⟨key, next, by simp, hlen, hall, ?_⟩
    rcases hright.first with hsame | ⟨m, s, _, rfl, _, hm, _⟩
    · exact .inl (hsame ▸ hnext)
    · obtain ⟨_, hs, run, mask, rfl, hrun, hmask⟩ := ipv4_takes.mp hm
      exact .inr ⟨rfl, run, mask, s, rfl, hrun, hmask, by simpa using hs⟩

theorem KeyTakes.imp {address address' : Bool} {v v' : List Char}
    (h : ∀ g, KeyFrom cc address g v → KeyFrom cc address' g v')
    (ht : KeyTakes cc address run v) : KeyTakes cc address' run v' := by
  obtain ⟨init, c, g, hrun, hne, hc, hkey⟩ := ht
  exact ⟨init, c, g, hrun, hne, hc, h g hkey⟩

/-- The last character of a run, as what stands before `after` sees it. -/
theorem Quad.head?_reverse (hrun : Quad cc run) (before : List Char) :
    ∃ d, ((run ++ []).reverse ++ before).head? = some d ∧ run.getLast? = some d ∧
      cc.digit d = true := by
  obtain ⟨init, d, rfl, hd⟩ := hrun.last
  exact ⟨d, by simp, by simp, hd⟩

theorem opens_digit (rest : List Char) : ∀ c ∈ ('<' :: rest).head?, cc.digit c = false :=
  fun c hc => digit_of_word (word_of_wordOrPeriod (opens rest c hc))

theorem ipv4_passes {names : List String} (hnames : ∀ name ∈ names, IsPeer name) :
    Passes cc (ipv4 cc) "PRIVATE_IP>".toList ⟨true, true, names⟩ ⟨false, true, names⟩ where
  plain := lit_plain (by decide)
  avoids := by
    intro u left run right v hrun hdot hl hr
    refine ipv4_avoids (fun c hc => ?_) (hrun.count_core hdot) _ _ _
    exact wordOrPeriod_of_plain (hrun.plain_core hl.eq hr.eq c hc)
  left := by
    intro u u' left run tail hrun hrw
    refine leftSide_iff hnames (by decide) (by decide) ?_ ?_ hrun hrw
    · exact fun _ _ _ h => .inl (ipv4_takes.mp h).2.1
    · exact fun name h _ _ => ipv4_avoids_name h _ _
  right := by
    intro before run right v v' hrun hrw _
    obtain ⟨d, hlast, _, hd⟩ := hrun.head?_reverse before
    constructor
    · intro h
      cases h with
      | bare h hkeep =>
        refine .bare (hrw.first_of (List.cons_ne_nil _ _) (opens _) h) fun _ ht => ?_
        exact hkeep rfl (ht.imp fun _ => (ipv4_keyFrom hrw).mpr)
      | period h => exact .period (hrw.first_of (List.cons_ne_nil _ _) (opens_digit _) h)
      | key _ h => exact .key rfl ((ipv4_keyFrom hrw).mp h)
      | bareKey _ h hlast => exact .bareKey rfl ((ipv4_keyFrom hrw).mp h) hlast
    · intro h
      cases h with
      | bare h hkeep =>
        rcases hrw.first with hsame | ⟨m, s, _, _, _, hm, _⟩
        · refine .bare (hsame ▸ h) fun _ ht => ?_
          exact hkeep rfl (ht.imp fun _ => (ipv4_keyFrom hrw).mp)
        · exact (not_digit hd (word_of_wordOrPeriod ((ipv4_takes.mp hm).1 d hlast))).elim
      | period h =>
        rcases hrw.first with hsame | ⟨m, s, _, _, _, hm, _⟩
        · exact .period (hsame ▸ h)
        · exact (not_period ((ipv4_takes.mp hm).1 '.' (by simp))).elim
      | key _ h => exact .key rfl ((ipv4_keyFrom hrw).mpr h)
      | bareKey _ h hlast => exact .bareKey rfl ((ipv4_keyFrom hrw).mpr h) hlast

/-! ## The rule for keys -/

theorem wgKey_takes : wgKey.Consumes before m after ↔
    (∀ c ∈ before.head?, padded c = false) ∧ (∀ c ∈ after.head?, padded c = false) ∧
      ∃ key, m = key ++ ['='] ∧ key.length = 43 ∧ ∀ c ∈ key, base64 c = true := by
  constructor
  · rintro ⟨_, _, rfl, ⟨rfl, hbefore⟩, key, _, rfl, hkey, _, _, rfl, heq, _, _, rfl, ⟨rfl, hafter⟩,
      hnil⟩
    obtain rfl : _ = [] := hnil
    obtain rfl := consumes_lit.mp heq
    obtain ⟨hlen, hall⟩ := consumes_times_one.mp hkey
    exact ⟨hbefore, hafter, key, rfl, hlen, hall⟩
  · rintro ⟨hbefore, hafter, key, rfl, hlen, hall⟩
    exact ⟨[], _, rfl, ⟨rfl, hbefore⟩, key, ['='], rfl, consumes_times_one.mpr ⟨hlen, hall⟩, ['='],
      [], rfl, consumes_lit.mpr rfl, [], [], rfl, ⟨rfl, hafter⟩, rfl⟩

theorem wgKey_no_period (h : wgKey.Consumes before m after) : '.' ∉ m := by
  obtain ⟨_, _, key, rfl, _, hall⟩ := wgKey_takes.mp h
  exact not_in_key hall (by decide)

/-- A match ends in an equals sign. So it cannot end in a text without
one, and it cannot take the period after that. -/
theorem wgKey_stops (front : List Char) {s : List Char} (hw : '=' ∉ w)
    (hm : front ++ (w ++ '.' :: v) = m ++ s) (h : wgKey.Consumes before m s) :
    m.length ≤ front.length := by
  by_contra hlen
  obtain ⟨c, a, rfl, hrest⟩ := reaches hm hlen
  have hperiod := wgKey_no_period h
  obtain ⟨_, _, key, hkey, _, _⟩ := wgKey_takes.mp h
  have hequals : '=' ∈ c :: a := by
    have hlast := congrArg List.getLast? hkey
    rw [List.getLast?_append_of_ne_nil _ (List.cons_ne_nil _ _), List.getLast?_concat] at hlast
    exact List.mem_of_getLast? hlast
  rcases List.append_eq_append_iff.mp hrest with ⟨b, hb, hv⟩ | ⟨b, rfl, _⟩
  · cases b with
    | nil => exact hw (by simpa [hb] using hequals)
    | cons e b =>
      obtain ⟨rfl, _⟩ := List.cons.inj hv
      exact hperiod (by simp [hb])
  · exact hw (List.mem_append_left _ hequals)

theorem wgKey_avoids_name {name : String} (h : IsPeer name) (u v : List Char) :
    Avoids wgKey [] u name.toList ('.' :: v) := by
  obtain ⟨d, hname, hd⟩ := h.shape
  have hno : '=' ∉ name.toList := by
    rw [hname]
    rcases hd with rfl | rfl <;> decide
  constructor
  · exact fun _ _ _ _ _ _ hm hc => wgKey_stops _ hno hm hc
  · intro w₁ w₂ m s hw _ hm hne hc
    have hno₂ : '=' ∉ w₂ := fun hmem => hno (by rw [hw]; exact List.mem_append_right _ hmem)
    have hlen := wgKey_stops [] hno₂ hm hc
    exact hne (List.length_eq_zero_iff.mp (Nat.le_zero.mp hlen))

theorem not_equals {c : Char} (h : cc.digit c = true ∨ c = '.') : c ≠ '=' := by
  rintro rfl
  rcases h with h | h
  · rw [cc.digit_ascii '=' (by decide)] at h
    cases h
  · cases h

/-- No match touches a run, unless it takes the run's end. -/
theorem wgKey_avoids {right : List Char} {names : List String} (hrun : Quad cc run)
    (hl : left = [] ∨ left = ['.']) (hr : RightSide cc ⟨false, true, names⟩ run right v) :
    Avoids wgKey [] u (left ++ (run ++ right)) v := by
  have hno : '=' ∉ left ++ (run ++ right) := fun hmem =>
    not_equals (hrun.plain_core hl hr.eq '=' hmem) rfl
  have hperiod : '.' ∈ run := by
    rw [← List.count_pos_iff, hrun.count]
    decide
  constructor
  · intro u₁ u₂ m s _ _ hm hc
    obtain ⟨w₀, w, hw⟩ := List.append_of_mem
      (List.mem_append_right left (List.mem_append_left right hperiod))
    rw [hw] at hno hm
    have hno₀ : '=' ∉ w₀ := fun hmem => hno (List.mem_append_left _ hmem)
    exact wgKey_stops u₂ hno₀ (v := w ++ v) (by simpa using hm) hc
  · intro w₁ w₂ m s hw hne hm hm₀ hc
    -- a period in `w₂` would stop the match
    have hnone : '.' ∉ w₂ := by
      intro hmem
      obtain ⟨w₀, w, rfl⟩ := List.append_of_mem hmem
      have hno₀ : '=' ∉ w₀ := fun hmem => hno (by rw [hw]; simp [hmem])
      have hlen := wgKey_stops [] hno₀ (v := w ++ v) (by simpa using hm) hc
      exact hm₀ (List.length_eq_zero_iff.mp (Nat.le_zero.mp hlen))
    have hright : right = [] := by
      rcases hr.eq with h | rfl
      · exact h
      · obtain ⟨init, c, rfl⟩ := (List.eq_nil_or_concat w₂).resolve_left hne
        rw [List.concat_eq_append, ← List.append_assoc, ← List.append_assoc] at hw
        obtain ⟨_, hlast⟩ := List.append_inj' hw rfl
        cases hlast
        exact absurd (by simp) hnone
    subst hright
    rw [List.append_nil] at hw
    obtain ⟨init, hinit, hrun'⟩ : ∃ init, w₁ = left ++ init ∧ run = init ++ w₂ := by
      rcases List.append_eq_append_iff.mp hw with ⟨a, rfl, ha⟩ | ⟨a, rfl, rfl⟩
      · exact ⟨a, rfl, ha⟩
      · exact absurd (List.mem_append_right _ hperiod) hnone
    obtain ⟨hbefore, hafter, key, hkey, hlen, hall⟩ := wgKey_takes.mp hc
    -- the match ends behind the run
    obtain ⟨k, rfl, rfl⟩ : ∃ k, key = w₂ ++ k ∧ v = k ++ '=' :: s := by
      rcases List.append_eq_append_iff.mp hm with ⟨a, rfl, rfl⟩ | ⟨a, rfl, _⟩
      · rcases List.eq_nil_or_concat a with rfl | ⟨k, c, rfl⟩
        · rw [List.append_nil] at hkey
          exact absurd (by simp [hw, hkey]) hno
        · rw [List.concat_eq_append, ← List.append_assoc] at hkey
          obtain ⟨hk, hlast⟩ := List.append_inj' hkey rfl
          cases hlast
          exact ⟨k, hk.symm, by simp⟩
      · exact absurd (by simp [hw, hkey]) hno
    have htakes : KeyFrom cc false w₂ (k ++ '=' :: s) := ⟨k, s, rfl, hlen, hall, .inl hafter⟩
    cases hr with
    | bare _ hkeep =>
      rcases List.eq_nil_or_concat init with rfl | ⟨init, c, rfl⟩
      · exact hnone (by simpa [hrun'] using hperiod)
      · refine hkeep rfl ⟨init, c, w₂, by simpa using hrun', hne, ?_, htakes⟩
        exact hbefore c (by simp [hinit])
    | bareKey _ _ hlast =>
      obtain ⟨g, c, rfl⟩ := (List.eq_nil_or_concat w₂).resolve_left hne
      have hnot := hlast c (by simp [hrun'])
      rw [padded, hall c (by simp), Bool.true_or] at hnot
      cases hnot

theorem wgKey_passes {names : List String} (hnames : ∀ name ∈ names, IsPeer name) :
    Passes cc wgKey "PUBKEY>".toList ⟨false, true, names⟩ ⟨false, false, names⟩ where
  plain := lit_plain (by decide)
  avoids := fun hrun _ hl hr => wgKey_avoids hrun hl.eq hr
  left := by
    intro u u' left run tail hrun hrw
    refine leftSide_iff hnames (by decide) (by decide) ?_ ?_ hrun hrw
    · intro before m after h
      obtain ⟨_, _, key, rfl, _, _⟩ := wgKey_takes.mp h
      refine .inr ⟨key, '=', rfl, ?_⟩
      rw [wordOrPeriod, cc.word_ascii '=' (by decide)]
      decide
    · exact fun name h _ _ => wgKey_avoids_name h _ _
  right := by
    intro before run right v v' hrun hrw hno
    obtain ⟨d, hlast, hrunLast, hd⟩ := hrun.head?_reverse before
    -- a key behind the run goes away
    have htaken : KeyFrom cc false [] v → (∀ c ∈ ((run ++ right).reverse ++ before).head?,
        padded c = false) → ∃ y', v' = '<' :: "PUBKEY>".toList ++ y' := by
      intro h hbefore
      obtain ⟨key, next, rfl, hlen, hall, hnext⟩ := h.closed
      have hrw' : Rewrites wgKey ('<' :: "PUBKEY>".toList) []
          ((run ++ right).reverse ++ before) (key ++ ['='] ++ next) v' := by
        simpa using hrw
      obtain ⟨_, _, y', _, hy, _⟩ := hrw'.taken rfl
        (wgKey_takes.mpr ⟨hbefore, by simpa using hnext, key, rfl, hlen, hall⟩)
      exact ⟨y', hy⟩
    have hfrom : ∀ {m s}, v = m ++ s → wgKey.Consumes ((run ++ right).reverse ++ before) m
        (s ++ []) → KeyFrom cc false [] v := by
      rintro m s rfl hm
      obtain ⟨_, hafter, key, rfl, hlen, hall⟩ := wgKey_takes.mp hm
      exact ⟨key, s, by simp, hlen, hall, .inl (by simpa using hafter)⟩
    constructor
    · intro h
      cases h with
      | bare h _ => exact .bare (hrw.first_of (List.cons_ne_nil _ _) (opens _) h) nofun
      | period h => exact .period (hrw.first_of (List.cons_ne_nil _ _) (opens_digit _) h)
      | key _ h =>
        obtain ⟨y', rfl⟩ := htaken h (by simp; decide)
        exact .period (opens_digit _)
      | bareKey _ h hlast' =>
        obtain ⟨y', rfl⟩ := htaken h (fun c hc => hlast' c (by rw [hrunLast, ← hlast]; exact hc))
        exact .bare (opens _) nofun
    · intro h
      cases h with
      | bare h _ =>
        rcases hrw.first with hsame | ⟨m, s, _, hv, _, hm, _⟩
        · refine .bare (hsame ▸ h) fun _ ht => ?_
          -- a key that takes the end of the run is a match that begins in it
          obtain ⟨init, c, g, rfl, hne, hc, hkey⟩ := ht
          obtain ⟨key, next, rfl, hlen, hall, hnext⟩ := hkey.closed
          have hsplit : init ++ c :: g ++ [] = (init ++ [c]) ++ g := by simp
          have hmatch : g ++ (key ++ '=' :: next) = (g ++ key ++ ['=']) ++ next := by simp
          refine hno.not_consumes rfl hsplit hne hmatch ?_
          refine wgKey_takes.mpr ⟨?_, hnext, g ++ key, rfl, hlen, hall⟩
          intro e he
          rw [List.reverse_append] at he
          cases he
          exact hc
        · exact .bareKey rfl (hfrom hv hm) fun c hc =>
            (wgKey_takes.mp hm).1 c (by rw [hlast, ← hrunLast]; exact hc)
      | period h =>
        rcases hrw.first with hsame | ⟨m, s, _, hv, _, hm, _⟩
        · exact .period (hsame ▸ h)
        · exact .key rfl (hfrom hv hm)
      | key hkey _ | bareKey hkey _ _ => cases hkey

/-! ## The rules for the peers' names -/

theorem peerName_takes {n : String} (hn : IsPeer n) :
    (peerName cc n).Consumes before m after ↔ m = n.toList ∧
      (∀ c ∈ before.head?, cc.word c = false) ∧ ∀ c ∈ after.head?, cc.word c = false := by
  obtain ⟨d, hname, hd⟩ := hn.shape
  have hword : cc.word d = true := by
    rcases hd with rfl | rfl
    · exact word_ascii (by decide) (by decide)
    · exact word_ascii (by decide) (by decide)
  have hfirst : (['Q', 'K', 'D', d] ++ after).head?.any cc.word = true := word_Q
  have hlast : (['Q', 'K', 'D', d].reverse ++ before).head?.any cc.word = true := hword
  constructor
  · rintro ⟨_, _, rfl, ⟨rfl, hbefore⟩, _, _, rfl, hlit, _, _, rfl, ⟨rfl, hafter⟩, hnil⟩
    obtain rfl : _ = [] := hnil
    obtain rfl := consumes_lit.mp hlit
    simp only [List.nil_append, List.append_nil, List.reverse_nil] at hbefore hafter
    rw [hname, hfirst] at hbefore
    rw [hname, hlast] at hafter
    exact ⟨by simp, any_head?.mp hbefore, any_head?.mp fun hany => hafter hany.symm⟩
  · rintro ⟨rfl, hbefore, hafter⟩
    refine ⟨[], n.toList, rfl, ⟨rfl, ?_⟩, n.toList, [], (List.append_nil _).symm,
      consumes_lit.mpr rfl, [], [], rfl, ⟨rfl, ?_⟩, rfl⟩
    · rw [hname, hfirst]
      exact any_head?.mpr hbefore
    · show (n.toList.reverse ++ before).head?.any cc.word ≠ after.head?.any cc.word
      rw [hname, hlast]
      exact fun hany => any_head?.mpr hafter hany.symm

/-- A match that begins before a text that is none of a name's inner
letters begins three characters before it. -/
theorem name_reaches {d c : Char} {front m w s : List Char} (hm : front ++ w = m ++ s)
    (hname : m = ['Q', 'K', 'D', d]) (hne : front ≠ []) (hfirst : w.head? = some c)
    (hk : c ≠ 'K') (hd : c ≠ 'D') :
    m.length ≤ front.length ∨ (front = ['Q', 'K', 'D'] ∧ c = d) := by
  by_cases hlen : m.length ≤ front.length
  · exact .inl hlen
  · obtain ⟨e, a, hm', rfl⟩ := reaches hm hlen
    obtain rfl : e = c := Option.some.inj hfirst
    rw [hname] at hm'
    match front, hne, hm' with
    | [_], _, hm' =>
      cases hm'
      exact absurd rfl hk
    | [_, _], _, hm' =>
      cases hm'
      exact absurd rfl hd
    | [_, _, _], _, hm' =>
      cases hm'
      exact .inr ⟨rfl, rfl⟩
    | _ :: _ :: _ :: _ :: front, _, hm' => simp at hm'

/-- A name never stands in a run, and none ends in one. -/
theorem peerName_avoids {n : String} (hn : IsPeer n) {right : List Char} {names : List String}
    (hrun : Quad cc run) (hl : LeftSide cc names u left) (hr : right = [] ∨ right = ['.']) :
    Avoids (peerName cc n) [] u (left ++ (run ++ right)) v := by
  obtain ⟨d, hname, hd⟩ := hn.shape
  have hletter : ∀ c ∈ left ++ (run ++ right), c ∉ ['Q', 'K', 'D'] := fun c hc =>
    not_letter ((hrun.plain_core hl.eq hr c hc).imp_right .inl)
  constructor
  · intro u₁ u₂ m s hu hne hm hc
    obtain ⟨rfl, _, _⟩ := (peerName_takes hn).mp hc
    obtain ⟨c, w, hw⟩ : ∃ c w, left ++ (run ++ right) = c :: w := by
      obtain ⟨e, run', rfl, _⟩ := hrun.first
      exact List.exists_cons_of_ne_nil (by simp)
    have hc := hletter c (by simp [hw])
    rcases name_reaches hm hname hne (by rw [hw]; rfl) (by rintro rfl; simp at hc)
      (by rintro rfl; simp at hc) with hlen | ⟨rfl, rfl⟩
    · exact hlen
    · -- the name would end with the run's first digit
      cases hl with
      | bare h =>
        have hnone := word_of_wordOrPeriod (h 'D' (by rw [hu]; simp))
        rw [word_ascii (by decide) (by decide)] at hnone
        cases hnone
      | period _ | name _ =>
        obtain ⟨rfl, _⟩ := List.cons.inj hw
        rcases hd with hd | hd <;> cases hd
  · intro w₁ w₂ m s hw hne hm _ hc
    obtain ⟨rfl, _, _⟩ := (peerName_takes hn).mp hc
    obtain ⟨c, w₂, rfl⟩ := List.exists_cons_of_ne_nil hne
    rw [hname] at hm
    obtain ⟨rfl, _⟩ := List.cons.inj hm
    exact hletter 'Q' (by simp [hw]) (by simp)

/-- Names do not overlap. -/
theorem peerName_avoids_name {n name : String} (hn : IsPeer n) (h : IsPeer name)
    (hne : name ≠ n) (u v : List Char) : Avoids (peerName cc n) [] u name.toList v := by
  obtain ⟨d, hname, hd⟩ := hn.shape
  obtain ⟨e, hname', he⟩ := h.shape
  have heq : name.toList ≠ n.toList := fun heq => hne (String.toList_inj.mp heq)
  rw [hname'] at heq ⊢
  constructor
  · intro u₁ u₂ m s _ hne hm hc
    obtain ⟨rfl, _, _⟩ := (peerName_takes hn).mp hc
    rcases name_reaches hm hname hne rfl (by decide) (by decide) with hlen | ⟨_, rfl⟩
    · exact hlen
    · rcases hd with hd | hd <;> cases hd
  · intro w₁ w₂ m s hw hne hm hm₀ hc
    obtain ⟨rfl, _, _⟩ := (peerName_takes hn).mp hc
    rw [hname] at hm hm₀ heq
    rcases begins_in_name hw hne hm hm₀ with ⟨rfl, _⟩ | ⟨_, hq⟩ | ⟨_, hq⟩ | ⟨_, hq⟩
    · rw [← show _ = w₂ from hw] at hm
      exact heq (List.append_inj hm rfl).1
    · cases hq
    · cases hq
    · cases hq
      rcases he with he | he <;> cases he

/-- A name as a word of its own goes away, up to its last character. -/
theorem peerName_replaced {n : String} (hn : IsPeer n) {front : List Char}
    (hrw : Rewrites (peerName cc n) ('<' :: rest) tail [] (front ++ n.toList) u')
    (hword : ∀ c ∈ front.getLast?, cc.word c = false)
    (hafter : ∀ c ∈ tail.head?, cc.word c = false) : ∃ front', u' = front' ++ '<' :: rest := by
  obtain ⟨d, hname, hd⟩ := hn.shape
  obtain ⟨front', y, rfl, _, hright⟩ := hrw.split (by
    intro u₁ u₂ m s _ hne hm hc
    obtain ⟨rfl, _, _⟩ := (peerName_takes hn).mp hc
    have hfirst : (n.toList ++ (tail ++ [])).head? = some 'Q' := by
      rw [hname]
      rfl
    rcases name_reaches (by simpa using hm) hname hne hfirst (by decide) (by decide) with
      hlen | ⟨_, rfl⟩
    · exact hlen
    · rcases hd with hd | hd <;> cases hd)
  have hright' : Rewrites (peerName cc n) ('<' :: rest) tail (front.reverse ++ [])
      (n.toList ++ []) y := by
    simpa using hright
  have hnull : (peerName cc n).nullable = false := by
    rcases hn with rfl | rfl
    · rfl
    · rfl
  obtain ⟨m, x', y', hm, rfl, hc, hrest⟩ := hright'.taken hnull
    ((peerName_takes hn).mpr ⟨rfl, by simpa using hword, by simpa using hafter⟩)
  obtain ⟨rfl, _, _⟩ := (peerName_takes hn).mp hc
  obtain ⟨_, rfl⟩ := List.append_inj hm rfl
  obtain rfl := hrest.of_nil
  exact ⟨front', by simp⟩

theorem peerName_passes {n : String} (hn : IsPeer n) {names : List String}
    (hnames : ∀ name ∈ names, IsPeer name) {rest : List Char}
    (hplain : ('<' :: rest).all (fun c =>
      decide (c.toNat < 128) && !c.isDigit && c != '.' && c != 'Q') = true)
    (hclose : ('<' :: rest).getLast? = some '>') :
    Passes cc (peerName cc n) rest ⟨false, false, n :: names⟩ ⟨false, false, names⟩ where
  plain := lit_plain hplain
  avoids := fun hrun _ hl hr => peerName_avoids hn hrun hl hr.eq
  left := by
    intro u u' left run tail hrun hrw
    obtain ⟨d, run', rfl, hd⟩ := hrun.first
    have hopenQ : 'Q' ∉ '<' :: rest := by
      intro hmem
      obtain ⟨_, _, hq⟩ : cc.digit 'Q' = false ∧ _ := lit_plain hplain 'Q' hmem
      exact hq rfl
    have hclose' : ∀ c ∈ ('<' :: rest).getLast?, cc.digit c = false := fun c hc =>
      digit_of_word (word_of_wordOrPeriod (closes hclose c hc))
    constructor
    · intro h
      cases h with
      | bare h => exact .bare (hrw.last_of (List.cons_ne_nil _ _) (closes hclose) h)
      | period h => exact .period (hrw.last_of (List.cons_ne_nil _ _) hclose' h)
      | name h =>
        obtain ⟨front, name, hmem, rfl, hword⟩ := h
        -- the rule's own name goes away; the other one stays
        by_cases hsame : name = n
        · subst hsame
          obtain ⟨front', rfl⟩ := peerName_replaced hn hrw hword (by
            rintro c ⟨⟩
            exact word_period)
          exact .period (by rwa [List.getLast?_append_of_ne_nil _ (List.cons_ne_nil _ _)])
        · have hmem := (List.mem_cons.mp hmem).resolve_left hsame
          exact .name (endsName_after hclose
            (peerName_avoids_name hn (hnames name hmem) hsame _ _) hrw hword hmem)
    · intro h
      cases h with
      | bare h =>
        rcases hrw.last with hsame | ⟨x₀, _, m, _, _, hm⟩
        · exact .bare (hsame ▸ h)
        · exact (not_digit hd (((peerName_takes hn).mp hm).2.2 d rfl)).elim
      | period h =>
        rcases hrw.last with hsame | ⟨x₀, _, m, rfl, _, hm⟩
        · exact .period (hsame ▸ h)
        · obtain ⟨rfl, hword, _⟩ := (peerName_takes hn).mp hm
          exact .name ⟨x₀, n, List.mem_cons_self .., rfl, by simpa using hword⟩
      | name h =>
        obtain ⟨front, name, hmem, hu, hword⟩ := endsName_before hnames
          hopenQ hrw (fun hrw hword => by
            rcases hrw.last with hsame | ⟨x₀, _, m, _, _, hm⟩
            · rwa [hsame]
            · have hnone := ((peerName_takes hn).mp hm).2.2 'Q' rfl
              rw [word_Q] at hnone
              cases hnone) h
        exact .name ⟨front, name, List.mem_cons_of_mem _ hmem, hu, hword⟩
  right := by
    intro before run right v v' hrun hrw _
    obtain ⟨d, hlast, _, hd⟩ := hrun.head?_reverse before
    constructor
    · intro h
      cases h with
      | bare h _ => exact .bare (hrw.first_of (List.cons_ne_nil _ _) (opens _) h) nofun
      | period h => exact .period (hrw.first_of (List.cons_ne_nil _ _) (opens_digit _) h)
      | key hkey _ | bareKey hkey _ _ => cases hkey
    · intro h
      cases h with
      | bare h _ =>
        rcases hrw.first with hsame | ⟨m, s, _, _, _, hm, _⟩
        · exact .bare (hsame ▸ h) nofun
        · exact (not_digit hd (((peerName_takes hn).mp hm).2.1 d hlast)).elim
      | period h =>
        rcases hrw.first with hsame | ⟨m, s, _, rfl, _, hm, _⟩
        · exact .period (hsame ▸ h)
        · obtain ⟨rfl, _, _⟩ := (peerName_takes hn).mp hm
          obtain ⟨e, hname, _⟩ := hn.shape
          rw [hname]
          refine .period ?_
          rintro c ⟨⟩
          exact cc.digit_ascii 'Q' (by decide)
      | key hkey _ | bareKey hkey _ _ => cases hkey

/-- The last four rules, after the first five. -/
theorem redactLine_eq (line : List Char) : redactLine cc line =
    (peerName cc "QKD2").sub ('<' :: "PEER_B>".toList) ((peerName cc "QKD1").sub
      ('<' :: "PEER_A>".toList) (wgKey.sub ('<' :: "PUBKEY>".toList) ((ipv4 cc).sub
        ('<' :: "PRIVATE_IP>".toList) (reachesIpv4 cc line)))) := by
  show (peerName cc "QKD2").sub "<PEER_B>".toList ((peerName cc "QKD1").sub "<PEER_A>".toList
    (wgKey.sub "<PUBKEY>".toList ((ipv4 cc).sub "<PRIVATE_IP>".toList (reachesIpv4 cc line)))) = _
  rfl

/-- **What the rule for addresses passes over is in the transcript**, and
nothing else stands next to a period there. -/
theorem missed_iff_exposed (line : List Char) :
    Missed cc line ↔ Exposed cc ⟨false, false, []⟩ (redactLine cc line) := by
  have hboth : ∀ name ∈ ["QKD1", "QKD2"], IsPeer name := by simp [IsPeer]
  have hone : ∀ name ∈ ["QKD2"], IsPeer name := by simp [IsPeer]
  rw [redactLine_eq]
  calc Missed cc line
      ↔ Exposed cc ⟨false, true, ["QKD1", "QKD2"]⟩ ((ipv4 cc).sub
          ('<' :: "PRIVATE_IP>".toList) (reachesIpv4 cc line)) :=
        (ipv4_passes hboth).exposed
    _ ↔ Exposed cc ⟨false, false, ["QKD1", "QKD2"]⟩ (wgKey.sub _ _) :=
        (wgKey_passes hboth).exposed
    _ ↔ Exposed cc ⟨false, false, ["QKD2"]⟩ ((peerName cc "QKD1").sub _ _) :=
        (peerName_passes (.inl rfl) hone (by decide) (by decide)).exposed
    _ ↔ Exposed cc ⟨false, false, []⟩ ((peerName cc "QKD2").sub _ _) :=
        (peerName_passes (.inr rfl) (by simp) (by decide) (by decide)).exposed

/-! ## What the search finds -/

/-- **An address is found or touches a period.** -/
theorem found_or_exposed {text : List Char} (h : HasAddress cc text) :
    (ipv4 cc).search text = true ∨ Exposed cc ⟨false, false, []⟩ text := by
  obtain ⟨before, run, after, rfl, hrun, hword, hgroup, hword', hgroup'⟩ := h
  have hleft : (∀ c ∈ before.getLast?, wordOrPeriod cc c = false) ∨
      ∃ u, before = u ++ ['.'] ∧ LeftSide cc [] u ['.'] := by
    rcases List.eq_nil_or_concat before with rfl | ⟨u, c, rfl⟩
    · exact .inl (by rintro _ ⟨⟩)
    · rw [List.concat_eq_append] at *
      by_cases hc : c = '.'
      · refine .inr ⟨u, by rw [hc], .period fun d hd => ?_⟩
        obtain ⟨u', rfl⟩ := List.getLast?_eq_some_iff.mp hd
        exact hgroup u' d (by simp [hc])
      · refine .inl fun d hd => ?_
        rw [List.getLast?_concat] at hd
        cases hd
        rw [wordOrPeriod, hword c (by simp), beq_false_of_ne hc]
        rfl
  have hright : (∀ c ∈ after.head?, wordOrPeriod cc c = false) ∨
      ∃ v, after = '.' :: v ∧ RightSide cc ⟨false, false, []⟩ run ['.'] v := by
    cases after with
    | nil => exact .inl (by rintro _ ⟨⟩)
    | cons c v =>
      by_cases hc : c = '.'
      · refine .inr ⟨v, by rw [hc], .period fun d hd => ?_⟩
        obtain ⟨v', rfl⟩ := List.head?_eq_some_iff.mp hd
        exact hgroup' v' d (by rw [hc])
      · refine .inl fun d hd => ?_
        cases hd
        rw [wordOrPeriod, hword' c rfl, beq_false_of_ne hc]
        rfl
  -- with no period on either side the search finds it
  rcases hleft with hbare | ⟨u, rfl, hl⟩
  · rcases hright with hbare' | ⟨v, rfl, hr⟩
    · refine .inl ?_
      rw [List.append_assoc]
      exact search_of_consumes (ipv4_takes.mpr
        ⟨by simpa using hbare, hbare', run, [], by simp, hrun, .inl rfl⟩)
    · exact .inr ⟨before, [], run, ['.'], v, by simp, hrun, .bare hbare, hr, .inr rfl⟩
  · rcases hright with hbare' | ⟨v, rfl, hr⟩
    · exact .inr ⟨u, ['.'], run, [], after, by simp, hrun, hl, .bare hbare' nofun, .inl rfl⟩
    · exact .inr ⟨u, ['.'], run, ['.'], v, by simp, hrun, hl, hr, .inl rfl⟩

/-- With no rule to come, what stands next to a period is an address. -/
theorem Exposed.hasAddress {text : List Char} (h : Exposed cc ⟨false, false, []⟩ text) :
    HasAddress cc text := by
  obtain ⟨u, left, run, right, v, rfl, hrun, hl, hr, _⟩ := h
  have hperiod : ∀ c ∈ (u ++ ['.']).getLast?, cc.word c = false := by
    intro c hc
    rw [List.getLast?_concat] at hc
    cases hc
    exact word_period
  refine ⟨u ++ left, run, right ++ v, by simp, hrun, ?_, ?_, ?_, ?_⟩
  · cases hl with
    | bare h => exact fun c hc => word_of_wordOrPeriod (h c (by simpa using hc))
    | period _ | name _ => exact hperiod
  · intro u' d hu
    cases hl with
    | bare h => exact (not_period (h '.' (by rw [← List.append_nil u, hu]; simp))).elim
    | period h =>
      have hu' : u ++ ['.'] = (u' ++ [d]) ++ ['.'] := by simpa using hu
      obtain ⟨rfl, _⟩ := List.append_inj' hu' rfl
      exact h d (by simp)
    | name h =>
      obtain ⟨_, _, hmem, _⟩ := h
      cases hmem
  · cases hr with
    | bare h _ => exact fun c hc => word_of_wordOrPeriod (h c hc)
    | period _ =>
      rintro c ⟨⟩
      exact word_period
    | key hkey _ | bareKey hkey _ _ => cases hkey
  · intro v' d hv
    cases hr with
    | bare h _ => exact (not_period (h '.' (by rw [show v = _ from hv]; rfl))).elim
    | period h =>
      obtain ⟨_, rfl⟩ := List.cons.inj hv
      exact h d rfl
    | key hkey _ | bareKey hkey _ _ => cases hkey

/-! ## Lines whose runs touch no period -/

/-- Digits and periods that come out of a rule went into it. -/
theorem sub_kept {a : Char} {w : List Char} (hne : w ≠ [])
    (hw : ∀ c ∈ w, cc.digit c = true ∨ c = '.')
    (hplain : ∀ c ∈ a :: rest, cc.digit c = false ∧ c ≠ '.' ∧ c ≠ 'Q')
    (h : w <:+: r.sub (a :: rest) x) : w <:+: x := by
  have hnot : ∀ c ∈ a :: rest, c ∉ w := by
    intro c hc hmem
    obtain ⟨hdigit, hperiod, _⟩ := hplain c hc
    rcases hw c hmem with hd | hd
    · rw [hd] at hdigit
      cases hdigit
    · exact hperiod hd
  obtain ⟨u, v, huv⟩ := h
  rw [List.append_assoc] at huv
  have hrw : Rewrites r (a :: rest) [] [] x (u ++ (w ++ v)) := huv ▸ sub_rewrites x
  obtain ⟨u', v', hx, _, _, _⟩ := hrw.kept hne
    (fun c hc hmem => hnot c hmem (List.mem_of_mem_head? hc)) (hnot a (List.mem_cons_self ..))
  exact ⟨u', v', by rw [hx, List.append_assoc]⟩

/-- The first five rules write no digits and no periods. -/
theorem reachesIpv4_kept {line w : List Char} (hne : w ≠ [])
    (hw : ∀ c ∈ w, cc.digit c = true ∨ c = '.') (h : w <:+: reachesIpv4 cc line) :
    w <:+: line := by
  have hrule : ∀ {r : Regex} {repl : String} {x : List Char} (a : Char) (rest : List Char),
      repl.toList = a :: rest → (a :: rest).all (fun c =>
        decide (c.toNat < 128) && !c.isDigit && c != '.' && c != 'Q') = true →
      w <:+: applyRule x (r, repl) → w <:+: x := by
    intro r repl x a rest hrepl hplain h
    rw [applyRule, hrepl] at h
    exact sub_kept hne hw (lit_plain hplain) h
  have h₄ := hrule '<' "CLIENT>".toList rfl (by decide) h
  have h₃ := hrule '<' "EKM_KEY_NAME>".toList rfl (by decide) h₄
  have h₂ := hrule 'g' "s://<BUCKET>/<OBJECT_ID>_".toList rfl (by decide) h₃
  have h₁ := hrule 'K' "EKId: <KEK_ID>".toList rfl (by decide) h₂
  exact hrule '<' "KEY_ID>".toList rfl (by decide) h₁

/-- In a line in which no run of four groups has a period next to it, the
rule misses nothing. -/
theorem quiet_line {line : List Char} (h : ∀ before run after, line = before ++ (run ++ after) →
    Quad cc run → before.getLast? ≠ some '.' ∧ after.head? ≠ some '.') : ¬ Missed cc line := by
  rintro ⟨before, left, run, right, after, heq, hrun, _, _, hdot⟩
  rcases hdot with rfl | rfl
  · have hmem : '.' :: run <:+: reachesIpv4 cc line := ⟨before, right ++ after, by simp [heq]⟩
    obtain ⟨u, v, huv⟩ := reachesIpv4_kept (List.cons_ne_nil _ _) (by simpa using hrun.plain) hmem
    exact (h (u ++ ['.']) run v (by simp [← huv]) hrun).1 (by simp)
  · have hmem : run ++ ['.'] <:+: reachesIpv4 cc line := ⟨before ++ left, after, by simp [heq]⟩
    have hplain : ∀ c ∈ run ++ ['.'], cc.digit c = true ∨ c = '.' := fun c hc =>
      (List.mem_append.mp hc).elim (hrun.plain c) fun hc => .inr (List.mem_singleton.mp hc)
    obtain ⟨u, v, huv⟩ := reachesIpv4_kept (by simp) hplain hmem
    exact (h u run ('.' :: v) (by simp [← huv]) hrun).2 rfl

/-! ## The transcript -/

variable (cc) in
/-- A search for addresses that finds one is reported. -/
theorem residuals_ipv4 {text : List Char} (h : residuals cc [text] = []) :
    (ipv4 cc).search text = false := by
  have hnone := List.filter_eq_nil_iff.mp (List.map_eq_nil_iff.mp h) ("ipv4", ipv4 cc)
    (by simp [residual])
  simpa using hnone

variable (cc) in
/-- **A published transcript has no address exactly if the rule missed
none.** -/
theorem transcript_clean {line : List Char} (hcheck : residuals cc [redactLine cc line] = []) :
    ¬ HasAddress cc (redactLine cc line) ↔ ¬ Missed cc line := by
  rw [missed_iff_exposed]
  refine not_congr ⟨fun h => ?_, Exposed.hasAddress⟩
  rcases found_or_exposed h with hfound | hexposed
  · rw [residuals_ipv4 cc hcheck] at hfound
    cases hfound
  · exact hexposed

end

/-- A missed address comes with four periods. -/
theorem Missed.periods {cc : CharClass} {line : List Char} (h : Missed cc line) :
    4 ≤ (reachesIpv4 cc line).count '.' := by
  obtain ⟨before, left, run, right, after, heq, hrun, _, _, hdot⟩ := h
  rw [heq, List.count_append, List.count_append]
  have hcore := hrun.count_core hdot
  omega

theorem transcript_clean_peer :
    redactLine .ascii "peer 10.0.0.1 up".toList = "peer <PRIVATE_IP> up".toList ∧
      ¬ HasAddress .ascii (redactLine .ascii "peer 10.0.0.1 up".toList) := by
  refine ⟨by decide +kernel, (transcript_clean .ascii (by decide +kernel)).mpr fun hm => ?_⟩
  exact absurd hm.periods (by decide +kernel)

/-- **The address at the end of a sentence is published.** -/
theorem transcript_leaks : ¬ ∀ line : List Char,
    residuals .ascii [redactLine .ascii line] = [] →
      ¬ HasAddress .ascii (redactLine .ascii line) := by
  intro h
  have hsame : redactLine .ascii "peer 10.0.0.1.".toList = "peer 10.0.0.1.".toList := by
    decide +kernel
  refine h "peer 10.0.0.1.".toList (by decide +kernel) ?_
  rw [hsame]
  refine ⟨"peer ".toList, "10.0.0.1".toList, ['.'], rfl, ?_⟩
  have hgroup : ∀ g : List Char, g.all Char.isDigit = true → 1 ≤ g.length → g.length ≤ 3 →
      Group .ascii g := fun g hall hmin hmax => ⟨List.all_eq_true.mp hall, hmin, hmax⟩
  have hten := hgroup ['1', '0'] rfl (by decide) (by decide)
  have hzero := hgroup ['0'] rfl (by decide) (by decide)
  have hone := hgroup ['1'] rfl (by decide) (by decide)
  constructor
  · exact ⟨_, _, _, _, hten, hzero, hzero, hone, rfl⟩
  · rintro _ ⟨⟩
    rfl
  · intro u d hu
    have hlast : some ' ' = (u ++ [d] ++ ['.']).getLast? := by
      rw [List.append_assoc]
      exact congrArg List.getLast? hu
    rw [List.getLast?_concat] at hlast
    exact absurd (Option.some.inj hlast) (by decide)
  · rintro _ ⟨⟩
    rfl
  · rintro v d ⟨⟩

end QkdEkm.Scripts
