import QkdEkm.Scripts.Twice

/-!
# Settled — what a redacted line is to the rules

Six of the nine rules leave a redacted line as it is. Four find nothing
in it; the rules for key encryption keys and for paths of keys have
patterns that run to the next white space, which no other rule touches.
-/

namespace QkdEkm.Scripts

open QkdEkm.Lib QkdEkm.Lib.Regex

/-- ASCII, and no white space. -/
def solid (c : Char) : Bool :=
  decide (c.toNat < 128) && decide (c.toNat ∉ [9, 10, 11, 12, 13, 28, 29, 30, 31, 32])

/-- The classes of characters with what `\s` is. -/
structure ReClass extends CharClass where
  space_ascii : ∀ c : Char, c.toNat < 128 →
    space c = decide (c.toNat ∈ [9, 10, 11, 12, 13, 28, 29, 30, 31, 32])
  space_word : ∀ c, word c = true → space c = false

/-! ## White space -/

theorem alphanum_range {c : Char} (h : c.isAlphanum = true) : 48 ≤ c.toNat ∧ c.toNat < 128 := by
  rcases Bool.or_eq_true_iff.mp h with halpha | hdigit
  · obtain ⟨hle, hlt⟩ := alpha_range halpha
    exact ⟨Nat.le_trans (by decide) hle, hlt⟩
  · have h0 : '0'.toNat = 48 := rfl
    have h9 : '9'.toNat = 57 := rfl
    rw [Char.isDigit_iff_toNat] at hdigit
    omega

/-- The pattern of the rule for paths of keys. -/
def keyPath (cc : ReClass) : Regex :=
  cat [lit "projects/", atLeast (notSpace cc.toCharClass) 1, lit "/cryptoKeys/",
    atLeast (notSpace cc.toCharClass) 1]

section

variable {cc : ReClass} {rule : Regex × String} {u v x before m after : List Char}

theorem notSpace_of_word {c : Char} (h : cc.word c = true) : notSpace cc.toCharClass c = true := by
  rw [notSpace, cc.space_word c h]
  rfl

theorem notSpace_of_alphanum {c : Char} (h : c.isAlphanum = true) :
    notSpace cc.toCharClass c = true :=
  notSpace_of_word (word_ascii (alphanum_range h).2 h)

theorem notSpace_of_solid {c : Char} (h : solid c = true) : notSpace cc.toCharClass c = true := by
  obtain ⟨hascii, hspace⟩ := Bool.and_eq_true_iff.mp h
  rw [notSpace, cc.space_ascii c (of_decide_eq_true hascii), Bool.not_eq_true',
    decide_eq_false_iff_not]
  exact of_decide_eq_true hspace

theorem lit_notSpace {text : String} (h : text.toList.all solid = true) :
    (lit text).Within fun c => notSpace cc.toCharClass c = true :=
  within_lit fun c hc => notSpace_of_solid (List.all_eq_true.mp h c hc)

theorem objectPath_notSpace (h : (objectPath cc.toCharClass).Consumes before m after) :
    ∀ c ∈ m, notSpace cc.toCharClass c = true := by
  have hall : ∀ d c, (c != d && notSpace cc.toCharClass c) = true →
      notSpace cc.toCharClass c = true := fun _ _ hc => (Bool.and_eq_true_iff.mp hc).2
  refine consumes_within (r := objectPath cc.toCharClass) (within_cat ?_) h
  simp only [List.forall_mem_cons, List.not_mem_nil, false_implies, implies_true, and_true]
  exact ⟨lit_notSpace (by decide), within_atLeast (hall '/') 1, lit_notSpace (by decide),
    ⟨lit_notSpace (by decide), within_atLeast (hall '_') 1⟩, lit_notSpace (by decide)⟩

theorem keyPath_notSpace (h : (keyPath cc).Consumes before m after) :
    ∀ c ∈ m, notSpace cc.toCharClass c = true := by
  refine consumes_within (r := keyPath cc) (within_cat ?_) h
  simp only [List.forall_mem_cons, List.not_mem_nil, false_implies, implies_true, and_true]
  exact ⟨lit_notSpace (by decide), within_atLeast (fun _ hc => hc) 1, lit_notSpace (by decide),
    within_atLeast (fun _ hc => hc) 1⟩

/-- Letters, digits and some characters that are no space. -/
theorem notSpace_of_charset {c : Char} {others : List Char}
    (hothers : others.all solid = true) (h : (c.isAlphanum || others.contains c) = true) :
    notSpace cc.toCharClass c = true := by
  rcases Bool.or_eq_true_iff.mp h with hc | hc
  · exact notSpace_of_alphanum hc
  · exact notSpace_of_solid (List.all_eq_true.mp hothers c (List.contains_iff_mem.mp hc))

theorem email_notSpace (h : email.Consumes before m after) :
    ∀ c ∈ m, notSpace cc.toCharClass c = true := by
  intro c hc
  rcases Bool.or_eq_true_iff.mp (email_chars h c hc) with hc | hc
  · exact notSpace_of_charset (by decide) hc
  · rw [beq_iff_eq.mp hc]
    exact notSpace_of_solid (by decide)

theorem ipv4_notSpace (h : (ipv4 cc.toCharClass).Consumes before m after) :
    ∀ c ∈ m, notSpace cc.toCharClass c = true := by
  intro c hc
  rcases ipv4_chars h c hc with hdigit | rfl | rfl
  · exact notSpace_of_word (cc.word_of_digit c hdigit)
  · exact notSpace_of_solid (by decide)
  · exact notSpace_of_solid (by decide)

theorem wgKey_notSpace (h : wgKey.Consumes before m after) :
    ∀ c ∈ m, notSpace cc.toCharClass c = true := by
  obtain ⟨_, _, key, rfl, _, hall⟩ := wgKey_takes.mp h
  intro c hc
  rcases List.mem_append.mp hc with hc | hc
  · exact notSpace_of_charset (by decide) (hall c hc)
  · rw [List.mem_singleton.mp hc]
    exact notSpace_of_solid (by decide)

theorem peerName_notSpace {n : String} (hn : IsPeer n)
    (h : (peerName cc.toCharClass n).Consumes before m after) :
    ∀ c ∈ m, notSpace cc.toCharClass c = true := by
  have hsolid : n.toList.all solid = true := by
    rcases hn with rfl | rfl <;> decide
  rw [peerName_takes hn] at h
  rw [h.1]
  exact fun c hc => notSpace_of_solid (List.all_eq_true.mp hsolid c hc)

/-- No match of the last seven rules holds white space. -/
theorem match_notSpace (hrule : rule ∈ (rules cc.toCharClass).drop 2)
    (h : rule.1.Consumes before m after) : ∀ c ∈ m, notSpace cc.toCharClass c = true := by
  rw [rules_drop_two] at hrule
  rcases List.mem_cons.mp hrule with rfl | hrule
  · exact objectPath_notSpace h
  rcases later_cases hrule with ⟨_, heq⟩ | ⟨_, heq⟩ | ⟨_, heq⟩ | ⟨_, heq⟩ | ⟨_, heq⟩ | ⟨_, heq⟩
  all_goals rw [heq] at h
  · exact keyPath_notSpace h
  · exact email_notSpace h
  · exact ipv4_notSpace h
  · exact wgKey_notSpace h
  · exact peerName_notSpace (.inl rfl) h
  · exact peerName_notSpace (.inr rfl) h

/-! ## The names of the peers -/

theorem peerName_guarded {n : String} (hn : IsPeer n) :
    (peerName cc.toCharClass n).Guarded cc.word (· = n.toList) := by
  intro before m after
  rw [peerName_takes hn]
  exact ⟨fun h => ⟨h.2.1, h.2.2, h.1⟩, fun h => ⟨h.2.2, h.1, h.2.1⟩⟩

/-- The rules for names bring no name back. -/
theorem peerName_clear {n n' : String} (hn : IsPeer n) (hn' : IsPeer n') {repl : List Char}
    (hrepl : Apart repl n.toList) :
    Clear (peerName cc.toCharClass n') repl cc.word n.toList := by
  obtain ⟨d, hshape, hd⟩ := hn.shape
  have hword : cc.word d = true := by
    rcases hd with rfl | rfl
    · exact word_ascii (by decide) (by decide)
    · exact word_ascii (by decide) (by decide)
  refine ⟨by rw [hshape]; exact List.cons_ne_nil _ _, hrepl, fun _ _ _ h => ?_, fun _ _ _ h => ?_⟩
  · have hnone := ((peerName_takes hn').mp h).2.2 'Q' (by rw [hshape]; rfl)
    rw [word_Q] at hnone
    cases hnone
  · have hnone := ((peerName_takes hn').mp h).2.1 d (by rw [hshape]; rfl)
    rw [hword] at hnone
    cases hnone

theorem peerName_free (line : List Char) {n : String} (hn : IsPeer n) :
    (peerName cc.toCharClass n).Free (redactLine cc.toCharClass line) := by
  have hA : ∀ name ∈ ["QKD1", "QKD2"], Apart "<PEER_A>".toList name.toList := by decide
  have hB : ∀ name ∈ ["QKD1", "QKD2"], Apart "<PEER_B>".toList name.toList := by decide
  rw [redactLine_eq_drop 7]
  generalize ((rules cc.toCharClass).take 7).foldl applyRule line = x
  show Free _ ((peerName _ "QKD2").sub _ ((peerName _ "QKD1").sub _ x))
  rcases hn with rfl | rfl
  · refine (peerName_guarded (.inl rfl)).free_sub rfl (fun w _ hw => ?_)
      ((peerName_guarded (.inl rfl)).free_self rfl fun w _ hw => ?_)
    · exact hw ▸ peerName_clear (.inl rfl) (.inr rfl) (hB _ (by simp))
    · exact hw ▸ peerName_clear (.inl rfl) (.inl rfl) (hA _ (by simp))
  · exact (peerName_guarded (.inr rfl)).free_self rfl fun w _ hw =>
      hw ▸ peerName_clear (.inr rfl) (.inr rfl) (hB _ (by simp))

/-! ## Paths of keys -/

theorem consumes_atLeast_one {p : Char → Bool} : (atLeast p 1).Consumes before m after ↔
    m ≠ [] ∧ ∀ c ∈ m, p c = true := by
  constructor
  · intro h
    exact ⟨ne_nil_of_consumes rfl h, consumes_within (within_atLeast (fun _ hc => hc) 1) h⟩
  · rintro ⟨hne, hall⟩
    obtain ⟨c, m, rfl⟩ := List.exists_cons_of_ne_nil hne
    obtain ⟨hc, hall⟩ := List.forall_mem_cons.mp hall
    exact ⟨[c], m, rfl, consumes_times_one.mpr ⟨rfl, by simpa using hc⟩, hall⟩

theorem keyPath_takes : (keyPath cc).Consumes before m after ↔ ∃ path key,
    m = "projects/".toList ++ (path ++ ("/cryptoKeys/".toList ++ key)) ∧
      (path ≠ [] ∧ ∀ c ∈ path, notSpace cc.toCharClass c = true) ∧
      key ≠ [] ∧ ∀ c ∈ key, notSpace cc.toCharClass c = true := by
  constructor
  · rintro ⟨_, _, rfl, l₁, path, _, rfl, hpath, _, _, rfl, l₂, key, _, rfl, hkey, hnil⟩
    obtain rfl : _ = [] := hnil
    rw [consumes_lit.mp l₁, consumes_lit.mp l₂]
    exact ⟨path, key, by simp, consumes_atLeast_one.mp hpath, consumes_atLeast_one.mp hkey⟩
  · rintro ⟨path, key, rfl, hpath, hkey⟩
    exact ⟨_, _, rfl, consumes_lit.mpr rfl, path, _, rfl, consumes_atLeast_one.mpr hpath, _, _, rfl,
      consumes_lit.mpr rfl, key, [], (List.append_nil _).symm, consumes_atLeast_one.mpr hkey, rfl⟩

/-- Where no white space is written over, what begins with something else
began with something else. -/
theorem starts_notSpace (hrule : rule ∈ (rules cc.toCharClass).drop 2) {repl tail y : List Char}
    (h : Rewrites rule.1 repl tail before x y) {c : Char} (hc : y.head? = some c)
    (hword : notSpace cc.toCharClass c = true) :
    ∃ d, x.head? = some d ∧ notSpace cc.toCharClass d = true := by
  rcases h.first with hsame | ⟨m, x', _, rfl, _, hm, _⟩
  · exact ⟨c, hsame.trans hc, hword⟩
  · obtain ⟨d, m, rfl⟩ := List.exists_cons_of_ne_nil
      (ne_nil_of_consumes (rules_nullable _ (List.mem_of_mem_drop hrule)) hm)
    exact ⟨d, rfl, match_notSpace hrule hm d (List.mem_cons_self ..)⟩

/-- **A path that comes out went in**, at a place where the rule found
nothing. -/
theorem keyPath_found (hrule : rule ∈ (rules cc.toCharClass).drop 3)
    (htext : applyRule x rule = u ++ (m ++ after))
    (h : (keyPath cc).Consumes u.reverse m after) :
    ∃ u' m' after', x = u' ++ (m' ++ after') ∧ (keyPath cc).Consumes u'.reverse m' after' ∧
      ¬ rule.1.Consumes u'.reverse m' after' := by
  have hrule₂ : rule ∈ (rules cc.toCharClass).drop 2 := List.mem_cons_of_mem _ hrule
  have hprojects : ∀ text ∈ placeholders.drop 3, Apart text.toList "projects/".toList := by decide
  have hkeys : ∀ text ∈ placeholders.drop 3, Apart text.toList "/cryptoKeys/".toList := by decide
  have hmem := replacement_mem_drop cc.toCharClass hrule
  obtain ⟨path, key, rfl, ⟨hpath, hall⟩, hkey, hkeyAll⟩ := keyPath_takes.mp h
  have hrw := applyRule_rewrites rule x
  rw [htext, List.append_assoc, List.append_assoc, List.append_assoc] at hrw
  obtain ⟨u', v₁, rfl, _, hidle, hright⟩ := hrw.kept_of (by decide) (hprojects _ hmem)
  obtain ⟨path', v₂, rfl, hleft, _, hright⟩ := hright.kept_of (by decide) (hkeys _ hmem)
  have hne : path' ≠ [] := by
    rintro rfl
    exact hpath hleft.of_nil
  obtain ⟨c, key, rfl⟩ := List.exists_cons_of_ne_nil hkey
  obtain ⟨d, hd, hword⟩ := starts_notSpace hrule₂ hright rfl (hkeyAll c (List.mem_cons_self ..))
  obtain ⟨v₃, rfl⟩ := List.head?_eq_some_iff.mp hd
  have hsplit : "projects/".toList ++ (path' ++ ("/cryptoKeys/".toList ++ d :: v₃)) =
      "projects/".toList ++ (path' ++ ("/cryptoKeys/".toList ++ [d])) ++ v₃ := by
    simp only [List.append_assoc, List.cons_append, List.nil_append]
  refine ⟨u', _, v₃, by rw [hsplit], keyPath_takes.mpr ⟨path', [d], rfl, ⟨hne, ?_⟩,
    List.cons_ne_nil _ _, by simpa using hword⟩, ?_⟩
  · exact hleft.forall_mem_source (match_notSpace hrule₂) hall
  · rw [List.append_nil, List.append_nil] at hidle
    exact hidle.not_here (rules_nullable _ (List.mem_of_mem_drop hrule)) (by decide) hsplit

theorem rules_drop_three : (rules cc.toCharClass).drop 3 =
    (keyPath cc, "<EKM_KEY_NAME>") :: (rules cc.toCharClass).drop 4 := rfl

theorem keyPath_free (line : List Char) : (keyPath cc).Free (redactLine cc.toCharClass line) := by
  have hown : (keyPath cc, "<EKM_KEY_NAME>") ∈ (rules cc.toCharClass).drop 3 := by
    rw [rules_drop_three]
    exact List.mem_cons_self ..
  rw [redactLine_eq_drop 3, rules_drop_three, List.foldl_cons]
  refine List.foldlRecOn (motive := (keyPath cc).Free) _ applyRule ?_ fun x hx rule hrule => ?_
  · intro u m after htext h
    obtain ⟨_, _, _, _, hm, hnot⟩ := keyPath_found hown htext h
    exact hnot hm
  · intro u m after htext h
    have hlater : rule ∈ (rules cc.toCharClass).drop 3 := by
      rw [rules_drop_three]
      exact List.mem_cons_of_mem _ hrule
    obtain ⟨u', m', after', rfl, hm, _⟩ := keyPath_found hlater htext h
    exact hx u' m' after' rfl hm

/-! ## Key encryption keys -/

/-- The pattern of the rule for key encryption keys. -/
def kekId (cc : ReClass) : Regex :=
  seq (lit "KEKId: ") (atLeast (notSpace cc.toCharClass) 1)

/-- The text goes on with white space, if it goes on. -/
def Ends (cc : ReClass) (text : List Char) : Prop :=
  ∀ c ∈ text.head?, notSpace cc.toCharClass c = false

variable (cc) in
/-- The placeholder stands behind each announcement that announces
something. -/
def Sealed (text : List Char) : Prop :=
  ∀ u v, text = u ++ ("KEKId: ".toList ++ v) →
    Ends cc v ∨ ∃ v', v = "<KEK_ID>".toList ++ v' ∧ Ends cc v'

theorem kekId_takes : (kekId cc).Consumes before m after ↔
    ∃ token, m = "KEKId: ".toList ++ token ∧ token ≠ [] ∧
      ∀ c ∈ token, notSpace cc.toCharClass c = true := by
  constructor
  · rintro ⟨_, token, rfl, hlit, htoken⟩
    rw [consumes_lit.mp hlit]
    exact ⟨token, rfl, consumes_atLeast_one.mp htoken⟩
  · rintro ⟨token, rfl, htoken⟩
    exact ⟨_, token, rfl, consumes_lit.mpr rfl, consumes_atLeast_one.mpr htoken⟩

theorem kekId_first (h : (kekId cc).Consumes before m after) : m.head? = some 'K' := by
  obtain ⟨token, rfl, _⟩ := kekId_takes.mp h
  have hkek : "KEKId: ".toList = 'K' :: "EKId: ".toList := by decide
  rw [hkek]
  rfl

theorem ends_of_takeWhile (h : x.takeWhile (notSpace cc.toCharClass) = []) : Ends cc x := by
  intro c hc
  obtain ⟨x, rfl⟩ := List.head?_eq_some_iff.mp hc
  by_contra hword
  rw [Bool.not_eq_false] at hword
  rw [List.takeWhile_cons_of_pos hword] at h
  cases h

theorem takeWhile_of_ends (h : Ends cc x) : x.takeWhile (notSpace cc.toCharClass) = [] := by
  cases x with
  | nil => rfl
  | cons c x => exact List.takeWhile_cons_of_neg (by simp [h c rfl])

/-- The rule for key encryption keys writes over no white space either. -/
theorem kekId_ends {repl tail y : List Char} (h : Rewrites (kekId cc) repl tail before x y)
    (hx : Ends cc x) : Ends cc y := by
  rcases h.first with hsame | ⟨m, x', _, rfl, _, hm, _⟩
  · exact fun c hc => hx c (hsame.trans hc)
  · have hhead : (m ++ x').head? = some 'K' := by
      rw [List.head?_append, kekId_first hm]
      rfl
    have hK := hx 'K' hhead
    rw [notSpace_of_solid (by decide)] at hK
    cases hK

theorem later_ends (hrule : rule ∈ (rules cc.toCharClass).drop 2) {repl tail y : List Char}
    (h : Rewrites rule.1 repl tail before x y) (hx : Ends cc x) : Ends cc y := by
  intro c hc
  by_contra hword
  obtain ⟨d, hd, hnot⟩ := starts_notSpace hrule h hc (by simpa using hword)
  rw [hx d hd] at hnot
  cases hnot

theorem kek_eq : "KEKId: <KEK_ID>".toList = "KEKId: ".toList ++ "<KEK_ID>".toList := by decide

/-- What follows a match is white space. -/
theorem kekId_greedy (h : (kekId cc).matchLength before (m ++ x) = some m.length) : Ends cc x := by
  obtain ⟨token, rfl, _, hall⟩ := kekId_takes.mp (consumes_of_matchLength h)
  rw [List.append_assoc] at h
  have hlength := matchLength_greedy h
  rw [List.takeWhile_append_of_pos hall, List.length_append, List.length_append] at hlength
  exact ends_of_takeWhile (List.length_eq_zero_iff.mp (by omega))

/-- What is kept where the rule found nothing announces nothing. -/
theorem ends_of_kept
    (h : Rewrites (kekId cc) "KEKId: <KEK_ID>".toList [] ('K' :: before) x ("EKId: ".toList ++ v))
    (hno : ∀ n, (kekId cc).matchLength before ('K' :: x) ≠ some (n + 1)) : Ends cc v := by
  have hkek : "KEKId: ".toList = 'K' :: "EKId: ".toList := by decide
  obtain ⟨v₀, rfl, _, hv⟩ := h.keeps_of (w := "EKId: ".toList) (by decide)
  refine kekId_ends hv fun d hd => ?_
  by_contra hword
  obtain ⟨v₀, rfl⟩ := List.head?_eq_some_iff.mp hd
  have htakes : (kekId cc).Consumes before ("KEKId: ".toList ++ [d]) v₀ :=
    kekId_takes.mpr ⟨[d], rfl, List.cons_ne_nil _ _, by simpa using hword⟩
  obtain ⟨n, hn⟩ := matchLength_of_consumes rfl htakes
  rw [hkek] at hn
  exact hno n (by simpa using hn)

/-- No announcement begins inside the placeholder. -/
theorem announcement_outside {d : Char} {t y v : List Char}
    (hsplit : "KEKId: <KEK_ID>".toList = d :: u ++ t) (h : t ++ y = "KEKId: ".toList ++ v) :
    t = [] := by
  have hproper : ∀ t ∈ ("KEKId: <KEK_ID>".toList.drop 1).tails, t ≠ [] →
      ¬ t <+: "KEKId: ".toList ∧ ¬ "KEKId: ".toList <+: t := by decide
  by_contra hnil
  have hsuffix : t ∈ ("KEKId: <KEK_ID>".toList.drop 1).tails := by
    rw [List.mem_tails, hsplit]
    exact List.suffix_append u t
  have hboth : t <+: "KEKId: ".toList ++ v := h ▸ List.prefix_append t y
  rcases List.prefix_or_prefix_of_prefix hboth (List.prefix_append _ v) with hinside | hover
  · exact (hproper t hsuffix hnil).1 hinside
  · exact (hproper t hsuffix hnil).2 hover

theorem sealed_of_rewrites {y : List Char}
    (h : Rewrites (kekId cc) "KEKId: <KEK_ID>".toList [] before x y) : Sealed cc y := by
  have hkek : "KEKId: ".toList = 'K' :: "EKId: ".toList := by decide
  induction h with
  | nil =>
    intro u v hy
    obtain ⟨_, hv⟩ := List.append_eq_nil_iff.mp hy.symm
    cases (List.append_eq_nil_iff.mp hv).1
  | @keep before c x y hno h ih =>
    intro u v hy
    cases u with
    | cons d u => exact ih u v (List.cons.inj hy).2
    | nil =>
      rw [List.nil_append, hkek] at hy
      obtain ⟨rfl, rfl⟩ := List.cons.inj hy
      exact .inl (ends_of_kept h (by simpa using hno))
  | @replace before m x y hne hm h ih =>
    intro u v hy
    rw [List.append_nil] at hm
    cases u with
    | nil =>
      rw [List.nil_append, kek_eq, List.append_assoc] at hy
      exact .inr ⟨y, (List.append_cancel_left hy).symm, kekId_ends h (kekId_greedy hm)⟩
    | cons d u =>
      rcases List.append_eq_append_iff.mp hy with ⟨t, ht, rfl⟩ | ⟨t, ht, hv⟩
      · exact ih t v rfl
      · obtain rfl : t = [] := announcement_outside ht hv.symm
        exact ih [] v (by simpa using hv.symm)

/-- None of the last seven rules begins a match in the placeholder. -/
theorem kek_unmatched (hrule : rule ∈ (rules cc.toCharClass).drop 2) :
    Unmatched rule.1 before "<KEK_ID>".toList after := by
  rw [rules_drop_two] at hrule
  rcases List.mem_cons.mp hrule with rfl | hrule
  · refine unmatched_of_not_consumes fun w₁ w₂ m s hw hne hm _ hc => ?_
    have hg : 'g' ∉ "<KEK_ID>".toList := by decide
    have hhead := congrArg List.head? hm
    obtain ⟨m, rfl⟩ := List.head?_eq_some_iff.mp (objectPath_first hc)
    rw [List.head?_append_of_ne_nil _ hne] at hhead
    exact hg (hw ▸ List.mem_append_right w₁ (List.mem_of_mem_head? hhead))
  · have hclosed : Closed "<KEK_ID>".toList := by decide
    exact hclosed.unmatched hrule

/-- **The last seven rules leave the placeholder and what follows it.** -/
theorem sealed_applyRule (hrule : rule ∈ (rules cc.toCharClass).drop 2) (hx : Sealed cc x) :
    Sealed cc (applyRule x rule) := by
  intro u v hy
  have happart : ∀ text ∈ placeholders.drop 2, Apart text.toList "KEKId: ".toList := by decide
  have hrw := applyRule_rewrites rule x
  rw [hy] at hrw
  obtain ⟨u', v₀, rfl, _, _, hright⟩ := hrw.kept_of (by decide)
    (happart _ (replacement_mem_drop _ hrule))
  rcases hx u' v₀ rfl with hends | ⟨v₁, rfl, hends⟩
  · exact .inl (later_ends hrule hright hends)
  · obtain ⟨v₂, rfl, hrest⟩ := hright.stays fun w₁ w₂ m s hw hne hm _ =>
      (kek_unmatched hrule).not_consumes (rules_nullable _ (List.mem_of_mem_drop hrule)) hw hne hm
    exact .inr ⟨v₂, rfl, later_ends hrule hrest hends⟩

/-- In a sealed text the rule replaces the placeholder by itself. -/
theorem sub_of_sealed (hx : Sealed cc x) : (kekId cc).sub "KEKId: <KEK_ID>".toList x = x := by
  refine (sub_rewrites x).eq_self fun u m v htext _ hm => ?_
  obtain ⟨token, rfl, hne, hall⟩ := kekId_takes.mp (consumes_of_matchLength hm)
  rcases hx u (token ++ v) (by rw [htext, List.append_assoc]) with hends | ⟨v', hv, hends⟩
  · obtain ⟨c, token, rfl⟩ := List.exists_cons_of_ne_nil hne
    have hnone := hends c rfl
    rw [hall c (List.mem_cons_self ..)] at hnone
    cases hnone
  · -- token and placeholder both end where white space begins
    have hword : ∀ c ∈ "<KEK_ID>".toList, notSpace cc.toCharClass c = true := by
      have hsolid : "<KEK_ID>".toList.all solid = true := by decide
      exact fun c hc => notSpace_of_solid (List.all_eq_true.mp hsolid c hc)
    rw [List.append_nil, List.append_nil, List.append_assoc, hv] at hm
    have hlength := matchLength_greedy hm
    rw [List.takeWhile_append_of_pos hword, takeWhile_of_ends hends, List.append_nil,
      List.length_append] at hlength
    obtain ⟨rfl, _⟩ := List.append_inj hv (by omega)
    exact kek_eq.symm

theorem redactLine_sealed (line : List Char) : Sealed cc (redactLine cc.toCharClass line) := by
  rw [redactLine_eq_drop 2]
  refine List.foldlRecOn (motive := Sealed cc) _ applyRule ?_ fun x hx rule hrule =>
    sealed_applyRule hrule hx
  exact sealed_of_rewrites (sub_rewrites (uuid.sub "<KEY_ID>".toList line))

/-! ## Keys of tunnels -/

theorem wgKey_guarded : wgKey.Guarded padded fun m =>
    ∃ key, m = key ++ ['='] ∧ key.length = 43 ∧ ∀ c ∈ key, base64 c = true :=
  fun _ _ _ => wgKey_takes

/-- The rule for keys leaves none that it finds. -/
theorem wgKey_free_self (x : List Char) : wgKey.Free (applyRule x (wgKey, "<PUBKEY>")) := by
  have hforeign : Foreign padded '=' "<PUBKEY>".toList := by decide
  refine wgKey_guarded.free_self rfl fun w _ ⟨key, hm, hlen, hall⟩ => ?_
  subst hm
  obtain ⟨c, key, rfl⟩ := List.exists_cons_of_length_pos (l := key) (by omega)
  have hpadded : ∀ d ∈ c :: key ++ ['='], padded d = true := by
    intro d hd
    rcases List.mem_append.mp hd with hd | hd
    · rw [padded, hall d hd, Bool.true_or]
    · rw [List.mem_singleton.mp hd]
      rfl
  refine ⟨List.cons_ne_nil _ _, hforeign.apart hpadded (by simp), fun _ _ _ h => ?_, fun _ _ _ h => ?_⟩
  -- a key next to a match would continue it
  · have hnone := (wgKey_takes.mp h).2.1 c rfl
    rw [hpadded c (List.mem_cons_self ..)] at hnone
    cases hnone
  · have hnone := (wgKey_takes.mp h).1 '=' (by simp)
    cases hnone

/-! ## Lines without objects and names -/

/-- What has no part in a placeholder is not written. -/
theorem lacks_applyRule (hne : m ≠ []) (hm : Apart rule.2.toList m) (hx : ¬ m <:+: x) :
    ¬ m <:+: applyRule x rule := by
  rintro ⟨u, v, hy⟩
  have hrw := applyRule_rewrites rule x
  rw [← hy, List.append_assoc] at hrw
  obtain ⟨u', v', rfl, _⟩ := hrw.kept_of hne hm
  exact hx ⟨u', v', List.append_assoc _ _ _⟩

theorem name_lacks {n : String} (hn : IsPeer n) {rs : List (Regex × String)}
    (hrs : rs ⊆ rules cc.toCharClass) (hx : ¬ n.toList <:+: x) :
    ¬ n.toList <:+: rs.foldl applyRule x := by
  have happart : ∀ name ∈ ["QKD1", "QKD2"], ∀ text ∈ placeholders,
      Apart text.toList name.toList := by decide
  have hname : n ∈ ["QKD1", "QKD2"] := by simpa [IsPeer] using hn
  have hne : n.toList ≠ [] := by
    obtain ⟨d, hshape, _⟩ := hn.shape
    rw [hshape]
    exact List.cons_ne_nil _ _
  exact List.foldlRecOn (motive := fun y => ¬ n.toList <:+: y) rs applyRule hx fun y hy rule hrule =>
    lacks_applyRule hne (happart n hname _ (replacement_mem_drop _ (n := 0) (hrs hrule))) hy

theorem objectPath_free (hx : ¬ "gs://".toList <:+: x) : (objectPath cc.toCharClass).Free x := by
  rintro u m after rfl h
  obtain ⟨bucket, object, rfl, _⟩ := objectPath_takes h
  exact hx ⟨u, _, List.append_assoc _ _ _⟩

/-- A line that names no object comes out without one. -/
theorem object_lacks {line : List Char} (hline : ¬ "gs://".toList <:+: line) :
    ¬ "gs://".toList <:+: redactLine cc.toCharClass line := by
  have hne : "gs://".toList ≠ [] := by decide
  have happart : ∀ text ∈ placeholders, text ≠ "gs://<BUCKET>/<OBJECT_ID>_" →
      Apart text.toList "gs://".toList := by decide
  refine List.foldlRecOn (motive := fun y => ¬ "gs://".toList <:+: y) _ applyRule hline
    fun y hy rule hrule => ?_
  by_cases hown : rule.2 = "gs://<BUCKET>/<OBJECT_ID>_"
  · have hobject : rule = objectRule cc.toCharClass := by
      simp only [rules, List.mem_cons, List.not_mem_nil, or_false] at hrule
      rcases hrule with rfl | rfl | rfl | rfl | rfl | rfl | rfl | rfl | rfl
      case inr.inr.inl => rfl
      all_goals simp at hown
    have hsame : applyRule y rule = y := by
      rw [hobject]
      exact sub_of_free (objectPath_free hy)
    rwa [hsame]
  · exact lacks_applyRule hne (happart _ (replacement_mem_drop _ (n := 0) hrule) hown) hy

theorem peerName_free_of_lacks {n : String} (hn : IsPeer n) (hx : ¬ n.toList <:+: x) :
    (peerName cc.toCharClass n).Free x := by
  rintro u m after rfl h
  rw [peerName_takes hn] at h
  exact hx ⟨u, after, by rw [h.1, List.append_assoc]⟩

/-- Where no name is replaced, nothing stands behind the rule for keys. -/
theorem wgKey_free {line : List Char} (hline : ∀ n, IsPeer n → ¬ n.toList <:+: line) :
    wgKey.Free (redactLine cc.toCharClass line) := by
  have hkeys : ∀ x, ((rules cc.toCharClass).take 7).foldl applyRule x =
      applyRule (((rules cc.toCharClass).take 6).foldl applyRule x) (wgKey, "<PUBKEY>") :=
    fun _ => rfl
  rw [redactLine_eq_drop 7, foldl_fixed]
  · rw [hkeys]
    exact wgKey_free_self _
  · intro rule hrule
    have hlacks := fun n hn => name_lacks hn (List.take_subset 7 (rules cc.toCharClass)) (hline n hn)
    have hcases : rule = (peerName cc.toCharClass "QKD1", "<PEER_A>") ∨
        rule = (peerName cc.toCharClass "QKD2", "<PEER_B>") := by simpa [rules] using hrule
    rcases hcases with rfl | rfl
    · exact sub_of_free (peerName_free_of_lacks (.inl rfl) (hlacks _ (.inl rfl)))
    · exact sub_of_free (peerName_free_of_lacks (.inr rfl) (hlacks _ (.inr rfl)))

/-! ## The second pass -/

/-- What the three rules write that may find something in a redacted line. -/
def reopening : List String := ["gs://<BUCKET>/<OBJECT_ID>_", "<PRIVATE_IP>", "<PUBKEY>"]

/-- Four of the last seven rules find nothing. -/
theorem settled_free (line : List Char) (hrule : rule ∈ (rules cc.toCharClass).drop 2)
    (h : rule.2 ∉ reopening) : rule.1.Free (redactLine cc.toCharClass line) := by
  rw [rules_drop_two] at hrule
  rcases List.mem_cons.mp hrule with rfl | hrule
  · exact absurd (List.mem_cons_self ..) h
  rcases later_cases hrule with ⟨_, heq⟩ | ⟨_, heq⟩ | ⟨hrepl, _⟩ | ⟨hrepl, _⟩ | ⟨_, heq⟩ | ⟨_, heq⟩
  · exact heq ▸ keyPath_free line
  · exact heq ▸ email_free line
  · exact absurd (by rw [hrepl]; simp [reopening]) h
  · exact absurd (by rw [hrepl]; simp [reopening]) h
  · exact heq ▸ peerName_free line (.inl rfl)
  · exact heq ▸ peerName_free line (.inr rfl)

theorem rules_take_two : (rules cc.toCharClass).take 2 =
    [(uuid, "<KEY_ID>"), (kekId cc, "KEKId: <KEK_ID>")] := rfl

theorem not_reopening (hrule : rule ∈ (rules cc.toCharClass).take 2) : rule.2 ∉ reopening := by
  rw [rules_take_two] at hrule
  rcases List.mem_pair.mp hrule with rfl | rfl <;> simp [reopening]

/-- **Six rules leave a redacted line as it is.** -/
theorem settled (line : List Char) (hrule : rule ∈ rules cc.toCharClass) (h : rule.2 ∉ reopening) :
    applyRule (redactLine cc.toCharClass line) rule = redactLine cc.toCharClass line := by
  rw [← List.take_append_drop 2 (rules cc.toCharClass)] at hrule
  rcases List.mem_append.mp hrule with hrule | hrule
  · rw [rules_take_two] at hrule
    rcases List.mem_pair.mp hrule with rfl | rfl
    · exact sub_of_free (uuid_free line)
    · exact sub_of_sealed (redactLine_sealed line)
  · exact sub_of_free (settled_free line hrule h)

/-- The second pass changes nothing exactly where the three rules find
nothing. -/
theorem twice_iff (line : List Char) :
    redactLine cc.toCharClass (redactLine cc.toCharClass line) = redactLine cc.toCharClass line ↔
      ∀ rule ∈ rules cc.toCharClass, rule.2 ∈ reopening →
        rule.1.search (redactLine cc.toCharClass line) = false := by
  have hdrop : redactLine cc.toCharClass (redactLine cc.toCharClass line) =
      ((rules cc.toCharClass).drop 2).foldl applyRule (redactLine cc.toCharClass line) := by
    have hsame : ((rules cc.toCharClass).take 2).foldl applyRule (redactLine cc.toCharClass line) =
        redactLine cc.toCharClass line :=
      foldl_fixed fun rule hrule =>
        settled line (List.mem_of_mem_take hrule) (not_reopening hrule)
    rw [redactLine_eq_drop 2 (redactLine cc.toCharClass line), hsame]
  rw [hdrop, later_fixed_iff]
  constructor
  · intro hfree rule hrule hrepl
    rw [← List.take_append_drop 2 (rules cc.toCharClass)] at hrule
    rcases List.mem_append.mp hrule with hrule | hrule
    · exact absurd hrepl (not_reopening hrule)
    · exact search_eq_false_iff.mpr (hfree rule hrule)
  · intro hnone rule hrule
    by_cases hrepl : rule.2 ∈ reopening
    · exact search_eq_false_iff.mp (hnone rule (List.mem_of_mem_drop hrule) hrepl)
    · exact settled_free line hrule hrepl

/-- **Redacting again**: six rules leave a redacted line as it is, the
others change it exactly if they find something, and they find nothing in a
line of ASCII that names no object and no peer. -/
theorem redact_twice (cc : ReClass) (line : List Char) :
    (∀ rule ∈ rules cc.toCharClass, rule.2 ∉ reopening →
      applyRule (redactLine cc.toCharClass line) rule = redactLine cc.toCharClass line) ∧
    (redactLine cc.toCharClass (redactLine cc.toCharClass line) = redactLine cc.toCharClass line ↔
      ∀ rule ∈ rules cc.toCharClass, rule.2 ∈ reopening →
        rule.1.search (redactLine cc.toCharClass line) = false) ∧
    (Ascii line → (∀ text ∈ ["gs://", "QKD1", "QKD2"], ¬ text.toList <:+: line) →
      redactLine cc.toCharClass (redactLine cc.toCharClass line) =
        redactLine cc.toCharClass line) := by
  refine ⟨fun rule hrule => settled line hrule, twice_iff line, fun hascii hlacks => ?_⟩
  have hnames : ∀ n, IsPeer n → ¬ n.toList <:+: line := by
    rintro n (rfl | rfl)
    · exact hlacks "QKD1" (by simp)
    · exact hlacks "QKD2" (by simp)
  refine (twice_iff line).mpr fun rule hrule hrepl => search_eq_false_iff.mpr ?_
  simp only [rules, List.mem_cons, List.not_mem_nil, or_false] at hrule
  rcases hrule with rfl | rfl | rfl | rfl | rfl | rfl | rfl | rfl | rfl
  case inr.inr.inl => exact objectPath_free (object_lacks (hlacks "gs://" (by simp)))
  case inr.inr.inr.inr.inr.inl => exact ipv4_free hascii
  case inr.inr.inr.inr.inr.inr.inl => exact wgKey_free hnames
  all_goals exact absurd hrepl (by simp [reopening])

end

/-- Nothing but ASCII. -/
def ReClass.ascii : ReClass where
  toCharClass := .ascii
  space_ascii := fun _ _ => rfl
  space_word := by
    intro c h
    simp only [CharClass.ascii, decide_eq_false_iff_not] at h ⊢
    intro hspace
    rcases Bool.or_eq_true_iff.mp h with h | h
    · have hle := (alphanum_range h).1
      simp only [List.mem_cons, List.not_mem_nil, or_false] at hspace
      omega
    · rw [beq_iff_eq.mp h] at hspace
      exact absurd hspace (by decide)

theorem redact_twice_mail :
    redactLine .ascii (redactLine .ascii "KEKId: v1 for alice@example.com".toList) =
      redactLine .ascii "KEKId: v1 for alice@example.com".toList := by
  have hascii : Ascii "KEKId: v1 for alice@example.com".toList :=
    List.all_iff_forall_prop.mp (by decide)
  exact (redact_twice .ascii _).2.2 hascii (by decide)

/-- The placeholder of an object is an object path itself, up to its first
underscore. -/
theorem redact_twice_moves :
    ¬ ∀ line, redactLine .ascii (redactLine .ascii line) = redactLine .ascii line := by
  intro h
  have hobject : redactLine .ascii (redactLine .ascii "gs://b/a_f".toList) ≠
      redactLine .ascii "gs://b/a_f".toList := by decide +kernel
  exact hobject (h _)

end QkdEkm.Scripts
