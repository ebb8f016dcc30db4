import QkdEkm.Scripts.Clean
import QkdEkm.Scripts.Timestamp

/-!
# Prefix — what stands in front of a message

No rule finds a match that begins in the timestamp or the component of a
log line: the space in front of the message ends every match that could,
and what such a match has in it they lack. The space is also what the
rules that look back take for the start of a text.
-/

namespace QkdEkm.Scripts

open QkdEkm.Lib QkdEkm.Lib.Regex

/-- What stands in front of a message. -/
def logPrefix (ts component : List Char) : List Char := ts ++ ' ' :: component ++ [':', ' ']

section

variable {cc : CharClass} {ts component : List Char} {x m s w₁ w₂ before : List Char}

/-! ## The characters in front -/

theorem digit_not_alpha {c : Char} (h : c.isDigit = true) : c.isAlpha = false := by
  have h9 : '9'.toNat = 57 := rfl
  rw [Char.isDigit_iff_toNat] at h
  rw [Bool.eq_false_iff]
  intro halpha
  have hle := (alpha_range halpha).1
  omega

theorem IsTimestamp.not_alpha (h : IsTimestamp .ascii ts) : ∀ c ∈ ts, c.isAlpha = false := by
  intro c hc
  rcases h.chars c hc with hd | hd
  · exact digit_not_alpha hd
  · have hnone : ∀ d ∈ ['-', ' ', ':', '.'], d.isAlpha = false :=
      List.all_iff_forall_prop.mp (by decide)
    exact hnone c hd

/-- Letters that something else follows are read in one way. -/
theorem letters_unique {a b y : List Char} {c d : Char} (ha : ∀ e ∈ a, e.isAlpha = true)
    (hb : ∀ e ∈ b, e.isAlpha = true) (hc : c.isAlpha = false) (hd : d.isAlpha = false)
    (h : a ++ c :: x = b ++ d :: y) : a = b ∧ c = d ∧ x = y := by
  have htake := congrArg (List.takeWhile Char.isAlpha) h
  rw [List.takeWhile_append_of_pos ha, List.takeWhile_append_of_pos hb,
    List.takeWhile_cons_of_neg (by simp [hc]), List.takeWhile_cons_of_neg (by simp [hd]),
    List.append_nil, List.append_nil] at htake
  subst htake
  exact ⟨rfl, List.cons.inj (List.append_cancel_left h)⟩

/-- Where a letter stands in front, the rest of the component begins. -/
theorem letter_in_front (hts : IsTimestamp .ascii ts) (h : logPrefix ts component = w₁ ++ w₂)
    {c : Char} (hc : w₂.head? = some c) (halpha : c.isAlpha = true) :
    ∃ c₁ c₂, component = c₁ ++ c₂ ∧ w₂ = c₂ ++ [':', ' '] := by
  have hmem : c ∈ w₂ := List.mem_of_mem_head? hc
  have hnot : ∀ {t : List Char}, (∀ d ∈ t, d.isAlpha = false) → c ∈ t → False := by
    intro t ht hct
    rw [ht c hct] at halpha
    cases halpha
  have h : ts ++ [' '] ++ (component ++ [':', ' ']) = w₁ ++ w₂ := by
    rw [← h, logPrefix]
    simp
  have hfront : ∀ d ∈ ts ++ [' '], d.isAlpha = false := by
    intro d hd
    rcases List.mem_append.mp hd with hd | hd
    · exact hts.not_alpha d hd
    · rw [List.mem_singleton.mp hd]
      rfl
  rcases List.append_eq_append_iff.mp h with ⟨t, _, ht⟩ | ⟨t, ht, hw₂⟩
  · rcases List.append_eq_append_iff.mp ht with ⟨t', _, hw₂⟩ | ⟨c₂, rfl, rfl⟩
    · -- the match would begin behind the component
      refine (hnot (t := [':', ' ']) (List.all_iff_forall_prop.mp (by decide)) ?_).elim
      rw [hw₂]
      exact List.mem_append_right _ hmem
    · exact ⟨t, c₂, rfl, rfl⟩
  · cases t with
    | nil => exact ⟨[], component, rfl, hw₂⟩
    | cons d t =>
      rw [hw₂] at hc
      cases hc
      exact (hnot hfront (by rw [ht]; simp)).elim

theorem logPrefix_last (ts component : List Char) :
    (logPrefix ts component).getLast? = some ' ' := by
  rw [logPrefix, List.getLast?_append_of_ne_nil _ (by simp)]
  rfl

/-- No match without a space begins in front that has more of a character
than there is in front. -/
theorem unmatched_of_count {r : Regex} {b : Char}
    (hspace : ∀ {before m after}, r.Consumes before m after → ' ' ∉ m)
    (hcount : ∀ {before m after}, r.Consumes before m after →
      (logPrefix ts component).count b < m.count b) :
    Unmatched r [] (logPrefix ts component) x := by
  refine unmatched_of_not_consumes fun w₁ w₂ m s hw hne hm _ hc => ?_
  have hlast : w₂.getLast? = some ' ' := by
    rw [← logPrefix_last ts component, hw, List.getLast?_append_of_ne_nil _ hne]
  obtain ⟨t, ht, _⟩ := stops hlast hm (hspace hc)
  have hle : m.count b ≤ (logPrefix ts component).count b := by
    rw [hw, ht]
    exact (List.IsInfix.sublist ⟨w₁, t ++ [' '], by simp⟩).count_le b
  exact absurd (hcount hc) (by omega)

/-- No match begins in front with letters that something else follows,
unless the component ends in these letters. -/
theorem unmatched_of_letters (hts : IsTimestamp .ascii ts)
    (hletters : ∀ c ∈ component, c.isAlpha = true) {r : Regex} (word : List Char) {d : Char}
    (hne : word ≠ []) (hword : word.all Char.isAlpha = true) (hd : d.isAlpha = false)
    (hstart : ∀ {before m after}, r.Consumes before m after → ∃ rest, m = word ++ d :: rest ∧
      (d = ':' → word <:+ component → ∃ e ∈ rest.head?, e ≠ ' ')) :
    Unmatched r [] (logPrefix ts component) x := by
  refine unmatched_of_not_consumes fun w₁ w₂ m s hw hne₂ hm _ hc => ?_
  obtain ⟨rest, rfl, hrest⟩ := hstart hc
  obtain ⟨a, word', rfl⟩ := List.exists_cons_of_ne_nil hne
  have hhead : w₂.head? = some a := by
    have hhead := congrArg List.head? hm
    rwa [List.head?_append_of_ne_nil _ hne₂] at hhead
  obtain ⟨c₁, c₂, rfl, rfl⟩ := letter_in_front hts hw hhead
    (List.all_eq_true.mp hword a (List.mem_cons_self ..))
  have hsame : c₂ ++ ':' :: ' ' :: x = a :: word' ++ d :: (rest ++ s) := by simpa using hm
  obtain ⟨rfl, rfl, hspace⟩ := letters_unique (fun c hc => hletters c (List.mem_append_right _ hc))
    (List.all_eq_true.mp hword) rfl hd hsame
  obtain ⟨e, he, hnot⟩ := hrest rfl (List.suffix_append ..)
  obtain ⟨rest, rfl⟩ := List.head?_eq_some_iff.mp he
  exact hnot (List.cons.inj hspace).1.symm

/-! ## No rule begins in front -/

/-- The seven numbers of a timestamp. -/
theorem IsTimestamp.shape (h : IsTimestamp cc ts) : ∃ year month day hour minute second milli,
    ts = year ++ '-' :: month ++ '-' :: day ++ ' ' :: hour ++ ':' :: minute ++ ':' :: second ++
      '.' :: milli ∧ ∀ g ∈ [year, month, day, hour, minute, second, milli],
        ∀ c ∈ g, cc.digit c = true := by
  obtain ⟨year, _, rfl, h₁, _, _, rfl, l₁, month, _, rfl, h₂, _, _, rfl, l₂, day, _, rfl, h₃, _, _,
    rfl, l₃, hour, _, rfl, h₄, _, _, rfl, l₄, minute, _, rfl, h₅, _, _, rfl, l₅, second, _, rfl, h₆,
    _, _, rfl, l₆, milli, _, rfl, h₇, hnil⟩ := h
  obtain rfl : _ = [] := hnil
  rw [consumes_lit.mp l₁, consumes_lit.mp l₂, consumes_lit.mp l₃, consumes_lit.mp l₄,
    consumes_lit.mp l₅, consumes_lit.mp l₆]
  refine ⟨year, month, day, hour, minute, second, milli, by simp, ?_⟩
  simp only [List.forall_mem_cons, List.not_mem_nil, false_implies, implies_true, and_true]
  exact ⟨(consumes_times_one.mp h₁).2, (consumes_times_one.mp h₂).2, (consumes_times_one.mp h₃).2,
    (consumes_times_one.mp h₄).2, (consumes_times_one.mp h₅).2, (consumes_times_one.mp h₆).2,
    (consumes_times_one.mp h₇).2⟩

theorem count_logPrefix (hts : IsTimestamp .ascii ts)
    (hletters : ∀ c ∈ component, c.isAlpha = true) {b : Char} (hdigit : b.isDigit = false)
    (halpha : b.isAlpha = false) :
    (logPrefix ts component).count b = "-- ::. : ".toList.count b := by
  obtain ⟨year, month, day, hour, minute, second, milli, rfl, hall⟩ := hts.shape
  have hnone : ∀ g ∈ [year, month, day, hour, minute, second, milli], g.count b = 0 := by
    intro g hg
    refine List.count_eq_zero.mpr fun hmem => ?_
    rw [show b.isDigit = true from hall g hg b hmem] at hdigit
    cases hdigit
  have hcomponent : component.count b = 0 := by
    refine List.count_eq_zero.mpr fun hmem => ?_
    rw [hletters b hmem] at halpha
    cases halpha
  simp only [List.forall_mem_cons, List.not_mem_nil, false_implies, implies_true, and_true] at hnone
  obtain ⟨h₁, h₂, h₃, h₄, h₅, h₆, h₇⟩ := hnone
  simp [logPrefix, List.count_append, List.count_cons, h₁, h₂, h₃, h₄, h₅, h₆, h₇, hcomponent]

theorem uuid_count (h : uuid.Consumes before m s) : 4 ≤ m.count '-' := by
  obtain ⟨g₁, _, rfl, _, _, _, rfl, l₁, g₂, _, rfl, _, _, _, rfl, l₂, g₃, _, rfl, _, _, _, rfl, l₃,
    g₄, _, rfl, _, _, _, rfl, l₄, _⟩ := h
  rw [consumes_lit.mp l₁, consumes_lit.mp l₂, consumes_lit.mp l₃, consumes_lit.mp l₄]
  simp only [List.count_append]
  have hdash : "-".toList.count '-' = 1 := by decide
  omega

/-- A character that is no letter and no digit, and not one of the
separators, is not in front. -/
theorem count_logPrefix_eq_zero (hts : IsTimestamp .ascii ts)
    (hletters : ∀ c ∈ component, c.isAlpha = true) {b : Char} (hdigit : b.isDigit = false)
    (halpha : b.isAlpha = false) (hb : b ∉ "-- ::. : ".toList) :
    (logPrefix ts component).count b = 0 := by
  rw [count_logPrefix hts hletters hdigit halpha, List.count_eq_zero]
  exact hb

theorem uuid_unmatched (hts : IsTimestamp .ascii ts)
    (hletters : ∀ c ∈ component, c.isAlpha = true) :
    Unmatched uuid [] (logPrefix ts component) x := by
  refine unmatched_of_count (b := '-') (fun h hspace => ?_) fun h => ?_
  · exact absurd (uuid_chars h ' ' hspace) (by decide)
  · have hfour := uuid_count h
    rw [count_logPrefix hts hletters rfl rfl]
    exact Nat.lt_of_lt_of_le (by decide) hfour

theorem email_unmatched (hts : IsTimestamp .ascii ts)
    (hletters : ∀ c ∈ component, c.isAlpha = true) :
    Unmatched email [] (logPrefix ts component) x := by
  refine unmatched_of_count (b := '@') (fun h hspace => ?_) fun h => ?_
  · exact absurd (email_chars h ' ' hspace) (by decide)
  · rw [count_logPrefix_eq_zero hts hletters rfl rfl (by decide)]
    exact List.count_pos_iff.mpr (email_at h)

theorem ipv4_unmatched (hts : IsTimestamp .ascii ts)
    (hletters : ∀ c ∈ component, c.isAlpha = true) :
    Unmatched (ipv4 cc) [] (logPrefix ts component) x := by
  refine unmatched_of_count (b := '.') (fun h hspace => ?_) fun h => ?_
  · rcases ipv4_chars h ' ' hspace with hd | hd | hd
    · rw [cc.digit_ascii ' ' (by decide)] at hd
      cases hd
    · cases hd
    · cases hd
  · rw [count_logPrefix hts hletters rfl rfl, ipv4_count h]
    decide

theorem wgKey_unmatched (hts : IsTimestamp .ascii ts)
    (hletters : ∀ c ∈ component, c.isAlpha = true) :
    Unmatched wgKey [] (logPrefix ts component) x := by
  refine unmatched_of_count (b := '=') (fun h => ?_) fun h => ?_
  · obtain ⟨_, _, key, rfl, _, hall⟩ := wgKey_takes.mp h
    exact not_in_key hall (by decide)
  · obtain ⟨_, _, key, rfl, _, _⟩ := wgKey_takes.mp h
    rw [count_logPrefix_eq_zero hts hletters rfl rfl (by decide)]
    exact List.count_pos_iff.mpr (by simp)

theorem peerName_unmatched (hts : IsTimestamp .ascii ts)
    (hletters : ∀ c ∈ component, c.isAlpha = true) {n : String} (hn : IsPeer n) :
    Unmatched (peerName cc n) [] (logPrefix ts component) x := by
  obtain ⟨d, hname, hd⟩ := hn.shape
  refine unmatched_of_letters hts hletters ['Q', 'K', 'D'] (d := d) (by simp) (by decide)
    (by rcases hd with rfl | rfl <;> rfl) fun h => ⟨[], ?_, ?_⟩
  · rw [((peerName_takes hn).mp h).1, hname]
    rfl
  · rintro rfl
    rcases hd with hd | hd <;> cases hd

/-- **No match of a rule begins in front of a message.** -/
theorem rules_unmatched (hts : IsTimestamp .ascii ts)
    (hletters : ∀ c ∈ component, c.isAlpha = true) (hkek : ¬ "KEKId".toList <:+ component)
    {rule : Regex × String} (hrule : rule ∈ rules cc) :
    Unmatched rule.1 [] (logPrefix ts component) x := by
  simp only [rules, List.mem_cons, List.not_mem_nil, or_false] at hrule
  rcases hrule with rfl | rfl | rfl | rfl | rfl | rfl | rfl | rfl | rfl
  · exact uuid_unmatched hts hletters
  · refine unmatched_of_letters hts hletters "KEKId".toList (d := ':') (by decide)
      (by decide) rfl fun h => ?_
    obtain ⟨_, rest, rfl, hlit, _⟩ := h
    rw [consumes_lit.mp hlit]
    exact ⟨' ' :: rest, rfl, fun _ hsuffix => absurd hsuffix hkek⟩
  · refine unmatched_of_letters hts hletters "gs".toList (d := ':') (by decide)
      (by decide) rfl fun h => ?_
    obtain ⟨_, rest, rfl, hlit, _⟩ := h
    rw [consumes_lit.mp hlit]
    exact ⟨'/' :: '/' :: rest, rfl, fun _ _ => ⟨'/', rfl, by decide⟩⟩
  · refine unmatched_of_letters hts hletters "projects".toList (d := '/') (by decide)
      (by decide) rfl fun h => ?_
    obtain ⟨_, rest, rfl, hlit, _⟩ := h
    rw [consumes_lit.mp hlit]
    exact ⟨rest, rfl, fun hd => absurd hd (by decide)⟩
  · exact email_unmatched hts hletters
  · exact ipv4_unmatched hts hletters
  · exact wgKey_unmatched hts hletters
  · exact peerName_unmatched hts hletters (.inl rfl)
  · exact peerName_unmatched hts hletters (.inr rfl)

/-- A space is as good as the start of a line. -/
theorem rules_alike {rule : Regex × String} (hrule : rule ∈ rules cc) :
    rule.1.Alike [] (logPrefix ts component).reverse := by
  have hlooks : (rules cc).flatMap (fun rule => rule.1.behind) =
      [wordOrPeriod cc, padded, cc.word, cc.word, cc.word, cc.word] := rfl
  have hword : cc.word ' ' = false := by
    rw [cc.word_ascii ' ' (by decide)]
    rfl
  intro p hp
  have hp : p ∈ [wordOrPeriod cc, padded, cc.word, cc.word, cc.word, cc.word] := by
    rw [← hlooks]
    exact List.mem_flatMap.mpr ⟨rule, hrule, hp⟩
  have hspace : p ' ' = false := by
    simp only [List.mem_cons, List.not_mem_nil, or_false, or_self] at hp
    rcases hp with rfl | rfl | rfl
    · rw [wordOrPeriod, hword]
      rfl
    · rfl
    · exact hword
  rw [List.head?_reverse, logPrefix_last]
  exact hspace.symm

variable (cc) in
/-- **Redaction leaves the timestamp and the component alone**, and they
leave it alone. -/
theorem redactLine_message (hts : IsTimestamp .ascii ts)
    (hletters : ∀ c ∈ component, c.isAlpha = true) (hkek : ¬ "KEKId".toList <:+ component)
    (message : List Char) :
    redactLine cc (logPrefix ts component ++ message) =
      logPrefix ts component ++ redactLine cc message := by
  have hall : ∀ rs ⊆ rules cc, ∀ x, rs.foldl applyRule (logPrefix ts component ++ x) =
      logPrefix ts component ++ rs.foldl applyRule x := by
    intro rs
    induction rs with
    | nil => exact fun _ _ => rfl
    | cons rule rs ih =>
      intro hrs x
      obtain ⟨hrule, hrs⟩ := List.cons_subset.mp hrs
      rw [List.foldl_cons, List.foldl_cons, ← ih hrs]
      exact congrArg (rs.foldl applyRule)
        (sub_append (rules_unmatched hts hletters hkek hrule) (rules_alike hrule))
  exact hall _ (List.Subset.refl _) message

theorem redactLine_message_server :
    redactLine .ascii (logPrefix "2025-04-12 18:38:53.858".toList "VPNServer".toList ++
        "1.2.3.4 is QKD2".toList) =
      logPrefix "2025-04-12 18:38:53.858".toList "VPNServer".toList ++
        redactLine .ascii "1.2.3.4 is QKD2".toList := by
  have hsame : timestampOf .ascii "2025-04-12 18:38:53.858".toList =
      "2025-04-12 18:38:53.858".toList := by decide +kernel
  have hts : IsTimestamp .ascii (timestampOf .ascii "2025-04-12 18:38:53.858".toList) :=
    ((timestampOf_cases _).resolve_left (by rw [hsame]; decide)).1
  exact redactLine_message .ascii (hsame ▸ hts) (List.all_iff_forall_prop.mp (by decide))
    (by decide) _

end

end QkdEkm.Scripts
