import Mathlib.Data.Bool.AllAny
import Mathlib.Data.List.Induction
import QkdEkm.Lib.Rewriting
import QkdEkm.Scripts.Transcript

/-!
# Clean — what redaction leaves of an identifier

Every rule for a key id, a mail address or a network address leaves none
that its own pattern finds, and no later rule brings one back: what the
later rules write is of other characters, and where they write it the
neighbours of an address stay what they were.
-/

namespace QkdEkm.Scripts

open QkdEkm.Lib QkdEkm.Lib.Regex

section

variable {cc : CharClass} {before m after w x : List Char}

/-! ## The characters of an identifier -/

/-- The letters are ASCII. -/
theorem alpha_range {c : Char} (h : c.isAlpha = true) : 65 ≤ c.toNat ∧ c.toNat < 128 := by
  have hrange : ∀ lo hi : Char, 65 ≤ lo.toNat → hi.toNat < 128 → lo.val ≤ c.val →
      c.val ≤ hi.val → 65 ≤ c.toNat ∧ c.toNat < 128 := fun _ _ h65 h128 hlo hhi =>
    ⟨Nat.le_trans h65 hlo, Nat.lt_of_le_of_lt hhi h128⟩
  rcases Bool.or_eq_true_iff.mp h with hupper | hlower
  · obtain ⟨hlo, hhi⟩ := of_decide_eq_true hupper
    exact hrange 'A' 'Z' (by decide) (by decide) hlo hhi
  · obtain ⟨hlo, hhi⟩ := Bool.and_eq_true_iff.mp hlower
    exact hrange 'a' 'z' (by decide) (by decide) (of_decide_eq_true hlo) (of_decide_eq_true hhi)

def uuidChar (c : Char) : Bool := hex c || c == '-'

def emailChar (c : Char) : Bool := mailbox c || c == '@'

def addressChar (c : Char) : Bool := c.isDigit || c == '.' || c == '/'

theorem uuid_chars (h : uuid.Consumes before m after) : ∀ c ∈ m, uuidChar c = true := by
  have hhex : ∀ n, (times (one hex) n).Within fun c => uuidChar c = true :=
    within_times fun c hc => by rw [uuidChar, hc, Bool.true_or]
  refine consumes_within (r := uuid) (within_cat ?_) h
  simp only [List.forall_mem_cons, List.not_mem_nil, false_implies, implies_true, and_true]
  refine ⟨hhex 8, ?_, hhex 4, ?_, hhex 4, ?_, hhex 4, ?_, hhex 12⟩
  all_goals exact within_lit (List.all_iff_forall_prop.mp (by decide))

theorem uuid_dash (h : uuid.Consumes before m after) : '-' ∈ m :=
  (infix_of_consumes_cat (s := "-") (by simp) h).subset (by simp)

theorem email_chars (h : email.Consumes before m after) : ∀ c ∈ m, emailChar c = true := by
  have hmailbox : ∀ c, mailbox c = true → emailChar c = true := fun c hc => by
    rw [emailChar, hc, Bool.true_or]
  have hdomain : ∀ c, domain c = true → emailChar c = true := by
    intro c hc
    rcases Bool.or_eq_true_iff.mp hc with hc | hc
    · exact hmailbox c (by rw [mailbox, hc, Bool.true_or])
    · have hc : c = '.' ∨ c = '-' := by simpa using hc
      rcases hc with rfl | rfl <;> rfl
  have halpha : ∀ c : Char, c.isAlpha = true → emailChar c = true := fun c hc =>
    hmailbox c (by rw [mailbox, Char.isAlphanum, hc, Bool.true_or, Bool.true_or])
  refine consumes_within (r := email) (within_cat ?_) h
  simp only [List.forall_mem_cons, List.not_mem_nil, false_implies, implies_true, and_true]
  exact ⟨within_atLeast hmailbox 1, within_lit (List.all_iff_forall_prop.mp (by decide)),
    within_atLeast hdomain 1, within_lit (List.all_iff_forall_prop.mp (by decide)),
    within_atLeast halpha 2⟩

theorem email_at (h : email.Consumes before m after) : '@' ∈ m :=
  (infix_of_consumes_cat (s := "@") (by simp) h).subset (by simp)

/-! ## Identifiers that need no neighbours -/

variable {target r : Regex} {p : Char → Bool} {b : Char} {repl : List Char}

/-- The replacement begins and ends in characters that no match has, and
lacks one that every match has. -/
structure Foreign (p : Char → Bool) (b : Char) (repl : List Char) : Prop where
  ne_nil : repl ≠ []
  first : repl.head?.any p = false
  last : repl.getLast?.any p = false
  lacks : b ∉ repl

instance (repl : List Char) : Decidable (Foreign p b repl) :=
  decidable_of_iff
    (repl ≠ [] ∧ repl.head?.any p = false ∧ repl.getLast?.any p = false ∧ b ∉ repl)
    ⟨fun h => ⟨h.1, h.2.1, h.2.2.1, h.2.2.2⟩, fun h => ⟨h.ne_nil, h.first, h.last, h.lacks⟩⟩

theorem Foreign.apart (h : Foreign p b repl) (hw : ∀ c ∈ w, p c = true) (hb : b ∈ w) :
    Apart repl w := by
  have hnot : ∀ {o : Option Char}, o.any p = false → ∀ c ∈ o, c ∉ w := by
    rintro _ ho c rfl hc
    rw [Option.any_some, hw c hc] at ho
    cases ho
  exact apart_of_notMem h.ne_nil (hnot h.first) (hnot h.last) hb h.lacks

/-- No rule that writes foreign characters touches a pattern that looks at
no neighbours. -/
theorem clear_of_blind (hrepl : Foreign p b repl) (hw : ∀ c ∈ w, p c = true) (hb : b ∈ w) :
    Clear r repl (fun _ => false) w where
  ne_nil := List.ne_nil_of_mem hb
  apart := hrepl.apart hw hb
  ends := fun _ _ _ _ _ _ => rfl
  starts := fun _ _ _ _ _ _ => rfl

/-- **Once replaced, an identifier does not come back.** -/
theorem free_of_blind (ht : target.blind = true) (hnull : target.nullable = false)
    (hchars : ∀ {m}, target.Consumes [] m [] → (∀ c ∈ m, p c = true) ∧ b ∈ m) {own : String}
    (later : List (Regex × String)) (hown : Foreign p b own.toList)
    (hlater : ∀ rule ∈ later, rule.1.nullable = false ∧ Foreign p b rule.2.toList) :
    target.Free (later.foldl applyRule (applyRule x (target, own))) := by
  have hguard := guarded_of_blind ht
  refine List.foldlRecOn later applyRule ?_ fun y hy rule hrule => ?_
  · exact hguard.free_self hnull fun w _ hw => clear_of_blind hown (hchars hw).1 (hchars hw).2
  · obtain ⟨hr, hrepl⟩ := hlater rule hrule
    exact hguard.free_sub hr (fun w _ hw => clear_of_blind hrepl (hchars hw).1 (hchars hw).2) hy

theorem uuid_free (line : List Char) : uuid.Free (redactLine cc line) := by
  have hforeign : ∀ text ∈ placeholders, Foreign uuidChar '-' text.toList := by decide
  exact free_of_blind rfl rfl (fun h => ⟨uuid_chars h, uuid_dash h⟩) ((rules cc).drop 1)
    (hforeign _ (by decide)) fun rule hrule =>
    ⟨rules_nullable cc (List.mem_of_mem_drop hrule),
      hforeign _ (List.mem_of_mem_drop (replacement_mem_drop cc hrule))⟩

/-- The rules from one on, behind those before it. -/
theorem redactLine_eq_drop (n : Nat) (line : List Char) : redactLine cc line =
    ((rules cc).drop n).foldl applyRule (((rules cc).take n).foldl applyRule line) := by
  rw [redactLine, ← List.foldl_append, List.take_append_drop]

theorem email_free (line : List Char) : email.Free (redactLine cc line) := by
  have hforeign : ∀ text ∈ placeholders.drop 4, Foreign emailChar '@' text.toList := by decide
  rw [redactLine_eq_drop 4]
  exact free_of_blind rfl rfl (fun h => ⟨email_chars h, email_at h⟩) ((rules cc).drop 5)
    (hforeign _ (by decide)) fun rule hrule =>
    ⟨rules_nullable cc (List.mem_of_mem_drop hrule),
      hforeign _ (List.mem_of_mem_drop (i := 1) (replacement_mem_drop cc hrule))⟩

/-! ## Addresses -/

theorem ipv4_guarded : (ipv4 cc).Guarded (wordOrPeriod cc)
    fun m => ∃ run mask, m = run ++ mask ∧ Quad cc run ∧ Mask cc mask :=
  fun _ _ _ => ipv4_takes

def Ascii (text : List Char) : Prop := ∀ c ∈ text, c.toNat < 128

theorem Ascii.part (hx : Ascii x) (hw : w <:+: x) : Ascii w := fun c hc => hx c (hw.subset hc)

/-- Rewriting writes nothing but ASCII. -/
theorem Ascii.applyRule {rule : Regex × String} (hrule : rule ∈ rules cc) (hx : Ascii x) :
    Ascii (applyRule x rule) := by
  have hall : ∀ text ∈ placeholders, text.toList.all (fun c => decide (c.toNat < 128)) = true := by
    decide
  have hrepl := List.all_iff_forall_prop.mp (hall _ (replacement_mem_drop cc (n := 0) hrule))
  exact (sub_rewrites x).forall_mem hrepl hx

/-- An address begins and ends in a digit. -/
theorem address_ends {run mask : List Char} (hrun : Quad cc run) (hmask : Mask cc mask) :
    (∃ c rest, run ++ mask = c :: rest ∧ cc.digit c = true) ∧
      ∃ front c, run ++ mask = front ++ [c] ∧ cc.digit c = true := by
  obtain ⟨c, rest, rfl, hc⟩ := hrun.first
  refine ⟨⟨c, rest ++ mask, rfl, hc⟩, ?_⟩
  rcases hmask with rfl | ⟨length, rfl, ⟨hlen, _⟩, hall⟩
  · obtain ⟨front, d, hlast, hd⟩ := hrun.last
    exact ⟨front, d, by rw [List.append_nil, hlast], hd⟩
  · obtain ⟨init, d, rfl⟩ := (List.eq_nil_or_concat length).resolve_left
      (List.ne_nil_of_length_pos hlen)
    exact ⟨c :: rest ++ '/' :: init, d, by simp, hall d (by simp)⟩

/-- A rule that replaces nothing between digits brings no address back. -/
theorem ipv4_clear {run mask : List Char} (hrun : Quad cc run) (hmask : Mask cc mask)
    (hascii : Ascii (run ++ mask))
    (hrepl : Foreign addressChar '.' repl)
    (hends : ∀ {before m after}, r.Consumes before m after → ∀ c ∈ after.head?,
      cc.digit c = true → ∀ d ∈ m.getLast?, wordOrPeriod cc d = false)
    (hstarts : ∀ {before m after}, r.Consumes before m after → ∀ c ∈ before.head?,
      c.toNat < 128 → cc.digit c = true → False) :
    Clear r repl (wordOrPeriod cc) (run ++ mask) := by
  have htakes : (ipv4 cc).Consumes [] (run ++ mask) [] :=
    ipv4_takes.mpr ⟨by simp, by simp, run, mask, rfl, hrun, hmask⟩
  have hchars : ∀ c ∈ run ++ mask, addressChar c = true := by
    intro c hc
    rcases ipv4_chars htakes c hc with hd | rfl | rfl
    · rw [cc.digit_ascii c (hascii c hc)] at hd
      rw [addressChar, hd, Bool.true_or, Bool.true_or]
    · rfl
    · rfl
  have hperiod : '.' ∈ run ++ mask := by
    rw [← List.count_pos_iff, ipv4_count htakes]
    decide
  obtain ⟨⟨c, rest, hfirst, hc⟩, front, d, hlast, hd⟩ := address_ends hrun hmask
  refine ⟨List.ne_nil_of_mem hperiod, hrepl.apart hchars hperiod, fun _ _ _ h => ?_, fun _ _ _ h => ?_⟩
  · rw [hfirst] at h
    exact hends h c rfl hc
  · rw [hlast, List.reverse_append] at h
    exact (hstarts h d rfl (hascii d (by rw [hlast]; simp)) hd).elim

theorem foreign_address : ∀ text ∈ placeholders.drop 5, Foreign addressChar '.' text.toList := by
  decide

theorem ipv4_rule : (ipv4 cc, "<PRIVATE_IP>") ∈ rules cc := by simp [rules]

/-- The rule for addresses leaves none that it finds. -/
theorem ipv4_free_self (hx : Ascii x) : (ipv4 cc).Free (applyRule x (ipv4 cc, "<PRIVATE_IP>")) := by
  have hy : Ascii (applyRule x (ipv4 cc, "<PRIVATE_IP>")) := hx.applyRule ipv4_rule
  refine ipv4_guarded.free_self rfl fun w hw ⟨run, mask, hm, hrun, hmask⟩ => ?_
  subst hm
  refine ipv4_clear hrun hmask (hy.part hw) (foreign_address "<PRIVATE_IP>" (by decide)) ?_ ?_
  · intro before m after h c hc hd
    exact (not_digit hd (word_of_wordOrPeriod ((ipv4_takes.mp h).2.1 c hc))).elim
  · intro before m after h c hc _ hd
    exact not_digit hd (word_of_wordOrPeriod ((ipv4_takes.mp h).1 c hc))

/-- The rules after it bring none back. -/
theorem ipv4_free_later {rule : Regex × String} (hrule : rule ∈ (rules cc).drop 6) (hx : Ascii x)
    (hfree : (ipv4 cc).Free x) : (ipv4 cc).Free (applyRule x rule) := by
  have hmem := List.mem_of_mem_drop hrule
  have hy : Ascii (applyRule x rule) := hx.applyRule hmem
  refine ipv4_guarded.free_sub (rules_nullable cc hmem) (fun w hw ⟨run, mask, hm, hrun, hmask⟩ => ?_)
    hfree
  subst hm
  have hforeign := foreign_address _ (List.mem_of_mem_drop (i := 1) (replacement_mem_drop cc hrule))
  have hname : ∀ {n}, IsPeer n → rule.1 = peerName cc n →
      Clear rule.1 rule.2.toList (wordOrPeriod cc) (run ++ mask) := by
    intro n hn heq
    refine ipv4_clear hrun hmask (hy.part hw) hforeign ?_ ?_
    · intro before m after h c hc hd
      rw [heq, peerName_takes hn] at h
      exact (not_digit hd (h.2.2 c hc)).elim
    · intro before m after h c hc _ hd
      rw [heq, peerName_takes hn] at h
      exact not_digit hd (h.2.1 c hc)
  have hcases : rule = (wgKey, "<PUBKEY>") ∨ rule = (peerName cc "QKD1", "<PEER_A>") ∨
      rule = (peerName cc "QKD2", "<PEER_B>") := by simpa [rules] using hrule
  rcases hcases with heq | heq | heq
  · refine ipv4_clear hrun hmask (hy.part hw) hforeign ?_ ?_
    · intro before m after h c _ _ d hd
      rw [heq] at h
      obtain ⟨_, _, key, rfl, _, _⟩ := wgKey_takes.mp h
      rw [List.getLast?_concat] at hd
      cases hd
      rw [wordOrPeriod, cc.word_ascii '=' (by decide)]
      decide
    · intro before m after h c hc hascii hd
      -- a digit continues a key
      rw [heq] at h
      have hnone := (wgKey_takes.mp h).1 c hc
      rw [cc.digit_ascii c hascii] at hd
      rw [padded, base64, Char.isAlphanum, hd, Bool.or_true, Bool.true_or, Bool.true_or] at hnone
      cases hnone
  · exact hname (.inl rfl) (by rw [heq])
  · exact hname (.inr rfl) (by rw [heq])

theorem Ascii.foldl {rs : List (Regex × String)} (hrs : rs ⊆ rules cc) (hx : Ascii x) :
    Ascii (rs.foldl Scripts.applyRule x) :=
  List.foldlRecOn rs _ hx fun _ hy _ hrule => hy.applyRule (hrs hrule)

theorem ipv4_free {line : List Char} (hline : Ascii line) :
    (ipv4 cc).Free (redactLine cc line) := by
  have hreach : Ascii (reachesIpv4 cc line) := hline.foldl (List.take_subset 5 (rules cc))
  rw [redactLine_eq_drop 6]
  exact (List.foldlRecOn (motive := fun y => Ascii y ∧ (ipv4 cc).Free y) ((rules cc).drop 6)
    applyRule ⟨hreach.applyRule ipv4_rule, ipv4_free_self hreach⟩ fun y hy rule hrule =>
      ⟨hy.1.applyRule (List.mem_of_mem_drop hrule), ipv4_free_later hrule hy.1 hy.2⟩).2

variable (cc) in
/-- **Redaction leaves no key id, no mail address and no network address**
in a line of ASCII that the check would find. -/
theorem redacted_clean {line : List Char} (hline : ∀ c ∈ line, c.toNat < 128) :
    ∀ named ∈ residual cc, named.1 ∈ ["uuid", "email", "ipv4"] →
      named.2.search (redactLine cc line) = false := by
  intro named hnamed hname
  rw [search_eq_false_iff]
  simp only [residual, List.mem_cons, List.not_mem_nil, or_false] at hnamed
  rcases hnamed with rfl | rfl | rfl | rfl | rfl
  · exact uuid_free line
  · exact email_free line
  · exact ipv4_free hline
  · simp at hname
  · simp at hname

theorem redacted_clean_mail :
    email.search (redactLine .ascii "alice@example.com at 10.8.0.2/32".toList) = false ∧
      (ipv4 .ascii).search (redactLine .ascii "alice@example.com at 10.8.0.2/32".toList) = false := by
  have hline : ∀ c ∈ "alice@example.com at 10.8.0.2/32".toList, c.toNat < 128 :=
    List.all_iff_forall_prop.mp (by decide)
  exact ⟨redacted_clean .ascii hline ("email", email) (by simp [residual]) (by decide),
    redacted_clean .ascii hline ("ipv4", ipv4 .ascii) (by simp [residual]) (by simp)⟩

end

end QkdEkm.Scripts
