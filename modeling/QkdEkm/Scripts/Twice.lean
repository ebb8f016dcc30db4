import QkdEkm.Lib.Text
import QkdEkm.Scripts.Clean

/-!
# Twice — a line that is redacted again

The last seven rules leave a text alone only if none of them finds
anything: what they write begins with a bracket that no match of the last
six begins with, so the first change is never undone; and an object path
grows with every pass, since its own placeholder is one.
-/

namespace QkdEkm.Scripts

open QkdEkm.Lib QkdEkm.Lib.Regex

/-- The pattern of the rule for objects. -/
def objectPath (cc : CharClass) : Regex :=
  cat [lit "gs://", atLeast (fun c => c != '/' && notSpace cc c) 1, lit "/",
    alt (lit "<KEY_ID>") (atLeast (fun c => c != '_' && notSpace cc c) 1), lit "_"]

/-- The rule for objects. -/
def objectRule (cc : CharClass) : Regex × String := (objectPath cc, "gs://<BUCKET>/<OBJECT_ID>_")

section

variable {cc : CharClass} {r : Regex} {rule : Regex × String} {u q s x y before m after : List Char}

theorem rules_drop_two : (rules cc).drop 2 = objectRule cc :: (rules cc).drop 3 := rfl

/-! ## What the last six rules replace -/

/-- The last six rules. -/
theorem later_cases (hrule : rule ∈ (rules cc).drop 3) :
    (rule.2 = "<EKM_KEY_NAME>" ∧ rule.1 = cat [lit "projects/", atLeast (notSpace cc) 1,
      lit "/cryptoKeys/", atLeast (notSpace cc) 1]) ∨
    (rule.2 = "<CLIENT>" ∧ rule.1 = email) ∨ (rule.2 = "<PRIVATE_IP>" ∧ rule.1 = ipv4 cc) ∨
    (rule.2 = "<PUBKEY>" ∧ rule.1 = wgKey) ∨ (rule.2 = "<PEER_A>" ∧ rule.1 = peerName cc "QKD1") ∨
    (rule.2 = "<PEER_B>" ∧ rule.1 = peerName cc "QKD2") := by
  simp only [rules, List.drop_succ_cons, List.drop_zero, List.mem_cons, List.not_mem_nil,
    or_false] at hrule
  rcases hrule with rfl | rfl | rfl | rfl | rfl | rfl <;> simp

theorem later_replacement (hrule : rule ∈ (rules cc).drop 3) :
    ∃ rest, rule.2.toList = '<' :: rest := by
  have hall : ∀ text ∈ placeholders.drop 3, text.toList.head? = some '<' := by decide
  have hhead := hall rule.2 (replacement_mem_drop cc hrule)
  exact List.head?_eq_some_iff.mp hhead

/-- What they match begins with a letter of a fixed name, or holds no
bracket but a character that no placeholder holds. -/
theorem later_match (hrule : rule ∈ (rules cc).drop 3) (h : rule.1.Consumes before m after) :
    (∃ c ∈ m.head?, c ∈ ['p', 'Q']) ∨ '<' ∉ m ∧ '>' ∉ m ∧ ∃ b ∈ m, b ∈ ['@', '.', '='] := by
  have hname : ∀ {n}, IsPeer n → rule.1 = peerName cc n → ∃ c ∈ m.head?, c ∈ ['p', 'Q'] := by
    intro n hn heq
    obtain ⟨d, hshape, _⟩ := hn.shape
    rw [heq, peerName_takes hn, hshape] at h
    exact ⟨'Q', by rw [h.1]; rfl, by simp⟩
  rcases later_cases hrule with ⟨_, heq⟩ | ⟨_, heq⟩ | ⟨_, heq⟩ | ⟨_, heq⟩ | ⟨_, heq⟩ | ⟨_, heq⟩
  · rw [heq] at h
    obtain ⟨_, _, rfl, hlit, _⟩ := h
    rw [consumes_lit.mp hlit]
    exact .inl ⟨'p', rfl, by simp⟩
  · rw [heq] at h
    refine .inr ⟨fun hmem => ?_, fun hmem => ?_, '@', email_at h, by simp⟩
    · exact absurd (email_chars h '<' hmem) (by decide)
    · exact absurd (email_chars h '>' hmem) (by decide)
  · rw [heq] at h
    have hnot : ∀ {c : Char}, c.toNat < 128 → c.isDigit = false → c ≠ '.' → c ≠ '/' → c ∉ m := by
      intro c hascii hdigit hperiod hslash hmem
      rw [← cc.digit_ascii c hascii] at hdigit
      rcases ipv4_chars h c hmem with hd | hd | hd
      · rw [hd] at hdigit
        cases hdigit
      · exact hperiod hd
      · exact hslash hd
    have hperiod : '.' ∈ m := by
      rw [← List.count_pos_iff, ipv4_count h]
      decide
    exact .inr ⟨hnot (by decide) rfl (by decide) (by decide), hnot (by decide) rfl (by decide)
      (by decide), '.', hperiod, by simp⟩
  · rw [heq] at h
    obtain ⟨_, _, key, rfl, _, hall⟩ := wgKey_takes.mp h
    exact .inr ⟨not_in_key hall rfl, not_in_key hall rfl, '=', by simp, by simp⟩
  · exact .inl (hname (.inl rfl) heq)
  · exact .inl (hname (.inr rfl) heq)

/-- No match begins with what a placeholder begins with. -/
theorem later_first (hrule : rule ∈ (rules cc).drop 3) (h : rule.1.Consumes before m after) :
    m.head? ≠ some '<' := by
  intro hhead
  rcases later_match hrule h with ⟨c, hc, hmem⟩ | ⟨hopen, _⟩
  · rw [hhead] at hc
    cases hc
    exact absurd hmem (by decide)
  · exact hopen (List.mem_of_mem_head? hhead)

/-- A text with neither of these characters that a bracket closes. -/
structure Closed (q : List Char) : Prop where
  last : q.getLast? = some '>'
  lacks : ['p', 'Q', '@', '.', '='].all (fun c => !q.contains c) = true

instance (q : List Char) : Decidable (Closed q) :=
  decidable_of_iff (q.getLast? = some '>' ∧
      ['p', 'Q', '@', '.', '='].all (fun c => !q.contains c) = true)
    ⟨fun h => ⟨h.1, h.2⟩, fun h => ⟨h.last, h.lacks⟩⟩

theorem Closed.notMem (h : Closed q) {c : Char} (hc : c ∈ ['p', 'Q', '@', '.', '=']) : c ∉ q := by
  simpa using List.all_eq_true.mp h.lacks c hc

theorem Closed.append {q' : List Char} (h : Closed q) (h' : Closed q') : Closed (q ++ q') where
  last := by
    rw [List.getLast?_append, h'.last]
    rfl
  lacks := by
    refine List.all_eq_true.mpr fun c hc => ?_
    simpa using ⟨h.notMem hc, h'.notMem hc⟩

/-- No match of the last six rules begins in it. -/
theorem Closed.unmatched (h : Closed q) (hrule : rule ∈ (rules cc).drop 3) :
    Unmatched rule.1 before q after := by
  refine unmatched_of_not_consumes fun w₁ w₂ m s hq hne hm _ hc => ?_
  have hmem : ∀ {c}, c ∈ w₂ → c ∈ q := fun hc => hq ▸ List.mem_append_right w₁ hc
  rcases later_match hrule hc with ⟨c, hhead, hname⟩ | ⟨_, hclose, b, hb, hmark⟩
  · have hfirst := congrArg List.head? hm
    obtain ⟨m', rfl⟩ := List.head?_eq_some_iff.mp hhead
    rw [List.head?_append_of_ne_nil _ hne] at hfirst
    exact h.notMem (List.mem_append_left _ hname) (hmem (List.mem_of_mem_head? hfirst))
  · have hlast : w₂.getLast? = some '>' := by
      rw [← h.last, hq, List.getLast?_append_of_ne_nil _ hne]
    obtain ⟨t, ht, _⟩ := stops hlast hm hclose
    exact h.notMem (List.mem_append_right ['p', 'Q'] hmark) (hmem (ht ▸ List.mem_append_left _ hb))

/-! ## A change is never undone -/

/-- A placeholder stands where `u` has something else, and `y` is `u` up to
there. -/
def Marked (u y : List Char) : Prop :=
  ∃ u₀ c u₁ t, u = u₀ ++ c :: u₁ ∧ c ≠ '<' ∧ y = u₀ ++ '<' :: t

theorem Marked.not_self (h : Marked u (u ++ s)) : False := by
  obtain ⟨u₀, c, u₁, t, rfl, hc, hy⟩ := h
  rw [List.append_assoc] at hy
  exact hc (List.cons.inj (List.append_cancel_left hy)).1

theorem applyRule_rewrites (rule : Regex × String) (x : List Char) :
    Rewrites rule.1 rule.2.toList [] [] x (applyRule x rule) := sub_rewrites x

/-- One of the last six rules leaves a part in front or marks it. -/
theorem lead_or_marked (hrule : rule ∈ (rules cc).drop 3) (u x : List Char) :
    (Unmatched rule.1 [] u x ∧ ∃ y, applyRule (u ++ x) rule = u ++ y ∧
      Rewrites rule.1 rule.2.toList [] u.reverse x y) ∨ Marked u (applyRule (u ++ x) rule) := by
  rcases (applyRule_rewrites rule (u ++ x)).lead with
    ⟨hidle, y, hy, hrw⟩ | ⟨u₀, c, u₁, m, s, y, hu, _, hm, hne, hc, hy⟩
  · exact .inl ⟨by simpa using hidle, y, hy, by simpa using hrw⟩
  · obtain ⟨rest, hrest⟩ := later_replacement hrule
    rw [hrest] at hy
    obtain ⟨d, m, rfl⟩ := List.exists_cons_of_ne_nil hne
    obtain ⟨rfl, _⟩ := List.cons.inj hm
    refine .inr ⟨u₀, c, u₁, rest ++ y, hu, ?_, hy⟩
    rintro rfl
    exact later_first hrule hc rfl

theorem Marked.applyRule (hrule : rule ∈ (rules cc).drop 3) (h : Marked u y) :
    Marked u (applyRule y rule) := by
  obtain ⟨u₀, c, u₁, t, rfl, hc, rfl⟩ := h
  rcases lead_or_marked hrule u₀ ('<' :: t) with
    ⟨_, y, hy, hrw⟩ | ⟨v₀, d, v₁, t', rfl, hd, hy⟩
  · rcases hrw.first with hsame | ⟨m, x', _, hm, _, hcons, _⟩
    · obtain ⟨t', rfl⟩ := List.head?_eq_some_iff.mp hsame.symm
      exact ⟨u₀, c, u₁, t', rfl, hc, hy⟩
    · -- no match begins with the bracket
      obtain ⟨d, m, rfl⟩ := List.exists_cons_of_ne_nil
        (ne_nil_of_consumes (rules_nullable cc (List.mem_of_mem_drop hrule)) hcons)
      obtain ⟨rfl, _⟩ := List.cons.inj hm
      exact absurd rfl (later_first hrule hcons)
  · exact ⟨v₀, d, v₁ ++ c :: u₁, t', by simp, hd, hy⟩

theorem Marked.foldl {rs : List (Regex × String)} (hrs : rs ⊆ (rules cc).drop 3)
    (h : Marked u y) : Marked u (rs.foldl Scripts.applyRule y) :=
  List.foldlRecOn rs _ h fun _ hy _ hrule => hy.applyRule (hrs hrule)

/-- **The last six rules leave a text alone only if none finds anything.** -/
theorem free_of_later_fixed {rs : List (Regex × String)} (hrs : rs ⊆ (rules cc).drop 3)
    (h : rs.foldl applyRule x = x) : ∀ rule ∈ rs, rule.1.Free x := by
  induction rs with
  | nil => simp
  | cons rule rs ih =>
    obtain ⟨hrule, hrest⟩ := List.cons_subset.mp hrs
    rw [List.foldl_cons] at h
    rcases lead_or_marked hrule x [] with ⟨hidle, y, hy, hrw⟩ | hmarked
    · have hfree := free_of_unmatched (rules_nullable cc (List.mem_of_mem_drop hrule)) hidle
      have hsame : applyRule x rule = x := sub_of_free hfree
      rw [hsame] at h
      exact List.forall_mem_cons.mpr ⟨hfree, ih hrest h⟩
    · rw [List.append_nil] at hmarked
      have hself := hmarked.foldl hrest
      rw [h] at hself
      exact (Marked.not_self (s := []) (by rwa [List.append_nil])).elim

/-- A closed text behind a part in front stays there, or that is marked. -/
theorem closed_or_marked {rs : List (Regex × String)} (hrs : rs ⊆ (rules cc).drop 3)
    (hq : Closed q) (h : (∃ s, y = u ++ (q ++ s)) ∨ Marked u y) :
    (∃ s, rs.foldl applyRule y = u ++ (q ++ s)) ∨ Marked u (rs.foldl applyRule y) := by
  refine List.foldlRecOn (motive := fun y => (∃ s, y = u ++ (q ++ s)) ∨ Marked u y) rs applyRule h
    fun y hy rule hrule => ?_
  rcases hy with ⟨s, rfl⟩ | hmarked
  · rcases lead_or_marked (hrs hrule) u (q ++ s) with ⟨_, y, hy, hrw⟩ | hmarked
    · obtain ⟨s', rfl, _⟩ := hrw.stays fun w₁ w₂ m s' hw hne hm _ =>
        (hq.unmatched (hrs hrule)).not_consumes
          (rules_nullable cc (List.mem_of_mem_drop (hrs hrule))) hw hne hm
      exact .inl ⟨s', hy⟩
    · exact .inr hmarked
  · exact .inr (hmarked.applyRule (hrs hrule))

/-! ## An object path grows -/

/-- The placeholder of an object without its last character. -/
def objectId : List Char := "gs://<BUCKET>/<OBJECT_ID>".toList

/-- What the placeholder leaves behind when it is replaced `k` times. -/
def leftover : Nat → List Char
  | 0 => []
  | k + 1 => "_ID>".toList ++ leftover k

theorem objectId_closed : Closed objectId := by decide

theorem leftover_closed (k : Nat) : leftover k = [] ∨ Closed (leftover k) := by
  induction k with
  | zero => exact .inl rfl
  | succ k ih =>
    have hid : Closed "_ID>".toList := by decide
    refine .inr ?_
    rcases ih with hnil | hclosed
    · rw [leftover, hnil, List.append_nil]
      exact hid
    · exact hid.append hclosed

/-- A text up to its first `c` is read in one way. -/
theorem cut_unique {c : Char} {a b : List Char} (ha : c ∉ a) (hb : c ∉ b)
    (h : a ++ c :: x = b ++ c :: y) : a = b ∧ x = y := by
  have hspan := congrArg (List.span (· ≠ c)) h
  rw [span_append_sep ha, span_append_sep hb] at hspan
  obtain ⟨hab, hxy⟩ := Prod.mk.inj hspan
  exact ⟨hab, (List.cons.inj hxy).2⟩

theorem objectPath_takes (h : (objectPath cc).Consumes before m after) :
    ∃ bucket object, m = "gs://".toList ++ (bucket ++ '/' :: (object ++ ['_'])) ∧ '/' ∉ bucket ∧
      (object = "<KEY_ID>".toList ∨ '_' ∉ object) := by
  obtain ⟨_, _, rfl, l₁, bucket, _, rfl, hbucket, _, _, rfl, l₂, object, _, rfl, hobject, _, _, rfl,
    l₃, hnil⟩ := h
  obtain rfl : _ = [] := hnil
  have hall : ∀ {p : Char → Bool} {g : List Char} {before after}, p '/' = false ∨ p '_' = false →
      (atLeast p 1).Consumes before g after → ∀ c ∈ g, p c = true := fun _ hc =>
    consumes_within (within_atLeast (fun _ h => h) 1) hc
  rw [consumes_lit.mp l₁, consumes_lit.mp l₂, consumes_lit.mp l₃]
  refine ⟨bucket, object, by simp, fun hmem => ?_, ?_⟩
  · have hslash := hall (.inl rfl) hbucket '/' hmem
    cases hslash
  · rcases hobject with hkey | hobject
    · exact .inl (consumes_lit.mp hkey)
    · refine .inr fun hmem => ?_
      have hunder := hall (.inr rfl) hobject '_' hmem
      cases hunder

/-- In its own placeholder the rule finds all but the last characters. -/
theorem objectPath_placeholder (h : (objectPath cc).Consumes before m after)
    (htext : objectId ++ s = m ++ after) : after = "ID>".toList ++ s := by
  obtain ⟨bucket, object, rfl, hbucket, hobject⟩ := objectPath_takes h
  have hid : objectId = "gs://".toList ++ ("<BUCKET>".toList ++ '/' :: ("<OBJECT".toList ++
      '_' :: "ID>".toList)) := by decide
  have hcut : "<BUCKET>".toList ++ '/' :: ("<OBJECT".toList ++ '_' :: ("ID>".toList ++ s)) =
      bucket ++ '/' :: (object ++ '_' :: after) := by
    refine (List.append_right_inj "gs://".toList).mp ?_
    rw [hid] at htext
    simpa using htext
  obtain ⟨rfl, hrest⟩ := cut_unique (by decide) hbucket hcut
  rcases hobject with rfl | hobject
  · have hkey : "<KEY_ID>".toList = '<' :: 'K' :: "EY_ID>".toList := by decide
    have hobj : "<OBJECT".toList = '<' :: 'O' :: "BJECT".toList := by decide
    rw [hkey, hobj] at hrest
    cases (List.cons.inj (List.cons.inj hrest).2).1
  · exact (cut_unique (by decide) hobject hrest).2.symm

theorem objectPath_first (h : (objectPath cc).Consumes before m after) : m.head? = some 'g' := by
  obtain ⟨bucket, object, rfl, _, _⟩ := objectPath_takes h
  have hgs : "gs://".toList = 'g' :: "s://".toList := by decide
  rw [hgs]
  rfl

theorem g_notMem_leftover (k : Nat) : 'g' ∉ leftover k := by
  induction k with
  | zero => simp [leftover]
  | succ k ih =>
    have hid : 'g' ∉ "_ID>".toList := by decide
    rw [leftover, List.mem_append, not_or]
    exact ⟨hid, ih⟩

theorem le_length_leftover (k : Nat) : k ≤ (leftover k).length := by
  induction k with
  | zero => exact Nat.zero_le _
  | succ k ih =>
    have hid : "_ID>".toList.length = 4 := by decide
    rw [leftover, List.length_append, hid]
    omega

variable (cc) in
theorem objectRule_rewrites (x : List Char) :
    Rewrites (objectPath cc) (objectId ++ ['_']) [] [] x (applyRule x (objectRule cc)) := by
  have hrepl : "gs://<BUCKET>/<OBJECT_ID>_".toList = objectId ++ ['_'] := by decide
  exact hrepl ▸ applyRule_rewrites (objectRule cc) x

/-- Each pass over a placeholder leaves a part of it behind. -/
theorem objectPath_grows {k : Nat} (hidle : Unmatched (objectPath cc) [] u (m ++ after))
    (hm : (objectPath cc).Consumes u.reverse m after)
    (htext : objectId ++ (leftover k ++ s) = m ++ after) :
    ∃ s', applyRule (u ++ (m ++ after)) (objectRule cc) =
      u ++ (objectId ++ (leftover (k + 1) ++ s')) := by
  have hnull : (objectPath cc).nullable = false := rfl
  rcases (objectRule_rewrites cc (u ++ (m ++ after))).lead with
    ⟨_, y, hy, hrw⟩ | ⟨u₀, c, u₁, m', s', _, rfl, _, hm', _, hc, _⟩
  · obtain ⟨m', x', y', hsplit, rfl, hc, hrest⟩ := hrw.taken hnull (by simpa using hm)
    obtain rfl : x' = "ID>".toList ++ (leftover k ++ s) :=
      objectPath_placeholder (by simpa using hc) (htext.trans hsplit)
    have hg : 'g' ∉ "ID>".toList ++ leftover k := by
      have hid : 'g' ∉ "ID>".toList := by decide
      rw [List.mem_append, not_or]
      exact ⟨hid, g_notMem_leftover k⟩
    rw [← List.append_assoc "ID>".toList] at hrest
    obtain ⟨s', rfl, _⟩ := hrest.stays fun w₁ w₂ n t hw hne hn _ hcons => by
      have hhead := congrArg List.head? hn
      obtain ⟨n', rfl⟩ := List.head?_eq_some_iff.mp (objectPath_first hcons)
      rw [List.head?_append_of_ne_nil _ hne] at hhead
      exact hg (hw ▸ List.mem_append_right w₁ (List.mem_of_mem_head? hhead))
    have hid : "_ID>".toList = '_' :: "ID>".toList := by decide
    refine ⟨s', hy.trans ?_⟩
    rw [leftover, hid]
    simp only [List.append_assoc, List.cons_append, List.nil_append]
  · have hsplit : c :: u₁ ++ (m ++ after) = m' ++ s' := by simpa using hm'
    exact absurd hc (hidle.not_consumes hnull rfl (List.cons_ne_nil _ _) hsplit)

/-- **Redacting again never leaves an object path alone.** -/
theorem objectPath_free_of_fixed (h : ((rules cc).drop 2).foldl applyRule x = x) :
    (objectPath cc).Free x := by
  have hfold : ((rules cc).drop 3).foldl applyRule (applyRule x (objectRule cc)) = x := h
  rcases (objectRule_rewrites cc (x ++ [])).lead with
    ⟨hidle, _⟩ | ⟨u, c, v, m, after, y, hx, hidle, hm, _, hc, hy⟩
  · exact free_of_unmatched rfl (by simpa using hidle)
  · rw [List.append_nil] at hy
    have hm : c :: v = m ++ after := by simpa using hm
    have hidle : Unmatched (objectPath cc) [] u (m ++ after) := by simpa [← hm] using hidle
    rw [hm] at hx
    -- what the last six rules return has to begin with what they were given
    have hback : ∀ k s', applyRule x (objectRule cc) =
        u ++ (objectId ++ (leftover k ++ s')) → ∃ s, m ++ after = objectId ++ (leftover k ++ s) := by
      intro k s' hrule
      have hclosed : Closed (objectId ++ leftover k) := by
        rcases leftover_closed k with hnil | hclosed
        · rw [hnil, List.append_nil]
          exact objectId_closed
        · exact objectId_closed.append hclosed
      have hgiven : (∃ s, applyRule x (objectRule cc) = u ++ (objectId ++ leftover k ++ s)) ∨
          Marked u (applyRule x (objectRule cc)) := .inl ⟨s', by rw [hrule, List.append_assoc]⟩
      rcases closed_or_marked (List.Subset.refl _) hclosed hgiven with ⟨s, hs⟩ | hmarked
      · rw [hfold, hx, List.append_assoc] at hs
        exact ⟨s, List.append_cancel_left hs⟩
      · rw [hfold, hx] at hmarked
        exact hmarked.not_self.elim
    have hall : ∀ k, ∃ s, m ++ after = objectId ++ (leftover k ++ s) := by
      intro k
      induction k with
      | zero =>
        exact hback 0 ('_' :: y) (by rw [hy]; simp [leftover])
      | succ k ih =>
        obtain ⟨s, hs⟩ := ih
        obtain ⟨s', hgrown⟩ := objectPath_grows hidle (by simpa using hc) hs.symm
        exact hback (k + 1) s' (hx ▸ hgrown)
    obtain ⟨s, hs⟩ := hall ((m ++ after).length + 1)
    have hlength := congrArg List.length hs
    have hle := le_length_leftover ((m ++ after).length + 1)
    simp only [List.length_append] at hlength hle
    omega

theorem foldl_fixed {rs : List (Regex × String)} (h : ∀ rule ∈ rs, applyRule x rule = x) :
    rs.foldl applyRule x = x := by
  induction rs with
  | nil => rfl
  | cons rule rs ih =>
    obtain ⟨hrule, hrs⟩ := List.forall_mem_cons.mp h
    rw [List.foldl_cons, hrule, ih hrs]

/-- **The last seven rules leave a text alone only if none finds
anything.** -/
theorem later_fixed_iff : ((rules cc).drop 2).foldl applyRule x = x ↔
    ∀ rule ∈ (rules cc).drop 2, rule.1.Free x := by
  constructor
  · intro h
    have hobject := objectPath_free_of_fixed h
    have hsame : applyRule x (objectRule cc) = x := sub_of_free hobject
    rw [rules_drop_two, List.foldl_cons, hsame] at h
    exact List.forall_mem_cons.mpr ⟨hobject, free_of_later_fixed (List.Subset.refl _) h⟩
  · exact fun hfree => foldl_fixed fun rule hrule => sub_of_free (hfree rule hrule)

end

end QkdEkm.Scripts
