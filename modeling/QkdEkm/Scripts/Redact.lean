import QkdEkm.Lib.Regex

/-!
# Redact — the rules that clean a log line

Nine rules rewrite a log line in sequence; `--check` searches what comes
out for five patterns that must not survive.
-/

namespace QkdEkm.Scripts

open QkdEkm.Lib QkdEkm.Lib.Regex

/-! ## Characters -/

/-- The classes `\d`, `\w` and `\s`: the ASCII ones, and whatever else
Unicode has of the kind. -/
structure CharClass where
  digit : Char → Bool
  word : Char → Bool
  space : Char → Bool
  word_of_digit : ∀ c, digit c = true → word c = true
  digit_ascii : ∀ c : Char, c.toNat < 128 → digit c = c.isDigit
  word_ascii : ∀ c : Char, c.toNat < 128 → word c = (c.isAlphanum || c == '_')

/-- Nothing but ASCII. -/
def CharClass.ascii : CharClass where
  digit := Char.isDigit
  word := fun c => c.isAlphanum || c == '_'
  space := fun c => decide (c.toNat ∈ [9, 10, 11, 12, 13, 28, 29, 30, 31, 32])
  word_of_digit := by
    intro c h
    simp [Char.isAlphanum, h]
  digit_ascii := fun _ _ => rfl
  word_ascii := fun _ _ => rfl

/-- `[0-9a-fA-F]`. -/
def hex (c : Char) : Bool :=
  c.isDigit || (decide ('a' ≤ c) && decide (c ≤ 'f')) || (decide ('A' ≤ c) && decide (c ≤ 'F'))

/-- `[A-Za-z0-9._%+-]`. -/
def mailbox (c : Char) : Bool := c.isAlphanum || ['.', '_', '%', '+', '-'].contains c

/-- `[A-Za-z0-9.-]`. -/
def domain (c : Char) : Bool := c.isAlphanum || ['.', '-'].contains c

/-- `[A-Za-z0-9+/]`. -/
def base64 (c : Char) : Bool := c.isAlphanum || ['+', '/'].contains c

/-- `[A-Za-z0-9+/=]`. -/
def padded (c : Char) : Bool := base64 c || c == '='

/-! ## The rules -/

/-- `_UUID`. -/
def uuid : Regex :=
  cat [times (one hex) 8, lit "-", times (one hex) 4, lit "-", times (one hex) 4, lit "-",
    times (one hex) 4, lit "-", times (one hex) 12]

/-- `_EMAIL`. -/
def email : Regex :=
  cat [atLeast mailbox 1, lit "@", atLeast domain 1, lit ".", atLeast Char.isAlpha 2]

/-- `_WG_KEY`. -/
def wgKey : Regex := cat [notBehind padded, times (one base64) 43, lit "=", notAhead padded]

section

variable (cc : CharClass)

/-- `[\w.]`. -/
def wordOrPeriod (c : Char) : Bool := cc.word c || c == '.'

/-- `\d{1,3}`. -/
def group : Regex := between (one cc.digit) 1 3

/-- `_IPV4`. -/
def ipv4 : Regex :=
  cat [notBehind (wordOrPeriod cc), group cc, times (seq (lit ".") (group cc)) 3,
    opt (seq (lit "/") (between (one cc.digit) 1 2)), notAhead (wordOrPeriod cc)]

/-- `\bname\b`. -/
def peerName (name : String) : Regex := cat [boundary cc.word, lit name, boundary cc.word]

def notSpace (c : Char) : Bool := !cc.space c

/-- `RULES`. -/
def rules : List (Regex × String) :=
  [(uuid, "<KEY_ID>"),
    (seq (lit "KEKId: ") (atLeast (notSpace cc) 1), "KEKId: <KEK_ID>"),
    (cat [lit "gs://", atLeast (fun c => c != '/' && notSpace cc c) 1, lit "/",
      alt (lit "<KEY_ID>") (atLeast (fun c => c != '_' && notSpace cc c) 1), lit "_"],
      "gs://<BUCKET>/<OBJECT_ID>_"),
    (cat [lit "projects/", atLeast (notSpace cc) 1, lit "/cryptoKeys/", atLeast (notSpace cc) 1],
      "<EKM_KEY_NAME>"),
    (email, "<CLIENT>"),
    (ipv4 cc, "<PRIVATE_IP>"),
    (wgKey, "<PUBKEY>"),
    (peerName cc "QKD1", "<PEER_A>"),
    (peerName cc "QKD2", "<PEER_B>")]

/-- `RESIDUAL`. -/
def residual : List (String × Regex) :=
  [("uuid", uuid),
    ("email", email),
    ("ipv4", ipv4 cc),
    ("wireguard key", wgKey),
    ("kms resource path", cat [lit "projects/", many (notSpace cc), lit "/cryptoKeys/"])]

def applyRule (line : List Char) (rule : Regex × String) : List Char :=
  rule.1.sub rule.2.toList line

/-- `redact_line`. -/
def redactLine (line : List Char) : List Char := (rules cc).foldl applyRule line

/-- `residuals`. -/
def residuals (lines : List (List Char)) : List String :=
  let text := ['\n'].intercalate lines
  ((residual cc).filter fun named => named.2.search text).map (·.1)

/-- What the rules write. -/
def placeholders : List String := (rules .ascii).map (·.2)

theorem rules_placeholders : (rules cc).map (·.2) = placeholders := rfl

theorem rules_nullable {rule : Regex × String} (hrule : rule ∈ rules cc) :
    rule.1.nullable = false := by
  have hall : (rules cc).all (fun rule => !rule.1.nullable) = true := rfl
  simpa using List.all_eq_true.mp hall rule hrule

/-- No rule matches the empty text. -/
theorem rules_ne_nil {rule : Regex × String} (hrule : rule ∈ rules cc)
    {before m after : List Char} (h : rule.1.Consumes before m after) : m ≠ [] :=
  ne_nil_of_consumes (rules_nullable cc hrule) h

/-- What the rules from one on write. -/
theorem replacement_mem_drop {rule : Regex × String} {n : Nat} (hrule : rule ∈ (rules cc).drop n) :
    rule.2 ∈ placeholders.drop n := by
  rw [← rules_placeholders cc, ← List.map_drop]
  exact List.mem_map_of_mem hrule

/-- What a rule writes begins with one of three characters. -/
theorem rules_open {rule : Regex × String} (hrule : rule ∈ rules cc) :
    ∃ a rest, rule.2.toList = a :: rest ∧ a ∈ ['<', 'K', 'g'] := by
  have hhead : ∀ text ∈ placeholders, text.toList.head?.any (['<', 'K', 'g'].contains ·) = true := by
    decide
  have hopen := hhead rule.2 (replacement_mem_drop cc (n := 0) hrule)
  cases hrepl : rule.2.toList with
  | nil =>
    rw [hrepl] at hopen
    cases hopen
  | cons a rest =>
    rw [hrepl] at hopen
    exact ⟨a, rest, rfl, by simpa using hopen⟩

theorem applyRule_front {rule : Regex × String} (hrule : rule ∈ rules cc) {w line : List Char}
    (hw : ∀ c ∈ w, c ∉ ['<', 'K', 'g']) (h : w <+: applyRule line rule) : w <+: line := by
  obtain ⟨a, rest, hrepl, ha⟩ := rules_open cc hrule
  obtain ⟨v, hv⟩ := h
  rw [applyRule, hrepl] at hv
  have hrw : Rewrites rule.1 (a :: rest) [] [] line (w ++ v) := hv ▸ sub_rewrites line
  obtain ⟨v', rfl, _⟩ := hrw.keeps fun hmem => hw a hmem ha
  exact List.prefix_append w v'

/-- **What a redacted line begins with, before its first placeholder, the
line began with.** -/
theorem redactLine_front {w line : List Char} (hw : ∀ c ∈ w, c ∉ ['<', 'K', 'g'])
    (h : w <+: redactLine cc line) : w <+: line := by
  have hall : ∀ rs ⊆ rules cc, ∀ line, w <+: rs.foldl applyRule line → w <+: line := by
    intro rs
    induction rs with
    | nil => exact fun _ _ h => h
    | cons rule rs ih =>
      intro hrs line h
      obtain ⟨hrule, hrs⟩ := List.cons_subset.mp hrs
      exact applyRule_front cc hrule hw (ih hrs _ h)
  exact hall _ (List.Subset.refl _) line h

/-- The line as the rule for addresses meets it, after five others. -/
def reachesIpv4 (line : List Char) : List Char := ((rules cc).take 5).foldl applyRule line

end

end QkdEkm.Scripts
