import Mathlib.Data.List.Basic

/-!
# Percent — percent-encoded paths

`quote` writes the UTF-8 bytes of a text, all but the unreserved ones as
`%` and two hexadecimal digits. `unquote` reads them back; a `%` that no
two digits follow stands for itself. A path is a list of segments, each
behind a slash. A quoted segment has no slash, so a path of quoted
segments is read back whole (`unquote_path`).
-/

namespace QkdEkm.Lib.Percent

/-- Letters, digits and `_.-~`. -/
def unreserved (c : Char) : Bool := c.isAlphanum || c ∈ ['_', '.', '-', '~']

def hexDigit (i : Nat) : Char := "0123456789ABCDEF".toList.getD i '0'

/-- The value of a hexadecimal digit, small or capital. -/
def hexValue? (c : Char) : Option Nat := "0123456789ABCDEF".toList.findIdx? (· == c.toUpper)

def utf8 (s : List Char) : List UInt8 := s.flatMap String.utf8EncodeChar

/-- `none` if the bytes are not UTF-8. -/
def utf8Decode? (bytes : List UInt8) : Option (List Char) :=
  bytes.toByteArray.utf8Decode?.map Array.toList

def escape (b : UInt8) : List Char :=
  if unreserved (Char.ofNat b.toNat) then [Char.ofNat b.toNat]
  else ['%', hexDigit (b.toNat / 16), hexDigit (b.toNat % 16)]

/-- `quote(s, safe="")`. -/
def quote (s : List Char) : List Char := (utf8 s).flatMap escape

/-- The byte of two hexadecimal digits. -/
def byte? (a b : Char) : Option UInt8 := do
  let i ← hexValue? a
  let j ← hexValue? b
  some (UInt8.ofNat (i * 16 + j))

/-- `unquote_to_bytes`. -/
def unescape : List Char → List UInt8
  | '%' :: a :: b :: rest =>
    match byte? a b with
    | some x => x :: unescape rest
    | none => utf8 ['%'] ++ unescape (a :: b :: rest)
  | c :: rest => utf8 [c] ++ unescape rest
  | [] => []

/-- `unquote`; `none` where it puts replacement characters for bytes that
are not UTF-8. -/
def unquote (s : List Char) : Option (List Char) := utf8Decode? (unescape s)

/-- A path from its segments. -/
def path (segments : List (List Char)) : List Char := segments.flatMap ('/' :: ·)

/-! ## Bytes -/

theorem utf8_append (s t : List Char) : utf8 (s ++ t) = utf8 s ++ utf8 t :=
  List.flatMap_append

theorem utf8Decode?_utf8 (s : List Char) : utf8Decode? (utf8 s) = some s := by
  have hencode : (utf8 s).toByteArray = s.utf8Encode := rfl
  rw [utf8Decode?, hencode, List.utf8Decode?_utf8Encode]
  rfl

theorem utf8_inj {s t : List Char} (h : utf8 s = utf8 t) : s = t := by
  have := congrArg utf8Decode? h
  rw [utf8Decode?_utf8, utf8Decode?_utf8] at this
  exact Option.some.inj this

/-! ## Escapes -/

theorem hexValue?_hexDigit {i : Nat} (h : i < 16) : hexValue? (hexDigit i) = some i := by
  have hall : ∀ i : Fin 16, hexValue? (hexDigit i) = some i.val := by decide +kernel
  exact hall ⟨i, h⟩

theorem unreserved_ne {c : Char} (h : unreserved c) : c ≠ '%' ∧ c ≠ '/' := by
  constructor
  · rintro rfl
    revert h
    decide
  · rintro rfl
    revert h
    decide

/-- An unreserved byte is a character by itself. -/
theorem utf8_of_unreserved {b : UInt8} (h : unreserved (Char.ofNat b.toNat)) :
    utf8 [Char.ofNat b.toNat] = [b] := by
  have hall : ∀ i : Fin 256, unreserved (Char.ofNat i.val) →
      utf8 [Char.ofNat i.val] = [UInt8.ofNat i.val] := by decide +kernel
  have hb := hall ⟨b.toNat, b.toNat_lt⟩ h
  rwa [UInt8.ofNat_toNat] at hb

theorem unescape_cons {c : Char} (h : c ≠ '%') (s : List Char) :
    unescape (c :: s) = utf8 [c] ++ unescape s := by
  rw [unescape]
  rintro _ _ _ rfl
  exact absurd rfl h

/-- **An escaped byte is read back.** -/
theorem unescape_escape (b : UInt8) (s : List Char) :
    unescape (escape b ++ s) = b :: unescape s := by
  unfold escape
  split
  · rename_i h
    rw [List.singleton_append, unescape_cons (unreserved_ne h).1, utf8_of_unreserved h]
    rfl
  · have hb := b.toNat_lt
    have hbyte : byte? (hexDigit (b.toNat / 16)) (hexDigit (b.toNat % 16)) = some b := by
      simp only [byte?, hexValue?_hexDigit (show b.toNat / 16 < 16 by omega),
        hexValue?_hexDigit (show b.toNat % 16 < 16 by omega), Option.bind_eq_bind,
        Option.bind_some]
      rw [show b.toNat / 16 * 16 + b.toNat % 16 = b.toNat by omega, UInt8.ofNat_toNat]
    rw [List.cons_append, List.cons_append, List.cons_append, List.nil_append, unescape, hbyte]

theorem unescape_quote (s t : List Char) : unescape (quote s ++ t) = utf8 s ++ unescape t := by
  have key : ∀ bytes : List UInt8,
      unescape (bytes.flatMap escape ++ t) = bytes ++ unescape t := by
    intro bytes
    induction bytes with
    | nil => rfl
    | cons b bytes ih =>
      rw [List.flatMap_cons, List.append_assoc, unescape_escape, ih]
      rfl
  exact key (utf8 s)

/-! ## Paths -/

theorem unescape_path (segments : List (List Char)) :
    unescape (path (segments.map quote)) = utf8 (path segments) := by
  induction segments with
  | nil =>
    rw [List.map_nil, path, List.flatMap_nil, unescape]
    rfl
  | cons s segments ih =>
    have hcons : ∀ (s : List Char) ss, path (s :: ss) = '/' :: (s ++ path ss) := fun _ _ => rfl
    rw [List.map_cons, hcons, hcons, unescape_cons (by decide), unescape_quote, ih,
      ← utf8_append, ← utf8_append]
    rfl

/-- **A path of quoted segments is read back whole.** -/
theorem unquote_path (segments : List (List Char)) :
    unquote (path (segments.map quote)) = some (path segments) := by
  rw [unquote, unescape_path, utf8Decode?_utf8]

/-- A text of unreserved characters is quoted as it is, and no other text
is quoted so. -/
theorem quote_eq_iff {s t : List Char} (h : quote t = t) : quote s = t ↔ s = t := by
  constructor
  · intro heq
    have hs := unescape_quote s []
    have ht := unescape_quote t []
    rw [heq] at hs
    rw [h] at ht
    exact utf8_inj (List.append_cancel_right (hs.symm.trans ht))
  · rintro rfl
    exact h

/-- A quoted segment stays one segment. -/
theorem slash_notMem_quote (s : List Char) : '/' ∉ quote s := by
  have hdigit : ∀ i : Fin 16, hexDigit i.val ≠ '/' := by decide +kernel
  intro h
  obtain ⟨b, _, hb⟩ := List.mem_flatMap.mp h
  have hlt := b.toNat_lt
  unfold escape at hb
  split at hb
  · rename_i hu
    exact (unreserved_ne hu).2 (List.mem_singleton.mp hb).symm
  · simp only [List.mem_cons, List.not_mem_nil, or_false] at hb
    rcases hb with hb | hb | hb
    · exact absurd hb (by decide)
    · exact hdigit ⟨b.toNat / 16, by omega⟩ hb.symm
    · exact hdigit ⟨b.toNat % 16, by omega⟩ hb.symm

/-- The segments of a path, behind the empty text before its first slash. -/
theorem splitOn_path {segments : List (List Char)} (h : ∀ s ∈ segments, '/' ∉ s) :
    (path segments).splitOn '/' = [] :: segments := by
  have key : ∀ (segments : List (List Char)) (s : List Char), '/' ∉ s →
      (∀ t ∈ segments, '/' ∉ t) → (s ++ path segments).splitOn '/' = s :: segments := by
    intro segments
    induction segments with
    | nil =>
      intro s hs _
      rw [path, List.flatMap_nil, List.append_nil, List.splitOn_eq_singleton hs]
    | cons t segments ih =>
      intro s hs ht
      have hpath : path (t :: segments) = '/' :: (t ++ path segments) := rfl
      rw [hpath, List.splitOn_append_cons_self_of_not_mem hs,
        ih t (ht t (List.mem_cons_self ..)) fun u hu => ht u (List.mem_cons_of_mem _ hu)]
  exact key segments [] List.not_mem_nil h

end QkdEkm.Lib.Percent
