import Mathlib.Data.List.Basic

/-!
# Base64 — the standard alphabet, strictly decoded

Three bytes are four digits; a last group of one or two bytes is padded
with `=`. `decode` rejects any character outside the alphabet and any
padding that is missing, misplaced or followed by more text; it ignores
the unused low bits of a padded group. So it inverts `encode`
(`decode_encode`), and `encode` inverts it on the texts whose unused bits
are zero, the `Tight` ones (`encodeChars_decodeChars`).
-/

namespace QkdEkm.Lib.Base64

def alphabet : List Char :=
  "ABCDEFGHIJKLMNOPQRSTUVWXYZabcdefghijklmnopqrstuvwxyz0123456789+/".toList

/-- The digit of a value below 64. -/
def digit (i : Nat) : Char := alphabet.getD i '='

/-- The value of a digit. -/
def value? (c : Char) : Option Nat := alphabet.findIdx? (· == c)

def encodeChars : List UInt8 → List Char
  | [] => []
  | [x] => [digit (x.toNat / 4), digit (x.toNat % 4 * 16), '=', '=']
  | [x, y] =>
    [digit (x.toNat / 4), digit (x.toNat % 4 * 16 + y.toNat / 16), digit (y.toNat % 16 * 4), '=']
  | x :: y :: z :: rest =>
    digit (x.toNat / 4) :: digit (x.toNat % 4 * 16 + y.toNat / 16)
      :: digit (y.toNat % 16 * 4 + z.toNat / 64) :: digit (z.toNat % 64) :: encodeChars rest

/-- One byte from two digits. -/
def one (a b : Char) : Option (List UInt8) := do
  let a ← value? a
  let b ← value? b
  some [UInt8.ofNat (a * 4 + b / 16)]

/-- Two bytes from three digits. -/
def two (a b c : Char) : Option (List UInt8) := do
  let a ← value? a
  let b ← value? b
  let c ← value? c
  some [UInt8.ofNat (a * 4 + b / 16), UInt8.ofNat (b % 16 * 16 + c / 4)]

/-- Three bytes from four digits. -/
def three (a b c d : Char) : Option (List UInt8) := do
  let a ← value? a
  let b ← value? b
  let c ← value? c
  let d ← value? d
  some [UInt8.ofNat (a * 4 + b / 16), UInt8.ofNat (b % 16 * 16 + c / 4),
    UInt8.ofNat (c % 4 * 64 + d)]

def decodeChars : List Char → Option (List UInt8)
  | [] => some []
  | a :: b :: c :: d :: rest =>
    if d = '=' then
      if rest ≠ [] then none
      else if c = '=' then one a b
      else two a b c
    else do
      let bytes ← three a b c d
      let more ← decodeChars rest
      some (bytes ++ more)
  | _ => none

def encode (bytes : List UInt8) : String := String.ofList (encodeChars bytes)

def decode (s : String) : Option (List UInt8) := decodeChars s.toList

/-! ## Round trip -/

theorem value?_digit {i : Nat} (h : i < 64) : value? (digit i) = some i := by
  have hall : ∀ i : Fin 64, value? (digit i) = some i.val := by decide +kernel
  exact hall ⟨i, h⟩

theorem value?_isSome {c : Char} : (∃ i, value? c = some i) ↔ c ∈ alphabet := by
  rw [← Option.isSome_iff_exists, value?, List.findIdx?_isSome, List.any_eq_true]
  constructor
  · rintro ⟨x, hx, heq⟩
    exact beq_iff_eq.mp heq ▸ hx
  · intro hc
    exact ⟨c, hc, beq_self_eq_true c⟩

theorem pad_notMem_alphabet : '=' ∉ alphabet := by decide +kernel

theorem digit_ne_pad {i : Nat} (h : i < 64) : digit i ≠ '=' := by
  intro heq
  have hmem : digit i ∈ alphabet := value?_isSome.mp ⟨i, value?_digit h⟩
  exact pad_notMem_alphabet (heq ▸ hmem)

theorem ofNat_eq {x : UInt8} {n : Nat} (h : n = x.toNat) : UInt8.ofNat n = x := by
  rw [h, UInt8.ofNat_toNat]

theorem decodeChars_encodeChars (bytes : List UInt8) :
    decodeChars (encodeChars bytes) = some bytes := by
  induction bytes using encodeChars.induct with
  | case1 => rfl
  | case2 x =>
    have hx := x.toNat_lt
    rw [encodeChars, decodeChars, if_pos rfl, if_neg (by simp), if_pos rfl, one,
      value?_digit (by omega), value?_digit (by omega)]
    simp only [Option.bind_eq_bind, Option.bind_some]
    rw [ofNat_eq (x := x) (by omega)]
  | case3 x y =>
    have hx := x.toNat_lt
    have hy := y.toNat_lt
    rw [encodeChars, decodeChars, if_pos rfl, if_neg (by simp), if_neg (digit_ne_pad (by omega)),
      two, value?_digit (by omega), value?_digit (by omega), value?_digit (by omega)]
    simp only [Option.bind_eq_bind, Option.bind_some]
    rw [ofNat_eq (x := x) (by omega), ofNat_eq (x := y) (by omega)]
  | case4 x y z rest ih =>
    have hx := x.toNat_lt
    have hy := y.toNat_lt
    have hz := z.toNat_lt
    rw [encodeChars, decodeChars, if_neg (digit_ne_pad (by omega)), three,
      value?_digit (by omega), value?_digit (by omega), value?_digit (by omega),
      value?_digit (by omega), ih]
    simp only [Option.bind_eq_bind, Option.bind_some]
    rw [ofNat_eq (x := x) (by omega), ofNat_eq (x := y) (by omega), ofNat_eq (x := z) (by omega)]
    rfl

/-- **Decoding inverts encoding.** -/
theorem decode_encode (bytes : List UInt8) : decode (encode bytes) = some bytes := by
  simp [decode, encode, decodeChars_encodeChars]

/-! ## What is accepted -/

theorem digit_value? {c : Char} {i : Nat} (h : value? c = some i) : digit i = c ∧ i < 64 := by
  have hidx := List.findIdx?_eq_some_iff_getElem.mp h
  obtain ⟨hlt, hc, _⟩ := hidx
  refine ⟨?_, hlt⟩
  rw [digit, List.getD_eq_getElem?_getD, List.getElem?_eq_getElem hlt, Option.getD_some]
  exact beq_iff_eq.mp hc

/-- `k` groups of digits, the last one filled up with `pad` signs. -/
def Spelled (k pad : Nat) (cs : List Char) : Prop :=
  pad ≤ 2 ∧ ∃ ds, cs = ds ++ List.replicate pad '=' ∧ ds.length + pad = 4 * k ∧
    ∀ d ∈ ds, d ∈ alphabet

theorem one_eq_some {a b : Char} {bytes : List UInt8} (h : one a b = some bytes) :
    ∃ i j, value? a = some i ∧ value? b = some j ∧ bytes = [UInt8.ofNat (i * 4 + j / 16)] := by
  simp only [one, Option.bind_eq_bind, Option.bind_eq_some_iff] at h
  obtain ⟨i, hi, j, hj, heq⟩ := h
  exact ⟨i, j, hi, hj, (Option.some.inj heq).symm⟩

theorem two_eq_some {a b c : Char} {bytes : List UInt8} (h : two a b c = some bytes) :
    ∃ i j k, value? a = some i ∧ value? b = some j ∧ value? c = some k ∧
      bytes = [UInt8.ofNat (i * 4 + j / 16), UInt8.ofNat (j % 16 * 16 + k / 4)] := by
  simp only [two, Option.bind_eq_bind, Option.bind_eq_some_iff] at h
  obtain ⟨i, hi, j, hj, k, hk, heq⟩ := h
  exact ⟨i, j, k, hi, hj, hk, (Option.some.inj heq).symm⟩

theorem three_eq_some {a b c d : Char} {bytes : List UInt8} (h : three a b c d = some bytes) :
    ∃ i j k l, value? a = some i ∧ value? b = some j ∧ value? c = some k ∧ value? d = some l ∧
      bytes = [UInt8.ofNat (i * 4 + j / 16), UInt8.ofNat (j % 16 * 16 + k / 4),
        UInt8.ofNat (k % 4 * 64 + l)] := by
  simp only [three, Option.bind_eq_bind, Option.bind_eq_some_iff] at h
  obtain ⟨i, hi, j, hj, k, hk, l, hl, heq⟩ := h
  exact ⟨i, j, k, l, hi, hj, hk, hl, (Option.some.inj heq).symm⟩

/-- A text that is accepted is spelled in groups, three bytes for each. -/
theorem decodeChars_spelled {cs : List Char} {bytes : List UInt8}
    (h : decodeChars cs = some bytes) :
    ∃ k pad, Spelled k pad cs ∧ bytes.length + pad = 3 * k := by
  induction cs using decodeChars.induct generalizing bytes with
  | case1 =>
    cases h
    exact ⟨0, 0, ⟨by omega, [], rfl, rfl, by simp⟩, rfl⟩
  | case2 a b c rest hrest =>
    rw [decodeChars, if_pos rfl, if_pos hrest] at h
    cases h
  | case3 a b rest hrest =>
    rw [decodeChars, if_pos rfl, if_neg hrest, if_pos rfl] at h
    obtain ⟨i, j, ha, hb, rfl⟩ := one_eq_some h
    rw [not_not.mp hrest]
    refine ⟨1, 2, ⟨Nat.le_refl _, [a, b], rfl, rfl, ?_⟩, rfl⟩
    simp only [List.mem_cons, List.not_mem_nil, or_false, forall_eq_or_imp, forall_eq]
    exact ⟨value?_isSome.mp ⟨i, ha⟩, value?_isSome.mp ⟨j, hb⟩⟩
  | case4 a b c rest hrest hc =>
    rw [decodeChars, if_pos rfl, if_neg hrest, if_neg hc] at h
    obtain ⟨i, j, k, ha, hb, hk, rfl⟩ := two_eq_some h
    rw [not_not.mp hrest]
    refine ⟨1, 1, ⟨by omega, [a, b, c], rfl, rfl, ?_⟩, rfl⟩
    simp only [List.mem_cons, List.not_mem_nil, or_false, forall_eq_or_imp, forall_eq]
    exact ⟨value?_isSome.mp ⟨i, ha⟩, value?_isSome.mp ⟨j, hb⟩, value?_isSome.mp ⟨k, hk⟩⟩
  | case5 a b c d rest hd ih =>
    rw [decodeChars, if_neg hd] at h
    simp only [Option.bind_eq_bind, Option.bind_eq_some_iff] at h
    obtain ⟨bytes', h3, more, hmore, heq⟩ := h
    cases heq
    obtain ⟨i, j, k, l, ha, hb, hc, hl, rfl⟩ := three_eq_some h3
    obtain ⟨n, pad, ⟨hpad, ds, rfl, hlen, hds⟩, hbytes⟩ := ih hmore
    refine ⟨n + 1, pad, ⟨hpad, a :: b :: c :: d :: ds, rfl, ?_, ?_⟩, ?_⟩
    · simp only [List.length_cons]
      omega
    · simp only [List.mem_cons, forall_eq_or_imp]
      exact ⟨value?_isSome.mp ⟨i, ha⟩, value?_isSome.mp ⟨j, hb⟩, value?_isSome.mp ⟨k, hc⟩,
        value?_isSome.mp ⟨l, hl⟩, hds⟩
    · simp only [List.length_append, List.length_cons, List.length_nil]
      omega
  | case6 cs h1 h2 =>
    rw [decodeChars] at h
    · cases h
    · exact h1
    · exact h2

/-- A text that is spelled in groups is accepted. -/
theorem Spelled.decodes {k pad : Nat} {cs : List Char} (h : Spelled k pad cs) :
    ∃ bytes, decodeChars cs = some bytes ∧ bytes.length + pad = 3 * k := by
  induction k generalizing cs with
  | zero =>
    obtain ⟨_, ds, rfl, hlen, _⟩ := h
    obtain ⟨hds, hpad⟩ : ds.length = 0 ∧ pad = 0 := by omega
    rw [List.length_eq_zero_iff.mp hds, hpad]
    exact ⟨[], rfl, rfl⟩
  | succ k ih =>
    obtain ⟨hpad, ds, rfl, hlen, hds⟩ := h
    match ds, hlen, hds with
    | a :: b :: c :: d :: ds, hlen, hds =>
      simp only [List.mem_cons, forall_eq_or_imp] at hds
      obtain ⟨ha, hb, hc, hd, hds⟩ := hds
      obtain ⟨more, hmore, hbytes⟩ := ih ⟨hpad, ds, rfl, by simp at hlen; omega, hds⟩
      have hne : d ≠ '=' := fun heq => pad_notMem_alphabet (heq ▸ hd)
      obtain ⟨i, hi⟩ := value?_isSome.mpr ha
      obtain ⟨j, hj⟩ := value?_isSome.mpr hb
      obtain ⟨l, hl⟩ := value?_isSome.mpr hc
      obtain ⟨m, hm⟩ := value?_isSome.mpr hd
      rw [List.cons_append, List.cons_append, List.cons_append, List.cons_append, decodeChars,
        if_neg hne, three, hi, hj, hl, hm, hmore]
      refine ⟨_, rfl, ?_⟩
      simp only [List.length_append, List.length_cons, List.length_nil]
      omega
    | [a, b, c], hlen, hds =>
      obtain ⟨rfl, rfl⟩ : k = 0 ∧ pad = 1 := by simp at hlen; omega
      simp only [List.mem_cons, List.not_mem_nil, or_false, forall_eq_or_imp, forall_eq] at hds
      obtain ⟨ha, hb, hc⟩ := hds
      have hne : c ≠ '=' := fun heq => pad_notMem_alphabet (heq ▸ hc)
      obtain ⟨i, hi⟩ := value?_isSome.mpr ha
      obtain ⟨j, hj⟩ := value?_isSome.mpr hb
      obtain ⟨l, hl⟩ := value?_isSome.mpr hc
      refine ⟨[UInt8.ofNat (i * 4 + j / 16), UInt8.ofNat (j % 16 * 16 + l / 4)], ?_, rfl⟩
      simp [decodeChars, hne, two, hi, hj, hl]
    | [a, b], hlen, hds =>
      obtain ⟨rfl, rfl⟩ : k = 0 ∧ pad = 2 := by simp at hlen; omega
      simp only [List.mem_cons, List.not_mem_nil, or_false, forall_eq_or_imp, forall_eq] at hds
      obtain ⟨i, hi⟩ := value?_isSome.mpr hds.1
      obtain ⟨j, hj⟩ := value?_isSome.mpr hds.2
      refine ⟨[UInt8.ofNat (i * 4 + j / 16)], ?_, rfl⟩
      simp [List.replicate, decodeChars, one, hi, hj]
    | [a], hlen, _ | [], hlen, _ =>
      simp at hlen
      omega

/-! ## Which text is the encoding -/

/-- The low bits of a padded last group that stand for no byte are zero. -/
def Tight : List Char → Prop
  | _ :: b :: c :: d :: rest =>
    if d = '=' then
      if c = '=' then ∀ i, value? b = some i → i % 16 = 0
      else ∀ i, value? c = some i → i % 4 = 0
    else Tight rest
  | _ => True

theorem toNat_ofNat {n : Nat} (h : n < 256) : (UInt8.ofNat n).toNat = n :=
  UInt8.toNat_ofNat_of_lt h

theorem digit_inj {i j : Nat} (hi : i < 64) (hj : j < 64) : digit i = digit j ↔ i = j := by
  constructor
  · intro h
    have := congrArg value? h
    rw [value?_digit hi, value?_digit hj] at this
    exact Option.some.inj this
  · rintro rfl
    rfl

/-- **Encoding inverts decoding on the tight texts**, and on no other. -/
theorem encodeChars_decodeChars {cs : List Char} {bytes : List UInt8}
    (h : decodeChars cs = some bytes) : encodeChars bytes = cs ↔ Tight cs := by
  induction cs using decodeChars.induct generalizing bytes with
  | case1 =>
    cases h
    simp [encodeChars, Tight]
  | case2 a b c rest hrest =>
    rw [decodeChars, if_pos rfl, if_pos hrest] at h
    cases h
  | case3 a b rest hrest =>
    rw [decodeChars, if_pos rfl, if_neg hrest, if_pos rfl] at h
    obtain ⟨i, j, ha, hb, rfl⟩ := one_eq_some h
    obtain ⟨rfl, hi⟩ := digit_value? ha
    obtain ⟨rfl, hj⟩ := digit_value? hb
    have hx : (UInt8.ofNat (i * 4 + j / 16)).toNat = i * 4 + j / 16 :=
      toNat_ofNat (by omega)
    rw [not_not.mp hrest, encodeChars, hx, Tight, if_pos rfl, if_pos rfl, hb]
    simp only [List.cons.injEq, Option.some.injEq, forall_eq', and_true]
    rw [digit_inj (by omega) hi, digit_inj (by omega) hj]
    omega
  | case4 a b c rest hrest hc =>
    rw [decodeChars, if_pos rfl, if_neg hrest, if_neg hc] at h
    obtain ⟨i, j, k, ha, hb, hk, rfl⟩ := two_eq_some h
    obtain ⟨rfl, hi⟩ := digit_value? ha
    obtain ⟨rfl, hj⟩ := digit_value? hb
    obtain ⟨rfl, hk'⟩ := digit_value? hk
    have hx : (UInt8.ofNat (i * 4 + j / 16)).toNat = i * 4 + j / 16 :=
      toNat_ofNat (by omega)
    have hy : (UInt8.ofNat (j % 16 * 16 + k / 4)).toNat = j % 16 * 16 + k / 4 :=
      toNat_ofNat (by omega)
    rw [not_not.mp hrest, encodeChars, hx, hy, Tight, if_pos rfl, if_neg hc, hk]
    simp only [List.cons.injEq, Option.some.injEq, forall_eq', and_true]
    rw [digit_inj (by omega) hi, digit_inj (by omega) hj, digit_inj (by omega) hk']
    omega
  | case5 a b c d rest hd ih =>
    rw [decodeChars, if_neg hd] at h
    simp only [Option.bind_eq_bind, Option.bind_eq_some_iff] at h
    obtain ⟨bytes', h3, more, hmore, heq⟩ := h
    cases heq
    obtain ⟨i, j, k, l, ha, hb, hc, hl, rfl⟩ := three_eq_some h3
    obtain ⟨rfl, hi⟩ := digit_value? ha
    obtain ⟨rfl, hj⟩ := digit_value? hb
    obtain ⟨rfl, hk⟩ := digit_value? hc
    obtain ⟨rfl, hl'⟩ := digit_value? hl
    have hx : (UInt8.ofNat (i * 4 + j / 16)).toNat = i * 4 + j / 16 :=
      toNat_ofNat (by omega)
    have hy : (UInt8.ofNat (j % 16 * 16 + k / 4)).toNat = j % 16 * 16 + k / 4 :=
      toNat_ofNat (by omega)
    have hz : (UInt8.ofNat (k % 4 * 64 + l)).toNat = k % 4 * 64 + l :=
      toNat_ofNat (by omega)
    rw [List.cons_append, List.cons_append, List.cons_append, List.nil_append, encodeChars,
      hx, hy, hz, Tight, if_neg hd, ← ih hmore]
    -- the four digits come back as they were
    have h1 : (i * 4 + j / 16) / 4 = i := by omega
    have h2 : (i * 4 + j / 16) % 4 * 16 + (j % 16 * 16 + k / 4) / 16 = j := by omega
    have h3 : (j % 16 * 16 + k / 4) % 16 * 4 + (k % 4 * 64 + l) / 64 = k := by omega
    have h4 : (k % 4 * 64 + l) % 64 = l := by omega
    simp only [h1, h2, h3, h4, List.cons.injEq, true_and]
  | case6 cs h1 h2 =>
    rw [decodeChars] at h
    · cases h
    · exact h1
    · exact h2

/-- Two tight texts with the same bytes are equal. -/
theorem Tight.inj {cs cs' : List Char} {bytes : List UInt8} (h : Tight cs) (h' : Tight cs')
    (hcs : decodeChars cs = some bytes) (hcs' : decodeChars cs' = some bytes) : cs = cs' :=
  ((encodeChars_decodeChars hcs).mpr h).symm.trans ((encodeChars_decodeChars hcs').mpr h')

/-- A text with one pad is tight if four divides its last digit. -/
theorem tight_append {k : Nat} {ds : List Char} {c : Char} (hlen : ds.length = 4 * k + 2)
    (hds : ∀ d ∈ ds, d ∈ alphabet) (hc : c ∈ alphabet) :
    Tight (ds ++ [c, '=']) ↔ ∀ i, value? c = some i → i % 4 = 0 := by
  induction k generalizing ds with
  | zero =>
    obtain ⟨a, b, rfl⟩ := List.length_eq_two.mp hlen
    have hne : c ≠ '=' := fun heq => pad_notMem_alphabet (heq ▸ hc)
    rw [List.cons_append, List.cons_append, List.nil_append, Tight, if_pos rfl, if_neg hne]
  | succ k ih =>
    match ds, hlen, hds with
    | a :: b :: c' :: d :: ds, hlen, hds =>
      simp only [List.mem_cons, forall_eq_or_imp] at hds
      obtain ⟨_, _, _, hd, hds⟩ := hds
      have hne : d ≠ '=' := fun heq => pad_notMem_alphabet (heq ▸ hd)
      rw [List.cons_append, List.cons_append, List.cons_append, List.cons_append, Tight,
        if_neg hne]
      exact ih (by simp at hlen; omega) hds
    | [_, _, _], hlen, _ | [_, _], hlen, _ | [_], hlen, _ | [], hlen, _ =>
      simp only [List.length_cons, List.length_nil] at hlen
      omega

end QkdEkm.Lib.Base64
