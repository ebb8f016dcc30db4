import Mathlib.Data.Char
import Mathlib.Data.List.Lex
import Mathlib.Tactic.IntervalCases

/-!
# Decimal — numbers in fields of a fixed width

A number written with leading zeros to a fixed width: as long as it fits,
the texts of two numbers are ordered as the numbers are, which is why a
text made of such fields sorts as its numbers do.
-/

namespace QkdEkm.Lib

/-- `f"{n:0{w}d}"`. -/
def decimal (w n : Nat) : List Char := (Nat.toDigits 10 n).leftpad w '0'

theorem decimal_one {n : Nat} (hn : n < 10) : decimal 1 n = [n.digitChar] := by
  rw [decimal, Nat.toDigits_of_lt_base hn]
  rfl

/-- The last digit comes off the end. -/
theorem decimal_succ {w n : Nat} (hw : 0 < w) :
    decimal (w + 1) n = decimal w (n / 10) ++ [(n % 10).digitChar] := by
  unfold decimal
  rw [Nat.toDigits_eq_if (b := 10) (n := n) (by omega)]
  split
  · rename_i hlt
    obtain ⟨k, rfl⟩ : ∃ k, w = k + 1 := ⟨w - 1, by omega⟩
    have hzeros : List.replicate (k + 1) '0' = List.replicate k '0' ++ ['0'] :=
      List.replicate_succ' ..
    simp [List.leftpad, Nat.div_eq_of_lt hlt, Nat.mod_eq_of_lt hlt, hzeros]
  · simp [List.leftpad]

theorem decimal_length {w n : Nat} (hw : 0 < w) (hn : n < 10 ^ w) : (decimal w n).length = w := by
  obtain ⟨k, rfl⟩ : ∃ k, w = k + 1 := ⟨w - 1, by omega⟩
  induction k generalizing n with
  | zero =>
    rw [decimal_one (by simpa using hn)]
    rfl
  | succ k ih =>
    have hdiv : n / 10 < 10 ^ (k + 1) := by
      rw [Nat.pow_succ] at hn
      omega
    rw [decimal_succ (Nat.succ_pos k), List.length_append, ih (Nat.succ_pos k) hdiv]
    rfl

theorem digitChar_isDigit {d : Nat} (hd : d < 10) : d.digitChar.isDigit = true := by
  interval_cases d <;> rfl

theorem decimal_digits {w n : Nat} (hw : 0 < w) (hn : n < 10 ^ w) :
    ∀ c ∈ decimal w n, c.isDigit = true := by
  obtain ⟨k, rfl⟩ : ∃ k, w = k + 1 := ⟨w - 1, by omega⟩
  induction k generalizing n with
  | zero =>
    rw [decimal_one (by simpa using hn)]
    simpa using digitChar_isDigit (by simpa using hn)
  | succ k ih =>
    have hdiv : n / 10 < 10 ^ (k + 1) := by
      rw [Nat.pow_succ] at hn
      omega
    rw [decimal_succ (Nat.succ_pos k)]
    intro c hc
    rcases List.mem_append.mp hc with hc | hc
    · exact ih (Nat.succ_pos k) hdiv c hc
    · rw [List.mem_singleton.mp hc]
      exact digitChar_isDigit (Nat.mod_lt n (by omega))

/-! ## Order -/

/-- Texts whose first fields have one width are ordered field by field. -/
theorem append_lt_append_iff {a b x y : List Char} (h : a.length = b.length) :
    a ++ x < b ++ y ↔ a < b ∨ a = b ∧ x < y := by
  induction a generalizing b with
  | nil =>
    obtain rfl : b = [] := List.length_eq_zero_iff.mp h.symm
    simp
  | cons c a ih =>
    obtain ⟨d, b, rfl⟩ := List.exists_cons_of_length_eq_add_one h.symm
    have hlen : a.length = b.length := by simpa using h
    rw [List.cons_append, List.cons_append, List.cons_lt_cons_iff, List.cons_lt_cons_iff, ih hlen,
      List.cons.injEq]
    tauto

theorem eq_iff_of_lt_iff {a b : List Char} {m n : Nat} (hlt : a < b ↔ m < n)
    (hgt : b < a ↔ n < m) : a = b ↔ m = n := by
  constructor
  · rintro rfl
    have hle : ¬ m < n := fun h => lt_irrefl a (hlt.mpr h)
    have hge : ¬ n < m := fun h => lt_irrefl a (hgt.mpr h)
    omega
  · rintro rfl
    have hle : ¬ a < b := fun h => lt_irrefl m (hlt.mp h)
    have hge : ¬ b < a := fun h => lt_irrefl m (hgt.mp h)
    exact le_antisymm (not_lt.mp hge) (not_lt.mp hle)

theorem digitChar_lt_iff {d e : Nat} (hd : d < 10) (he : e < 10) :
    [d.digitChar] < [e.digitChar] ↔ d < e := by
  interval_cases d <;> interval_cases e <;> decide

/-- **Numbers in fields of one width are ordered as their texts.** -/
theorem decimal_lt_iff {w m n : Nat} (hw : 0 < w) (hm : m < 10 ^ w) (hn : n < 10 ^ w) :
    decimal w m < decimal w n ↔ m < n := by
  obtain ⟨k, rfl⟩ : ∃ k, w = k + 1 := ⟨w - 1, by omega⟩
  induction k generalizing m n with
  | zero =>
    have hm : m < 10 := by simpa using hm
    have hn : n < 10 := by simpa using hn
    rw [decimal_one hm, decimal_one hn]
    exact digitChar_lt_iff hm hn
  | succ k ih =>
    have hpos : 0 < k + 1 := Nat.succ_pos k
    rw [Nat.pow_succ] at hm hn
    have hm' : m / 10 < 10 ^ (k + 1) := by omega
    have hn' : n / 10 < 10 ^ (k + 1) := by omega
    have hlen : (decimal (k + 1) (m / 10)).length = (decimal (k + 1) (n / 10)).length := by
      rw [decimal_length hpos hm', decimal_length hpos hn']
    rw [decimal_succ hpos, decimal_succ hpos, append_lt_append_iff hlen, ih hpos hm' hn',
      digitChar_lt_iff (Nat.mod_lt m (by omega)) (Nat.mod_lt n (by omega))]
    have hsame : decimal (k + 1) (m / 10) = decimal (k + 1) (n / 10) ↔ m / 10 = n / 10 :=
      eq_iff_of_lt_iff (ih hpos hm' hn') (ih hpos hn' hm')
    rw [hsame]
    omega

theorem decimal_inj {w m n : Nat} (hw : 0 < w) (hm : m < 10 ^ w) (hn : n < 10 ^ w) :
    decimal w m = decimal w n ↔ m = n :=
  eq_iff_of_lt_iff (decimal_lt_iff hw hm hn) (decimal_lt_iff hw hn hm)

end QkdEkm.Lib
