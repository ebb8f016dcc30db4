import Mathlib.Order.Basic
import QkdEkm.Lib.Decimal

/-!
# Log — the lines that the services write

A record is written as one line that begins with the local time. All
numbers of the time have leading zeros, so that the texts of two times
are ordered as the times are (`formatTime_lt_iff`).
-/

namespace QkdEkm.Common

open QkdEkm.Lib

/-- A local time, to the millisecond. The year has four digits. -/
@[ext] structure Stamp where
  year : Nat
  month : Nat
  day : Nat
  hour : Nat
  minute : Nat
  second : Nat
  msecs : Nat
  year_ge : 1000 ≤ year
  year_le : year ≤ 9999
  month_le : month ≤ 12
  day_le : day ≤ 31
  hour_lt : hour < 24
  minute_lt : minute < 60
  second_lt : second < 60
  msecs_lt : msecs < 1000
  deriving DecidableEq, Repr

namespace Stamp

/-- The numbers of a time, the greatest unit first. -/
def units (s : Stamp) : List Nat :=
  [s.year, s.month, s.day, s.hour, s.minute, s.second, s.msecs]

theorem units_inj : Function.Injective units := by
  intro s t h
  simp only [units, List.cons.injEq, and_true] at h
  obtain ⟨hyear, hmonth, hday, hhour, hminute, hsecond, hmsecs⟩ := h
  exact Stamp.ext hyear hmonth hday hhour hminute hsecond hmsecs

/-- Times in their order. -/
instance : LinearOrder Stamp := LinearOrder.lift' units units_inj

theorem lt_iff {s t : Stamp} : s < t ↔ s.units < t.units := Iff.rfl

end Stamp

/-- `_Fmt.formatTime`. -/
def formatTime (created : Stamp) : List Char :=
  decimal 4 created.year ++ '-' :: (decimal 2 created.month ++ '-' :: (decimal 2 created.day ++ ' ' ::
    (decimal 2 created.hour ++ ':' :: (decimal 2 created.minute ++ ':' ::
      (decimal 2 created.second ++ '.' :: decimal 3 created.msecs)))))

/-- What a component logs. -/
structure Record where
  created : Stamp
  name : List Char
  message : List Char
  deriving DecidableEq, Repr

/-- `%(asctime)s %(name)s: %(message)s`. -/
def format (record : Record) : List Char :=
  formatTime record.created ++ ' ' :: (record.name ++ ':' :: ' ' :: record.message)

/-- What `LOG_FILE` holds after the records. -/
def logFile (records : List Record) : List Char :=
  records.flatMap fun record => format record ++ ['\n']

/-- A number of fixed width in front is compared first. -/
theorem field_lt_iff {w m n : Nat} (hw : 0 < w) (hm : m < 10 ^ w) (hn : n < 10 ^ w) {c : Char}
    {x y : List Char} :
    decimal w m ++ c :: x < decimal w n ++ c :: y ↔ m < n ∨ m = n ∧ x < y := by
  have hlen : (decimal w m).length = (decimal w n).length := by
    rw [decimal_length hw hm, decimal_length hw hn]
  rw [append_lt_append_iff hlen, decimal_lt_iff hw hm hn, decimal_inj hw hm hn,
    List.cons_lt_cons_iff]
  simp

/-- **The texts of times are ordered as the times.** -/
theorem formatTime_lt_iff {s t : Stamp} : formatTime s < formatTime t ↔ s < t := by
  have hyear : ∀ u : Stamp, u.year < 10 ^ 4 := fun u => by have := u.year_le; omega
  have hmonth : ∀ u : Stamp, u.month < 10 ^ 2 := fun u => by have := u.month_le; omega
  have hday : ∀ u : Stamp, u.day < 10 ^ 2 := fun u => by have := u.day_le; omega
  have hhour : ∀ u : Stamp, u.hour < 10 ^ 2 := fun u => by have := u.hour_lt; omega
  have hminute : ∀ u : Stamp, u.minute < 10 ^ 2 := fun u => by have := u.minute_lt; omega
  have hsecond : ∀ u : Stamp, u.second < 10 ^ 2 := fun u => by have := u.second_lt; omega
  have hmsecs : ∀ u : Stamp, u.msecs < 10 ^ 3 := fun u => by have := u.msecs_lt; omega
  have h2 : 0 < 2 := by omega
  rw [formatTime, formatTime, field_lt_iff (by omega) (hyear s) (hyear t),
    field_lt_iff h2 (hmonth s) (hmonth t), field_lt_iff h2 (hday s) (hday t),
    field_lt_iff h2 (hhour s) (hhour t), field_lt_iff h2 (hminute s) (hminute t),
    field_lt_iff h2 (hsecond s) (hsecond t), decimal_lt_iff (by omega) (hmsecs s) (hmsecs t),
    Stamp.lt_iff]
  simp only [Stamp.units, List.cons_lt_cons_iff, List.not_lt_nil, and_false, or_false]

theorem formatTime_le_iff {s t : Stamp} : formatTime s ≤ formatTime t ↔ s ≤ t := by
  rw [← not_lt, ← not_lt, formatTime_lt_iff]

end QkdEkm.Common
