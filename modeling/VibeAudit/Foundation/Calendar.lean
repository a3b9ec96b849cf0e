import Mathlib.Data.Int.Basic
import Mathlib.Tactic.IntervalCases

/-!
# Proleptic Gregorian dates

Dates are counted in days from 1970-01-01. `civilFromDays` splits a day number
into year, month and day by shifting to eras of 400 years that begin on the
first of March, so that leap days fall at the end of a year.
-/

namespace VibeAudit.Foundation

structure CivilDate where
  year : Int
  month : Nat
  day : Nat
  deriving DecidableEq, Repr

def civilFromDays (days : Int) : CivilDate :=
  let shifted := days + 719468
  let era := shifted / 146097
  let dayOfEra := (shifted % 146097).toNat
  let yearOfEra :=
    (dayOfEra - dayOfEra / 1460 + dayOfEra / 36524 - dayOfEra / 146096) / 365
  let dayOfYear := dayOfEra - (365 * yearOfEra + yearOfEra / 4 - yearOfEra / 100)
  let marchMonth := (5 * dayOfYear + 2) / 153
  let month := if marchMonth < 10 then marchMonth + 3 else marchMonth - 9
  { year := (yearOfEra : Int) + era * 400 + (if month ≤ 2 then 1 else 0)
    month := month
    day := dayOfYear - (153 * marchMonth + 2) / 5 + 1 }

def daysFromCivil (d : CivilDate) : Int :=
  let year := if d.month ≤ 2 then d.year - 1 else d.year
  let yearOfEra := year % 400
  let marchMonth := if d.month ≤ 2 then d.month + 9 else d.month - 3
  let dayOfYear := (153 * marchMonth + 2) / 5 + d.day - 1
  year / 400 * 146097 + (yearOfEra * 365 + yearOfEra / 4 - yearOfEra / 100 + dayOfYear) - 719468

/-- Leap day of a century year divisible by 400, and the day after it. -/
example : [11016, 11017].map civilFromDays = [⟨2000, 2, 29⟩, ⟨2000, 3, 1⟩] := by decide

example : daysFromCivil ⟨2000, 2, 29⟩ = 11016 := by decide

/-! ## From days to a date and back -/

/-- The days of an era by centuries, leap cycles and years; the last day of an era is left out,
since it would begin a fifth century. -/
theorem exists_dayOfEra {dayOfEra : Nat} (h : dayOfEra < 146096) :
    ∃ c q t u, dayOfEra = 36524 * c + 1461 * q + 365 * t + u ∧ c ≤ 3 ∧ q ≤ 24 ∧ t ≤ 3 ∧
      u ≤ 365 ∧ (u = 365 → t = 3 ∧ q < 24) := by
  obtain ⟨c, r, hr, rfl⟩ : ∃ c r, r < 36524 ∧ dayOfEra = 36524 * c + r :=
    ⟨dayOfEra / 36524, dayOfEra % 36524, by omega, by omega⟩
  obtain ⟨q, s, hs, rfl⟩ : ∃ q s, s < 1461 ∧ r = 1461 * q + s :=
    ⟨r / 1461, r % 1461, by omega, by omega⟩
  -- the leap day ends the last year of a cycle
  obtain ⟨t, u, ht, hu, hleap, rfl⟩ :
      ∃ t u, t ≤ 3 ∧ u ≤ 365 ∧ (u = 365 → t = 3) ∧ s = 365 * t + u := by
    by_cases hlast : s = 1460
    · exact ⟨3, 365, by omega, le_rfl, fun _ => rfl, hlast⟩
    · exact ⟨s / 365, s % 365, by omega, by omega, by omega, by omega⟩
  refine ⟨c, q, t, u, by omega, by omega, by omega, ht, hu, fun hlast => ?_⟩
  have hyear := hleap hlast
  exact ⟨hyear, by omega⟩

def daysBeforeYear (yearOfEra : Nat) : Nat :=
  365 * yearOfEra + yearOfEra / 4 - yearOfEra / 100 + yearOfEra / 400

/-- A year has 365 or 366 days. -/
theorem daysBeforeYear_succ {yearOfEra : Nat} (h : yearOfEra ≤ 399) :
    daysBeforeYear yearOfEra + 365 ≤ daysBeforeYear (yearOfEra + 1) ∧
      daysBeforeYear (yearOfEra + 1) ≤ daysBeforeYear yearOfEra + 366 := by
  have hall : ∀ year : Fin 400, daysBeforeYear year + 365 ≤ daysBeforeYear (year + 1) ∧
      daysBeforeYear (year + 1) ≤ daysBeforeYear year + 366 := by
    decide +kernel
  exact hall ⟨yearOfEra, by omega⟩

/-- The year of an era begins on its day or before it, and the next year after it. -/
theorem yearOfEra_spec {dayOfEra yearOfEra : Nat} (h : dayOfEra < 146097)
    (hyear : yearOfEra =
      (dayOfEra - dayOfEra / 1460 + dayOfEra / 36524 - dayOfEra / 146096) / 365) :
    yearOfEra ≤ 399 ∧ daysBeforeYear yearOfEra ≤ dayOfEra ∧
      dayOfEra < daysBeforeYear (yearOfEra + 1) := by
  unfold daysBeforeYear
  by_cases hlast : dayOfEra = 146096
  · subst hlast
    obtain rfl : yearOfEra = 399 := by omega
    decide
  · have hday : dayOfEra < 146096 := by omega
    obtain ⟨c, q, t, u, hsum, hc, hq, ht, hu, hleap⟩ := exists_dayOfEra hday
    have hcentury : dayOfEra / 36524 = c := by omega
    have hera : dayOfEra / 146096 = 0 := by omega
    -- what the leap days add up to may begin one more cycle
    obtain ⟨e, he⟩ : ∃ e, e = (24 * c + q + 365 * t + u) / 1460 := ⟨_, rfl⟩
    have hcycle : dayOfEra / 1460 = 25 * c + q + e := by omega
    have heq : yearOfEra = 100 * c + 4 * q + t := by
      have hone : e ≤ 1 := by omega
      rw [hyear, hcentury, hera, hcycle]
      interval_cases e <;> omega
    clear hyear hcycle he hera hcentury
    have hfour : yearOfEra / 4 = 25 * c + q := by omega
    have hhundred : yearOfEra / 100 = c := by omega
    have hnext : (yearOfEra + 1) / 4 = 25 * c + q + (if t = 3 then 1 else 0) := by
      split_ifs <;> omega
    have hnextHundred : (yearOfEra + 1) / 100 = c + (if t = 3 ∧ q = 24 then 1 else 0) := by
      split_ifs <;> omega
    split_ifs at hnext hnextHundred <;> omega

/-- Day, month and year, counted from March. -/
theorem civilFromDays_spec (days : Int) :
    ∃ (era : Int) (yearOfEra dayOfYear marchMonth : Nat), yearOfEra ≤ 399 ∧ dayOfYear ≤ 365 ∧
      marchMonth = (5 * dayOfYear + 2) / 153 ∧
      days + 719468 = era * 146097 +
        (365 * yearOfEra + yearOfEra / 4 - yearOfEra / 100 + dayOfYear : Nat) ∧
      (civilFromDays days).month = (if marchMonth < 10 then marchMonth + 3 else marchMonth - 9) ∧
      (civilFromDays days).day = dayOfYear - (153 * marchMonth + 2) / 5 + 1 ∧
      (civilFromDays days).year = yearOfEra + era * 400 + (if 10 ≤ marchMonth then 1 else 0) ∧
      daysBeforeYear yearOfEra + dayOfYear < daysBeforeYear (yearOfEra + 1) := by
  have hlt : ((days + 719468) % 146097).toNat < 146097 := by omega
  obtain ⟨hyear, hle, hge⟩ := yearOfEra_spec hlt rfl
  refine ⟨(days + 719468) / 146097, _, _, _, hyear, ?_, rfl, ?_, rfl, rfl, ?_, ?_⟩
  · have hlength := (daysBeforeYear_succ hyear).2
    unfold daysBeforeYear at hle hge hlength
    exact Nat.sub_le_of_le_add (by omega)
  · unfold daysBeforeYear at hle
    rw [Nat.add_sub_of_le (Nat.le_of_add_right_le hle), Int.toNat_of_nonneg (by omega)]
    exact (Int.ediv_mul_add_emod _ _).symm
  · clear hyear hle hge hlt
    simp only [civilFromDays]
    split_ifs <;> omega
  · unfold daysBeforeYear at hle hge ⊢
    omega

theorem daysFromCivil_civilFromDays (days : Int) : daysFromCivil (civilFromDays days) = days := by
  obtain ⟨era, yearOfEra, dayOfYear, marchMonth, hyear, hday, hmarch, hdays, hmonth, hdom, hy, -⟩ :=
    civilFromDays_spec days
  have hle : marchMonth ≤ 11 := by omega
  simp only [daysFromCivil, hmonth, hdom, hy]
  split_ifs <;> omega

/-- The dates from 1970 on, up to the year 9999. -/
theorem civilFromDays_bounds {days : Int} (hpos : 0 ≤ days) (hlt : days < 2932897) :
    1 ≤ (civilFromDays days).year ∧ (civilFromDays days).year ≤ 9999 ∧
      (civilFromDays days).month < 100 ∧ (civilFromDays days).day < 100 := by
  obtain ⟨era, yearOfEra, dayOfYear, marchMonth, hyear, hday, hmarch, hdays, hmonth, hdom, hy, -⟩ :=
    civilFromDays_spec days
  have hle : marchMonth ≤ 11 := by omega
  refine ⟨?_, ?_, ?_, ?_⟩
  · rw [hy]
    split_ifs <;> omega
  · rw [hy]
    split_ifs <;> omega
  · rw [hmonth]
    split_ifs <;> omega
  · rw [hdom]
    omega

/-! ## Digits -/

/-- The number written by decimal digits. -/
def readDigits (cs : List Char) : Option Nat :=
  if cs.all Char.isDigit then some (cs.foldl (fun n c => 10 * n + (c.toNat - 48)) 0) else none

/-- Decimal digits of `n`, with leading zeros up to `width` characters. -/
def zeroPad (width n : Nat) : String :=
  let digits := (Nat.toDigits 10 n)
  String.ofList (List.replicate (width - digits.length) '0' ++ digits)

theorem isDigit_of_mem_zeroPad {width n : Nat} {c : Char} (h : c ∈ (zeroPad width n).toList) :
    c.isDigit = true := by
  rw [zeroPad, String.toList_ofList, List.mem_append, List.mem_replicate] at h
  rcases h with ⟨-, rfl⟩ | h
  · rfl
  · exact Nat.isDigit_of_mem_toDigits (by decide) (by decide) h

/-- Digits are read back, whatever zeros stand in front. -/
theorem readDigits_toDigits (k n : Nat) :
    readDigits (List.replicate k '0' ++ Nat.toDigits 10 n) = some n := by
  have hdigits : (List.replicate k '0' ++ Nat.toDigits 10 n).all Char.isDigit = true := by
    rw [List.all_append, List.all_replicate]
    have htoDigits : (Nat.toDigits 10 n).all Char.isDigit = true :=
      List.all_eq_true.mpr fun c hc => Nat.isDigit_of_mem_toDigits (by decide) (by decide) hc
    simp [htoDigits]
  have hvalue : Nat.ofDigitChars 10 (List.replicate k '0' ++ Nat.toDigits 10 n) 0 = n := by
    rw [Nat.ofDigitChars_append, Nat.ofDigitChars_replicate_zero, Nat.mul_zero,
      Nat.ofDigitChars_ten_toDigits]
  rw [readDigits, if_pos hdigits]
  exact congrArg some hvalue

theorem readDigits_zeroPad (width n : Nat) : readDigits (zeroPad width n).toList = some n := by
  rw [zeroPad, String.toList_ofList]
  exact readDigits_toDigits _ n

theorem length_zeroPad {width n : Nat} (hpos : 0 < width) (h : n < 10 ^ width) :
    (zeroPad width n).toList.length = width := by
  have hle := (Nat.length_toDigits_le_iff (b := 10) (by decide) hpos).mpr h
  rw [zeroPad, String.toList_ofList, List.length_append, List.length_replicate]
  omega

end VibeAudit.Foundation
