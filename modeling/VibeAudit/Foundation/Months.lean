import VibeAudit.Foundation.Calendar

/-!
# Months

Months are counted from the first one of the year 0. The days of a month are the
days from its first day up to the first day of the next, so the months are laid
end to end and each has at least 28 days.
-/

namespace VibeAudit.Foundation

def monthIndex (days : Int) : Int :=
  (civilFromDays days).year * 12 + ((civilFromDays days).month - 1 : Int)

def firstDay (month : Int) : Int := daysFromCivil ⟨month / 12, (month % 12).toNat + 1, 1⟩

/-- The last of February 2026. -/
example : firstDay (monthIndex 20512) = 20485 := by decide

/-- A month has 28 days at least. -/
theorem firstDay_succ_le (month : Int) : firstDay month + 28 ≤ firstDay (month + 1) := by
  obtain ⟨k, hk⟩ : ∃ k, k = (month % 12).toNat := ⟨_, rfl⟩
  have hk' : k < 12 := by omega
  by_cases hlast : k = 11
  · have hyear : (month + 1) / 12 = month / 12 + 1 := by omega
    have hnext : ((month + 1) % 12).toNat = 0 := by omega
    simp only [firstDay, daysFromCivil, ← hk, hyear, hnext, hlast]
    norm_num
    omega
  · have hyear : (month + 1) / 12 = month / 12 := by omega
    have hnext : ((month + 1) % 12).toNat = k + 1 := by omega
    simp only [firstDay, daysFromCivil, ← hk, hyear, hnext]
    generalize month / 12 = year
    interval_cases k <;> norm_num <;> omega

theorem firstDay_le {m n : Int} (h : m ≤ n) : firstDay m + 28 * (n - m) ≤ firstDay n := by
  obtain ⟨k, rfl⟩ := Int.le.dest h
  induction k with
  | zero => simp
  | succ k ih =>
    have hstep := firstDay_succ_le (m + k)
    have hfront := ih (by omega)
    push_cast at hfront ⊢
    rw [add_assoc] at hstep
    omega

/-- The first day of the month that begins in March of a year of an era, or some months later. -/
theorem firstDay_of_march (era : Int) {yearOfEra : Nat} (hyear : yearOfEra ≤ 399)
    (marchMonth : Nat) (hmarch : marchMonth ≤ 11) :
    firstDay ((yearOfEra + era * 400) * 12 + marchMonth + 2) + 719468 =
      era * 146097 + (365 * yearOfEra + yearOfEra / 4 - yearOfEra / 100 +
        (153 * marchMonth + 2) / 5 : Nat) := by
  have hera : (yearOfEra + era * 400) / 400 = era := by omega
  have hmod : (yearOfEra + era * 400) % 400 = yearOfEra := by omega
  by_cases hspring : marchMonth ≤ 9
  · have hquot : ((yearOfEra + era * 400) * 12 + marchMonth + 2) / 12 = yearOfEra + era * 400 := by
      omega
    have hrem : (((yearOfEra + era * 400) * 12 + marchMonth + 2) % 12).toNat = marchMonth + 2 := by
      omega
    simp only [firstDay, daysFromCivil, hquot, hrem]
    rw [if_neg (by omega), if_neg (by omega), hera, hmod]
    push_cast
    omega
  · have hquot : ((yearOfEra + era * 400) * 12 + marchMonth + 2) / 12 =
        yearOfEra + era * 400 + 1 := by
      omega
    have hrem : (((yearOfEra + era * 400) * 12 + marchMonth + 2) % 12).toNat = marchMonth - 10 := by
      omega
    simp only [firstDay, daysFromCivil, hquot, hrem]
    rw [if_pos (by omega), if_pos (by omega), add_sub_cancel_right, hera, hmod]
    have hmonth : marchMonth - 10 + 1 + 9 = marchMonth := by omega
    rw [hmonth]
    push_cast
    omega

/-- A day is in its month, on the day of the month. -/
theorem monthIndex_spec (days : Int) :
    1 ≤ (civilFromDays days).day ∧
      days = firstDay (monthIndex days) + ((civilFromDays days).day - 1 : Int) ∧
      days < firstDay (monthIndex days + 1) := by
  obtain ⟨era, yearOfEra, dayOfYear, marchMonth, hyear, hday, hmarch, hdays, hmonth, hdom, hy,
    hlast⟩ := civilFromDays_spec days
  have hle : marchMonth ≤ 11 := by omega
  have hindex : monthIndex days = (yearOfEra + era * 400) * 12 + marchMonth + 2 := by
    rw [monthIndex, hmonth, hy]
    split_ifs <;> push_cast <;> omega
  have hfirst := firstDay_of_march era hyear marchMonth hle
  rw [hindex, hdom]
  refine ⟨by omega, by omega, ?_⟩
  by_cases hfeb : marchMonth = 11
  · -- the next month begins the next year of the era, or the next era
    unfold daysBeforeYear at hlast
    by_cases hera : yearOfEra = 399
    · have hnext := firstDay_of_march (era + 1) (Nat.zero_le 399) 0 (Nat.zero_le 11)
      have hmonths : ((0 : Nat) + (era + 1) * 400) * 12 + (0 : Nat) + 2 =
          (yearOfEra + era * 400) * 12 + marchMonth + 2 + 1 := by
        omega
      rw [hmonths] at hnext
      subst hera
      omega
    · have hnext := firstDay_of_march era (show yearOfEra + 1 ≤ 399 by omega) 0
        (Nat.zero_le 11)
      have hmonths : ((yearOfEra + 1 : Nat) + era * 400) * 12 + (0 : Nat) + 2 =
          (yearOfEra + era * 400) * 12 + marchMonth + 2 + 1 := by
        omega
      rw [hmonths] at hnext
      omega
  · have hnext := firstDay_of_march era hyear (marchMonth + 1) (by omega)
    have hmonths : (yearOfEra + era * 400) * 12 + (marchMonth + 1 : Nat) + 2 =
        (yearOfEra + era * 400) * 12 + marchMonth + 2 + 1 := by
      push_cast
      omega
    rw [hmonths] at hnext
    omega

/-- A month is the days from its first one to that of the next. -/
theorem monthIndex_eq_iff {days month : Int} :
    monthIndex days = month ↔ firstDay month ≤ days ∧ days < firstDay (month + 1) := by
  obtain ⟨hday, heq, hlt⟩ := monthIndex_spec days
  constructor
  · rintro rfl
    omega
  · rintro ⟨hle, hgt⟩
    rcases lt_trichotomy (monthIndex days) month with h | h | h
    · have hmono := firstDay_le (show monthIndex days + 1 ≤ month by omega)
      omega
    · exact h
    · have hmono := firstDay_le (show month + 1 ≤ monthIndex days by omega)
      omega

theorem monthIndex_firstDay (month : Int) : monthIndex (firstDay month) = month := by
  have hsucc := firstDay_succ_le month
  rw [monthIndex_eq_iff]
  omega

theorem monthIndex_mono {d e : Int} (h : d ≤ e) : monthIndex d ≤ monthIndex e := by
  by_contra hlt
  have hmono := firstDay_le (show monthIndex e + 1 ≤ monthIndex d by omega)
  have hd := monthIndex_spec d
  have he := monthIndex_spec e
  omega

/-- A month has begun by a day exactly if it is the day's month or an earlier one. -/
theorem firstDay_le_iff {month days : Int} : firstDay month ≤ days ↔ month ≤ monthIndex days := by
  constructor
  · intro h
    simpa only [monthIndex_firstDay] using monthIndex_mono h
  · intro h
    have hfirst := (monthIndex_eq_iff.mp (rfl : monthIndex days = _)).1
    have hmono := firstDay_le h
    omega

theorem month_bounds (days : Int) :
    1 ≤ (civilFromDays days).month ∧ (civilFromDays days).month ≤ 12 := by
  obtain ⟨_, _, dayOfYear, marchMonth, -, hday, hmarch, -, hmonth, -⟩ := civilFromDays_spec days
  rw [hmonth]
  split_ifs <;> omega

theorem firstDay_eq {month : Nat} (hpos : 1 ≤ month) (hle : month ≤ 12) (year : Int) :
    firstDay (year * 12 + (month - 1 : Int)) = daysFromCivil ⟨year, month, 1⟩ := by
  have hquot : (year * 12 + (month - 1 : Int)) / 12 = year := by omega
  have hrem : ((year * 12 + (month - 1 : Int)) % 12).toNat + 1 = month := by omega
  rw [firstDay, hquot, hrem]

/-- A day is the first of its month if its date says so. -/
theorem day_eq_one_iff (days : Int) :
    (civilFromDays days).day = 1 ↔ days = firstDay (monthIndex days) := by
  obtain ⟨hday, heq, -⟩ := monthIndex_spec days
  omega

end VibeAudit.Foundation
