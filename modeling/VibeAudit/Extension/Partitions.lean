import VibeAudit.Extension.Events
import VibeAudit.Foundation.Machine
import VibeAudit.Foundation.Months
import VibeAudit.Foundation.Text

/-!
# `vibe_audit.ensure_partition`

Dates are days from 1970-01-01. A date literal in FOR VALUES becomes midnight of
the session's time zone, existence is looked up by name, and a partition that
overlaps another one is not created: the call fails.
-/

namespace VibeAudit.Extension

open Foundation

/-- A fixed offset, in seconds east of UTC; a session takes offsets of less than a week. -/
structure Zone where
  seconds : Int
  lower : -604800 < seconds
  upper : seconds < 604800

def utc : Zone := ⟨0, by decide, by decide⟩

/-- The instant at which a date begins, in microseconds. -/
def Zone.midnight (z : Zone) (date : Int) : Int := (date * 86400 - z.seconds) * 1000000

/-- `date_trunc('month', date)::DATE`. -/
def truncMonth (date : Int) : Int := daysFromCivil { civilFromDays date with day := 1 }

def nextMonth (d : CivilDate) : CivilDate :=
  if d.month = 12 then { year := d.year + 1, month := 1, day := 1 }
  else { year := d.year, month := d.month + 1, day := 1 }

/-- `(date + INTERVAL '1 month')::DATE`: the same day of the next month, or the last it has. -/
def addMonth (date : Int) : Int :=
  let d := civilFromDays date
  let next := nextMonth d
  let length := daysFromCivil (nextMonth next) - daysFromCivil next
  daysFromCivil next + min (d.day - 1 : Int) (length - 1)

/-- The last of January 2026, and a month later. -/
example : (civilFromDays 20484, civilFromDays (addMonth 20484)) =
    (⟨2026, 1, 31⟩, ⟨2026, 2, 28⟩) := by decide

/-- The year that `to_char` writes: years BC are counted from 1 and lose their sign. -/
def charYear (year : Int) : Nat := if year ≤ 0 then (1 - year).toNat else year.toNat

/-- `'events_' || to_char(start_date, 'YYYY_MM')`. -/
def partitionName (startDate : Int) : String :=
  let d := civilFromDays startDate
  "events_" ++ zeroPad 4 (charYear d.year) ++ "_" ++ zeroPad 2 d.month

structure Partition where
  name : String
  bounds : PartitionBounds
  deriving DecidableEq, Repr

def PartitionBounds.overlaps (a b : PartitionBounds) : Bool := a.start < b.stop && b.start < a.stop

/-- A call, with the time zone of its session. -/
structure EnsureCall where
  zone : Zone
  targetDate : Int

/-- The name returned, and the partitions after the call. -/
def ensurePartition (partitions : List Partition) (c : EnsureCall) :
    Option (String × List Partition) :=
  let startDate := truncMonth c.targetDate
  let endDate := addMonth startDate
  let name := partitionName startDate
  if partitions.any fun p => p.name == name then some (name, partitions)
  else
    let bounds := { start := c.zone.midnight startDate, stop := c.zone.midnight endDate }
    if partitions.any fun p => p.bounds.overlaps bounds then none
    else some (name, partitions ++ [{ name := name, bounds := bounds }])

/-- Calls one after the other, from no partitions on; `none` once one fails. -/
def ensureAll (calls : List EnsureCall) : Option (List Partition) :=
  run (fun partitions c => (ensurePartition partitions c).map Prod.snd) [] calls

/-! ## Months -/

theorem truncMonth_eq (date : Int) : truncMonth date = firstDay (monthIndex date) := by
  obtain ⟨hpos, hle⟩ := month_bounds date
  exact (firstDay_eq hpos hle _).symm

/-- The first day of the next month begins the next month. -/
theorem daysFromCivil_nextMonth {d : CivilDate} (hpos : 1 ≤ d.month) (hle : d.month ≤ 12) :
    daysFromCivil (nextMonth d) = firstDay (d.year * 12 + (d.month - 1 : Int) + 1) ∧
      1 ≤ (nextMonth d).month ∧ (nextMonth d).month ≤ 12 ∧
      (nextMonth d).year * 12 + ((nextMonth d).month - 1 : Int) =
        d.year * 12 + (d.month - 1 : Int) + 1 := by
  have hnext : 1 ≤ (nextMonth d).month ∧ (nextMonth d).month ≤ 12 ∧
      (nextMonth d).year * 12 + ((nextMonth d).month - 1 : Int) =
        d.year * 12 + (d.month - 1 : Int) + 1 := by
    unfold nextMonth
    split_ifs with hmonth
    · simp only [hmonth]
      omega
    · refine ⟨by simp only; omega, by simp only; omega, ?_⟩
      simp only [Nat.cast_add, Nat.cast_one]
      omega
  refine ⟨?_, hnext⟩
  have hday : (nextMonth d).day = 1 := by
    unfold nextMonth
    split_ifs <;> rfl
  rw [← hnext.2.2, firstDay_eq hnext.1 hnext.2.1, ← hday]

/-- A month later is a day of the next month, the first one for a first day. -/
theorem addMonth_spec (date : Int) : monthIndex (addMonth date) = monthIndex date + 1 ∧
    ((civilFromDays date).day = 1 → addMonth date = firstDay (monthIndex date + 1)) := by
  obtain ⟨hpos, hle⟩ := month_bounds date
  obtain ⟨hday, -, -⟩ := monthIndex_spec date
  obtain ⟨hfirst, hpos', hle', hindex⟩ := daysFromCivil_nextMonth hpos hle
  obtain ⟨hsecond, -⟩ := daysFromCivil_nextMonth hpos' hle'
  rw [hindex] at hsecond
  have hmonth : monthIndex date =
      (civilFromDays date).year * 12 + ((civilFromDays date).month - 1 : Int) := rfl
  rw [← hmonth] at hfirst hsecond
  have hlength := firstDay_succ_le (monthIndex date + 1)
  simp only [addMonth, hfirst, hsecond]
  rw [monthIndex_eq_iff]
  omega

theorem addMonth_firstDay (month : Int) : addMonth (firstDay month) = firstDay (month + 1) := by
  have hspec := (addMonth_spec (firstDay month)).2
  rw [monthIndex_firstDay] at hspec
  apply hspec
  rw [day_eq_one_iff, monthIndex_firstDay]

/-- The partition of a month, created in a time zone. -/
def monthName (month : Int) : String := partitionName (firstDay month)

def monthPartition (z : Zone) (month : Int) : Partition where
  name := monthName month
  bounds := { start := z.midnight (firstDay month), stop := z.midnight (firstDay (month + 1)) }

theorem ensurePartition_eq (partitions : List Partition) (c : EnsureCall) :
    (ensurePartition partitions c).map Prod.snd =
      if partitions.any fun p => p.name == monthName (monthIndex c.targetDate) then some partitions
      else if partitions.any fun p =>
          p.bounds.overlaps (monthPartition c.zone (monthIndex c.targetDate)).bounds then none
      else some (partitions ++ [monthPartition c.zone (monthIndex c.targetDate)]) := by
  simp only [ensurePartition, truncMonth_eq, addMonth_firstDay, monthPartition, monthName,
    apply_ite (Option.map Prod.snd)]
  rfl

theorem civilFromDays_firstDay (month : Int) :
    (civilFromDays (firstDay month)).year = month / 12 ∧
      (civilFromDays (firstDay month)).month = (month % 12).toNat + 1 := by
  have hindex := monthIndex_firstDay month
  obtain ⟨hpos, hle⟩ := month_bounds (firstDay month)
  unfold monthIndex at hindex
  omega

theorem zeroPad_inj {width m n : Nat} (h : zeroPad width m = zeroPad width n) : m = n := by
  have hread := congrArg (fun s : String => readDigits s.toList) h
  simpa only [readDigits_zeroPad, Option.some.injEq] using hread

/-- The name of a month tells its month and the digits of its year. -/
theorem monthName_eq_iff {m n : Int} : monthName m = monthName n ↔
    charYear (m / 12) = charYear (n / 12) ∧ m % 12 = n % 12 := by
  obtain ⟨hyear, hmonth⟩ := civilFromDays_firstDay m
  obtain ⟨hyear', hmonth'⟩ := civilFromDays_firstDay n
  have hdigits : ∀ width k, '_' ∉ (zeroPad width k).toList := by
    intro width k hmem
    exact absurd (isDigit_of_mem_zeroPad hmem) (by decide)
  have hmark : "_".toList = ['_'] := rfl
  have htext : ∀ k, (monthName k).toList = "events_".toList ++
      ((zeroPad 4 (charYear (civilFromDays (firstDay k)).year)).toList ++
        '_' :: (zeroPad 2 (civilFromDays (firstDay k)).month).toList) := by
    intro k
    simp only [monthName, partitionName, String.toList_append, List.append_assoc, hmark,
      List.singleton_append]
  constructor
  · intro h
    rw [← String.toList_inj, htext, htext, List.append_cancel_left_eq] at h
    have hcut := congrArg (Text.cutAt '_') h
    rw [Text.cutAt_append (hdigits _ _), Text.cutAt_append (hdigits _ _), Option.some.injEq,
      Prod.mk.injEq] at hcut
    have hy := zeroPad_inj (String.toList_inj.mp hcut.1)
    have hmo := zeroPad_inj (String.toList_inj.mp hcut.2)
    rw [hyear, hyear'] at hy
    exact ⟨hy, by omega⟩
  · rintro ⟨hy, hmo⟩
    simp only [monthName, partitionName, hyear, hyear', hy, hmonth, hmonth', hmo]

/-- Months AD have names of their own. -/
theorem monthName_inj {m n : Int} (hm : 12 ≤ m) (hn : 12 ≤ n) :
    monthName m = monthName n ↔ m = n := by
  rw [monthName_eq_iff, charYear, charYear, if_neg (by omega), if_neg (by omega)]
  omega

/-! ## Two partitions -/

/-- Partitions of different months overlap exactly if the months are neighbours and the later one
begins in a zone further east. -/
theorem overlaps_iff {m n : Int} (h : m < n) (z w : Zone) :
    (monthPartition z m).bounds.overlaps (monthPartition w n).bounds = true ↔
      n = m + 1 ∧ z.seconds < w.seconds := by
  have hz := z.lower
  have hz' := z.upper
  have hw := w.lower
  have hw' := w.upper
  have hm := firstDay_succ_le m
  have hn := firstDay_succ_le n
  have hmn := firstDay_le (show m + 1 ≤ n by omega)
  simp only [PartitionBounds.overlaps, Bool.and_eq_true, decide_eq_true_eq]
  simp only [monthPartition, Zone.midnight]
  constructor
  · rintro ⟨-, hlt⟩
    have hnext : n = m + 1 := by omega
    subst hnext
    omega
  · rintro ⟨rfl, hlt⟩
    omega

theorem overlaps_comm (a b : PartitionBounds) : a.overlaps b = b.overlaps a := by
  rw [PartitionBounds.overlaps, PartitionBounds.overlaps, Bool.and_comm]

/-- The partitions of two months in a row leave no instant out exactly if the later one does not
begin further west. -/
theorem tiles_iff (m : Int) (z w : Zone) :
    (∀ t, (monthPartition z m).bounds.start ≤ t → t < (monthPartition w (m + 1)).bounds.stop →
      (monthPartition z m).bounds.holds (.finite t) = true ∨
        (monthPartition w (m + 1)).bounds.holds (.finite t) = true) ↔ z.seconds ≤ w.seconds := by
  have hm := firstDay_succ_le m
  have hn := firstDay_succ_le (m + 1)
  have hz := z.lower
  have hz' := z.upper
  have hw := w.lower
  have hw' := w.upper
  simp only [PartitionBounds.holds, Bool.and_eq_true, decide_eq_true_eq]
  simp only [monthPartition, Zone.midnight]
  constructor
  · intro h
    by_contra hlt
    have hgap := h ((firstDay (m + 1) * 86400 - z.seconds) * 1000000) (by omega) (by omega)
    omega
  · intro hle t hstart hstop
    omega

end VibeAudit.Extension
