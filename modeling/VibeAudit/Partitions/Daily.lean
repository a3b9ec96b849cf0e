import VibeAudit.Partitions.Tiling

/-!
# The partition of the current month

Installing makes the partitions of a month and the next. From then on the
forwarder makes that of the current month, when it starts and once a day at the
same time of day, so the first of a later month has none before that time.
-/

namespace VibeAudit.Partitions

open Foundation Extension

def dayLength : Int := 86400000000

/-- `CURRENT_DATE` of a UTC session at an instant. -/
def currentDate (t : Int) : Int := t / dayLength

def timeOfDay (t : Int) : Int := t % dayLength

/-- The ticks of the daily interval by an instant; the first one is at the start. -/
def ticks (start t : Int) : List Int :=
  (List.range (((t - start) / dayLength).toNat + 1)).map fun k : Nat => start + k * dayLength

def callsBy (installDate start t : Int) : List EnsureCall :=
  ([installDate, addMonth installDate, currentDate start] ++
    (ticks start t).map currentDate).map fun date => { zone := utc, targetDate := date }

def Present (installDate start t : Int) : Prop :=
  ∃ partitions, ensureAll (callsBy installDate start t) = some partitions ∧
    ∃ p ∈ partitions, p.bounds.holds (.finite t) = true

variable {installDate start t : Int}

theorem monthPartition_holds_iff (month : Int) :
    (monthPartition utc month).bounds.holds (.finite t) = true ↔
      monthIndex (currentDate t) = month := by
  simp only [PartitionBounds.holds, Bool.and_eq_true, decide_eq_true_eq]
  simp only [monthPartition, Zone.midnight, utc]
  rw [monthIndex_eq_iff, currentDate, dayLength]
  omega

/-- A month has begun by an instant exactly if it is the instant's month or an earlier one. -/
theorem firstDay_mul_le_iff {month : Int} :
    firstDay month * dayLength ≤ t ↔ month ≤ monthIndex (currentDate t) := by
  rw [← firstDay_le_iff, currentDate, Int.le_ediv_iff_mul_le (by decide)]

theorem mem_ticks_iff (h : start ≤ t) {date : Int} :
    date ∈ (ticks start t).map currentDate ↔
      currentDate start ≤ date ∧ date * dayLength + timeOfDay start ≤ t := by
  simp only [ticks, List.map_map, List.mem_map, List.mem_range, Function.comp_apply, currentDate,
    timeOfDay, dayLength]
  constructor
  · rintro ⟨k, hk, rfl⟩
    omega
  · rintro ⟨hle, hlt⟩
    refine ⟨(date - start / 86400000000).toNat, by omega, by omega⟩

/-- The months that are called for some time: the two of the install script, and those from the
start on. -/
def Called (installDate start m : Int) : Prop :=
  m = monthIndex installDate ∨ m = monthIndex installDate + 1 ∨ monthIndex (currentDate start) ≤ m

/-- No month from the start on has the name of an earlier month that is called for. -/
def NamesApart (installDate start : Int) : Prop :=
  ∀ m n, Called installDate start m → monthIndex (currentDate start) ≤ n → m < n →
    monthName m ≠ monthName n

/-- A date AD is installation date enough: the months from then on have names of their own. -/
theorem namesApart_of_AD (had : 1 ≤ (civilFromDays installDate).year)
    (hinstall : installDate ≤ currentDate start) : NamesApart installDate start := by
  intro m n hm hn hlt hname
  have hmono := monthIndex_mono hinstall
  have hfirst : 12 ≤ monthIndex installDate := by
    obtain ⟨hpos, -⟩ := month_bounds installDate
    rw [monthIndex]
    omega
  have hm12 : 12 ≤ m := by
    rcases hm with rfl | rfl | hm <;> omega
  exact hlt.ne ((monthName_inj hm12 (by omega)).mp hname)

/-- Neighbouring months have different names, BC too. -/
theorem monthName_succ_ne (m : Int) : monthName m ≠ monthName (m + 1) := by
  intro h
  have hmonth := (monthName_eq_iff.mp h).2
  omega

/-- A call is for the month of the installation, the one after it, or that of a day since the start.
-/
theorem callsBy_cases {c : EnsureCall} (h : start ≤ t) (hc : c ∈ callsBy installDate start t) :
    month c = monthIndex installDate ∨ month c = monthIndex installDate + 1 ∨
      month c = monthIndex (currentDate start) ∨
      ∃ date, currentDate start ≤ date ∧ date * dayLength + timeOfDay start ≤ t ∧
        month c = monthIndex date := by
  obtain ⟨date, hdate, rfl⟩ := List.mem_map.mp hc
  simp only [List.mem_append, List.mem_cons, List.not_mem_nil, or_false] at hdate
  rcases hdate with (rfl | rfl | rfl) | htick
  · exact .inl rfl
  · exact .inr (.inl (addMonth_spec installDate).1)
  · exact .inr (.inr (.inl rfl))
  · obtain ⟨hle, hlt⟩ := (mem_ticks_iff h).mp htick
    exact .inr (.inr (.inr ⟨date, hle, hlt, rfl⟩))

/-- The calls come in the order of their months, apart from those of the install script. -/
theorem callsBy_pairwise : (callsBy installDate start t).Pairwise fun a b =>
    month a ≤ monthIndex installDate + 1 ∨ month a ≤ month b := by
  have hticks : ((ticks start t).map currentDate).Pairwise (· ≤ ·) := by
    rw [ticks, List.map_map, List.pairwise_map]
    refine List.pairwise_lt_range.imp fun {j k} hjk => ?_
    simp only [Function.comp_apply, currentDate, dayLength]
    omega
  have hstart : ∀ date ∈ (ticks start t).map currentDate, currentDate start ≤ date := by
    intro date hdate
    obtain ⟨tick, htick, rfl⟩ := List.mem_map.mp hdate
    obtain ⟨k, -, rfl⟩ := List.mem_map.mp htick
    simp only [currentDate, dayLength]
    omega
  rw [callsBy, List.pairwise_map]
  simp only [List.cons_append, List.nil_append, List.pairwise_cons]
  refine ⟨fun _ _ => .inl (by simp [month]), fun _ _ => .inl (addMonth_spec _).1.le, ?_, ?_⟩
  · intro date hdate
    exact .inr (monthIndex_mono (hstart date hdate))
  · exact hticks.imp fun hle => .inr (monthIndex_mono hle)

theorem callsBy_zone {c : EnsureCall} (hc : c ∈ callsBy installDate start t) : c.zone = utc := by
  obtain ⟨date, -, rfl⟩ := List.mem_map.mp hc
  rfl

theorem callsBy_zonesAgree : ZonesAgree (callsBy installDate start t) := by
  intro c d hc hd _
  rw [callsBy_zone hc.mem, callsBy_zone hd.mem]

/-- All calls succeed, and there is a partition for an instant exactly if the first call for its
name was for its month. -/
theorem present_iff : Present installDate start t ↔
    ∃ c, FirstCall (callsBy installDate start t) c ∧ monthIndex (currentDate t) = month c := by
  obtain ⟨partitions, hrun⟩ := (@callsBy_zonesAgree installDate start t).exists_run
  have hens := Ensured.of_run hrun
  constructor
  · rintro ⟨partitions', hrun', p, hp, hholds⟩
    obtain rfl := Option.some.inj (hrun.symm.trans hrun')
    obtain ⟨c, hc, rfl⟩ := (hens.mem_iff p).mp hp
    rw [created, callsBy_zone hc.mem, monthPartition_holds_iff] at hholds
    exact ⟨c, hc, hholds⟩
  · rintro ⟨c, hc, hmonth⟩
    refine ⟨partitions, hrun, created c, (hens.mem_iff _).mpr ⟨c, hc, rfl⟩, ?_⟩
    rwa [created, callsBy_zone hc.mem, monthPartition_holds_iff]

/-- If the forwarder started at midnight, a call for a month was made by each of its instants. -/
theorem exists_call (hmidnight : timeOfDay start = 0) (hstart : start ≤ t) {m : Int}
    (hm : Called installDate start m) (hle : firstDay m * dayLength ≤ t) :
    ∃ c ∈ callsBy installDate start t, month c = m := by
  rcases hm with rfl | rfl | hm
  · exact ⟨⟨utc, installDate⟩, List.mem_map_of_mem (by simp), rfl⟩
  · exact ⟨⟨utc, addMonth installDate⟩, List.mem_map_of_mem (by simp), (addMonth_spec _).1⟩
  · have hdate : monthIndex (max (firstDay m) (currentDate start)) = m := by
      have hlength := firstDay_succ_le m
      have hnext := mt (@firstDay_le_iff _ (currentDate start)).mp
        (show ¬ m + 1 ≤ monthIndex (currentDate start) by omega)
      rw [monthIndex_eq_iff]
      omega
    have htick : max (firstDay m) (currentDate start) ∈ (ticks start t).map currentDate := by
      rw [mem_ticks_iff hstart, hmidnight]
      refine ⟨le_max_right _ _, ?_⟩
      simp only [dayLength, currentDate] at hle ⊢
      omega
    refine ⟨⟨utc, _⟩, List.mem_map_of_mem (List.mem_append_right _ htick), hdate⟩

/-- Started at a later time of day, there is no partition when the second month after the start
begins. -/
theorem not_present_of_timeOfDay (hinstall : installDate ≤ currentDate start)
    (hlate : 0 < timeOfDay start) :
    ∃ t, start ≤ t ∧ ¬ Present installDate start t := by
  have hmono := monthIndex_mono hinstall
  have hbegin : currentDate (firstDay (monthIndex (currentDate start) + 2) * dayLength) =
      firstDay (monthIndex (currentDate start) + 2) := by
    simp [currentDate, dayLength]
  have hlater : start ≤ firstDay (monthIndex (currentDate start) + 2) * dayLength := by
    have hnext := mt (@firstDay_mul_le_iff start).mp
      (show ¬ monthIndex (currentDate start) + 2 ≤ monthIndex (currentDate start) by omega)
    omega
  refine ⟨_, hlater, ?_⟩
  rw [present_iff, hbegin, monthIndex_firstDay]
  rintro ⟨c, hc, hmonth⟩
  rcases callsBy_cases hlater hc.mem with h | h | h | ⟨date, -, hdate, h⟩
  · omega
  · omega
  · omega
  · have hbefore : date < firstDay (monthIndex (currentDate start) + 2) := by
      simp only [dayLength] at hdate
      omega
    have hle := (monthIndex_eq_iff.mp (hmonth.trans h).symm).1
    omega

/-- If a later month has the name of one called for before, it has no partition when it ends. -/
theorem not_present_of_name (hinstall : installDate ≤ currentDate start)
    (hmidnight : timeOfDay start = 0) {m n : Int} (hm : Called installDate start m)
    (hn : monthIndex (currentDate start) ≤ n) (hlt : m < n) (hname : monthName m = monthName n) :
    ∃ t, start ≤ t ∧ ¬ Present installDate start t := by
  have hmono := monthIndex_mono hinstall
  have hlast : monthIndex (currentDate (firstDay (n + 1) * dayLength - 1)) = n := by
    have hmonthLength := firstDay_succ_le n
    rw [monthIndex_eq_iff]
    simp only [currentDate, dayLength]
    omega
  have hlater : start ≤ firstDay (n + 1) * dayLength - 1 := by
    have hnext := mt (@firstDay_mul_le_iff start).mp
      (show ¬ n + 1 ≤ monthIndex (currentDate start) by omega)
    omega
  have hbefore : firstDay m * dayLength ≤ firstDay (n + 1) * dayLength - 1 := by
    rw [firstDay_mul_le_iff, hlast]
    exact hlt.le
  -- a month and the next have different names, so the month is not one of the install script's
  have hfar : monthIndex installDate + 1 < n := by
    have hsucc : n ≠ m + 1 := by
      rintro rfl
      exact monthName_succ_ne m hname
    rcases hm with h | h | h <;> omega
  refine ⟨_, hlater, ?_⟩
  rw [present_iff, hlast]
  rintro ⟨c, ⟨pre, post, hsplit, hfirst⟩, hmonth⟩
  obtain ⟨b, hb, hbm⟩ := exists_call hmidnight hlater hm hbefore
  have hpair := @callsBy_pairwise installDate start (firstDay (n + 1) * dayLength - 1)
  rw [hsplit] at hb hpair
  rcases List.mem_append.mp hb with hpre | hpost
  · refine hfirst b hpre ?_
    simp only [created, monthPartition, hbm, ← hmonth, hname]
  · rcases List.mem_cons.mp hpost with rfl | hpost
    · omega
    · rcases (List.pairwise_cons.mp (List.pairwise_append.mp hpair).2.1).1 b hpost with h | h
      · omega
      · omega

/-- With one UTC zone every instant from the start on has its partition, exactly if the forwarder
started at midnight and no later month has the name of an earlier one. -/
theorem always_present_iff (hinstall : installDate ≤ currentDate start) :
    (∀ t, start ≤ t → Present installDate start t) ↔
      timeOfDay start = 0 ∧ NamesApart installDate start := by
  constructor
  · intro h
    have hmidnight : timeOfDay start = 0 := by
      by_contra hne
      have hlate : 0 < timeOfDay start := by
        simp only [timeOfDay, dayLength] at hne ⊢
        omega
      obtain ⟨t, hlater, hnone⟩ := not_present_of_timeOfDay hinstall hlate
      exact hnone (h t hlater)
    refine ⟨hmidnight, ?_⟩
    intro m n hm hn hlt hname
    obtain ⟨t, hlater, hnone⟩ := not_present_of_name hinstall hmidnight hm hn hlt hname
    exact hnone (h t hlater)
  · rintro ⟨hmidnight, hnames⟩ t hlater
    have hmono := monthIndex_mono hinstall
    have hmonth : monthIndex (currentDate start) ≤ monthIndex (currentDate t) := by
      apply monthIndex_mono
      simp only [currentDate, dayLength]
      omega
    have hcalled : Called installDate start (monthIndex (currentDate t)) := .inr (.inr hmonth)
    obtain ⟨b, hb, hbm⟩ := exists_call hmidnight hlater hcalled (firstDay_mul_le_iff.mpr le_rfl)
    obtain ⟨c, hc, hname⟩ := exists_firstCall hb
    simp only [created, monthPartition, hbm] at hname
    refine present_iff.mpr ⟨c, hc, ?_⟩
    have hinstallNext : month c ≠ monthIndex (currentDate t) + 1 := by
      intro hnext
      rw [hnext] at hname
      exact monthName_succ_ne _ hname.symm
    rcases lt_trichotomy (month c) (monthIndex (currentDate t)) with hlt | heq | hgt
    · refine absurd hname (hnames _ _ ?_ hmonth hlt)
      rcases callsBy_cases hlater hc.mem with h | h | h | ⟨date, hdate, -, h⟩
      · exact .inl h
      · exact .inr (.inl h)
      · exact .inr (.inr h.ge)
      · exact .inr (.inr (h ▸ monthIndex_mono hdate))
    · exact heq.symm
    · rcases callsBy_cases hlater hc.mem with h | h | h | ⟨date, -, hdate, h⟩
      · omega
      · omega
      · omega
      · have hle : date ≤ currentDate t := by
          simp only [currentDate, dayLength, hmidnight] at hdate ⊢
          omega
        have hback := monthIndex_mono hle
        omega

/-- Installed and started on 2026-01-15 at midnight. -/
theorem always_present_midnight :
    (timeOfDay (20468 * dayLength) = 0 ∧ NamesApart 20468 (20468 * dayLength)) ∧
      ∀ t, 20468 * dayLength ≤ t → Present 20468 (20468 * dayLength) t := by
  have hstart : timeOfDay (20468 * dayLength) = 0 ∧ NamesApart 20468 (20468 * dayLength) :=
    ⟨by decide, namesApart_of_AD (by decide) (by decide)⟩
  exact ⟨hstart, (always_present_iff (by decide)).mpr hstart⟩

/-- Started at noon of that day: no partition when March begins. -/
theorem not_always_present : ¬ ∀ installDate start, installDate ≤ currentDate start →
    ∀ t, start ≤ t → Present installDate start t := by
  intro h
  have hinstall : 20468 ≤ currentDate (20468 * dayLength + 43200000000) := by decide
  obtain ⟨t, hlater, hnone⟩ := not_present_of_timeOfDay hinstall (by decide)
  exact hnone (h _ _ hinstall t hlater)

end VibeAudit.Partitions
