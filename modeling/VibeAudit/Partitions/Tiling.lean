import Mathlib.Data.List.Pairwise
import VibeAudit.Extension.Partitions

/-!
# Partitions and time zones

The first call for a month creates its partition, in the time zone of that
call; the later ones find its name. So the partitions of a month and the next
meet exactly if they were created in one zone, and otherwise they overlap or
leave a gap.
-/

namespace VibeAudit.Partitions

open Foundation Extension

def month (c : EnsureCall) : Int := monthIndex c.targetDate

/-- The partition that a call creates, if there is none of its name. -/
def created (c : EnsureCall) : Partition := monthPartition c.zone (month c)

/-- No call before it was for a partition of its name. -/
def FirstCall (calls : List EnsureCall) (c : EnsureCall) : Prop :=
  ∃ pre post, calls = pre ++ c :: post ∧ ∀ b ∈ pre, (created b).name ≠ (created c).name

/-- The dates are years AD. -/
def AllAD (calls : List EnsureCall) : Prop :=
  ∀ c ∈ calls, 1 ≤ (civilFromDays c.targetDate).year

instance (calls : List EnsureCall) : Decidable (AllAD calls) :=
  inferInstanceAs (Decidable (∀ c ∈ calls, 1 ≤ (civilFromDays c.targetDate).year))

variable {calls : List EnsureCall}

theorem firstCall_snoc {c d : EnsureCall} :
    FirstCall (calls ++ [d]) c ↔
      FirstCall calls c ∨ (c = d ∧ ∀ b ∈ calls, (created b).name ≠ (created d).name) := by
  constructor
  · rintro ⟨pre, post, hsplit, hfirst⟩
    cases post using List.reverseRecOn with
    | nil =>
      obtain ⟨rfl, hcd⟩ := List.append_inj' hsplit rfl
      obtain rfl := List.singleton_inj.mp hcd
      exact .inr ⟨rfl, hfirst⟩
    | append_singleton post e =>
      rw [← List.cons_append, ← List.append_assoc] at hsplit
      obtain ⟨rfl, -⟩ := List.append_inj' hsplit rfl
      exact .inl ⟨pre, post, rfl, hfirst⟩
  · rintro (⟨pre, post, rfl, hfirst⟩ | ⟨rfl, hfirst⟩)
    · exact ⟨pre, post ++ [d], by simp, hfirst⟩
    · exact ⟨calls, [], rfl, hfirst⟩

theorem FirstCall.mem {c : EnsureCall} (h : FirstCall calls c) : c ∈ calls := by
  obtain ⟨pre, post, rfl, -⟩ := h
  simp

/-- Every name that was called for had a first call. -/
theorem exists_firstCall {c : EnsureCall} (h : c ∈ calls) :
    ∃ d, FirstCall calls d ∧ (created d).name = (created c).name := by
  induction calls using List.reverseRecOn generalizing c with
  | nil => cases h
  | append_singleton calls e ih =>
    have hold : ∀ b ∈ calls, (created b).name = (created c).name →
        ∃ d, FirstCall (calls ++ [e]) d ∧ (created d).name = (created c).name := by
      intro b hb hbc
      obtain ⟨d, hd, hdb⟩ := ih hb
      exact ⟨d, firstCall_snoc.mpr (.inl hd), hdb.trans hbc⟩
    rcases List.mem_append.mp h with hc | hc
    · exact hold c hc rfl
    · obtain rfl := List.mem_singleton.mp hc
      by_cases hnew : ∀ b ∈ calls, (created b).name ≠ (created c).name
      · exact ⟨c, firstCall_snoc.mpr (.inr ⟨rfl, hnew⟩), rfl⟩
      · push Not at hnew
        obtain ⟨b, hb, hbc⟩ := hnew
        exact hold b hb hbc

theorem AllAD.month_le (h : AllAD calls) {c : EnsureCall} (hc : c ∈ calls) : 12 ≤ month c := by
  have hyear := h c hc
  obtain ⟨hpos, hle⟩ := month_bounds c.targetDate
  rw [month, monthIndex]
  omega

/-! ## The partitions after a run of calls -/

/-- The partitions are those of the first calls, and lie apart. -/
structure Ensured (calls : List EnsureCall) (partitions : List Partition) : Prop where
  mem_iff : ∀ p, p ∈ partitions ↔ ∃ c, FirstCall calls c ∧ p = created c
  apart : partitions.Pairwise fun p q => p.bounds.overlaps q.bounds = false

namespace Ensured

variable {partitions : List Partition}

theorem nil : Ensured [] [] where
  mem_iff p := by simp [FirstCall]
  apart := .nil

/-- A name is taken exactly if it was called for. -/
theorem any_name_iff (h : Ensured calls partitions) (d : EnsureCall) :
    (partitions.any fun p => p.name == monthName (month d)) = true ↔
      ∃ b ∈ calls, (created b).name = (created d).name := by
  simp only [List.any_eq_true, beq_iff_eq, h.mem_iff]
  constructor
  · rintro ⟨_, ⟨c, hc, rfl⟩, hname⟩
    exact ⟨c, hc.mem, hname⟩
  · rintro ⟨b, hb, hname⟩
    obtain ⟨c, hc, hcb⟩ := exists_firstCall hb
    exact ⟨_, ⟨c, hc, rfl⟩, hcb.trans hname⟩

/-- What a call for a name that was called for before preserves. -/
theorem again (h : Ensured calls partitions) {d : EnsureCall} {b : EnsureCall} (hb : b ∈ calls)
    (hbd : (created b).name = (created d).name) : Ensured (calls ++ [d]) partitions where
  mem_iff p := by
    rw [h.mem_iff]
    refine exists_congr fun c => and_congr_left fun _ => ?_
    rw [firstCall_snoc]
    constructor
    · exact .inl
    · rintro (hc | ⟨-, hnew⟩)
      · exact hc
      · exact absurd hbd (hnew b hb)
  apart := h.apart

/-- What the first call for a name adds. -/
theorem first (h : Ensured calls partitions) {d : EnsureCall}
    (hnew : ∀ b ∈ calls, (created b).name ≠ (created d).name)
    (hapart : ∀ p ∈ partitions, p.bounds.overlaps (created d).bounds = false) :
    Ensured (calls ++ [d]) (partitions ++ [created d]) where
  mem_iff p := by
    rw [List.mem_append, List.mem_singleton, h.mem_iff]
    constructor
    · rintro (⟨c, hc, rfl⟩ | rfl)
      · exact ⟨c, firstCall_snoc.mpr (.inl hc), rfl⟩
      · exact ⟨d, firstCall_snoc.mpr (.inr ⟨rfl, hnew⟩), rfl⟩
    · rintro ⟨c, hc, rfl⟩
      rcases firstCall_snoc.mp hc with hc | ⟨rfl, -⟩
      · exact .inl ⟨c, hc, rfl⟩
      · exact .inr rfl
  apart := by
    rw [List.pairwise_append]
    refine ⟨h.apart, List.pairwise_singleton _ _, ?_⟩
    intro p hp q hq
    obtain rfl := List.mem_singleton.mp hq
    exact hapart p hp

/-- What one call that succeeds preserves. -/
theorem step (h : Ensured calls partitions) {d : EnsureCall} {partitions' : List Partition}
    (hstep : (ensurePartition partitions d).map Prod.snd = some partitions') :
    Ensured (calls ++ [d]) partitions' := by
  have hname_iff := h.any_name_iff d
  rw [ensurePartition_eq] at hstep
  split_ifs at hstep with hname hoverlap
  · obtain rfl := Option.some.inj hstep
    obtain ⟨b, hb, hbd⟩ := hname_iff.mp hname
    exact h.again hb hbd
  · obtain rfl := Option.some.inj hstep
    have hnew : ∀ b ∈ calls, (created b).name ≠ (created d).name := by
      intro b hb hbd
      exact hname (hname_iff.mpr ⟨b, hb, hbd⟩)
    refine h.first hnew ?_
    simpa [created, month] using hoverlap

theorem of_run (hrun : ensureAll calls = some partitions) : Ensured calls partitions := by
  induction calls using List.reverseRecOn generalizing partitions with
  | nil =>
    obtain rfl := Option.some.inj hrun
    exact nil
  | append_singleton calls d ih =>
    obtain ⟨before, hbefore, hstep⟩ := (run_snoc_eq_some _).mp hrun
    exact (ih hbefore).step hstep

end Ensured

/-! ## Tilings -/

/-- Between the partitions of a month AD and the next no instant is left out. -/
def Tiled (partitions : List Partition) : Prop :=
  ∀ m, 12 ≤ m → ∀ p ∈ partitions, ∀ q ∈ partitions,
    p.name = monthName m → q.name = monthName (m + 1) → ∀ t, p.bounds.start ≤ t →
      t < q.bounds.stop → p.bounds.holds (.finite t) = true ∨ q.bounds.holds (.finite t) = true

/-- The first calls for a month and for the next come from sessions in one time zone. -/
def ZonesAgree (calls : List EnsureCall) : Prop :=
  ∀ c d, FirstCall calls c → FirstCall calls d → month d = month c + 1 →
    c.zone.seconds = d.zone.seconds

theorem ZonesAgree.front {d : EnsureCall} (h : ZonesAgree (calls ++ [d])) : ZonesAgree calls :=
  fun a b ha hb hab => h a b (firstCall_snoc.mpr (.inl ha)) (firstCall_snoc.mpr (.inl hb)) hab

/-- Calls of different months in agreeing zones create partitions that lie apart. -/
theorem ZonesAgree.apart (h : ZonesAgree calls) {c d : EnsureCall} (hc : FirstCall calls c)
    (hd : FirstCall calls d) (hne : month c ≠ month d) :
    (created c).bounds.overlaps (created d).bounds = false := by
  rw [Bool.eq_false_iff]
  rcases lt_or_gt_of_ne hne with hlt | hlt
  · rw [Ne, created, created, overlaps_iff hlt]
    rintro ⟨hnext, hzone⟩
    have heq := h c d hc hd hnext
    omega
  · rw [Ne, overlaps_comm, created, created, overlaps_iff hlt]
    rintro ⟨hnext, hzone⟩
    have heq := h d c hd hc hnext
    omega

/-- In agreeing zones every call succeeds. -/
theorem ZonesAgree.exists_run (h : ZonesAgree calls) :
    ∃ partitions, ensureAll calls = some partitions := by
  induction calls using List.reverseRecOn with
  | nil => exact ⟨[], rfl⟩
  | append_singleton calls d ih =>
    obtain ⟨partitions, hrun⟩ := ih h.front
    have hens := Ensured.of_run hrun
    have hstep : ∃ partitions', (ensurePartition partitions d).map Prod.snd = some partitions' := by
      rw [ensurePartition_eq]
      split_ifs with hname hoverlap
      · exact ⟨_, rfl⟩
      · exfalso
        have hnew : ∀ b ∈ calls, (created b).name ≠ (created d).name := by
          intro b hb hbd
          exact hname ((hens.any_name_iff d).mpr ⟨b, hb, hbd⟩)
        obtain ⟨p, hp, hpd⟩ := List.any_eq_true.mp hoverlap
        obtain ⟨c, hc, rfl⟩ := (hens.mem_iff p).mp hp
        have hapart := h.apart (firstCall_snoc.mpr (.inl hc))
          (firstCall_snoc.mpr (.inr ⟨rfl, hnew⟩))
          fun hmonth => hnew c hc.mem (congrArg monthName hmonth)
        exact Bool.false_ne_true (hapart.symm.trans hpd)
      · exact ⟨_, rfl⟩
    obtain ⟨partitions', hnext⟩ := hstep
    exact ⟨partitions', (run_snoc_eq_some _).mpr ⟨partitions, hrun, hnext⟩⟩

/-- Every call of a run succeeds and the partitions of consecutive months leave no instant out
exactly when the first calls for consecutive months come from one time zone. -/
theorem months_tiled_iff (calls : List EnsureCall) (had : AllAD calls) :
    (∃ partitions, ensureAll calls = some partitions ∧ Tiled partitions) ↔ ZonesAgree calls := by
  constructor
  · rintro ⟨partitions, hrun, htiled⟩ c d hc hd hnext
    have hens := Ensured.of_run hrun
    have hcMem := (hens.mem_iff (created c)).mpr ⟨c, hc, rfl⟩
    have hdMem := (hens.mem_iff (created d)).mpr ⟨d, hd, rfl⟩
    have hle : c.zone.seconds ≤ d.zone.seconds := by
      rw [← tiles_iff (month c)]
      intro t hstart hstop
      have htile := htiled (month c) (had.month_le hc.mem) _ hcMem _ hdMem rfl
        (congrArg monthName hnext) t hstart
      rw [created, created, hnext] at htile
      exact htile hstop
    have hge : ¬ c.zone.seconds < d.zone.seconds := by
      intro hlt
      have hoverlap := (overlaps_iff (show month c < month d by omega) c.zone d.zone).mpr
        ⟨hnext, hlt⟩
      have hne : created c ≠ created d := by
        intro heq
        have hmonths := (monthName_inj (had.month_le hc.mem) (had.month_le hd.mem)).mp
          (congrArg Partition.name heq)
        omega
      have hsymm : Std.Symm fun p q : Partition => p.bounds.overlaps q.bounds = false :=
        ⟨fun p q hpq => (overlaps_comm _ _).trans hpq⟩
      have hapart := hens.apart.forall hcMem hdMem hne
      exact Bool.false_ne_true (hapart.symm.trans hoverlap)
    omega
  · intro h
    obtain ⟨partitions, hrun⟩ := h.exists_run
    refine ⟨partitions, hrun, ?_⟩
    have hens := Ensured.of_run hrun
    intro m hm p hp q hq hpm hqm t hstart hstop
    obtain ⟨c, hc, rfl⟩ := (hens.mem_iff p).mp hp
    obtain ⟨d, hd, rfl⟩ := (hens.mem_iff q).mp hq
    obtain rfl : month c = m := (monthName_inj (had.month_le hc.mem) hm).mp hpm
    have hnext : month d = month c + 1 :=
      (monthName_inj (had.month_le hd.mem) (by omega)).mp hqm
    have hzone := h c d hc hd hnext
    have htile := (tiles_iff (month c) c.zone d.zone).mpr hzone.le t hstart
    rw [← hnext] at htile
    exact htile hstop

/-- January and February 2026, from UTC sessions. -/
theorem months_tiled_utc : ∃ partitions,
    ensureAll [⟨utc, 20454⟩, ⟨utc, 20485⟩] = some partitions ∧ Tiled partitions := by
  refine (months_tiled_iff _ (by decide)).mpr ?_
  intro c d hc hd _
  have hutc : ∀ b ∈ [⟨utc, 20454⟩, ⟨utc, 20485⟩], EnsureCall.zone b = utc := by simp
  rw [hutc c hc.mem, hutc d hd.mem]

/-- The forwarder's session an hour east of the client that installed the extension. -/
theorem not_months_tiled : ¬ ∀ calls, AllAD calls →
    ∃ partitions, ensureAll calls = some partitions ∧ Tiled partitions := by
  intro h
  obtain ⟨partitions, hrun, -⟩ := h [⟨utc, 20454⟩, ⟨⟨3600, by decide, by decide⟩, 20485⟩]
    (by decide)
  have hfails : ensureAll [⟨utc, 20454⟩, ⟨⟨3600, by decide, by decide⟩, 20485⟩] = none := by
    decide
  cases hfails.symm.trans hrun

end VibeAudit.Partitions
