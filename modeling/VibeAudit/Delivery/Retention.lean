import VibeAudit.Delivery.Blockage
import VibeAudit.Partitions.Tiling

/-!
# The table by months

The writer inserts into partitions that `ensure_partition` creates and retention
drops. A row stands in one partition, that of its month, so dropping a month
deletes that month and nothing else. An event without a partition stops the table
until its month is called for, and `verify_chain` never accepts a table again
that has lost its first row.
-/

namespace VibeAudit.Delivery

open Foundation Json Extension Forwarder Chain Partitions Hooks

/-- The processor loop, and the partitions of the table. -/
structure Monthly where
  process : Process
  partitions : List Partition

/-- What can happen: an arm of the loop, a call of `ensure_partition` from a session, or the drop
of a partition. -/
inductive MonthlyAction where
  | loop (a : Action)
  | ensure (c : EnsureCall)
  | drop (name : String)

/-- The columns take the row, and a partition its instant. -/
def takes (accepts : BoundRow → Bool) (input : TimestamptzInput) (partitions : List Partition)
    (row : BoundRow) : Bool :=
  accepts row &&
    (input.read row.eventTime).any fun time => partitions.any fun p => p.bounds.holds time

/-- The table without some of its rows; their ids are not given out again. -/
def keepRows (t : EventsTable) (keep : Row → Bool) : EventsTable where
  rows := t.rows.filter keep
  nextId := t.nextId
  ids_lt := t.ids_lt.sublist List.filter_sublist
  ids_lt_next r hr := t.ids_lt_next r (List.mem_of_mem_filter hr)

namespace Monthly

def new : Monthly := { process := Process.new, partitions := [] }

/-- `DROP TABLE` of a partition, with the rows in it. -/
def drop (s : Monthly) (name : String) : Monthly where
  process :=
    { s.process with
      table := keepRows s.process.table fun r =>
        !s.partitions.any fun p => p.name == name && p.bounds.holds r.eventTime }
  partitions := s.partitions.filter fun p => p.name != name

/-- A call of `ensure_partition` that fails is logged and changes nothing. -/
def step (accepts : BoundRow → Bool) (input : TimestamptzInput) (s : Monthly) :
    MonthlyAction → Option Monthly
  | .loop a =>
    (soundStep (takes accepts input s.partitions) input s.process a).map fun p =>
      { s with process := p }
  | .ensure c =>
    some { s with
      partitions := ((ensurePartition s.partitions c).map Prod.snd).getD s.partitions }
  | .drop name => some (s.drop name)

end Monthly

def monthIn (z : Zone) (micros : Int) : Int := monthIndex ((micros / 1000000 + z.seconds) / 86400)

theorem holds_monthPartition_iff {z : Zone} {m micros : Int} :
    (monthPartition z m).bounds.holds (.finite micros) = true ↔ monthIn z micros = m := by
  simp only [PartitionBounds.holds, Bool.and_eq_true, decide_eq_true_eq]
  simp only [monthPartition, Zone.midnight]
  rw [monthIn, monthIndex_eq_iff]
  omega

/-- Partitions that hold one instant overlap. -/
theorem overlaps_of_holds {a b : PartitionBounds} {time : Timestamptz} (ha : a.holds time = true)
    (hb : b.holds time = true) : a.overlaps b = true := by
  cases time with
  | finite micros =>
    simp only [PartitionBounds.holds, PartitionBounds.overlaps, Bool.and_eq_true,
      decide_eq_true_eq] at ha hb ⊢
    omega
  | infinity | minusInfinity => cases ha

/-- What a call does to the partitions: it adds its own apart from the others, or nothing. -/
theorem ensurePartition_cases (partitions : List Partition) (c : EnsureCall) :
    ((ensurePartition partitions c).map Prod.snd).getD partitions = partitions ∨
      ((ensurePartition partitions c).map Prod.snd).getD partitions = partitions ++ [created c] ∧
        ∀ p ∈ partitions, p.bounds.overlaps (created c).bounds = false := by
  rw [ensurePartition_eq]
  split_ifs with hname hoverlap
  · exact .inl rfl
  · exact .inl rfl
  · refine .inr ⟨rfl, ?_⟩
    simpa [created, month] using hoverlap

variable {accepts : BoundRow → Bool} {input : TimestamptzInput} {s t : Monthly}

/-! ## Rows and their partitions -/

/-- Partitions come from calls and lie apart, and every row has one. -/
structure Housed (actions : List MonthlyAction) (s : Monthly) : Prop where
  created : ∀ p ∈ s.partitions, ∃ c, .ensure c ∈ actions ∧ p = created c
  apart : s.partitions.Pairwise fun p q => p.bounds.overlaps q.bounds = false
  routed : ∀ row ∈ s.process.table.rows, ∃ p ∈ s.partitions, p.bounds.holds row.eventTime = true

namespace Housed

variable {actions : List MonthlyAction}

theorem new : Housed [] Monthly.new where
  created _ hp := by cases hp
  apart := .nil
  routed _ hrow := by cases hrow

/-- What is written has a partition. -/
theorem loop (h : Housed actions s) {a : Action} {p : Process}
    (hp : soundStep (takes accepts input s.partitions) input s.process a = some p) :
    ∀ row ∈ p.table.rows, ∃ q ∈ s.partitions, q.bounds.holds row.eventTime = true := by
  obtain ⟨hstep, hallowed⟩ := guardedStep_eq_some hp
  rcases Process.step_cases hstep with ⟨event, q, -, hq, rfl⟩ |
    ⟨db, gap, hadb, -, hne, hflush⟩ | ⟨-, rfl⟩
  · exact h.routed
  · obtain ⟨rows, htable, hrows⟩ := (flushed_of_flush hne hflush).table
    intro row hrow
    rw [htable, List.mem_append] at hrow
    rcases hrow with hrow | hrow
    · exact h.routed row hrow
    · obtain ⟨event, hevent, id, hstored⟩ := exists_of_forall₂ hrows hrow
      obtain ⟨time, htime, rfl⟩ := Option.map_eq_some_iff.mp hstored
      have hstorable : storableBacklog (takes accepts input s.partitions) s.process = true := by
        simpa [commits_of_mem_inserted hevent] using hallowed _ hadb
      have htakes := (storableBacklog_eq_true.mp hstorable).1 event (inserted_subset hevent)
      simpa [takes, htime] using (Bool.and_eq_true_iff.mp htakes).2
  · exact h.routed

/-- What one step preserves. -/
theorem step (h : Housed actions s) {a : MonthlyAction} (ha : s.step accepts input a = some t) :
    Housed (actions ++ [a]) t := by
  have hcalls : ∀ p ∈ s.partitions, ∃ c, .ensure c ∈ actions ++ [a] ∧ p = Partitions.created c := by
    intro p hp
    obtain ⟨c, hc, hpc⟩ := h.created p hp
    exact ⟨c, List.mem_append_left _ hc, hpc⟩
  cases a with
  | loop a =>
    obtain ⟨p, hp, rfl⟩ := Option.map_eq_some_iff.mp ha
    exact ⟨hcalls, h.apart, h.loop hp⟩
  | ensure c =>
    obtain rfl := Option.some.inj ha
    rcases ensurePartition_cases s.partitions c with hsame | ⟨hnew, hapart⟩
    · rw [hsame]
      exact ⟨hcalls, h.apart, h.routed⟩
    · rw [hnew]
      refine ⟨?_, ?_, fun row hrow => ?_⟩
      · rw [List.forall_mem_append, List.forall_mem_singleton]
        exact ⟨hcalls, c, by simp, rfl⟩
      · rw [List.pairwise_append]
        refine ⟨h.apart, List.pairwise_singleton _ _, fun p hp q hq => ?_⟩
        obtain rfl := List.mem_singleton.mp hq
        exact hapart p hp
      · obtain ⟨p, hp, hholds⟩ := h.routed row hrow
        exact ⟨p, List.mem_append_left _ hp, hholds⟩
  | drop name =>
    obtain rfl := Option.some.inj ha
    refine ⟨fun p hp => hcalls p (List.mem_of_mem_filter hp), h.apart.sublist List.filter_sublist,
      fun row hrow => ?_⟩
    obtain ⟨hrow, hkept⟩ := List.mem_filter.mp hrow
    obtain ⟨p, hp, hholds⟩ := h.routed row hrow
    refine ⟨p, List.mem_filter.mpr ⟨hp, ?_⟩, hholds⟩
    simp only [Bool.not_eq_true', List.any_eq_false, Bool.and_eq_true, not_and] at hkept
    simpa using fun hname => hkept p hp hname hholds

/-- What every run preserves. -/
theorem of_run (hrun : run (Monthly.step accepts input) Monthly.new actions = some s) :
    Housed actions s :=
  run_induction (Monthly.step accepts input) (C := fun _ _ _ => True) new
    (fun _ _ _ _ _ hu _ hstep => hu.step hstep) hrun (fun _ _ _ _ _ _ => trivial)

/-- A row stands in no other partition. -/
theorem unique (h : Housed actions s) {p q : Partition} (hp : p ∈ s.partitions)
    (hq : q ∈ s.partitions) {time : Timestamptz} (hpt : p.bounds.holds time = true)
    (hqt : q.bounds.holds time = true) : p = q := by
  by_contra hne
  have hsymm : Std.Symm fun p q : Partition => p.bounds.overlaps q.bounds = false :=
    ⟨fun _ _ hpq => by rwa [overlaps_comm]⟩
  have hapart := h.apart.forall hp hq hne
  rw [overlaps_of_holds hpt hqt] at hapart
  cases hapart

end Housed

/-- In every run each row stands in one partition, which a call has created, and which is the one
of its month in the time zone of the call's session: dropping a partition deletes exactly the rows
of its month. -/
theorem rows_stand_in_their_months (accepts : BoundRow → Bool) (input : TimestamptzInput)
    (actions : List MonthlyAction) (s : Monthly)
    (hrun : run (Monthly.step accepts input) Monthly.new actions = some s) :
    ∀ row ∈ s.process.table.rows, ∃ c micros, .ensure c ∈ actions ∧ created c ∈ s.partitions ∧
      (∀ p ∈ s.partitions, p.bounds.holds row.eventTime = true ↔ p = created c) ∧
      row.eventTime = .finite micros ∧ month c = monthIn c.zone micros ∧
      ∀ name, row ∈ (s.drop name).process.table.rows ↔
        name ≠ monthName (monthIn c.zone micros) := by
  have h := Housed.of_run hrun
  intro row hrow
  obtain ⟨p, hp, hholds⟩ := h.routed row hrow
  obtain ⟨c, hc, rfl⟩ := h.created p hp
  obtain ⟨micros, htime⟩ : ∃ micros, row.eventTime = .finite micros := by
    cases htime : row.eventTime with
    | finite micros => exact ⟨micros, rfl⟩
    | infinity | minusInfinity => simp [PartitionBounds.holds, htime] at hholds
  have hmonth : monthIn c.zone micros = month c := by
    rw [htime] at hholds
    exact holds_monthPartition_iff.mp hholds
  have honly : ∀ q ∈ s.partitions, q.bounds.holds row.eventTime = true ↔ q = created c :=
    fun q hq => ⟨fun hqholds => h.unique hq hp hqholds hholds, fun heq => heq ▸ hholds⟩
  refine ⟨c, micros, hc, hp, honly, htime, hmonth.symm, fun name => ?_⟩
  simp only [Monthly.drop, keepRows, List.mem_filter, hrow, true_and, Bool.not_eq_true',
    List.any_eq_false, Bool.and_eq_true, beq_iff_eq, not_and]
  rw [hmonth]
  constructor
  · rintro hkept rfl
    exact hkept (created c) hp rfl hholds
  · rintro hname q hq rfl hqholds
    obtain rfl := (honly q hq).mp hqholds
    exact hname rfl

def monthlyActions : List MonthlyAction :=
  [.ensure ⟨utc, 20454⟩, .ensure ⟨utc, 20485⟩, .loop (.receive millisEvent),
    .loop (.receive (.obj [("event_type", .string "AUTH_SUCCESS"),
      ("event_time", .string "2026-02-01T00:00:00.000Z")])), .loop (.tick .executed 0)]

theorem rows_stand_in_their_months_january :
    ∃ s, run (Monthly.step (fun _ => true) isoInput) Monthly.new monthlyActions = some s ∧
      s.process.table.rows.length = 2 ∧
      ∀ row ∈ s.process.table.rows, ∃ c micros, .ensure c ∈ monthlyActions ∧
        created c ∈ s.partitions ∧
        (∀ p ∈ s.partitions, p.bounds.holds row.eventTime = true ↔ p = created c) ∧
        row.eventTime = .finite micros ∧ month c = monthIn c.zone micros ∧
        ∀ name, row ∈ (s.drop name).process.table.rows ↔
          name ≠ monthName (monthIn c.zone micros) := by
  have hend : (run (Monthly.step (fun _ => true) isoInput) Monthly.new monthlyActions).any
      (fun s => s.process.table.rows.length == 2) = true := by decide +kernel
  obtain ⟨s, hs, hrows⟩ := (Option.any_eq_true _ _).mp hend
  exact ⟨s, hs, by simpa using hrows,
    rows_stand_in_their_months (fun _ => true) isoInput monthlyActions s hs⟩

/-! ## Events without a partition -/

theorem guardedStep_of {allowed : Process → DbOutcome → Bool} {u v : Process} {a : Action}
    (hstep : u.step input a = some v) (hall : ∀ db, a.db = some db → allowed u db = true) :
    guardedStep allowed input u a = some v := by
  unfold guardedStep
  rw [if_pos]
  · exact hstep
  · cases hdb : a.db with
    | none => rfl
    | some db => exact hall db hdb

/-- A database that takes less executes less. -/
theorem soundStep_mono {less more : BoundRow → Bool}
    (hmore : ∀ row, less row = true → more row = true) {u v : Process} {a : Action}
    (h : soundStep less input u a = some v) :
    soundStep more input u a = some v := by
  obtain ⟨hstep, hallowed⟩ := guardedStep_eq_some h
  refine guardedStep_of hstep fun db hdb => ?_
  have hless := hallowed db hdb
  simp only [Bool.or_eq_true, storableBacklog_eq_true] at hless ⊢
  exact hless.imp id fun ⟨hall, hfits⟩ => ⟨fun event hevent => hmore _ (hall event hevent), hfits⟩

/-- The row is not of an instant. -/
def notAt (input : TimestamptzInput) (time : Timestamptz) (row : BoundRow) : Bool :=
  input.read row.eventTime != some time

theorem notAt_of_takes {partitions : List Partition} {time : Timestamptz}
    (hnone : ∀ p ∈ partitions, p.bounds.holds time = false) (row : BoundRow)
    (h : takes accepts input partitions row = true) : notAt input time row = true := by
  rw [notAt, bne_iff_ne]
  intro hread
  simp only [takes, hread, Option.any_some, Bool.and_eq_true, List.any_eq_true] at h
  obtain ⟨-, p, hp, hholds⟩ := h
  rw [hnone p hp] at hholds
  cases hholds

/-- What one step preserves while no partition holds the instant: the table gets no row. -/
theorem blocked_step {time : Timestamptz} (hblocked : Blocked (notAt input time) s.process)
    (hnone : ∀ p ∈ s.partitions, p.bounds.holds time = false) {a : MonthlyAction}
    (hcall : ∀ c, a = .ensure c → (created c).bounds.holds time = false)
    (hdb : ∀ b, a = .loop b → b.db ≠ some .getFailed) (ha : s.step accepts input a = some t) :
    Blocked (notAt input time) t.process ∧ (∀ p ∈ t.partitions, p.bounds.holds time = false) ∧
      t.process.table.rows.Sublist s.process.table.rows := by
  cases a with
  | loop b =>
    obtain ⟨p, hp, rfl⟩ := Option.map_eq_some_iff.mp ha
    obtain ⟨hnext, hrows⟩ :=
      hblocked.step (hdb b rfl) (soundStep_mono (notAt_of_takes hnone) hp)
    exact ⟨hnext, hnone, hrows ▸ List.Sublist.refl _⟩
  | ensure c =>
    obtain rfl := Option.some.inj ha
    refine ⟨hblocked, ?_, List.Sublist.refl _⟩
    rcases ensurePartition_cases s.partitions c with hsame | ⟨hnew, -⟩
    · rwa [hsame]
    · rw [hnew, List.forall_mem_append, List.forall_mem_singleton]
      exact ⟨hnone, hcall c rfl⟩
  | drop name =>
    obtain rfl := Option.some.inj ha
    exact ⟨hblocked, fun p hp => hnone p (List.mem_of_mem_filter hp), List.filter_sublist⟩

/-- Once an event is received whose instant no partition holds, the table gets no row until
`ensure_partition` is called for that instant's month or a connection fails, whatever is received,
called for and dropped. An event without a time counts as one of 1970. -/
theorem missing_month_blocks_table (accepts : BoundRow → Bool) (input : TimestamptzInput)
    (s t : Monthly) (event : Value) (time : Timestamptz) (actions : List MonthlyAction)
    (htime : input.read (boundRow event).eventTime = some time)
    (hnone : ∀ p ∈ s.partitions, p.bounds.holds time = false)
    (hcalls : ∀ c, .ensure c ∈ actions → (created c).bounds.holds time = false)
    (hdb : ∀ a, .loop a ∈ actions → a.db ≠ some .getFailed)
    (hrun : run (Monthly.step accepts input) s (.loop (.receive event) :: actions) = some t) :
    t.process.table.rows.Sublist s.process.table.rows := by
  obtain ⟨u, hu, hrest⟩ := Option.bind_eq_some_iff.mp hrun
  obtain ⟨p, hp, rfl⟩ := Option.map_eq_some_iff.mp hu
  obtain ⟨hstep, -⟩ := guardedStep_eq_some hp
  rcases Process.step_cases hstep with ⟨e, q, he, hq, rfl⟩ | ⟨_, _, -, hnot, -⟩ | ⟨hnot, -⟩
  · obtain rfl := Action.receive.inj he
    obtain ⟨a, ha, -, hbatch, -, -⟩ := Processor.receive_eq_some hq
    have hblocked : Blocked (notAt input time) { s.process with processor := q } := by
      refine .inl ⟨a.event, by simp [allEvents, hbatch], ?_⟩
      have hsame : (boundRow a.event).eventTime = (boundRow event).eventTime := by
        rw [boundRow_hashed (HashChain.apply_spec ha).hashed]
      simp [notAt, hsame, htime]
    have hstart : Blocked (notAt input time) { s.process with processor := q } ∧
        (∀ p ∈ s.partitions, p.bounds.holds time = false) ∧
        s.process.table.rows.Sublist s.process.table.rows :=
      ⟨hblocked, hnone, List.Sublist.refl _⟩
    refine (run_invariant (Monthly.step accepts input)
      (I := fun v => Blocked (notAt input time) v.process ∧
        (∀ p ∈ v.partitions, p.bounds.holds time = false) ∧
        v.process.table.rows.Sublist s.process.table.rows)
      (C := fun a => a ∈ actions) ?_ (by exact hstart) hrest (fun _ ha => ha)).2.2
    rintro v a w ⟨hv, hvnone, hvrows⟩ hmem hvstep
    obtain ⟨hw, hwnone, hwrows⟩ := blocked_step hv hvnone (fun c hc => hcalls c (hc ▸ hmem))
      (fun b hb => hdb b (hb ▸ hmem)) hvstep
    exact ⟨hw, hwnone, hwrows.trans hvrows⟩
  · cases hnot
  · cases hnot

/-- An event without a time, and a call for January 2026. -/
theorem missing_month_blocks_table_untimed :
    ∃ t, run (Monthly.step (fun _ => true) isoInput) Monthly.new
        [.loop (.receive (.obj [("event_type", .string "AUTH_SUCCESS")])),
          .ensure ⟨utc, 20454⟩, .loop (.tick .executeFailed 0)] = some t ∧
      t.process.table.rows.Sublist Monthly.new.process.table.rows := by
  have hsome : (run (Monthly.step (fun _ => true) isoInput) Monthly.new
      [.loop (.receive (.obj [("event_type", .string "AUTH_SUCCESS")])),
        .ensure ⟨utc, 20454⟩, .loop (.tick .executeFailed 0)]).isSome = true := by
    decide +kernel
  obtain ⟨t, ht⟩ := Option.isSome_iff_exists.mp hsome
  refine ⟨t, ht, missing_month_blocks_table (fun _ => true) isoInput Monthly.new t
    (.obj [("event_type", .string "AUTH_SUCCESS")]) (.finite 0) _ isoInput.read_epoch (by decide)
    ?_ ?_ ht⟩
  · intro c hc
    obtain rfl : c = ⟨utc, 20454⟩ := by simpa using hc
    decide +kernel
  · intro a ha
    obtain rfl : a = .tick .executeFailed 0 := by simpa using ha
    decide

/-! ## Without the first row -/

theorem storedHash_ne_empty {processed : List Value} (h : eventView.Linked (some "") processed)
    {event : Value} (hevent : event ∈ processed) : storedHash event ≠ some "" := by
  have hdigest : storedHash event =
      (storedPrev event).map fun p => sha256Hex (p ++ buildPayload event) :=
    h.headOf_eq_digest hevent
  rw [hdigest]
  cases storedPrev event with
  | none => simp
  | some p => simpa using sha256Hex_ne_empty (p ++ buildPayload event)

/-- Only the first event of a chain extends the empty head. -/
theorem storedPrev_ne_of_mem_tail {processed : List Value}
    (h : eventView.Linked (some "") processed) {event : Value} (hevent : event ∈ processed.tail) :
    storedPrev event ≠ some "" := by
  cases processed with
  | nil => cases hevent
  | cons e es =>
    have hheads : ∀ x ∈ e :: es, storedHash x ≠ some "" := fun x hx => storedHash_ne_empty h hx
    rcases h.2.2.prevOf_mem hevent with hprev | hprev
    · exact fun heq => hheads e (by simp) (hprev.symm.trans heq)
    · obtain ⟨x, hx, hhead⟩ := List.mem_map.mp hprev
      exact fun heq => hheads x (List.mem_cons_of_mem e hx) (hhead.trans heq)

/-- No row, and no event that may become one, extends the empty head. -/
structure Headless (s : Process) : Prop where
  chain : s.processor.chain.prevHash ≠ ""
  memory : ∀ event ∈ allEvents s, storedPrev event ≠ some ""
  rows : ∀ row ∈ s.table.rows, row.prevHash ≠ some ""

namespace Headless

variable {p q : Process}

/-- What one arm of the loop preserves. -/
theorem loop (h : Headless p) {a : Action} (ha : p.step input a = some q) : Headless q := by
  rcases Process.step_cases ha with ⟨event, r, -, hr, rfl⟩ | ⟨db, gap, -, -, hne, hflush⟩ |
    ⟨-, rfl⟩
  · obtain ⟨applied, happly, hchain, hbatch, -, -⟩ := Processor.receive_eq_some hr
    have hspec := HashChain.apply_spec happly
    refine ⟨?_, ?_, h.rows⟩
    · rw [hchain, hspec.chain_eq, hspec.eventHash_eq]
      exact sha256Hex_ne_empty _
    · rw [allEvents, hbatch, ← List.append_assoc, List.forall_mem_append,
        List.forall_mem_singleton, hspec.storedPrev_eq]
      exact ⟨h.memory, fun heq => h.chain (Option.some.inj heq)⟩
  · have hflushed := flushed_of_flush hne hflush
    obtain ⟨rows, htable, hrows⟩ := hflushed.table
    refine ⟨?_, fun event hevent => ?_, ?_⟩
    · rw [hflushed.processor]
      exact h.chain
    · rw [hflushed.allEvents] at hevent
      exact h.memory event (requeued_sublist.subset hevent)
    · rw [htable, List.forall_mem_append]
      refine ⟨h.rows, fun row hrow => ?_⟩
      obtain ⟨event, hevent, hstored⟩ := exists_of_forall₂ hrows hrow
      have hmemory := h.memory event (inserted_subset hevent)
      exact fun heq => hmemory (hstored.sameLinks.1.symm.trans heq)
  · exact h

/-- What one step preserves. -/
theorem step (h : Headless s.process) {a : MonthlyAction}
    (ha : s.step accepts input a = some t) : Headless t.process := by
  cases a with
  | loop a =>
    obtain ⟨p, hp, rfl⟩ := Option.map_eq_some_iff.mp ha
    exact h.loop (guardedStep_eq_some hp).1
  | ensure c =>
    obtain rfl := Option.some.inj ha
    exact h
  | drop name =>
    obtain rfl := Option.some.inj ha
    exact ⟨h.chain, h.memory, fun row hrow => h.rows row (List.mem_of_mem_filter hrow)⟩

/-- `verify_chain` stops at the first row. -/
theorem verifyChain_eq (h : Headless p) {row : Row} (hrow : p.table.rows.head? = some row) :
    verifyChain p.table.rows =
      { checkedCount := 1, valid := false, firstBrokenId := some row.id } := by
  obtain ⟨rows, hrows⟩ := List.head?_eq_some_iff.mp hrow
  have hprev := h.rows row (hrows ▸ List.mem_cons_self)
  rw [verifyChain, orderById_eq_self (p.table.ids_lt.imp le_of_lt), hrows, verifyLoop,
    if_pos hprev]

end Headless

/-- What is related to a part of the second list is a part of the first. -/
theorem exists_sublist_of_filter {α β : Type*} {R : α → β → Prop} {xs : List α} {ys : List β}
    (h : List.Forall₂ R xs ys) (keep : β → Bool) :
    ∃ kept, kept.Sublist xs ∧ List.Forall₂ R kept (ys.filter keep) := by
  induction h with
  | nil => exact ⟨[], .slnil, .nil⟩
  | @cons x y xs ys hxy _ ih =>
    obtain ⟨kept, hsub, hrel⟩ := ih
    rw [List.filter_cons]
    split_ifs
    · exact ⟨x :: kept, hsub.cons_cons x, .cons hxy hrel⟩
    · exact ⟨kept, hsub.cons x, hrel⟩

/-- Dropping rows keeps the order of the others. -/
theorem InOrder.keepRows {events processed written : List Value} {p : Process}
    (h : InOrder input events p processed written) (keep : Row → Bool) :
    ∃ kept, InOrder input events { p with table := Delivery.keepRows p.table keep } processed
      kept := by
  obtain ⟨kept, hsub, hrel⟩ := exists_sublist_of_filter h.stored keep
  have hall : (kept ++ allEvents p).Sublist processed := (hsub.append_right _).trans h.sublist
  exact ⟨kept, ⟨h.chained, hrel, hall.subset⟩, hall⟩

/-- What every run preserves in which every reply arrives. -/
theorem inOrder_of_run {actions : List MonthlyAction}
    (hrun : run (Monthly.step accepts input) Monthly.new actions = some s)
    (hdb : ∀ a, .loop a ∈ actions → a.db ≠ some .replyLost) :
    ∃ events processed written, InOrder input events s.process processed written := by
  refine run_invariant (Monthly.step accepts input)
    (I := fun s => ∃ events processed written, InOrder input events s.process processed written)
    (C := fun a => a ∈ actions) ?_ ⟨[], [], [], .new⟩ hrun (fun _ ha => ha)
  rintro u a v ⟨events, processed, written, hu⟩ hmem hstep
  cases a with
  | loop a =>
    obtain ⟨p, hp, rfl⟩ := Option.map_eq_some_iff.mp hstep
    exact ⟨_, hu.step (hdb a hmem) (guardedStep_eq_some hp).1⟩
  | ensure c =>
    obtain rfl := Option.some.inj hstep
    exact ⟨events, processed, written, hu⟩
  | drop name =>
    obtain rfl := Option.some.inj hstep
    exact ⟨events, processed, hu.keepRows _⟩

/-- Behind the first row no event extends the empty head. -/
theorem InOrder.headless {events processed written : List Value} {p : Process}
    (h : InOrder input events p processed written) {first : Row}
    (hfirst : p.table.rows.head? = some first) {keep : Row → Bool} (hdropped : keep first = false) :
    Headless { p with table := Delivery.keepRows p.table keep } := by
  obtain ⟨rows, hrows⟩ := List.head?_eq_some_iff.mp hfirst
  obtain ⟨hlinked, hhead⟩ := HashChain.applyAll_linked h.chained
  have hstored := h.stored
  rw [hrows] at hstored
  obtain ⟨e, es, -, hes, rfl⟩ := List.forall₂_cons_right_iff.mp hstored
  have htail : (es ++ allEvents p).Sublist processed.tail := h.sublist.tail
  have hne : ∀ event ∈ es ++ allEvents p, storedPrev event ≠ some "" :=
    fun event hevent => storedPrev_ne_of_mem_tail hlinked (htail.subset hevent)
  rw [List.forall_mem_append] at hne
  refine ⟨fun hempty => ?_, hne.2, fun row hrow => ?_⟩
  · have hprocessed : processed ≠ [] := by
      rintro rfl
      cases h.sublist
    obtain ⟨last, hlast, hlastHead⟩ :=
      eventView.exists_head_eq hprocessed (some HashChain.new.prevHash)
    rw [hhead] at hlastHead
    have hprev : p.processor.chain.prevHash = "" := hempty
    rw [hprev] at hlastHead
    exact storedHash_ne_empty hlinked hlast hlastHead.symm
  · obtain ⟨hrow, hkeep⟩ := List.mem_filter.mp hrow
    rw [hrows, List.mem_cons] at hrow
    rcases hrow with rfl | hrow
    · rw [hdropped] at hkeep
      cases hkeep
    · obtain ⟨event, hevent, hof⟩ := exists_of_forall₂ hes hrow
      exact fun heq => hne.1 event hevent (hof.sameLinks.1.symm.trans heq)

/-- Once the partition with the first row is dropped, `verify_chain` rejects the table whenever it
has a row, and names the first one, whatever is received, written, created and dropped later and
whatever failed before, as long as no reply to a committed INSERT was lost before: the rows that
remain extend heads that are gone, and the chain in memory goes on from them. -/
theorem lost_front_never_accepted (accepts : BoundRow → Bool) (input : TimestamptzInput)
    (before after : List MonthlyAction) (name : String) (s t : Monthly) (first : Row)
    (hbefore : run (Monthly.step accepts input) Monthly.new before = some s)
    (hdb : ∀ a, .loop a ∈ before → a.db ≠ some .replyLost)
    (hfirst : s.process.table.rows.head? = some first)
    (hdropped : first ∉ (s.drop name).process.table.rows)
    (hafter : run (Monthly.step accepts input) (s.drop name) after = some t) :
    ∀ row, t.process.table.rows.head? = some row →
      verifyChain t.process.table.rows =
        { checkedCount := 1, valid := false, firstBrokenId := some row.id } := by
  obtain ⟨events, processed, written, hs⟩ := inOrder_of_run hbefore hdb
  have hheadless : Headless (s.drop name).process := by
    refine hs.headless hfirst ?_
    rw [← Bool.not_eq_true]
    intro hkept
    exact hdropped (List.mem_filter.mpr ⟨List.mem_of_mem_head? hfirst, hkept⟩)
  have hend : Headless t.process :=
    run_invariant (Monthly.step accepts input) (I := fun v => Headless v.process)
      (C := fun _ => True) (fun _ _ _ hv _ hstep => hv.step hstep) hheadless hafter
      (fun _ _ => trivial)
  exact fun row hrow => hend.verifyChain_eq hrow

theorem lost_front_never_accepted_january :
    ∃ s t row, run (Monthly.step (fun _ => true) isoInput) Monthly.new monthlyActions = some s ∧
      run (Monthly.step (fun _ => true) isoInput) (s.drop "events_2026_01")
        [.loop (.receive millisEvent), .loop (.tick .executeFailed 0)] = some t ∧
      t.process.table.rows.head? = some row ∧
      verifyChain t.process.table.rows =
        { checkedCount := 1, valid := false, firstBrokenId := some row.id } := by
  have hend : (run (Monthly.step (fun _ => true) isoInput) Monthly.new monthlyActions).any
      (fun s => (s.process.table.rows.head?.any fun first =>
          first ∉ (s.drop "events_2026_01").process.table.rows) &&
        (run (Monthly.step (fun _ => true) isoInput) (s.drop "events_2026_01")
          [.loop (.receive millisEvent), .loop (.tick .executeFailed 0)]).any fun t =>
            t.process.table.rows.head?.isSome) = true := by
    decide +kernel
  obtain ⟨s, hs, hboth⟩ := (Option.any_eq_true _ _).mp hend
  obtain ⟨hleft, hright⟩ := Bool.and_eq_true_iff.mp hboth
  obtain ⟨first, hfirst, hdropped⟩ := (Option.any_eq_true _ _).mp hleft
  obtain ⟨t, ht, hrow⟩ := (Option.any_eq_true _ _).mp hright
  obtain ⟨row, hrow⟩ := Option.isSome_iff_exists.mp hrow
  exact ⟨s, t, row, hs, ht, hrow, lost_front_never_accepted (fun _ => true) isoInput monthlyActions
    _ "events_2026_01" s t first hs (by simp [monthlyActions, Action.db]) hfirst
    (of_decide_eq_true hdropped) ht row hrow⟩

end VibeAudit.Delivery
