import VibeAudit.Delivery.Order
import VibeAudit.Delivery.Prefix
import VibeAudit.Delivery.RetryQueue
import VibeAudit.Hooks.Storage

/-!
# Events that stop the table

One INSERT carries the whole backlog, so an event that the table cannot hold
fails it again and again. The full queue sheds such an event in the end, but by
then the backlog is too long for one statement: only a failed connection, which
loses the backlog, lets the table grow again. Without such events a working
database has stored all but the current batch.
-/

namespace VibeAudit.Delivery

open Foundation Json Extension Forwarder Chain Hooks

def storableBacklog (acceptable : BoundRow → Bool) (s : Process) : Bool :=
  (allEvents s).all (fun event => acceptable (boundRow event)) &&
    (insertStatement (allEvents s)).params.length ≤ maxBindParams

/-- Steps of runs in which the database does to an INSERT only what the guard allows. -/
def guardedStep (allowed : Process → DbOutcome → Bool) (input : TimestamptzInput) (s : Process)
    (a : Action) : Option Process :=
  if a.db.all (allowed s) then s.step input a else none

/-- The database executes no INSERT that it cannot; it may fail for other reasons. -/
def soundStep (acceptable : BoundRow → Bool) : TimestamptzInput → Process → Action →
    Option Process :=
  guardedStep fun s db => !db.commits || storableBacklog acceptable s

/-- The database stays connected, so that its replies arrive, and executes every INSERT that it
can. -/
def workingStep (acceptable : BoundRow → Bool) : TimestamptzInput → Process → Action →
    Option Process :=
  guardedStep fun s db =>
    db == if storableBacklog acceptable s then .executed else .executeFailed

theorem guardedStep_eq_some {allowed : Process → DbOutcome → Bool} {input : TimestamptzInput}
    {s t : Process} {a : Action} (h : guardedStep allowed input s a = some t) :
    s.step input a = some t ∧ ∀ db, a.db = some db → allowed s db = true := by
  unfold guardedStep at h
  split_ifs at h with hall
  refine ⟨h, fun db hdb => ?_⟩
  rwa [hdb, Option.all_some] at hall

variable {acceptable : BoundRow → Bool} {input : TimestamptzInput} {s t : Process}

theorem storableBacklog_eq_true : storableBacklog acceptable s = true ↔
    (∀ event ∈ allEvents s, acceptable (boundRow event) = true) ∧
      18 * (allEvents s).length ≤ maxBindParams := by
  simp [storableBacklog, insertStatement_params_length]

/-! ## The blocked table -/

/-- The most events that one statement can carry. -/
def maxRows : Nat := 3640

/-- The backlog holds an event that the table cannot, or is too long for a statement. -/
def Blocked (acceptable : BoundRow → Bool) (s : Process) : Prop :=
  (∃ event ∈ allEvents s, acceptable (boundRow event) = false) ∨
    maxRows < s.writer.retryQueue.length

theorem Blocked.not_storable (h : Blocked acceptable s) : storableBacklog acceptable s = false := by
  rw [← Bool.not_eq_true, storableBacklog_eq_true]
  rintro ⟨hall, hfits⟩
  rcases h with ⟨event, hevent, hbad⟩ | hlong
  · rw [hall event hevent] at hbad
    cases hbad
  · rw [allEvents, List.length_append] at hfits
    unfold maxBindParams maxRows at *
    omega

/-- A rejected backlog stays blocked, also where the cap sheds the event that blocked it. -/
theorem Blocked.executeFailed (h : Blocked acceptable s)
    (hflushed : Flushed input s t .executeFailed) : Blocked acceptable t := by
  have hqueue := hflushed.queue
  rw [requeued] at hqueue
  by_cases hfits : (allEvents s).length ≤ maxRetry
  · rw [rtake_of_length_le hfits] at hqueue
    rcases h with ⟨event, hevent, hbad⟩ | hlong
    · refine .inl ⟨event, ?_, hbad⟩
      rwa [allEvents, hqueue, hflushed.batch, List.append_nil]
    · refine .inr ?_
      rw [hqueue, allEvents, List.length_append]
      omega
  · refine .inr ?_
    rw [hqueue, length_rtake]
    unfold maxRows maxRetry at *
    omega

/-- What one step preserves: nothing is written, and the backlog stays blocked. -/
theorem Blocked.step (h : Blocked acceptable s) {a : Action} (hdb : a.db ≠ some .getFailed)
    (ha : soundStep acceptable input s a = some t) :
    Blocked acceptable t ∧ t.table.rows = s.table.rows := by
  obtain ⟨hstep, hallowed⟩ := guardedStep_eq_some ha
  rcases Process.step_cases hstep with ⟨event, p, -, hp, rfl⟩ |
    ⟨db, gap, hadb, -, hne, hflush⟩ | ⟨-, rfl⟩
  · obtain ⟨a, -, -, hbatch, -, -⟩ := Processor.receive_eq_some hp
    refine ⟨?_, rfl⟩
    rcases h with ⟨bad, hbad, hrow⟩ | hlong
    · refine .inl ⟨bad, ?_, hrow⟩
      rw [allEvents, hbatch, ← List.append_assoc]
      exact List.mem_append_left _ hbad
    · exact .inr hlong
  · have hflushed := flushed_of_flush hne hflush
    have hguard := hallowed _ hadb
    rw [h.not_storable, Bool.or_false] at hguard
    cases db with
    | getFailed => exact absurd hadb hdb
    | executeFailed => exact ⟨h.executeFailed hflushed, hflushed.rows_eq rfl⟩
    | replyLost | executed => cases hguard
  · exact ⟨h, rfl⟩

/-- What every run without a failed connection preserves. -/
theorem Blocked.of_run (h : Blocked acceptable s) {actions : List Action}
    (hdb : ∀ a ∈ actions, a.db ≠ some .getFailed)
    (hrun : run (soundStep acceptable input) s actions = some t) :
    Blocked acceptable t ∧ t.table.rows = s.table.rows := by
  refine run_invariant (soundStep acceptable input)
    (I := fun u => Blocked acceptable u ∧ u.table.rows = s.table.rows)
    (C := fun a => a.db ≠ some .getFailed) ?_ ⟨h, rfl⟩ hrun hdb
  rintro u a v ⟨hblocked, hrows⟩ ha hstep
  obtain ⟨hnext, hsame⟩ := hblocked.step ha hstep
  exact ⟨hnext, hsame.trans hrows⟩

def Unstorable (acceptable : BoundRow → Bool) (event : Value) : Prop :=
  ∀ hashed, HashedFrom event hashed → acceptable (boundRow hashed) = false

/-- Once an event is received that the table cannot hold, nothing is written any more until a
connection fails, whatever is received later and however long the run is. -/
theorem table_blocked_after (acceptable : BoundRow → Bool) (input : TimestamptzInput)
    (s t : Process) (event : Value) (actions : List Action) (hbad : Unstorable acceptable event)
    (hdb : ∀ a ∈ actions, a.db ≠ some .getFailed)
    (hrun : run (soundStep acceptable input) s (.receive event :: actions) = some t) :
    t.table.rows = s.table.rows := by
  obtain ⟨u, hu, hrest⟩ := Option.bind_eq_some_iff.mp hrun
  obtain ⟨hstep, -⟩ := guardedStep_eq_some hu
  rcases Process.step_cases hstep with ⟨e, p, he, hp, rfl⟩ | ⟨_, _, -, hnone, -⟩ | ⟨hnone, -⟩
  · obtain rfl := Action.receive.inj he
    obtain ⟨a, ha, -, hbatch, -, -⟩ := Processor.receive_eq_some hp
    have hblocked : Blocked acceptable { s with processor := p } := by
      refine .inl ⟨a.event, ?_, hbad a.event (HashChain.apply_spec ha).hashed⟩
      rw [allEvents, hbatch]
      simp
    exact (hblocked.of_run hdb hrest).2
  · cases hnone
  · cases hnone

/-! ## Audited statements -/

/-- What the forwarder reads from the datagram of an audited utility statement, or of a query of a
superuser, if the names in it stay within their quotes. -/
inductive IsStatement (fromSlice : FromSlice) : Value → Prop where
  | utility {tv : Timeval} {names : SessionNames} {pid : Int32} {stmt : UtilityStmt}
      {objectNames : ObjectNames} {query : Option String} {success : Bool} {datagram : CString}
      {event : Value} (hobject : objectNames.Of stmt)
      (hclosed : ClosedNames (utilityNames names objectNames))
      (hsent : vibeEmitUtilityEventWithStatus tv (names.session pid) (some stmt)
        (query.map bytes) success = some datagram)
      (hread : fromSlice datagram = some event) : IsStatement fromSlice event
  | executor {tv : Timeval} {names : SessionNames} {pid : Int32} {operation : CmdType}
      {query : String} {datagram : CString} {event : Value}
      (hclosed : ClosedNames (utilityNames names ⟨none, none⟩))
      (hsent : vibeEmitExecutorEvent tv (names.session pid)
        (some ⟨operation, some (bytes query)⟩) = some datagram)
      (hread : fromSlice datagram = some event) : IsStatement fromSlice event

/-- The events of statements have an empty client address. -/
theorem IsStatement.clientAddr {number : List Char → Option Number} {fromSlice : FromSlice}
    (hreads : ReadsJson number fromSlice) {event : Value} (h : IsStatement fromSlice event) :
    event.isObject = true ∧ event.index "client_addr" = .string "" := by
  cases h with
  | @utility tv names pid stmt objectNames query success _ _ hobject hclosed hsent hread =>
    obtain ⟨ddlTag, htag, rfl⟩ := eq_of_utility_emitted hobject hsent
    exact clientAddr_query hreads (by simp [utilityFront]) hclosed
      (says_utilityFields tv names pid htag objectNames success) _ hread
  | @executor tv names pid operation query _ _ hclosed hsent hread =>
    rw [vibeEmitExecutorEvent_of_text] at hsent
    obtain rfl := eq_of_emit hsent
    rw [executorMembers_eq tv names pid operation] at hread
    exact clientAddr_query hreads (by simp [executorFront]) hclosed
      (says_executorFields tv names pid operation) query hread

/-- The column of the address takes no empty string. -/
theorem unstorable_of_empty {inputs : ColumnInputs} (hinputs : inputs.Documented) {event : Value}
    (h : event.index "client_addr" = .string "") : Unstorable inputs.accepts event := by
  intro hashed hfrom
  have haddr : (boundRow hashed).clientAddr = some "" := by
    rw [boundRow_hashed hfrom]
    simp [boundRow, h, strVal, Value.asStr]
  simp [ColumnInputs.accepts, haddr, hinputs.inet_empty]

/-- One audited statement, or one query of a superuser, ends the growth of the table: over columns
as documented, nothing is written after it is received, until a connection fails. -/
theorem statement_blocks_table {number : List Char → Option Number} {fromSlice : FromSlice}
    (hreads : ReadsJson number fromSlice) {inputs : ColumnInputs} (hinputs : inputs.Documented)
    (s t : Process) (event : Value) (actions : List Action)
    (hstatement : IsStatement fromSlice event) (hdb : ∀ a ∈ actions, a.db ≠ some .getFailed)
    (hrun : run (soundStep inputs.accepts inputs.timestamptz) s (.receive event :: actions) =
      some t) :
    t.table.rows = s.table.rows :=
  table_blocked_after inputs.accepts inputs.timestamptz s t event actions
    (unstorable_of_empty hinputs (hstatement.clientAddr hreads).2) hdb hrun

/-- A chained event is received, and its INSERT fails. -/
theorem exists_run_failed (acceptable : BoundRow → Bool) (input : TimestamptzInput) {event : Value}
    (hobj : event.isObject = true) : ∃ t, run (soundStep acceptable input) Process.new
      [.receive event, .tick .executeFailed 0] = some t := by
  obtain ⟨p, hp⟩ : ∃ p, Process.new.processor.receive event = some p := by
    rw [← Option.isSome_iff_exists, Processor.receive_isSome]
    exact Value.isAssignable_of_isObject hobj
  obtain ⟨a, -, -, hbatch, -, -⟩ := Processor.receive_eq_some hp
  obtain ⟨t, ht⟩ : ∃ t, Process.flush input { Process.new with processor := p }
      .executeFailed 0 = some t :=
    exists_flush 0 (by simp [hbatch, BatchWriter.writeBatch_executeFailed])
  have hreceive : Process.new.step input (.receive event) =
      some { Process.new with processor := p } := by
    rw [Process.step, if_pos (by decide), hp]
    rfl
  have htick : Process.step input { Process.new with processor := p } (.tick .executeFailed 0) =
      some t := by
    have hone : p.batch.length = 1 := by simp [hbatch, Process.new, Processor.new]
    have hfull : p.batch.isEmpty = false := by simp [hbatch]
    simp [Process.step, hone, hfull, batchLimit, ht]
  refine ⟨t, ?_⟩
  simp [run_cons, soundStep, guardedStep, Action.db, DbOutcome.commits, hreceive, htick]

theorem statement_blocks_table_select :
    ∃ datagram event t, vibeEmitExecutorEvent newYear (psqlNames.session 4711)
        (some ⟨.select, some (bytes "SELECT 1")⟩) = some datagram ∧
      (Utf8.decode datagram).bind (readText readInteger) = some event ∧
      run (soundStep plainInputs.accepts isoInput) Process.new
        [.receive event, .tick .executeFailed 0] = some t ∧
      t.table.rows = Process.new.table.rows := by
  have hsent : (vibeEmitExecutorEvent newYear (psqlNames.session 4711)
      (some ⟨.select, some (bytes "SELECT 1")⟩)).isSome = true := by decide +kernel
  obtain ⟨datagram, hdatagram⟩ := Option.isSome_iff_exists.mp hsent
  have hwhole : ¬ CutShort querySize "SELECT 1".toList := not_cutShort_ascii (by decide)
  obtain ⟨query, -, hescape⟩ := exists_escaped hwhole
  have hprinted := hdatagram
  rw [vibeEmitExecutorEvent_of_text] at hprinted
  obtain rfl := eq_of_emit hprinted
  have hevent := fromSlice_of_closed readsJson_integers
    (says_executorFields newYear psqlNames 4711 .select query) plain_psqlNames.closed
  rw [← queryMembers_of_text, ← hescape, ← executorMembers_eq newYear psqlNames 4711 .select]
    at hevent
  have hstatement : IsStatement (fun d => (Utf8.decode d).bind (readText readInteger)) _ :=
    .executor plain_psqlNames.closed hdatagram hevent
  obtain ⟨t, ht⟩ := exists_run_failed plainInputs.accepts isoInput
    (hstatement.clientAddr readsJson_integers).1
  exact ⟨_, _, t, hdatagram, hevent, ht, statement_blocks_table readsJson_integers
    plainInputs_documented Process.new t _ [.tick .executeFailed 0] hstatement (by decide) ht⟩

/-! ## A working database -/

/-- After a run over a working database: `flushed` are the events handed to the writer, `written`
those in the table. -/
structure Working (acceptable : BoundRow → Bool) (input : TimestamptzInput) (events : List Value)
    (s : Process) (flushed written : List Value) : Prop where
  chained : HashChain.new.applyAll events =
    some (s.processor.chain, flushed ++ s.processor.batch)
  bounded : s.processor.batch.length ≤ batchLimit
  stored : List.Forall₂ (StoredAs input) written s.table.rows
  isPrefix : written <+: flushed
  accepted : ∀ event ∈ written, acceptable (boundRow event) = true
  kept : written ++ s.writer.retryQueue = flushed ∨ maxRows < s.writer.retryQueue.length
  clear : (∀ event ∈ flushed, acceptable (boundRow event) = true) → s.writer.retryQueue = []

namespace Working

variable {events flushed written : List Value}

theorem new : Working acceptable input [] Process.new [] [] where
  chained := rfl
  bounded := Nat.zero_le _
  stored := .nil
  isPrefix := List.prefix_refl _
  accepted := by simp
  kept := .inl rfl
  clear _ := rfl

theorem receive (h : Working acceptable input events s flushed written) {event : Value}
    {p : Processor} (hp : s.processor.receive event = some p)
    (hbounded : p.batch.length ≤ batchLimit) :
    Working acceptable input (events ++ [event]) { s with processor := p } flushed written where
  __ := h
  bounded := hbounded
  chained := by
    obtain ⟨a, ha, hchain, hbatch, -, -⟩ := Processor.receive_eq_some hp
    rw [HashChain.applyAll_append, h.chained]
    simp [HashChain.applyAll, ha, hchain, hbatch]

/-- Events that the table holds are flushed into it at once. -/
theorem storable (h : Working acceptable input events s flushed written)
    (hall : ∀ event ∈ flushed ++ s.processor.batch, acceptable (boundRow event) = true) :
    storableBacklog acceptable s = true := by
  have hqueue := h.clear fun event hevent => hall event (List.mem_append_left _ hevent)
  have hbounded := h.bounded
  rw [storableBacklog_eq_true, allEvents, hqueue, List.nil_append]
  refine ⟨fun event hevent => hall event (List.mem_append_right _ hevent), ?_⟩
  unfold batchLimit maxBindParams at *
  omega

/-- An executed flush empties the queue and the batch into the table. -/
theorem executed (h : Working acceptable input events s flushed written)
    (hstorable : storableBacklog acceptable s = true)
    (hflush : Flushed input s t .executed) :
    Working acceptable input events t (flushed ++ s.processor.batch)
      (flushed ++ s.processor.batch) := by
  obtain ⟨hall, -⟩ := storableBacklog_eq_true.mp hstorable
  obtain ⟨rows, htable, hrows⟩ := hflush.table
  have hqueue : t.writer.retryQueue = [] := hflush.queue
  have hkept : written ++ s.writer.retryQueue = flushed := by
    refine h.kept.resolve_right fun hlong => ?_
    rw [Blocked.not_storable (.inr hlong)] at hstorable
    cases hstorable
  have hflushed : written ++ allEvents s = flushed ++ s.processor.batch := by
    rw [allEvents, ← List.append_assoc, hkept]
  refine ⟨?_, ?_, ?_, List.prefix_refl _, ?_, .inl (by rw [hqueue, List.append_nil]),
    fun _ => hqueue⟩
  · rw [hflush.processor, List.append_nil]
    exact h.chained
  · rw [hflush.batch]
    exact Nat.zero_le _
  · rw [htable, ← hflushed]
    exact List.rel_append h.stored hrows
  · rw [← hflushed]
    intro event hevent
    rcases List.mem_append.mp hevent with hevent | hevent
    · exact h.accepted event hevent
    · exact hall event hevent

/-- A failed one moves the batch to the queue. -/
theorem executeFailed (h : Working acceptable input events s flushed written)
    (hstorable : storableBacklog acceptable s = false)
    (hflush : Flushed input s t .executeFailed) :
    Working acceptable input events t (flushed ++ s.processor.batch) written := by
  refine ⟨?_, ?_, ?_, h.isPrefix.trans (List.prefix_append _ _), h.accepted, ?_, fun hall => ?_⟩
  · rw [hflush.processor, List.append_nil]
    exact h.chained
  · rw [hflush.batch]
    exact Nat.zero_le _
  · rw [hflush.rows_eq rfl]
    exact h.stored
  · rw [hflush.queue, requeued]
    by_cases hfits : (allEvents s).length ≤ maxRetry
    · rw [rtake_of_length_le hfits, allEvents, ← List.append_assoc]
      rcases h.kept with hkept | hlong
      · exact .inl (by rw [hkept])
      · exact .inr (by rw [List.length_append]; omega)
    · refine .inr ?_
      rw [length_rtake]
      unfold maxRows maxRetry at *
      omega
  · rw [h.storable hall] at hstorable
    cases hstorable

/-- What one step preserves. -/
theorem step (h : Working acceptable input events s flushed written) {a : Action}
    (ha : workingStep acceptable input s a = some t) :
    ∃ flushed' written', Working acceptable input (events ++ received [a]) t flushed' written' := by
  obtain ⟨hstep, hallowed⟩ := guardedStep_eq_some ha
  have hbounded := batch_length_le h.bounded hstep
  rcases Process.step_cases hstep with ⟨event, p, rfl, hp, rfl⟩ |
    ⟨db, gap, hadb, hnone, hne, hflush⟩ | ⟨hnone, rfl⟩
  · exact ⟨flushed, written, h.receive hp hbounded⟩
  · rw [hnone, List.append_nil]
    have houtcome := beq_iff_eq.mp (hallowed db hadb)
    have hflushed := flushed_of_flush hne hflush
    cases hstorable : storableBacklog acceptable s with
    | true =>
      rw [hstorable, if_pos rfl] at houtcome
      exact ⟨_, _, h.executed hstorable (houtcome ▸ hflushed)⟩
    | false =>
      rw [hstorable, if_neg Bool.false_ne_true] at houtcome
      exact ⟨_, _, h.executeFailed hstorable (houtcome ▸ hflushed)⟩
  · rw [hnone, List.append_nil]
    exact ⟨flushed, written, h⟩

/-- What every run preserves. -/
theorem of_run {actions : List Action}
    (hrun : run (workingStep acceptable input) Process.new actions = some s) :
    ∃ flushed written, Working acceptable input (received actions) s flushed written := by
  refine run_induction (workingStep acceptable input)
    (I := fun as s => ∃ flushed written, Working acceptable input (received as) s flushed written)
    (C := fun _ _ _ => True) ⟨[], [], new⟩ ?_ hrun (fun _ _ _ _ _ _ => trivial)
  rintro as u a t - ⟨flushed, written, hu⟩ - hstep
  rw [received_append]
  exact hu.step hstep

end Working

/-- Over a working database all processed events but the current batch of at most 100 are in the
table, and none is queued, exactly when the table can hold each of them; otherwise the table
keeps a front of them. -/
theorem working_stores_all_iff (acceptable : BoundRow → Bool) (input : TimestamptzInput)
    (actions : List Action) (s : Process)
    (hrun : run (workingStep acceptable input) Process.new actions = some s) :
    ∃ flushed written, HashChain.new.applyAll (received actions) =
        some (s.processor.chain, flushed ++ s.processor.batch) ∧
      s.processor.batch.length ≤ batchLimit ∧
      List.Forall₂ (StoredAs input) written s.table.rows ∧ written <+: flushed ∧
      (s.writer.retryQueue = [] ∧ written = flushed ↔
        ∀ event ∈ flushed, acceptable (boundRow event) = true) := by
  obtain ⟨flushed, written, h⟩ := Working.of_run hrun
  refine ⟨flushed, written, h.chained, h.bounded, h.stored, h.isPrefix, ?_, fun hall => ?_⟩
  · rintro ⟨-, rfl⟩
    exact h.accepted
  · have hqueue := h.clear hall
    have hkept := h.kept
    rw [hqueue, List.append_nil] at hkept
    exact ⟨hqueue, hkept.resolve_right (by simp [maxRows])⟩

theorem working_stores_all_login :
    ∃ s, run (workingStep plainInputs.accepts isoInput) Process.new
        [.receive millisEvent, .tick .executed 0, .receive millisEvent] = some s ∧
      ∃ flushed written, HashChain.new.applyAll
          (received [.receive millisEvent, .tick .executed 0, .receive millisEvent]) =
          some (s.processor.chain, flushed ++ s.processor.batch) ∧
        s.processor.batch.length ≤ batchLimit ∧
        List.Forall₂ (StoredAs isoInput) written s.table.rows ∧ written <+: flushed ∧
        (s.writer.retryQueue = [] ∧ written = flushed ↔
          ∀ event ∈ flushed, plainInputs.accepts (boundRow event) = true) := by
  have hsome : (run (workingStep plainInputs.accepts isoInput) Process.new
      [.receive millisEvent, .tick .executed 0, .receive millisEvent]).isSome = true := by
    decide +kernel
  obtain ⟨s, hs⟩ := Option.isSome_iff_exists.mp hsome
  exact ⟨s, hs, working_stores_all_iff plainInputs.accepts isoInput _ s hs⟩

end VibeAudit.Delivery
