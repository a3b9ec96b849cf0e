import VibeAudit.Delivery.Prefix
import VibeAudit.Forwarder.WalCapture

/-!
# The audit pipeline and its own writes

Listener, WAL capture, channel, processor and table composed, with the slot that
the capture polls. The database decodes every committed row of the events table
into a line of that slot, so what the writer inserts comes back as a change. A
run inserts no more rows than it has inputs as long as nothing is copied: the
capture handles no line of the forwarder's own schema, every reply to a committed
INSERT arrives, and the slot is not set back. One line of that schema breaks the
bound.
-/

namespace VibeAudit.Delivery

open Foundation Json Extension Forwarder Chain

/-- A row of `pg_logical_slot_get_changes`. -/
structure SlotRow where
  lsn : String
  xid : String
  data : String
  deriving DecidableEq, Repr

/-- The parts the pipeline runs on: the JSON reader, the reading of instants, and how the
database prints a row of the events table: its partition, its columns and its position. -/
structure Environment where
  fromSlice : FromSlice
  fromStr : String → Option Value
  input : TimestamptzInput
  partition : Row → String
  columns : Row → String
  position : Row → String × String

/-- The line for an inserted row of the events table. -/
def Environment.decode (env : Environment) (row : Row) : SlotRow where
  lsn := (env.position row).1
  xid := (env.position row).2
  data := "table vibe_audit." ++ env.partition row ++ ": INSERT: " ++ env.columns row

/-- A change line of a table of the schema `vibe_audit`. -/
def SlotRow.isOwn (row : SlotRow) : Bool := "table vibe_audit.".toList.isPrefixOf row.data.toList

/-- A line that frames a transaction. -/
def SlotRow.isFrame (row : SlotRow) : Bool :=
  "BEGIN".toList.isPrefixOf row.data.toList || "COMMIT".toList.isPrefixOf row.data.toList

/-- A line of a change outside the schema `vibe_audit`, or one that is no change at all. -/
def SlotRow.isForeign (row : SlotRow) : Bool := !row.isOwn && !row.isFrame

theorem Environment.decode_isOwn (env : Environment) (row : Row) :
    (env.decode row).isOwn = true := by
  simp [SlotRow.isOwn, decode, List.append_assoc]

/-- The slot with the rows it has returned, those of the last poll, the channel, and the processor
with its table. -/
structure Pipeline where
  slot : List SlotRow
  returned : List SlotRow
  fetched : List SlotRow
  channel : List Value
  process : Process

/-- What can happen next. External lines are changes by other clients and the frames of all
transactions. After a crash of the database the slot may be set back over rows it has returned. A
captured line is read with the registry and the clock of that moment. -/
inductive PipelineAction where
  | datagram (bytes : List UInt8)
  | external (row : SlotRow)
  | rewind (n : Nat)
  | poll (n : Nat)
  | capture (registry : SensitiveFieldRegistry) (now : String)
  | receive
  | flushFull (db : DbOutcome) (gap : Nat)
  | tick (db : DbOutcome) (gap : Nat)

def channelCapacity : Nat := 10000

namespace Pipeline

def new : Pipeline :=
  { slot := [], returned := [], fetched := [], channel := [], process := Process.new }

/-- `tx.send` of the events in turn; a full channel makes the sender wait. -/
def send (s : Pipeline) (events : List Value) : Option Pipeline :=
  if s.channel.length + events.length ≤ channelCapacity then
    some { s with channel := s.channel ++ events }
  else none

/-- An arm of the processor loop that may write: what it inserts is decoded into the slot. -/
def write (env : Environment) (s : Pipeline) (a : Action) : Option Pipeline :=
  (s.process.step env.input a).map fun p =>
    let inserted := p.table.rows.drop s.process.table.rows.length
    { s with process := p, slot := s.slot ++ inserted.map env.decode }

def step (env : Environment) (s : Pipeline) : PipelineAction → Option Pipeline
  | .datagram bytes =>
    match env.fromSlice bytes with
    | some event => s.send [event]
    | none => some s
  | .external row => if row.isOwn then none else some { s with slot := s.slot ++ [row] }
  | .rewind n =>
    -- it shows at the next poll, so there are no fetched rows left
    if s.fetched.isEmpty then
      some { s with
        slot := s.returned.rtake n ++ s.slot
        returned := s.returned.rdrop n }
    else none
  | .poll n =>
    if s.fetched.isEmpty then
      some { s with
        slot := s.slot.drop n
        returned := s.returned ++ s.slot.take n
        fetched := s.slot.take n }
    else none
  | .capture registry now =>
    match s.fetched with
    | [] => none
    | row :: rows =>
      let events := parseTestDecoding env.fromStr registry now row.data row.xid row.lsn
      { s with fetched := rows }.send (events.getD [])
  | .receive =>
    match s.channel with
    | [] => none
    | event :: events =>
      (s.process.step env.input (.receive event)).map fun p =>
        { s with channel := events, process := p }
  | .flushFull db gap => s.write env (.flushFull db gap)
  | .tick db gap => s.write env (.tick db gap)

end Pipeline

/-- The inputs from outside: datagrams, and changes to tables of other schemas. -/
def PipelineAction.isInput : PipelineAction → Bool
  | .datagram _ => true
  | .external row => !row.isFrame
  | _ => false

/-- The step copies nothing: the row the capture would handle next is no line of the forwarder's
own schema, the reply to an INSERT arrives, and the slot returns no change for the second time. -/
def MakesNoCopy (s : Pipeline) : PipelineAction → Prop
  | .capture _ _ => ∀ row ∈ s.fetched.head?, row.isOwn = false
  | .flushFull db _ | .tick db _ => s.process.processor.batch = [] ∨ db ≠ .replyLost
  | .rewind n => ∀ row ∈ s.returned.rtake n, row.isForeign = false
  | _ => True

/-- Events that are in the processor's hands or in the table. -/
def held (p : Process) : Nat :=
  p.table.rows.length + p.writer.retryQueue.length + p.processor.batch.length

/-- Everything that is, or may still become, a row. -/
def Pipeline.weight (s : Pipeline) : Nat :=
  held s.process + s.channel.length + s.fetched.countP SlotRow.isForeign +
    s.slot.countP SlotRow.isForeign

variable {env : Environment}

/-- A flush whose reply arrives moves events from the batch and the queue to the table, or drops
some. -/
theorem held_flush_le {p q : Process} {input : TimestamptzInput} {db : DbOutcome} {gap : Nat}
    (hne : p.processor.batch ≠ []) (hdb : db ≠ .replyLost)
    (h : p.flush input db gap = some q) : held q ≤ held p := by
  have hflushed := flushed_of_flush hne h
  obtain ⟨rows, htable, hrows⟩ := hflushed.table
  have hlength := (inserted_requeued_sublist (s := p) hdb).length_le
  rw [List.length_append, hrows.length_eq, allEvents, List.length_append] at hlength
  rw [held, held, htable, hflushed.queue, hflushed.batch, List.length_append, List.length_nil]
  omega

theorem held_receive {p q : Process} {input : TimestamptzInput} {event : Value}
    (h : p.step input (.receive event) = some q) : held q = held p + 1 := by
  rcases Process.step_cases h with ⟨e, processor, -, hprocessor, rfl⟩ | ⟨_, _, -, hnone, -⟩ |
    ⟨hnone, -⟩
  · obtain ⟨applied, -, -, hbatch, -⟩ := Processor.receive_eq_some hprocessor
    simp [held, hbatch]
    omega
  · cases hnone
  · cases hnone

/-- A line that is not the schema's own gives an event at most if it is foreign. -/
theorem parseTestDecoding_length_le (fromStr : String → Option Value)
    (registry : SensitiveFieldRegistry) (now : String) (row : SlotRow) (hown : row.isOwn = false) :
    ((parseTestDecoding fromStr registry now row.data row.xid row.lsn).getD []).length ≤
      if row.isForeign = true then 1 else 0 := by
  by_cases hframe : row.isFrame = true
  · have hnone : parseTestDecoding fromStr registry now row.data row.xid row.lsn = none :=
      if_pos hframe
    simp [hnone]
  · have hread : parseTestDecoding fromStr registry now row.data row.xid row.lsn =
        (parseChangeLine row.data).bind fun line =>
          (changeEvent fromStr registry now row.xid row.lsn line).bind fun event => some [event] :=
      if_neg hframe
    rw [hread, if_pos (by simp [SlotRow.isForeign, hown, hframe])]
    cases parseChangeLine row.data with
    | none => simp
    | some line => cases h : changeEvent fromStr registry now row.xid row.lsn line <;> simp [h]

theorem send_eq_some {s t : Pipeline} {events : List Value} (h : s.send events = some t) :
    t = { s with channel := s.channel ++ events } := by
  simp only [Pipeline.send] at h
  split_ifs at h
  exact (Option.some.inj h).symm

/-- What a step can do, by its action. -/
inductive Pipeline.Step (env : Environment) (s : Pipeline) : PipelineAction → Pipeline → Prop where
  | unread {bytes : List UInt8} (hread : env.fromSlice bytes = none) :
    Step env s (.datagram bytes) s
  | datagram {bytes : List UInt8} {event : Value} (hread : env.fromSlice bytes = some event) :
    Step env s (.datagram bytes) { s with channel := s.channel ++ [event] }
  | external {row : SlotRow} (hown : row.isOwn = false) :
    Step env s (.external row) { s with slot := s.slot ++ [row] }
  | rewind {n : Nat} (hfetched : s.fetched = []) :
    Step env s (.rewind n) { s with
      slot := s.returned.rtake n ++ s.slot
      returned := s.returned.rdrop n }
  | poll {n : Nat} (hfetched : s.fetched = []) :
    Step env s (.poll n) { s with
      slot := s.slot.drop n
      returned := s.returned ++ s.slot.take n
      fetched := s.slot.take n }
  | capture {registry : SensitiveFieldRegistry} {now : String} {row : SlotRow}
      {rows : List SlotRow} (hfetched : s.fetched = row :: rows) :
    Step env s (.capture registry now) { s with
      fetched := rows
      channel := s.channel ++
        (parseTestDecoding env.fromStr registry now row.data row.xid row.lsn).getD [] }
  | receive {event : Value} {events : List Value} {p : Process}
      (hchannel : s.channel = event :: events)
      (hreceive : s.process.step env.input (.receive event) = some p) :
    Step env s .receive { s with channel := events, process := p }
  | flushFull {db : DbOutcome} {gap : Nat} {t : Pipeline}
      (hwrite : s.write env (.flushFull db gap) = some t) : Step env s (.flushFull db gap) t
  | tick {db : DbOutcome} {gap : Nat} {t : Pipeline}
      (hwrite : s.write env (.tick db gap) = some t) : Step env s (.tick db gap) t

/-- Everything a step can do. -/
theorem Pipeline.step_cases {s t : Pipeline} {a : PipelineAction} (h : s.step env a = some t) :
    Pipeline.Step env s a t := by
  cases a with
  | datagram bytes =>
    simp only [Pipeline.step] at h
    cases hread : env.fromSlice bytes with
    | none =>
      rw [hread] at h
      obtain rfl := Option.some.inj h
      exact .unread hread
    | some event =>
      rw [hread] at h
      rw [send_eq_some h]
      exact .datagram hread
  | external row =>
    simp only [Pipeline.step] at h
    split_ifs at h with hown
    obtain rfl := Option.some.inj h
    exact .external (by simpa using hown)
  | rewind n =>
    simp only [Pipeline.step] at h
    split_ifs at h with hempty
    obtain rfl := Option.some.inj h
    exact .rewind (by simpa using hempty)
  | poll n =>
    simp only [Pipeline.step] at h
    split_ifs at h with hempty
    obtain rfl := Option.some.inj h
    exact .poll (by simpa using hempty)
  | capture registry now =>
    simp only [Pipeline.step] at h
    cases hfetched : s.fetched with
    | nil => rw [hfetched] at h; cases h
    | cons row rows =>
      rw [hfetched] at h
      rw [send_eq_some h]
      exact .capture hfetched
  | receive =>
    simp only [Pipeline.step] at h
    cases hchannel : s.channel with
    | nil => rw [hchannel] at h; cases h
    | cons event events =>
      rw [hchannel] at h
      obtain ⟨p, hp, rfl⟩ := Option.map_eq_some_iff.mp h
      exact .receive hchannel hp
  | flushFull db gap => exact .flushFull h
  | tick db gap => exact .tick h

/-- A write adds no line to the slot that the pipeline would count. -/
theorem weight_write_le {s t : Pipeline} {a : Action} {db : DbOutcome} (hdb : a.db = some db)
    (hreply : s.process.processor.batch = [] ∨ db ≠ .replyLost)
    (h : s.write env a = some t) : t.weight ≤ s.weight := by
  obtain ⟨p, hp, rfl⟩ := Option.map_eq_some_iff.mp h
  have hown : ((p.table.rows.drop s.process.table.rows.length).map env.decode).countP
      SlotRow.isForeign = 0 := by
    rw [List.countP_eq_zero]
    intro line hline
    obtain ⟨row, -, rfl⟩ := List.mem_map.mp hline
    simp [SlotRow.isForeign, env.decode_isOwn row]
  have hheld : held p ≤ held s.process := by
    rcases Process.step_cases hp with ⟨_, _, rfl, -⟩ | ⟨db', _, hdb', -, hne, hflush⟩ | ⟨-, rfl⟩
    · cases hdb
    · obtain rfl := Option.some.inj (hdb.symm.trans hdb')
      exact held_flush_le hne (hreply.resolve_left hne) hflush
    · exact le_rfl
  simp only [Pipeline.weight, List.countP_append, hown]
  omega

/-- What a step adds to the weight: one for an input, nothing for the pipeline's own moves. -/
theorem weight_step_le {s t : Pipeline} {a : PipelineAction} (h : s.step env a = some t)
    (hcopy : MakesNoCopy s a) : t.weight ≤ s.weight + [a].countP PipelineAction.isInput := by
  cases Pipeline.step_cases h with
  | unread hread => exact Nat.le_add_right _ _
  | datagram hread =>
    simp [Pipeline.weight, PipelineAction.isInput]
    omega
  | @external row hrow =>
    have hone : [row].countP SlotRow.isForeign = [PipelineAction.external row].countP
        PipelineAction.isInput := by
      simp [SlotRow.isForeign, PipelineAction.isInput, List.countP_cons, hrow]
    simp only [Pipeline.weight, List.countP_append]
    omega
  | @rewind n hfetched =>
    have hnone : (s.returned.rtake n).countP SlotRow.isForeign = 0 :=
      List.countP_eq_zero.mpr fun row hrow => by simp [hcopy row hrow]
    simp only [Pipeline.weight, List.countP_append, hnone]
    omega
  | @poll n hfetched =>
    have hsplit : s.slot.countP SlotRow.isForeign = (s.slot.take n).countP SlotRow.isForeign +
        (s.slot.drop n).countP SlotRow.isForeign := by
      rw [← List.countP_append, List.take_append_drop]
    simp only [Pipeline.weight]
    omega
  | @capture registry now row rows hfetched =>
    have hmine : row.isOwn = false := hcopy row (by simp [hfetched])
    have hevents := parseTestDecoding_length_le env.fromStr registry now row hmine
    simp only [Pipeline.weight, hfetched, List.countP_cons, List.length_append]
    omega
  | receive hchannel hreceive =>
    have hheld := held_receive hreceive
    simp [Pipeline.weight, hchannel]
    omega
  | flushFull hwrite => exact (weight_write_le rfl hcopy hwrite).trans (Nat.le_add_right _ _)
  | tick hwrite => exact (weight_write_le rfl hcopy hwrite).trans (Nat.le_add_right _ _)

/-- In every run in which the capture handles no line of a table of the schema `vibe_audit`, no
reply to a committed INSERT is lost and no change is returned by the slot for the second time, the
table gets no more rows than there were inputs. -/
theorem rows_le_inputs (env : Environment) (actions : List PipelineAction) (s : Pipeline)
    (hrun : run (Pipeline.step env) Pipeline.new actions = some s)
    (hcopy : ∀ pre a post u, actions = pre ++ a :: post →
      run (Pipeline.step env) Pipeline.new pre = some u → MakesNoCopy u a) :
    s.process.table.rows.length ≤ actions.countP PipelineAction.isInput := by
  have hweight : s.weight ≤ actions.countP PipelineAction.isInput := by
    refine run_induction (Pipeline.step env)
      (I := fun as u => u.weight ≤ as.countP PipelineAction.isInput)
      (C := fun _ u a => MakesNoCopy u a) (Nat.zero_le _) ?_ hrun hcopy
    rintro as u a t - hu ha hstep
    rw [List.countP_append]
    exact (weight_step_le hstep ha).trans (Nat.add_le_add_right hu _)
  have hrows : s.process.table.rows.length ≤ s.weight := by
    simp only [Pipeline.weight, held]
    omega
  exact hrows.trans hweight

def printText (column : String) : Option String → String
  | some text => column ++ "[text]:'" ++ text ++ "'"
  | none => column ++ "[text]:null"

/-- The columns of a row that holds `millisEvent`, as the database prints them. -/
def printMillisRow (row : Row) : String :=
  " ".intercalate ["id[bigint]:" ++ toString row.id, printText "event_type" (some row.eventType),
    "event_time[timestamp with time zone]:'2026-01-01 00:00:00+00'", "success[boolean]:false",
    printText "session_user" row.sessionUser, "client_addr[inet]:null", "client_port[integer]:null",
    printText "database" row.database, "pid[integer]:null", printText "application" row.application,
    printText "command_tag" row.commandTag, printText "object_type" row.objectType,
    printText "object_name" row.objectName, printText "schema_name" row.schemaName,
    printText "query_text" row.queryText, printText "sqlstate" row.sqlstate, "detail[jsonb]:null",
    printText "prev_hash" row.prevHash, printText "event_hash" row.eventHash,
    "inserted_at[timestamp with time zone]:'2026-01-01 00:00:01.5+00'"]

def millisDatagram : List UInt8 := millisEvent.render.toUTF8.toList

/-- The environment of a run that handles `millisEvent`; of the values in its line, the id and
the truth value are JSON. -/
def millisEnvironment : Environment where
  fromSlice := fun bytes => if bytes = millisDatagram then some millisEvent else none
  fromStr := fun text =>
    if text = "1" then some (.number (.posInt 1))
    else if text = "false" then some (.bool false)
    else none
  input := isoInput
  partition := fun _ => "events_2026_01"
  columns := printMillisRow
  position := fun _ => ("0/16B3748", "731")

def emptyRegistry : SensitiveFieldRegistry := SensitiveFieldRegistry.new ""

def userRow : SlotRow where
  lsn := "0/16B3700"
  xid := "730"
  data := "table public.users: INSERT: id[integer]:1"

def userActions : List PipelineAction :=
  [.external userRow, .poll 1, .capture emptyRegistry "2026-01-01T00:00:00.000Z", .receive,
    .tick .executed 0]

theorem rows_le_inputs_user :
    ∃ s, run (Pipeline.step millisEnvironment) Pipeline.new userActions = some s ∧
      s.process.table.rows.length ≤ userActions.countP PipelineAction.isInput := by
  have hsome : (run (Pipeline.step millisEnvironment) Pipeline.new userActions).isSome = true := by
    decide +kernel
  obtain ⟨s, hs⟩ := Option.isSome_iff_exists.mp hsome
  refine ⟨s, hs, rows_le_inputs millisEnvironment userActions s hs ?_⟩
  intro pre a post u hsplit hu
  rcases pre with _ | ⟨a₁, _ | ⟨a₂, _ | ⟨a₃, _ | ⟨a₄, _ | ⟨a₅, pre⟩⟩⟩⟩⟩ <;>
    simp [userActions] at hsplit
  · simp [← hsplit.1, MakesNoCopy]
  · simp [← hsplit.2.1, MakesNoCopy]
  · -- the capture handles the line that was polled
    obtain ⟨rfl, rfl, rfl, -⟩ := hsplit
    obtain rfl := Option.some.inj hu
    intro row hrow
    obtain rfl := Option.some.inj hrow
    decide +kernel
  · simp [← hsplit.2.2.2.1, MakesNoCopy]
  · simp [← hsplit.2.2.2.2.1, MakesNoCopy]

/-! ## Own lines come back as rows -/

/-- Partitions are printed as plain names. -/
def Environment.Plain (env : Environment) : Prop :=
  ∀ row, ∀ c ∈ (env.partition row).toList, c ≠ ':' ∧ Text.isWhitespace c = false

theorem plain_of_all {s : List Char}
    (h : (s.all fun c => c != ':' && !Text.isWhitespace c) = true) :
    ∀ c ∈ s, c ≠ ':' ∧ Text.isWhitespace c = false := by
  simpa using h

/-- The line of an inserted row parses as an INSERT. -/
theorem exists_parse_decode (henv : env.Plain) (row : Row) :
    ∃ line, parseChangeLine (env.decode row).data = some line ∧ line.commandTag = "INSERT" := by
  have hdata : (env.decode row).data.toList = "table ".toList ++
      (("vibe_audit.".toList ++ (env.partition row).toList) ++ ':' :: ' ' ::
        ("INSERT".toList ++ ':' :: ' ' :: (env.columns row).toList)) := by
    simp [Environment.decode]
  have hplain : ∀ c ∈ "vibe_audit.".toList ++ (env.partition row).toList,
      c ≠ ':' ∧ Text.isWhitespace c = false := by
    rw [List.forall_mem_append]
    exact ⟨plain_of_all (by decide), henv row⟩
  exact ⟨_, parseChangeLine_layout hdata (fun hc => (hplain _ hc).1 rfl)
    (Text.trim_of_forall fun c hc => (hplain c hc).2) (by decide) (by decide), rfl⟩

/-- Reading an own line gives an event that can be stored. -/
theorem exists_own_event (henv : env.Plain) (registry : SensitiveFieldRegistry) {now : String}
    {time : Timestamptz} (hnow : env.input.read now = some time) (row : Row) :
    ∃ event, parseTestDecoding env.fromStr registry now (env.decode row).data (env.decode row).xid
        (env.decode row).lsn = some [event] ∧ Readable env.input event := by
  obtain ⟨line, hline, hinsert⟩ := exists_parse_decode henv row
  have hdocs : (rowDocs env.fromStr line.commandTag line.columns).isSome = true := by
    simp [rowDocs, hinsert]
  obtain ⟨event, hevent, hobj, -, htime⟩ := exists_changeEvent env.fromStr registry now
    (env.decode row).xid (env.decode row).lsn line hdocs
  refine ⟨event, ?_, hobj, fun v hv => ⟨now, time, ?_, hnow⟩⟩
  · rw [parseTestDecoding_of_line env.fromStr registry now _ _ hline, hevent]
    rfl
  · exact Option.some.inj (hv.symm.trans htime)

/-- Nothing is under way but the lines of the slot. -/
structure Settled (s : Pipeline) : Prop where
  fetched : s.fetched = []
  channel : s.channel = []
  batch : s.process.processor.batch = []
  queue : s.process.writer.retryQueue = []

/-- An event on the channel is chained into the batch. -/
theorem exists_step_receive {s : Pipeline} (h : Settled s) {event : Value}
    (hread : Readable env.input event) :
    ∃ p hashed, Pipeline.step env { s with channel := [event] } .receive =
        some { s with channel := [], process := { s.process with processor := p } } ∧
      p.batch = [hashed] ∧ Readable env.input hashed := by
  have hsome : (s.process.processor.receive event).isSome = true := by
    rw [Processor.receive_isSome]
    exact Value.isAssignable_of_isObject hread.1
  obtain ⟨p, hp⟩ := Option.isSome_iff_exists.mp hsome
  obtain ⟨applied, happlied, -, hbatch, -⟩ := Processor.receive_eq_some hp
  refine ⟨p, applied.event, ?_, by rw [hbatch, h.batch]; rfl,
    readable_hashed (HashChain.apply_spec happlied).hashed hread⟩
  have hroom : s.process.processor.batch.length < batchLimit := by
    rw [h.batch]
    decide
  simp [Pipeline.step, Process.step, hroom, hp]

/-- A batch of one event is written, and its row comes back as a line of the slot. -/
theorem exists_step_tick {s : Pipeline} (hfetched : s.fetched = []) (hchannel : s.channel = [])
    (hqueue : s.process.writer.retryQueue = []) {event : Value}
    (hbatch : s.process.processor.batch = [event]) (hread : Readable env.input event) :
    ∃ t row, Pipeline.step env s (.tick .executed 0) = some t ∧ Settled t ∧
      t.slot = s.slot ++ [env.decode row] ∧
      t.process.table.rows.length = s.process.table.rows.length + 1 := by
  have hne : s.process.processor.batch ≠ [] := by simp [hbatch]
  have hcommitted := BatchWriter.writeBatch_executed s.process.writer hne
  obtain ⟨p, hp⟩ : ∃ p, s.process.flush env.input .executed 0 = some p := by
    refine exists_flush 0 ?_
    rw [hcommitted]
    simpa [hqueue, hbatch] using hread
  obtain ⟨hprocessor, hwriter, hinsert⟩ := Process.flush_spec hp
  rw [hcommitted] at hwriter hinsert
  obtain ⟨ids, rows, hrows, htable⟩ := EventsTable.insert_spec hinsert
  have hlength : rows.length = 1 := by
    rw [← (storedRows_spec hrows).1.length_eq]
    simp [hqueue, hbatch]
  obtain ⟨row, rfl⟩ := List.length_eq_one_iff.mp hlength
  have hstep : s.process.step env.input (.tick .executed 0) = some p := by
    have hroom : s.process.processor.batch.length < batchLimit := by
      rw [hbatch]
      exact show 1 < batchLimit by decide
    simp [Process.step, hroom, hne, hp]
  refine ⟨_, row, by simp only [Pipeline.step, Pipeline.write, hstep]; rfl, ?_, ?_, ?_⟩
  · exact ⟨hfetched, hchannel, by rw [hprocessor], by rw [hwriter]⟩
  · simp [htable]
  · simp [htable]

/-- A line of the pipeline's own schema in the slot becomes a row and another such line. -/
theorem exists_round (henv : env.Plain) (registry : SensitiveFieldRegistry) {now : String}
    {time : Timestamptz} (hnow : env.input.read now = some time) {s : Pipeline} (h : Settled s)
    {row : Row} (hslot : s.slot = [env.decode row]) :
    ∃ t row', run (Pipeline.step env) s
        [.poll 1, .capture registry now, .receive, .tick .executed 0] = some t ∧
      Settled t ∧ t.slot = [env.decode row'] ∧
      t.process.table.rows.length = s.process.table.rows.length + 1 := by
  obtain ⟨event, hevent, hread⟩ := exists_own_event henv registry hnow row
  let returned := s.returned ++ [env.decode row]
  have hpoll : s.step env (.poll 1) =
      some { s with slot := [], returned := returned, fetched := [env.decode row] } := by
    simp [Pipeline.step, h.fetched, hslot, returned]
  have hcapture : Pipeline.step env
      { s with slot := [], returned := returned, fetched := [env.decode row] }
      (.capture registry now) =
        some { s with slot := [], returned := returned, fetched := [], channel := [event] } := by
    simp [Pipeline.step, hevent, Pipeline.send, h.channel, channelCapacity]
  have hidle : Settled { s with slot := [], returned := returned, fetched := [] } :=
    ⟨rfl, h.channel, h.batch, h.queue⟩
  obtain ⟨p, hashed, hreceive, hbatch, hhashed⟩ := exists_step_receive hidle hread
  obtain ⟨t, row', htick, hsettled, hline, hrows⟩ := exists_step_tick
    (s := { s with slot := [], returned := returned, fetched := [], channel := []
                   process := { s.process with processor := p } }) rfl rfl h.queue hbatch hhashed
  refine ⟨t, row', ?_, hsettled, hline, hrows⟩
  simp [run_cons, hpoll, hcapture, hreceive, htick]

/-- From one datagram on, the pipeline can fill the table without end. -/
theorem exists_run_of_one_input (henv : env.Plain) (registry : SensitiveFieldRegistry)
    {now : String} {time : Timestamptz} (hnow : env.input.read now = some time)
    {bytes : List UInt8} {event : Value} (hbytes : env.fromSlice bytes = some event)
    (hread : Readable env.input event) (n : Nat) :
    ∃ actions s row, run (Pipeline.step env) Pipeline.new actions = some s ∧
      actions.countP PipelineAction.isInput = 1 ∧ Settled s ∧ s.slot = [env.decode row] ∧
      s.process.table.rows.length = n + 1 := by
  induction n with
  | zero =>
    have hdatagram : Pipeline.new.step env (.datagram bytes) =
        some { Pipeline.new with channel := [event] } := by
      simp [Pipeline.step, hbytes, Pipeline.send, Pipeline.new, channelCapacity]
    have hidle : Settled Pipeline.new := ⟨rfl, rfl, rfl, rfl⟩
    obtain ⟨p, hashed, hreceive, hbatch, hhashed⟩ := exists_step_receive hidle hread
    obtain ⟨t, row, htick, hsettled, hline, hrows⟩ := exists_step_tick
      (s := { Pipeline.new with
        channel := [], process := { Pipeline.new.process with processor := p } })
      rfl rfl rfl hbatch hhashed
    refine ⟨[.datagram bytes, .receive, .tick .executed 0], t, row, ?_, rfl, hsettled, hline, hrows⟩
    simp [run_cons, hdatagram, hreceive, htick]
  | succ n ih =>
    obtain ⟨actions, s, row, hrun, hinputs, hsettled, hline, hrows⟩ := ih
    obtain ⟨t, row', hround, hsettled', hline', hrows'⟩ :=
      exists_round henv registry hnow hsettled hline
    refine ⟨actions ++ [.poll 1, .capture registry now, .receive, .tick .executed 0], t, row',
      ?_, ?_, hsettled', hline', by omega⟩
    · rw [run_append, hrun]
      exact hround
    · rw [List.countP_append, hinputs]
      rfl

/-- One datagram becomes a row, and the row becomes another one. -/
theorem not_rows_le_inputs :
    ¬ ∀ (env : Environment) (actions : List PipelineAction) (s : Pipeline),
      run (Pipeline.step env) Pipeline.new actions = some s →
      s.process.table.rows.length ≤ actions.countP PipelineAction.isInput := by
  intro h
  have hplain : millisEnvironment.Plain := fun _ =>
    plain_of_all (s := "events_2026_01".toList) (by decide)
  have hnow : millisEnvironment.input.read "2026-01-01T00:00:01.000Z" =
      some (.finite 1767225601000000) := by decide
  obtain ⟨actions, s, -, hrun, hinputs, -, -, hrows⟩ :=
    exists_run_of_one_input hplain emptyRegistry hnow (if_pos rfl) millisEvent_readable 1
  have hle := h millisEnvironment actions s hrun
  omega

end VibeAudit.Delivery
