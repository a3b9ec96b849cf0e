import VibeAudit.Extension.Events
import VibeAudit.Forwarder.HashChain
import VibeAudit.Foundation.BoundedQueue

/-!
# `writer.rs`

`writeBatch` is one call of `BatchWriter::write_batch`, made by the single
processor task. What the database does with the call is its `DbOutcome`; the
statement built, the retry queue left behind and the events committed are
computed. The queue is taken out before the first fallible step, so each
outcome has to say what it puts back.
-/

namespace VibeAudit.Forwarder

open Foundation Json Extension

def strVal (v : Value) : Option String := v.asStr

/-- `as_i64().map(|v| v as i32)`: the narrowing keeps the low 32 bits. -/
def intVal (v : Value) : Option Int32 := v.asI64.map Int64.toInt32

/-- The eighteen values bound for one event, in column order. -/
structure BoundRow where
  eventType : String
  eventTime : String
  success : Bool
  sessionUser : Option String
  clientAddr : Option String
  clientPort : Option Int32
  database : Option String
  pid : Option Int32
  application : Option String
  commandTag : Option String
  objectType : Option String
  objectName : Option String
  schemaName : Option String
  queryText : Option String
  sqlstate : Option String
  detail : Option String
  prevHash : Option String
  eventHash : Option String
  deriving DecidableEq, Repr

def boundRow (event : Value) : BoundRow where
  eventType := (strVal (event.index "event_type")).getD "UNKNOWN"
  eventTime := (strVal (event.index "event_time")).getD "1970-01-01T00:00:00Z"
  success := (event.index "success").asBool.getD false
  sessionUser := strVal (event.index "session_user")
  clientAddr := strVal (event.index "client_addr")
  clientPort := intVal (event.index "client_port")
  database := strVal (event.index "database")
  pid := intVal (event.index "pid")
  application := strVal (event.index "application")
  commandTag := strVal (event.index "command_tag")
  objectType := strVal (event.index "object_type")
  objectName := strVal (event.index "object_name")
  schemaName := strVal (event.index "schema_name")
  queryText := strVal (event.index "query_text")
  sqlstate := strVal (event.index "sqlstate")
  detail :=
    if (event.index "detail").isNull then none else some (event.index "detail").render
  prevHash := strVal (event.index "prev_hash")
  eventHash := strVal (event.index "event_hash")

inductive Param where
  | text (s : String)
  | bool (b : Bool)
  | optText (s : Option String)
  | optInt (n : Option Int32)
  deriving DecidableEq, Repr

/-- The pushes onto `params` for one event. -/
def BoundRow.params (b : BoundRow) : List Param :=
  [.text b.eventType, .text b.eventTime, .bool b.success, .optText b.sessionUser,
   .optText b.clientAddr, .optInt b.clientPort, .optText b.database, .optInt b.pid,
   .optText b.application, .optText b.commandTag, .optText b.objectType, .optText b.objectName,
   .optText b.schemaName, .optText b.queryText, .optText b.sqlstate, .optText b.detail,
   .optText b.prevHash, .optText b.eventHash]

theorem BoundRow.params_length (b : BoundRow) : b.params.length = 18 := rfl

structure Statement where
  query : String
  params : List Param
  deriving DecidableEq, Repr

def insertHeader : String :=
  "INSERT INTO vibe_audit.events (event_type, event_time, success, session_user, client_addr, " ++
  "client_port, database, pid, application, command_tag, object_type, object_name, " ++
  "schema_name, query_text, sqlstate, detail, prev_hash, event_hash) VALUES "

/-- The casts that follow the eighteen placeholders of a row. -/
def placeholderCasts : List String :=
  ["", "::timestamptz", "", "", "::inet", "", "", "", "", "", "", "", "", "", "", "::jsonb", "", ""]

def rowPlaceholders (paramIdx : UInt32) : String :=
  "(" ++ ", ".intercalate (placeholderCasts.mapIdx fun j cast =>
    "$" ++ toString (paramIdx + j.toUInt32) ++ cast) ++ ")"

/-- The locals of the loop that builds the statement. -/
structure Building where
  query : String
  params : List Param
  paramIdx : UInt32

def Building.pushRow (b : Building) (i : Nat) (event : Value) : Building where
  query := (if 0 < i then b.query ++ ", " else b.query) ++ rowPlaceholders b.paramIdx
  params := b.params ++ (boundRow event).params
  paramIdx := b.paramIdx + 18

def Building.pushRows (b : Building) (i : Nat) : List Value → Building
  | [] => b
  | event :: events => (b.pushRow i event).pushRows (i + 1) events

/-- The INSERT built for the retried and the new events. -/
def insertStatement (allEvents : List Value) : Statement :=
  let built := Building.pushRows { query := insertHeader, params := [], paramIdx := 1 } 0 allEvents
  { query := built.query, params := built.params }

theorem Building.pushRows_params (b : Building) (i : Nat) (events : List Value) :
    (b.pushRows i events).params = b.params ++ events.flatMap fun e => (boundRow e).params := by
  induction events generalizing b i with
  | nil => simp [pushRows]
  | cons e es ih => simp [pushRows, ih, pushRow]

theorem insertStatement_params (allEvents : List Value) :
    (insertStatement allEvents).params = allEvents.flatMap fun e => (boundRow e).params :=
  Building.pushRows_params _ _ _

/-- Eighteen parameters are bound for every event. -/
theorem insertStatement_params_length (allEvents : List Value) :
    (insertStatement allEvents).params.length = 18 * allEvents.length := by
  rw [insertStatement_params]
  induction allEvents with
  | nil => rfl
  | cons e es ih =>
    rw [List.flatMap_cons, List.length_append, ih, BoundRow.params_length, List.length_cons]
    omega

def maxRetry : Nat := 10000

structure BatchWriter where
  retryQueue : List Value

/-- What the database does in one call: no connection, a failed INSERT, one that commits while
its reply is lost with the connection, or a committed one. -/
inductive DbOutcome where
  | getFailed
  | executeFailed
  | replyLost
  | executed
  deriving DecidableEq, Repr

/-- The rows of the call are in the table afterwards. -/
def DbOutcome.commits : DbOutcome → Bool
  | .getFailed | .executeFailed => false
  | .replyLost | .executed => true

structure WriteResult where
  writer : BatchWriter
  statement : Option Statement
  committed : List Value

/-- The loop of both failure paths: push each event, dropping the oldest when full. -/
def BatchWriter.enqueue (w : BatchWriter) (events : List Value) : BatchWriter where
  retryQueue := pushAll maxRetry w.retryQueue events

def BatchWriter.enqueueRetries (w : BatchWriter) (events : List Value) : BatchWriter :=
  w.enqueue events

def BatchWriter.writeBatch (w : BatchWriter) (events : List Value) (db : DbOutcome) :
    WriteResult :=
  if events.isEmpty then { writer := w, statement := none, committed := [] }
  else
    let retries := w.retryQueue
    let taken : BatchWriter := { retryQueue := [] }
    let allEvents := retries ++ events
    match db with
    | .getFailed =>
      -- only the new events go back: `retries` is dropped with the stack frame
      { writer := taken.enqueueRetries events, statement := none, committed := [] }
    | .executeFailed =>
      { writer := taken.enqueue (retries ++ events)
        statement := some (insertStatement allEvents)
        committed := [] }
    | .replyLost =>
      -- `execute` returns an error here too, so the events are queued again
      { writer := taken.enqueue (retries ++ events)
        statement := some (insertStatement allEvents)
        committed := allEvents }
    | .executed =>
      { writer := taken, statement := some (insertStatement allEvents), committed := allEvents }

namespace BatchWriter

variable (w : BatchWriter) {events : List Value}

theorem enqueue_empty (xs : List Value) :
    (enqueue { retryQueue := [] } xs).retryQueue = xs.rtake maxRetry :=
  pushAll_eq_rtake (by decide) (Nat.zero_le _) xs

@[simp] theorem writeBatch_nil (db : DbOutcome) :
    w.writeBatch [] db = { writer := w, statement := none, committed := [] } := rfl

theorem writeBatch_getFailed (h : events ≠ []) :
    w.writeBatch events .getFailed =
      { writer := { retryQueue := events.rtake maxRetry }
        statement := none
        committed := [] } := by
  simp [writeBatch, h, enqueueRetries, ← enqueue_empty]

theorem writeBatch_executeFailed (h : events ≠ []) :
    w.writeBatch events .executeFailed =
      { writer := { retryQueue := (w.retryQueue ++ events).rtake maxRetry }
        statement := some (insertStatement (w.retryQueue ++ events))
        committed := [] } := by
  simp [writeBatch, h, ← enqueue_empty]

theorem writeBatch_replyLost (h : events ≠ []) :
    w.writeBatch events .replyLost =
      { writer := { retryQueue := (w.retryQueue ++ events).rtake maxRetry }
        statement := some (insertStatement (w.retryQueue ++ events))
        committed := w.retryQueue ++ events } := by
  simp [writeBatch, h, ← enqueue_empty]

theorem writeBatch_executed (h : events ≠ []) :
    w.writeBatch events .executed =
      { writer := { retryQueue := [] }
        statement := some (insertStatement (w.retryQueue ++ events))
        committed := w.retryQueue ++ events } := by
  simp [writeBatch, h]

theorem retryQueue_writeBatch_length_le (hw : w.retryQueue.length ≤ maxRetry)
    (events : List Value) (db : DbOutcome) :
    (w.writeBatch events db).writer.retryQueue.length ≤ maxRetry := by
  by_cases h : events = []
  · simpa [h] using hw
  · cases db with
    | getFailed => simp [writeBatch_getFailed w h]
    | executeFailed => simp [writeBatch_executeFailed w h]
    | replyLost => simp [writeBatch_replyLost w h]
    | executed => simp [writeBatch_executed w h]

end BatchWriter

/-! ## What the table holds for an event -/

/-- The row PostgreSQL stores for the bound values, if it can read the time. -/
def BoundRow.stored (input : TimestamptzInput) (id : Int) (b : BoundRow) : Option Row :=
  (input.read b.eventTime).map fun time =>
    { id := id, eventType := b.eventType, eventTime := time, success := b.success
      sessionUser := b.sessionUser, clientAddr := b.clientAddr, clientPort := b.clientPort
      database := b.database, pid := b.pid, application := b.application
      commandTag := b.commandTag, objectType := b.objectType, objectName := b.objectName
      schemaName := b.schemaName, queryText := b.queryText, sqlstate := b.sqlstate
      detail := b.detail, prevHash := b.prevHash, eventHash := b.eventHash }

/-- The rows of one INSERT: ids are given out in the order of the VALUES list. -/
def storedRows (input : TimestamptzInput) : List Int → List Value → Option Table
  | _, [] => some []
  | [], _ :: _ => none
  | id :: ids, event :: events => do
    let row ← (boundRow event).stored input id
    let rows ← storedRows input ids events
    return row :: rows

theorem storedRows_cons_eq_some {input : TimestamptzInput} {id : Int} {ids : List Int}
    {event : Value} {events : List Value} {rows : Table} :
    storedRows input (id :: ids) (event :: events) = some rows ↔
      ∃ row rest, (boundRow event).stored input id = some row ∧
        storedRows input ids events = some rest ∧ rows = row :: rest := by
  simp only [storedRows, Option.bind_eq_bind, Option.bind_eq_some_iff, Option.pure_def,
    Option.some.injEq]
  constructor
  · rintro ⟨row, hrow, rest, hrest, rfl⟩
    exact ⟨row, rest, hrow, hrest, rfl⟩
  · rintro ⟨row, rest, hrow, hrest, rfl⟩
    exact ⟨row, hrow, rest, hrest, rfl⟩

theorem BoundRow.stored_id {input : TimestamptzInput} {id : Int} {b : BoundRow} {row : Row}
    (h : b.stored input id = some row) : row.id = id := by
  obtain ⟨time, -, rfl⟩ := Option.map_eq_some_iff.mp h
  rfl

/-- The rows of an INSERT carry the ids given out. -/
theorem storedRows_ids {input : TimestamptzInput} {ids : List Int} {events : List Value}
    {rows : Table} (h : storedRows input ids events = some rows) :
    rows.map Row.id = ids.take events.length := by
  induction events generalizing ids rows with
  | nil =>
    have hnil : rows = [] := by cases ids <;> exact (Option.some.inj h).symm
    simp [hnil]
  | cons e es ih =>
    cases ids with
    | nil => cases h
    | cons id ids =>
      obtain ⟨row, rest, hrow, hrest, rfl⟩ := storedRows_cons_eq_some.mp h
      simp [BoundRow.stored_id hrow, ih hrest]

end VibeAudit.Forwarder
