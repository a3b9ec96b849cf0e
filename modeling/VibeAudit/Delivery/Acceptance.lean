import VibeAudit.Forwarder.Writer

/-!
# Events the database rejects

The whole backlog is one INSERT, so the database accepts it when it accepts
every row in it. A call is all or nothing: one rejected event keeps the table as
it is and sends the backlog back to the retry queue, where it makes every later
call fail until the cap has shed it.
-/

namespace VibeAudit.Delivery

open Foundation Json Extension Forwarder

/-- The writer together with the events whose rows are in the table, oldest first. -/
structure Store where
  writer : BatchWriter
  committed : List Value

namespace Store

def new : Store := { writer := { retryQueue := [] }, committed := [] }

def write (s : Store) (events : List Value) (db : DbOutcome) : Store :=
  let result := s.writer.writeBatch events db
  { writer := result.writer, committed := s.committed ++ result.committed }

def backlog (s : Store) (events : List Value) : List Value := s.writer.retryQueue ++ events

variable (acceptable : BoundRow → Bool)

/-- A working connection executes an INSERT exactly when every row in it is acceptable. -/
def insertOutcome (rows : List BoundRow) : DbOutcome :=
  if rows.all acceptable then .executed else .executeFailed

def writeTo (s : Store) (events : List Value) : Store :=
  s.write events (insertOutcome acceptable ((s.backlog events).map boundRow))

def runTo (s : Store) : List (List Value) → Store
  | [] => s
  | events :: batches => runTo (s.writeTo acceptable events) batches

variable {acceptable}

theorem writeTo_nil (s : Store) : s.writeTo acceptable [] = s := by
  simp [writeTo, write]

/-- If every event of the backlog is acceptable, all of them are committed in order. -/
theorem writeTo_accepted {s : Store} {events : List Value} (hne : events ≠ [])
    (h : ∀ e ∈ s.backlog events, acceptable (boundRow e) = true) :
    s.writeTo acceptable events =
      { writer := { retryQueue := [] }, committed := s.committed ++ s.backlog events } := by
  have hall : ((s.backlog events).map boundRow).all acceptable = true := by simpa using h
  simp only [writeTo, write, insertOutcome, hall, if_true, BatchWriter.writeBatch_executed _ hne]
  rfl

/-- One unacceptable event keeps the table as it is and the newest of the backlog queued. -/
theorem writeTo_rejected {s : Store} {events : List Value} (hne : events ≠ [])
    (h : ∃ e ∈ s.backlog events, acceptable (boundRow e) = false) :
    s.writeTo acceptable events =
      { writer := { retryQueue := (s.backlog events).rtake maxRetry }
        committed := s.committed } := by
  have hall : ((s.backlog events).map boundRow).all acceptable = false := by simpa using h
  simp only [writeTo, write, insertOutcome, hall, Bool.false_eq_true, if_false,
    BatchWriter.writeBatch_executeFailed _ hne, List.append_nil]
  rfl

/-- While the queue holds an unacceptable event, a call commits nothing. -/
theorem committed_writeTo_of_blocked {s : Store} (events : List Value)
    (h : ∃ e ∈ s.writer.retryQueue, acceptable (boundRow e) = false) :
    (s.writeTo acceptable events).committed = s.committed := by
  by_cases hne : events = []
  · rw [hne, writeTo_nil]
  · obtain ⟨e, he, hbad⟩ := h
    rw [writeTo_rejected hne ⟨e, List.mem_append_left _ he, hbad⟩]

theorem runTo_accepted {s : Store} {batches : List (List Value)} (hs : s.writer.retryQueue = [])
    (h : ∀ e ∈ batches.flatten, acceptable (boundRow e) = true) :
    s.runTo acceptable batches =
      { writer := { retryQueue := [] }, committed := s.committed ++ batches.flatten } := by
  induction batches generalizing s with
  | nil =>
    obtain ⟨⟨queue⟩, committed⟩ := s
    simp_all [runTo]
  | cons events batches ih =>
    rw [List.flatten_cons, List.forall_mem_append] at h
    rw [runTo]
    by_cases hne : events = []
    · simpa [hne, writeTo_nil] using ih hs h.2
    · have hbacklog : s.backlog events = events := by simp [backlog, hs]
      rw [writeTo_accepted hne (hbacklog.symm ▸ h.1), hbacklog, ih rfl h.2]
      simp

/-- As long as a call's backlog fits the queue, what is committed and queued together grows by
exactly the call's events. -/
theorem writeTo_keeps {s : Store} {events : List Value}
    (hlen : (s.backlog events).length ≤ maxRetry) :
    (s.writeTo acceptable events).committed ++ (s.writeTo acceptable events).writer.retryQueue =
      s.committed ++ s.writer.retryQueue ++ events := by
  by_cases hne : events = []
  · simp [hne, writeTo_nil]
  · by_cases hall : ∀ e ∈ s.backlog events, acceptable (boundRow e) = true
    · rw [writeTo_accepted hne hall]
      simp [backlog]
    · push Not at hall
      obtain ⟨e, he, hbad⟩ := hall
      rw [writeTo_rejected hne ⟨e, he, by simpa using hbad⟩, rtake_of_length_le hlen]
      simp [backlog]

/-- In a run whose backlog never exceeds the cap, every event is committed or queued. -/
theorem runTo_keeps {s : Store} {batches : List (List Value)}
    (hlen : ∀ pre events post, batches = pre ++ events :: post →
      ((s.runTo acceptable pre).backlog events).length ≤ maxRetry) :
    (s.runTo acceptable batches).committed ++ (s.runTo acceptable batches).writer.retryQueue =
      s.committed ++ s.writer.retryQueue ++ batches.flatten := by
  induction batches generalizing s with
  | nil => simp [runTo]
  | cons events batches ih =>
    have hfirst : (s.backlog events).length ≤ maxRetry := hlen [] events batches rfl
    have hrest := ih (s := s.writeTo acceptable events) fun pre later post h =>
      hlen (events :: pre) later post (by rw [h]; rfl)
    rw [runTo, hrest, writeTo_keeps hfirst, List.flatten_cons, List.append_assoc]

/-- A call over a working connection is all or nothing. So acceptable events alone are all
committed, an unacceptable one blocks every event queued with it until the cap sheds it, and
short of the cap nothing is lost. -/
theorem writes_all_or_nothing (acceptable : BoundRow → Bool) :
    (∀ (s : Store) (events : List Value), events ≠ [] →
      (∀ e ∈ s.backlog events, acceptable (boundRow e) = true) →
      s.writeTo acceptable events =
        { writer := { retryQueue := [] }, committed := s.committed ++ s.backlog events }) ∧
    (∀ (s : Store) (events : List Value), events ≠ [] →
      (∃ e ∈ s.backlog events, acceptable (boundRow e) = false) →
      s.writeTo acceptable events =
        { writer := { retryQueue := (s.backlog events).rtake maxRetry }
          committed := s.committed }) ∧
    (∀ batches : List (List Value),
      (∀ e ∈ batches.flatten, acceptable (boundRow e) = true) →
      new.runTo acceptable batches =
        { writer := { retryQueue := [] }, committed := batches.flatten }) ∧
    (∀ (s : Store) (events : List Value),
      (∃ e ∈ s.writer.retryQueue, acceptable (boundRow e) = false) →
      (s.writeTo acceptable events).committed = s.committed) ∧
    (∀ batches : List (List Value),
      (∀ pre events post, batches = pre ++ events :: post →
        ((new.runTo acceptable pre).backlog events).length ≤ maxRetry) →
      (new.runTo acceptable batches).committed ++
        (new.runTo acceptable batches).writer.retryQueue = batches.flatten) :=
  ⟨fun _ _ => writeTo_accepted, fun _ _ => writeTo_rejected, fun _ => runTo_accepted rfl,
    fun _ => committed_writeTo_of_blocked, fun _ hlen => runTo_keeps hlen⟩

end Store

def loginEvent : Value := .obj
  [("event_type", .string "AUTH_SUCCESS"), ("client_addr", .string "10.0.0.1")]

def ddlEvent : Value := .obj [("event_type", .string "DDL"), ("client_addr", .string "")]

def rejectsEmptyAddr (row : BoundRow) : Bool := row.clientAddr != some ""

/-- An acceptable event stays out of the table because of the one queued with it. -/
theorem not_acceptable_committed :
    ¬ ∀ (s : Store) (events : List Value) (e : Value), e ∈ s.backlog events →
      rejectsEmptyAddr (boundRow e) = true →
      e ∈ (s.writeTo rejectsEmptyAddr events).committed := by
  intro h
  have hmem := h Store.new [ddlEvent, loginEvent] loginEvent (by simp [Store.backlog]) (by decide)
  have hbad : ∃ e ∈ Store.new.backlog [ddlEvent, loginEvent],
      rejectsEmptyAddr (boundRow e) = false :=
    ⟨ddlEvent, by simp [Store.backlog], by decide⟩
  rw [Store.writeTo_rejected (List.cons_ne_nil _ _) hbad] at hmem
  cases hmem

end VibeAudit.Delivery
