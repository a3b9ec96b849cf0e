import VibeAudit.Forwarder.Writer

/-!
# The retry queue over calls of `write_batch`

The processor task calls `write_batch` one call at a time. A failed INSERT puts
the whole backlog back, capped at the newest `maxRetry` events; a failed
connection puts back the new events alone. The size of the backlog, and with it
the size of the next statement, depends only on the calls since the queue was
last emptied or lost.
-/

namespace VibeAudit.Delivery

open Foundation Json Extension Forwarder

/-! ## One call -/

/-- The events a call leaves in the retry queue. -/
def queueAfter (q events : List Value) (db : DbOutcome) : List Value :=
  (BatchWriter.writeBatch { retryQueue := q } events db).writer.retryQueue

theorem queueAfter_executeFailed {q events : List Value} (h : events ≠ []) :
    queueAfter q events .executeFailed = (q ++ events).rtake maxRetry := by
  rw [queueAfter, BatchWriter.writeBatch_executeFailed _ h]

theorem queueAfter_getFailed {q events : List Value} (h : events ≠ []) :
    queueAfter q events .getFailed = events.rtake maxRetry := by
  rw [queueAfter, BatchWriter.writeBatch_getFailed _ h]

/-- The connection failure leaves the queue the INSERT failure leaves, the newest `maxRetry`
events of the backlog, exactly when nothing was queued or the batch alone fills the queue. -/
theorem getFailed_keeps_backlog_iff (q events : List Value) (hne : events ≠ []) :
    (queueAfter q events .getFailed = queueAfter q events .executeFailed ∧
      queueAfter q events .getFailed =
        (q ++ events).rtake (min maxRetry (q.length + events.length))) ↔
      q = [] ∨ maxRetry ≤ events.length := by
  have hmin : (q ++ events).rtake (min maxRetry (q.length + events.length)) =
      (q ++ events).rtake maxRetry := by
    rw [← List.length_append, rtake_min_length]
  rw [queueAfter_getFailed hne, queueAfter_executeFailed hne, hmin, and_self]
  exact rtake_append_eq_iff hne

def smallBatch (n : Nat) : List Value := List.replicate n (.obj [("event_type", .string "DDL")])

/-- A queued event is lost with a full batch behind it, and kept where the batch fills the
queue. -/
theorem getFailed_keeps_backlog_full :
    (¬ (queueAfter (smallBatch 1) (smallBatch 100) .getFailed =
        queueAfter (smallBatch 1) (smallBatch 100) .executeFailed ∧
      queueAfter (smallBatch 1) (smallBatch 100) .getFailed =
        (smallBatch 1 ++ smallBatch 100).rtake
          (min maxRetry ((smallBatch 1).length + (smallBatch 100).length)))) ∧
    queueAfter (smallBatch 1) (smallBatch maxRetry) .getFailed =
        queueAfter (smallBatch 1) (smallBatch maxRetry) .executeFailed ∧
      queueAfter (smallBatch 1) (smallBatch maxRetry) .getFailed =
        (smallBatch 1 ++ smallBatch maxRetry).rtake
          (min maxRetry ((smallBatch 1).length + (smallBatch maxRetry).length)) := by
  have hlen : ∀ n, (smallBatch n).length = n := fun n => by rw [smallBatch, List.length_replicate]
  have hne : ∀ {n}, 0 < n → smallBatch n ≠ [] := fun hn =>
    List.ne_nil_of_length_pos (by rwa [hlen])
  refine ⟨fun h => ?_, (getFailed_keeps_backlog_iff _ _ (hne (by decide))).mpr (.inr ?_)⟩
  · rcases (getFailed_keeps_backlog_iff _ _ (hne (by decide))).mp h with hnil | hfull
    · cases hnil
    · rw [hlen] at hfull
      exact absurd hfull (by decide)
  · rw [hlen]

/-- A queued event is gone after a call that gets no connection. -/
theorem not_getFailed_keeps_backlog :
    ¬ ∀ q events : List Value, q.length ≤ maxRetry → events ≠ [] →
      queueAfter q events .getFailed = queueAfter q events .executeFailed ∧
        queueAfter q events .getFailed =
          (q ++ events).rtake (min maxRetry (q.length + events.length)) := by
  intro h
  have hq := (h (smallBatch 1) (smallBatch 1) (by decide) (List.cons_ne_nil _ _)).1
  have hlen : (1 : Nat) = 2 := congrArg List.length hq
  exact absurd hlen (by decide)

/-! ## Runs of calls and the size of the next statement -/

/-- One call with the outcome the database gives it. -/
structure Call where
  events : List Value
  db : DbOutcome

def runCalls (w : BatchWriter) : List Call → BatchWriter
  | [] => w
  | c :: cs => runCalls (w.writeBatch c.events c.db).writer cs

/-- How many events were handed over since the queue was last emptied by a commit that was
reported; a call that got no connection counts for its own events only. The calls are given newest
first. -/
def backlogSize : List Call → Nat
  | [] => 0
  | c :: older =>
    if c.events.isEmpty then backlogSize older
    else match c.db with
      | .executed => 0
      | .getFailed => c.events.length
      | .executeFailed | .replyLost => backlogSize older + c.events.length

theorem runCalls_snoc (w : BatchWriter) (cs : List Call) (c : Call) :
    runCalls w (cs ++ [c]) = ((runCalls w cs).writeBatch c.events c.db).writer := by
  induction cs generalizing w with
  | nil => rfl
  | cons d ds ih => exact ih _

/-- The cap holds after every call of a run. -/
theorem retryQueue_runCalls_length_le {w : BatchWriter} (h : w.retryQueue.length ≤ maxRetry)
    (calls : List Call) : (runCalls w calls).retryQueue.length ≤ maxRetry := by
  induction calls generalizing w with
  | nil => exact h
  | cons c cs ih => exact ih (w.retryQueue_writeBatch_length_le h c.events c.db)

/-- A failed INSERT keeps the newest events of the queue and the batch in order, a committed one
inserts them all in order, and no sequence of calls takes the queue over its cap. -/
theorem retryQueue_is_bounded_fifo (q : List Value) (hq : q.length ≤ maxRetry) :
    (∀ events, events ≠ [] →
      (BatchWriter.writeBatch { retryQueue := q } events .executeFailed).writer.retryQueue =
        (q ++ events).rtake (min maxRetry (q.length + events.length))) ∧
    (∀ events, events ≠ [] → ∃ statement,
      BatchWriter.writeBatch { retryQueue := q } events .executed =
        { writer := { retryQueue := [] }, statement := some statement
          committed := q ++ events } ∧
      statement.params = (q ++ events).flatMap fun e => (boundRow e).params) ∧
    ∀ calls, (runCalls { retryQueue := q } calls).retryQueue.length ≤ maxRetry := by
  refine ⟨?_, ?_, retryQueue_runCalls_length_le hq⟩
  · intro events hne
    rw [BatchWriter.writeBatch_executeFailed _ hne, ← List.length_append, rtake_min_length]
  · intro events hne
    exact ⟨_, BatchWriter.writeBatch_executed _ hne, insertStatement_params _⟩

theorem retryQueue_is_bounded_fifo_full :
    (∀ events, events ≠ [] → (BatchWriter.writeBatch { retryQueue := smallBatch maxRetry } events
      .executeFailed).writer.retryQueue = (smallBatch maxRetry ++ events).rtake
        (min maxRetry ((smallBatch maxRetry).length + events.length))) ∧
    (∀ events, events ≠ [] → ∃ statement,
      BatchWriter.writeBatch { retryQueue := smallBatch maxRetry } events .executed =
        { writer := { retryQueue := [] }, statement := some statement
          committed := smallBatch maxRetry ++ events } ∧
      statement.params = (smallBatch maxRetry ++ events).flatMap fun e => (boundRow e).params) ∧
    ∀ calls, (runCalls { retryQueue := smallBatch maxRetry } calls).retryQueue.length ≤ maxRetry :=
  retryQueue_is_bounded_fifo (smallBatch maxRetry) (by rw [smallBatch, List.length_replicate])

/-- The retry queue holds the backlog, up to its cap. -/
theorem retryQueue_runCalls_length (calls : List Call) :
    (runCalls { retryQueue := [] } calls).retryQueue.length =
      min maxRetry (backlogSize calls.reverse) := by
  induction calls using List.reverseRecOn with
  | nil => rfl
  | append_singleton cs c ih =>
    obtain ⟨events, db⟩ := c
    rw [runCalls_snoc, List.reverse_append, List.reverse_singleton, List.singleton_append]
    by_cases h : events = []
    · simpa [h, backlogSize] using ih
    · cases db with
      | getFailed => simp [BatchWriter.writeBatch_getFailed _ h, backlogSize, h]
      | executeFailed =>
        simp only [BatchWriter.writeBatch_executeFailed _ h, length_rtake, List.length_append, ih,
          backlogSize, List.isEmpty_iff, h, if_false]
        omega
      | replyLost =>
        simp only [BatchWriter.writeBatch_replyLost _ h, length_rtake, List.length_append, ih,
          backlogSize, List.isEmpty_iff, h, if_false]
        omega
      | executed => simp [BatchWriter.writeBatch_executed _ h, backlogSize, h]

/-- The 16-bit parameter count of a Bind message. -/
def maxBindParams : Nat := 65535

theorem statement_eq (w : BatchWriter) {events : List Value} (hne : events ≠ []) {db : DbOutcome}
    (hdb : db ≠ .getFailed) :
    (w.writeBatch events db).statement = some (insertStatement (w.retryQueue ++ events)) := by
  cases db with
  | getFailed => exact absurd rfl hdb
  | executeFailed => rw [BatchWriter.writeBatch_executeFailed w hne]
  | replyLost => rw [BatchWriter.writeBatch_replyLost w hne]
  | executed => rw [BatchWriter.writeBatch_executed w hne]

/-- After any calls, the statement the next call builds can be sent exactly when the backlog and
the new events are at most 3640. -/
theorem statement_sendable_iff (calls : List Call) (events : List Value) (hne : events ≠ [])
    (db : DbOutcome) (hdb : db ≠ .getFailed) :
    ∃ statement, ((runCalls { retryQueue := [] } calls).writeBatch events db).statement =
        some statement ∧
      (statement.params.length ≤ maxBindParams ↔
        backlogSize calls.reverse + events.length ≤ 3640) := by
  refine ⟨_, statement_eq _ hne hdb, ?_⟩
  rw [insertStatement_params_length, List.length_append, retryQueue_runCalls_length]
  unfold maxRetry maxBindParams
  omega

def failedCalls (n : Nat) : List Call := List.replicate n ⟨smallBatch 100, .executeFailed⟩

theorem statement_sendable_three :
    ∃ statement, ((runCalls { retryQueue := [] } (failedCalls 3)).writeBatch
        (smallBatch 1) .executed).statement = some statement ∧
      (statement.params.length ≤ maxBindParams ↔
        backlogSize (failedCalls 3).reverse + (smallBatch 1).length ≤ 3640) :=
  statement_sendable_iff (failedCalls 3) (smallBatch 1) (List.cons_ne_nil _ _) .executed
    (by decide)

/-- After 37 failed INSERTs of full batches the next statement has 68,400 parameters. -/
theorem not_statement_sendable :
    ¬ ∀ (calls : List Call) (events : List Value) (statement : Statement),
      (∀ c ∈ calls, c.events.length ≤ 100) → events.length ≤ 100 →
      ((runCalls { retryQueue := [] } calls).writeBatch events .executed).statement =
        some statement → statement.params.length ≤ maxBindParams := by
  intro h
  have hcalls : ∀ c ∈ failedCalls 37, c.events.length ≤ 100 := by
    intro c hc
    rw [List.eq_of_mem_replicate hc]
    decide
  have hbound := h (failedCalls 37) (smallBatch 100) _ hcalls (by decide)
    (statement_eq _ (List.cons_ne_nil _ _) (by decide))
  have hsize : backlogSize (failedCalls 37).reverse = 3700 := by decide
  rw [insertStatement_params_length, List.length_append, retryQueue_runCalls_length, hsize]
    at hbound
  exact absurd hbound (by decide)

end VibeAudit.Delivery
