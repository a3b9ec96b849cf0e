import VibeAudit.Chain.Agreement
import VibeAudit.Forwarder.Run

/-!
# What a flush does

A flush is one call of `write_batch` with the batch. By its outcome the table
gets the whole backlog or nothing of it, and the queue keeps the backlog, the
batch alone, or nothing. Where the reply to a committed INSERT is lost, the
backlog is in both.
-/

namespace VibeAudit.Delivery

open Foundation Json Extension Forwarder Chain

def allEvents (s : Process) : List Value := s.writer.retryQueue ++ s.processor.batch

def inserted (s : Process) : DbOutcome → List Value
  | .getFailed | .executeFailed => []
  | .replyLost | .executed => allEvents s

/-- The events a call leaves in the retry queue. -/
def requeued (s : Process) : DbOutcome → List Value
  | .getFailed => s.processor.batch.rtake maxRetry
  | .executeFailed | .replyLost => (allEvents s).rtake maxRetry
  | .executed => []

structure Flushed (input : TimestamptzInput) (s t : Process) (db : DbOutcome) : Prop where
  processor : t.processor = { s.processor with batch := [] }
  queue : t.writer.retryQueue = requeued s db
  table : ∃ rows, t.table.rows = s.table.rows ++ rows ∧
    List.Forall₂ (StoredAs input) (inserted s db) rows

variable {input : TimestamptzInput} {s t : Process} {db : DbOutcome}

/-- Everything a flush does. -/
theorem flushed_of_flush (hne : s.processor.batch ≠ []) {gap : Nat}
    (h : s.flush input db gap = some t) : Flushed input s t db := by
  obtain ⟨hprocessor, hwriter, hinsert⟩ := Process.flush_spec h
  obtain ⟨ids, rows, hrows, htable⟩ := EventsTable.insert_spec hinsert
  have hstored := (storedRows_spec hrows).1
  cases db with
  | getFailed =>
    rw [BatchWriter.writeBatch_getFailed _ hne] at hwriter hstored
    exact ⟨hprocessor, by simp only [hwriter, requeued], rows, htable, hstored⟩
  | executeFailed =>
    rw [BatchWriter.writeBatch_executeFailed _ hne] at hwriter hstored
    exact ⟨hprocessor, by simp only [hwriter, requeued, allEvents], rows, htable, hstored⟩
  | replyLost =>
    rw [BatchWriter.writeBatch_replyLost _ hne] at hwriter hstored
    exact ⟨hprocessor, by simp only [hwriter, requeued, allEvents], rows, htable, hstored⟩
  | executed =>
    rw [BatchWriter.writeBatch_executed _ hne] at hwriter hstored
    exact ⟨hprocessor, by simp only [hwriter, requeued], rows, htable, hstored⟩

/-- An action with an outcome flushes a batch that is not empty. -/
theorem flushed_of_step {a : Action} (h : s.step input a = some t) (hdb : a.db = some db)
    (hne : s.processor.batch ≠ []) : Flushed input s t db ∧ received [a] = [] := by
  cases a with
  | receive => cases hdb
  | flushFull db' gap | tick db' gap =>
    obtain rfl := Option.some.inj hdb
    refine ⟨?_, rfl⟩
    simp only [Process.step, List.isEmpty_iff, hne, if_false] at h
    split_ifs at h
    exact flushed_of_flush hne h

theorem Flushed.batch (h : Flushed input s t db) : t.processor.batch = [] := by rw [h.processor]

theorem Flushed.allEvents (h : Flushed input s t db) : allEvents t = requeued s db := by
  rw [Delivery.allEvents, h.batch, h.queue, List.append_nil]

/-- A failed call leaves the table as it is. -/
theorem Flushed.rows_eq (h : Flushed input s t db) (hnone : inserted s db = []) :
    t.table.rows = s.table.rows := by
  obtain ⟨rows, htable, hstored⟩ := h.table
  rw [hnone] at hstored
  rw [htable, List.forall₂_nil_left_iff.mp hstored, List.append_nil]

theorem inserted_subset : inserted s db ⊆ allEvents s := by
  cases db <;> simp [inserted]

theorem commits_of_mem_inserted {event : Value} (h : event ∈ inserted s db) :
    db.commits = true := by
  cases db with
  | getFailed | executeFailed => cases h
  | replyLost | executed => rfl

theorem requeued_sublist : (requeued s db).Sublist (allEvents s) := by
  unfold requeued
  cases db with
  | getFailed => exact (rtake_sublist maxRetry _).trans (List.sublist_append_right _ _)
  | executeFailed | replyLost => exact rtake_sublist maxRetry _
  | executed => exact List.nil_sublist _

/-- A call whose reply arrives puts nothing both into the table and into the queue. -/
theorem inserted_requeued_sublist (hdb : db ≠ .replyLost) :
    (inserted s db ++ requeued s db).Sublist (allEvents s) := by
  cases db with
  | getFailed | executeFailed =>
    rw [inserted, List.nil_append]
    exact requeued_sublist
  | replyLost => exact absurd rfl hdb
  | executed => rw [inserted, requeued, List.append_nil]

theorem backlog_eq (s : Process) : s.backlog = (allEvents s).length := by
  simp [Process.backlog, allEvents]

/-- The cap drops nothing of a backlog within it. -/
theorem rtake_of_backlog (h : s.backlog ≤ maxRetry) :
    (allEvents s).rtake maxRetry = allEvents s :=
  rtake_of_length_le (by rwa [← backlog_eq])

end VibeAudit.Delivery
