import VibeAudit.Delivery.Flush

/-!
# The table is a prefix of what was processed

With working connections a flush either moves the retry queue and the batch into
the table or appends the batch to the queue, so the table, the queue and the
batch together stay the list of chained events. `Delivered` is that invariant;
it needs the backlog to stay within the retry queue's cap, since the cap is the
only place where an event is dropped.
-/

namespace VibeAudit.Delivery

open Foundation Json Extension Forwarder Chain

/-- After the events of `events` were received, `written` is what the table holds of them, and
the retry queue and the batch hold the rest, in order. -/
structure Delivered (input : TimestamptzInput) (events : List Value) (s : Process)
    (written : List Value) : Prop where
  chained : HashChain.new.applyAll events =
    some (s.processor.chain, written ++ s.writer.retryQueue ++ s.processor.batch)
  stored : List.Forall₂ (StoredAs input) written s.table.rows
  bounded : s.backlog ≤ maxRetry

/-- A flush completes when the database can read what it commits. -/
theorem exists_flush {input : TimestamptzInput} {s : Process} {db : DbOutcome} (gap : Nat)
    (h : ∀ e ∈ (s.writer.writeBatch s.processor.batch db).committed, Readable input e) :
    ∃ t, s.flush input db gap = some t := by
  obtain ⟨rows, hrows⟩ := exists_storedRows (EventsTable.length_givenIds (s.table.nextId + gap) _) h
  obtain ⟨table, htable⟩ := Option.isSome_iff_exists.mp (EventsTable.insert_isSome hrows)
  exact ⟨_, by simp only [Process.flush, htable]; rfl⟩

namespace Delivered

variable {input : TimestamptzInput} {events written : List Value} {s t : Process}

theorem new : Delivered input [] Process.new [] where
  chained := rfl
  stored := .nil
  bounded := Nat.zero_le _

theorem receive (h : Delivered input events s written) {event : Value} {p : Processor}
    (hp : s.processor.receive event = some p)
    (hbounded : Process.backlog { s with processor := p } ≤ maxRetry) :
    Delivered input (events ++ [event]) { s with processor := p } written where
  chained := by
    obtain ⟨a, ha, hchain, hbatch, -, -⟩ := Processor.receive_eq_some hp
    rw [HashChain.applyAll_append, h.chained]
    simp [HashChain.applyAll, ha, hchain, hbatch]
  stored := h.stored
  bounded := hbounded

/-- A committed INSERT empties the queue and the batch into the table. -/
theorem executed (h : Delivered input events s written) (hflushed : Flushed input s t .executed) :
    Delivered input events t (written ++ s.writer.retryQueue ++ s.processor.batch) := by
  obtain ⟨rows, htable, hrows⟩ := hflushed.table
  have hqueue : t.writer.retryQueue = [] := hflushed.queue
  refine ⟨?_, ?_, ?_⟩
  · simpa [hflushed.processor, hqueue] using h.chained
  · rw [htable, List.append_assoc]
    exact List.rel_append h.stored hrows
  · simp [Process.backlog, hflushed.batch, hqueue]

/-- A failed INSERT moves the batch to the end of the retry queue. -/
theorem executeFailed (h : Delivered input events s written)
    (hflushed : Flushed input s t .executeFailed) : Delivered input events t written := by
  have hqueue := hflushed.queue
  rw [requeued, rtake_of_backlog h.bounded, allEvents] at hqueue
  refine ⟨?_, ?_, ?_⟩
  · simpa [hflushed.processor, hqueue] using h.chained
  · rw [hflushed.rows_eq rfl]
    exact h.stored
  · simpa [Process.backlog, hflushed.batch, hqueue] using h.bounded

/-- What one arm of the loop preserves. -/
theorem step (h : Delivered input events s written) {a : Action}
    (ha : s.boundedStep input a = some t)
    (hdb : a.db ≠ some .getFailed ∧ a.db ≠ some .replyLost) :
    ∃ written', Delivered input (events ++ received [a]) t written' := by
  obtain ⟨hstep, hbounded⟩ := Process.boundedStep_eq_some.mp ha
  rcases Process.step_cases hstep with ⟨event, p, rfl, hp, rfl⟩ |
    ⟨db, gap, hadb, hnone, hne, hflush⟩ | ⟨hnone, rfl⟩
  · exact ⟨written, h.receive hp hbounded⟩
  · rw [hnone, List.append_nil]
    have hflushed := flushed_of_flush hne hflush
    cases db with
    | getFailed => exact absurd hadb hdb.1
    | executeFailed => exact ⟨written, h.executeFailed hflushed⟩
    | replyLost => exact absurd hadb hdb.2
    | executed => exact ⟨_, h.executed hflushed⟩
  · rw [hnone, List.append_nil]
    exact ⟨written, h⟩

/-- What every run preserves. -/
theorem of_run {actions : List Action}
    (hrun : run (Process.boundedStep input) Process.new actions = some s)
    (hdb : ∀ a ∈ actions, a.db ≠ some .getFailed ∧ a.db ≠ some .replyLost) :
    ∃ written, Delivered input (received actions) s written := by
  refine run_induction (Process.boundedStep input)
    (I := fun as s => ∃ written, Delivered input (received as) s written)
    (C := fun _ _ a => a.db ≠ some .getFailed ∧ a.db ≠ some .replyLost) ⟨[], new⟩ ?_ hrun ?_
  · rintro as u a t - ⟨written, hu⟩ ha hstep
    rw [received_append]
    exact hu.step hstep ha
  · rintro pre a post u rfl -
    exact hdb a (by simp)

/-- A delivered table is accepted, since its rows carry the links of the events. -/
theorem linked_rows (h : Delivered input events s written)
    (hevents : ∀ e ∈ events, e.isObject = true ∧ Canonical input e) :
    rowView.Linked (some "") s.table.rows := by
  have hlinked : eventView.Linked (some "") written := by
    have hall := (HashChain.applyAll_linked h.chained).1
    rw [List.append_assoc] at hall
    exact hall.of_append_left
  have hcanon := forall_hashed (P := fun e => Readable input e ∧ Canonical input e)
    (fun e e' he hc => ⟨readable_hashed he hc.1, (canonical_hashed_iff he).mpr hc.2⟩)
    (HashChain.applyAll_hashedFrom h.chained)
    (fun e he => ⟨(hevents e he).2.readable (hevents e he).1, (hevents e he).2⟩)
  refine (linked_rows_iff h.stored (fun e he => hcanon e ?_) _).mpr hlinked
  simp [he]

end Delivered

/-- In every state reached with working connections, INSERTs that succeed or fail as reported, and
a backlog within the cap, the table in
id order, the retry queue and the batch are exactly the events processed so far, each extending
its predecessor, and `verify_chain` accepts the table. -/
theorem table_is_verified_prefix (input : TimestamptzInput) (actions : List Action) (s : Process)
    (hrun : run (Process.boundedStep input) Process.new actions = some s)
    (hdb : ∀ a ∈ actions, a.db ≠ some .getFailed ∧ a.db ≠ some .replyLost)
    (hevents : ∀ e ∈ received actions, e.isObject = true ∧ Canonical input e) :
    ∃ processed written,
      HashChain.new.applyAll (received actions) = some (s.processor.chain, processed) ∧
      processed = written ++ s.writer.retryQueue ++ s.processor.batch ∧
      List.Forall₂ (StoredAs input) written (orderById s.table.rows) ∧
      processed.map storedPrev = (some "" :: processed.map storedHash).dropLast ∧
      verifyChain s.table.rows =
        { checkedCount := written.length, valid := true, firstBrokenId := none } := by
  obtain ⟨written, h⟩ := Delivered.of_run hrun hdb
  have hlinked := (HashChain.applyAll_linked h.chained).1
  have hrows := h.linked_rows hevents
  have horder : orderById s.table.rows = s.table.rows :=
    orderById_eq_self (s.table.ids_lt.imp le_of_lt)
  rw [← horder] at hrows
  refine ⟨_, written, h.chained, rfl, ?_, hlinked.map_prevOf, ?_⟩
  · rw [horder]
    exact h.stored
  · rw [verifyChain_of_linked hrows, h.stored.length_eq]

def retriedActions : List Action :=
  [.receive millisEvent, .tick .executeFailed 1, .receive millisEvent, .tick .executed 0]

theorem table_is_verified_prefix_retried :
    ∃ s, run (Process.boundedStep isoInput) Process.new retriedActions = some s ∧
      ∃ processed written,
        HashChain.new.applyAll (received retriedActions) = some (s.processor.chain, processed) ∧
        processed = written ++ s.writer.retryQueue ++ s.processor.batch ∧
        List.Forall₂ (StoredAs isoInput) written (orderById s.table.rows) ∧
        processed.map storedPrev = (some "" :: processed.map storedHash).dropLast ∧
        verifyChain s.table.rows =
          { checkedCount := written.length, valid := true, firstBrokenId := none } := by
  have hsome : (run (Process.boundedStep isoInput) Process.new retriedActions).isSome = true := by
    decide +kernel
  obtain ⟨s, hs⟩ := Option.isSome_iff_exists.mp hsome
  refine ⟨s, hs, table_is_verified_prefix isoInput retriedActions s hs (by decide) ?_⟩
  intro e he
  have hmillis : e = millisEvent := by simpa [received, retriedActions] using he
  rw [hmillis]
  exact ⟨rfl, millisEvent_canonical⟩

end VibeAudit.Delivery
