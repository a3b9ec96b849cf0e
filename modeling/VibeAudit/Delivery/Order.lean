import VibeAudit.Delivery.Flush

/-!
# Order and multiplicity, whatever the database does

A row is always one of the events processed. Failed connections and a full retry
queue lose events; they do nothing else, so the rows, the queue and the batch
stay a sublist of the events processed. Only an INSERT whose reply is lost
repeats events.
-/

namespace VibeAudit.Delivery

open Foundation Json Extension Forwarder Chain

/-- After the events of `events` were received and hashed to `processed`, the table holds
`written`, in order, and nothing is held that was not processed. -/
structure DrawnFrom (input : TimestamptzInput) (events : List Value) (s : Process)
    (processed written : List Value) : Prop where
  chained : HashChain.new.applyAll events = some (s.processor.chain, processed)
  stored : List.Forall₂ (StoredAs input) written s.table.rows
  drawn : ∀ event ∈ written ++ allEvents s, event ∈ processed

/-- No event of the table, the queue and the batch appears twice or out of order. -/
structure InOrder (input : TimestamptzInput) (events : List Value) (s : Process)
    (processed written : List Value) : Prop extends DrawnFrom input events s processed written where
  sublist : (written ++ allEvents s).Sublist processed

theorem batch_flush {input : TimestamptzInput} {s t : Process} {db : DbOutcome} {gap : Nat}
    (h : s.flush input db gap = some t) : t.processor.batch = [] := by
  rw [(Process.flush_spec h).1]

/-- A full batch is flushed before anything is received. -/
theorem batch_length_le {input : TimestamptzInput} {s t : Process} {a : Action}
    (hs : s.processor.batch.length ≤ batchLimit) (h : s.step input a = some t) :
    t.processor.batch.length ≤ batchLimit := by
  cases a with
  | receive event =>
    simp only [Process.step] at h
    split_ifs at h with hroom
    obtain ⟨p, hp, rfl⟩ := Option.map_eq_some_iff.mp h
    obtain ⟨a, -, -, hbatch, -, -⟩ := Processor.receive_eq_some hp
    rw [hbatch, List.length_append, List.length_singleton]
    exact hroom
  | flushFull db gap | tick db gap =>
    simp only [Process.step] at h
    split_ifs at h <;> grind [batch_flush]

/-! ## What every run preserves -/

variable {input : TimestamptzInput} {events processed written : List Value} {s t : Process}

namespace DrawnFrom

theorem new : DrawnFrom input [] Process.new [] [] where
  chained := rfl
  stored := .nil
  drawn := by simp [allEvents, Process.new, Processor.new]

theorem receive (h : DrawnFrom input events s processed written) {event : Value} {p : Processor}
    (hp : s.processor.receive event = some p) :
    ∃ a, s.processor.chain.apply event = some a ∧
      DrawnFrom input (events ++ [event]) { s with processor := p } (processed ++ [a.event])
        written := by
  obtain ⟨a, ha, hchain, hbatch, -, -⟩ := Processor.receive_eq_some hp
  refine ⟨a, ha, ?_, h.stored, ?_⟩
  · rw [HashChain.applyAll_append, h.chained]
    simp [HashChain.applyAll, ha, hchain]
  · have hdrawn := h.drawn
    rw [allEvents] at hdrawn
    rw [allEvents, hbatch]
    grind

/-- A flush only moves events of the backlog. -/
theorem flush (h : DrawnFrom input events s processed written) {db : DbOutcome}
    (hflushed : Flushed input s t db) :
    DrawnFrom input events t processed (written ++ inserted s db) := by
  obtain ⟨rows, htable, hrows⟩ := hflushed.table
  refine ⟨by rw [hflushed.processor]; exact h.chained, ?_, ?_⟩
  · rw [htable]
    exact List.rel_append h.stored hrows
  · have hdrawn := h.drawn
    have hinserted : inserted s db ⊆ allEvents s := inserted_subset
    have hrequeued : requeued s db ⊆ allEvents s := requeued_sublist.subset
    rw [hflushed.allEvents]
    grind

/-- What one arm of the loop preserves. -/
theorem step (h : DrawnFrom input events s processed written) {a : Action}
    (ha : s.step input a = some t) :
    ∃ processed' written', DrawnFrom input (events ++ received [a]) t processed' written' := by
  rcases Process.step_cases ha with ⟨event, p, rfl, hp, rfl⟩ |
    ⟨db, gap, -, hnone, hne, hflush⟩ | ⟨hnone, rfl⟩
  · obtain ⟨a, -, hnext⟩ := h.receive hp
    exact ⟨_, _, hnext⟩
  · rw [hnone, List.append_nil]
    exact ⟨processed, _, h.flush (flushed_of_flush hne hflush)⟩
  · rw [hnone, List.append_nil]
    exact ⟨processed, written, h⟩

theorem of_run {actions : List Action}
    (hrun : run (Process.step input) Process.new actions = some s) :
    ∃ processed written, DrawnFrom input (received actions) s processed written := by
  refine run_induction (Process.step input)
    (I := fun as s => ∃ processed written, DrawnFrom input (received as) s processed written)
    (C := fun _ _ _ => True) ⟨[], [], new⟩ ?_ hrun (fun _ _ _ _ _ _ => trivial)
  rintro as u a t - ⟨processed, written, hu⟩ - hstep
  rw [received_append]
  exact hu.step hstep

end DrawnFrom

namespace InOrder

theorem new : InOrder input [] Process.new [] [] where
  toDrawnFrom := .new
  sublist := .slnil

theorem receive (h : InOrder input events s processed written) {event : Value} {p : Processor}
    (hp : s.processor.receive event = some p) :
    ∃ a, s.processor.chain.apply event = some a ∧
      InOrder input (events ++ [event]) { s with processor := p } (processed ++ [a.event])
        written := by
  obtain ⟨a, ha, hdrawn⟩ := h.toDrawnFrom.receive hp
  obtain ⟨a', ha', -, hbatch, -, -⟩ := Processor.receive_eq_some hp
  obtain rfl := Option.some.inj (ha.symm.trans ha')
  refine ⟨a, ha, hdrawn, ?_⟩
  have hsublist := h.sublist
  rw [allEvents] at hsublist
  rw [allEvents, hbatch, ← List.append_assoc s.writer.retryQueue, ← List.append_assoc]
  exact hsublist.append (List.Sublist.refl _)

/-- A flush whose reply arrives never brings anything back. -/
theorem flush (h : InOrder input events s processed written) {db : DbOutcome}
    (hdb : db ≠ .replyLost) (hflushed : Flushed input s t db) :
    InOrder input events t processed (written ++ inserted s db) where
  toDrawnFrom := h.toDrawnFrom.flush hflushed
  sublist := by
    rw [hflushed.allEvents, List.append_assoc]
    exact ((inserted_requeued_sublist hdb).append_left written).trans h.sublist

/-- What one arm of the loop preserves. -/
theorem step (h : InOrder input events s processed written) {a : Action}
    (hdb : a.db ≠ some .replyLost) (ha : s.step input a = some t) :
    ∃ processed' written', InOrder input (events ++ received [a]) t processed' written' := by
  rcases Process.step_cases ha with ⟨event, p, rfl, hp, rfl⟩ |
    ⟨db, gap, hadb, hnone, hne, hflush⟩ | ⟨hnone, rfl⟩
  · obtain ⟨a, -, hnext⟩ := h.receive hp
    exact ⟨_, _, hnext⟩
  · rw [hnone, List.append_nil]
    have hreply : db ≠ .replyLost := fun hlost => hdb (hlost ▸ hadb)
    exact ⟨processed, _, h.flush hreply (flushed_of_flush hne hflush)⟩
  · rw [hnone, List.append_nil]
    exact ⟨processed, written, h⟩

theorem of_run {actions : List Action}
    (hrun : run (Process.step input) Process.new actions = some s)
    (hdb : ∀ a ∈ actions, a.db ≠ some .replyLost) :
    ∃ processed written, InOrder input (received actions) s processed written := by
  refine run_induction (Process.step input)
    (I := fun as s => ∃ processed written, InOrder input (received as) s processed written)
    (C := fun _ _ a => a.db ≠ some .replyLost) ⟨[], [], new⟩ ?_ hrun ?_
  · rintro as u a t - ⟨processed, written, hu⟩ ha hstep
    rw [received_append]
    exact hu.step ha hstep
  · rintro pre a post u rfl -
    exact hdb a (by simp)

end InOrder

/-- In every run, whatever connections and statements fail and whatever the full queue drops, the
table, the queue and the batch hold nothing but processed events. As long as no reply to a
committed INSERT is lost, the table in id order, the queue and the batch together are a sublist of
them. -/
theorem table_keeps_order (input : TimestamptzInput) (actions : List Action) (s : Process)
    (hrun : run (Process.step input) Process.new actions = some s) :
    ∃ processed written,
      HashChain.new.applyAll (received actions) = some (s.processor.chain, processed) ∧
      List.Forall₂ (StoredAs input) written (orderById s.table.rows) ∧
      (∀ event ∈ written ++ s.writer.retryQueue ++ s.processor.batch, event ∈ processed) ∧
      ((∀ a ∈ actions, a.db ≠ some .replyLost) →
        (written ++ s.writer.retryQueue ++ s.processor.batch).Sublist processed) := by
  rw [orderById_eq_self (s.table.ids_lt.imp le_of_lt)]
  by_cases hdb : ∀ a ∈ actions, a.db ≠ some .replyLost
  · obtain ⟨processed, written, h⟩ := InOrder.of_run hrun hdb
    have hsublist := h.sublist
    rw [allEvents, ← List.append_assoc] at hsublist
    exact ⟨processed, written, h.chained, h.stored, fun _ he => hsublist.subset he,
      fun _ => hsublist⟩
  · obtain ⟨processed, written, h⟩ := DrawnFrom.of_run hrun
    have hdrawn := h.drawn
    rw [allEvents, ← List.append_assoc] at hdrawn
    exact ⟨processed, written, h.chained, h.stored, hdrawn, fun htold => absurd htold hdb⟩

def queuedActions : List Action :=
  [.receive millisEvent, .tick .getFailed 0, .receive millisEvent, .tick .executed 3]

theorem table_keeps_order_queued :
    ∃ s, run (Process.step isoInput) Process.new queuedActions = some s ∧ s.table.rows.length = 2 ∧
      ∃ processed written,
        HashChain.new.applyAll (received queuedActions) = some (s.processor.chain, processed) ∧
        List.Forall₂ (StoredAs isoInput) written (orderById s.table.rows) ∧
        (written ++ s.writer.retryQueue ++ s.processor.batch).Sublist processed := by
  have hend : (run (Process.step isoInput) Process.new queuedActions).any
      (fun s => s.table.rows.length == 2) = true := by decide +kernel
  obtain ⟨s, hs, hrows⟩ := (Option.any_eq_true _ _).mp hend
  obtain ⟨processed, written, hchain, hstored, -, hsublist⟩ :=
    table_keeps_order isoInput queuedActions s hs
  exact ⟨s, hs, by simpa using hrows, processed, written, hchain, hstored, hsublist (by decide)⟩

end VibeAudit.Delivery
