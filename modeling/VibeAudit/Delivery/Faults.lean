import VibeAudit.Chain.History
import VibeAudit.Delivery.Order

/-!
# What verification says about failures

An INSERT may commit while its reply is lost. The writer then queues rows that
are in the table already. Over all runs, with such replies too, `verify_chain`
accepts the table exactly as long as it is a front of the events processed:
every event lost in between and every repeated row shows, and nothing else does.
-/

namespace VibeAudit.Delivery

open Foundation Json Extension Forwarder Chain

variable {input : TimestamptzInput} {s t : Process}

/-! ## Heads of processed events -/

/-- The strings hashed for the events, and that the first of them cannot be taken for a later
one. -/
structure Distinct (processed : List Value) : Prop where
  collisionFree : CollisionFree (processed.filterMap hashedByProducer)
  firstPlain : ∀ event ∈ processed.head?, ¬ BeginsWithDigest (textField event "event_type")

instance (text : String) : Decidable (BeginsWithDigest text) :=
  inferInstanceAs (Decidable (_ ∧ _))

instance (processed : List Value) : Decidable (Distinct processed) :=
  decidable_of_iff (CollisionFree (processed.filterMap hashedByProducer) ∧
    ∀ event ∈ processed.head?, ¬ BeginsWithDigest (textField event "event_type"))
    ⟨fun h => ⟨h.1, h.2⟩, fun h => ⟨h.1, h.2⟩⟩

variable {processed written : List Value}

/-- A canonical event of a chain has a row that tells it from all others. -/
theorem exists_chainedRow_of_event (hl : eventView.Linked (some "") processed)
    (hcanon : ∀ event ∈ processed, Readable input event ∧ Canonical input event)
    (hdistinct : Distinct processed) {event : Value} (hevent : event ∈ processed) :
    ∃ row prev, StoredAs input event row ∧ ChainedRow row prev (buildPayload event) := by
  obtain ⟨hread, hc⟩ := hcanon event hevent
  obtain ⟨row, hrow⟩ := hread.exists_stored 0
  have hstored : StoredAs input event row := ⟨0, hrow⟩
  obtain ⟨prev, hprev⟩ := Option.isSome_iff_exists.mp (storedPrev_isSome_of_linked hl event hevent)
  have hhash : storedHash event = some (sha256Hex (prev ++ buildPayload event)) := by
    have hdigest : storedHash event =
        (storedPrev event).map fun p => sha256Hex (p ++ buildPayload event) :=
      hl.headOf_eq_digest hevent
    rw [hdigest, hprev]
    rfl
  refine ⟨row, prev, hstored, ⟨?_, (hstored.payload_eq_iff hread).mpr hc, ?_⟩, ?_⟩
  · exact hstored.sameLinks.1.trans hprev
  · exact hstored.sameLinks.2.trans hhash
  · cases hprocessed : processed with
    | nil => simp [hprocessed] at hevent
    | cons first rest =>
      rw [hprocessed] at hl hevent
      obtain ⟨hfirst, -, hrest⟩ := id hl
      rcases List.mem_cons.mp hevent with rfl | hmem
      · obtain rfl := Option.some.inj (hprev.symm.trans hfirst)
        refine .inr ⟨rfl, ?_⟩
        have hplain := hdistinct.firstPlain event (by simp [hprocessed])
        obtain ⟨⟨type, htype⟩, -⟩ := hc
        obtain ⟨id, hbound⟩ := hstored
        obtain ⟨time, -, rfl⟩ := Option.map_eq_some_iff.mp hbound
        simpa [textField, boundRow, strVal, htype, Value.asStr] using hplain
      · -- the head before a later event is the hash of an event
        obtain ⟨e, he, heq⟩ : ∃ e ∈ first :: rest, eventView.headOf e = eventView.prevOf event := by
          rcases hrest.prevOf_mem hmem with hhead | hheads
          · exact ⟨first, List.mem_cons_self, hhead.symm⟩
          · obtain ⟨e, he, heq⟩ := List.mem_map.mp hheads
            exact ⟨e, List.mem_cons_of_mem _ he, heq⟩
        obtain ⟨p, hp⟩ := Option.isSome_iff_exists.mp (storedPrev_isSome_of_linked hl e he)
        have hhead : eventView.headOf e =
            (storedPrev e).map fun p => sha256Hex (p ++ buildPayload e) := hl.headOf_eq_digest he
        rw [hhead, hp] at heq
        exact .inl ⟨_, (Option.some.inj (heq.trans hprev)).symm⟩

/-- No two of the events have the same hash. -/
theorem nodup_heads_of_distinct (hl : eventView.Linked (some "") processed)
    (hcanon : ∀ event ∈ processed, Readable input event ∧ Canonical input event)
    (hdistinct : Distinct processed) : (some "" :: processed.map storedHash).Nodup := by
  apply LinkView.Linked.nodup_heads hl
  · intro e he f hf heq
    obtain ⟨row, p, hstored, hrow⟩ := exists_chainedRow_of_event hl hcanon hdistinct he
    obtain ⟨row', q, hstored', hrow'⟩ := exists_chainedRow_of_event hl hcanon hdistinct hf
    have hprev : storedPrev e = some p := hstored.sameLinks.1.symm.trans hrow.prevHash_eq
    have hprev' : storedPrev f = some q := hstored'.sameLinks.1.symm.trans hrow'.prevHash_eq
    have hhashed : ∀ {event : Value} {prev : String}, event ∈ processed →
        storedPrev event = some prev →
        prev ++ buildPayload event ∈ processed.filterMap hashedByProducer := by
      intro event prev hevent hp
      exact List.mem_filterMap.mpr ⟨event, hevent, by rw [hashedByProducer, hp]; rfl⟩
    have hsame := (hrow.eq_of_eventHash_eq hrow' hdistinct.collisionFree (hhashed he hprev)
      (hhashed hf hprev') (hstored.sameLinks.2.trans (heq.trans hstored'.sameLinks.2.symm))).1
    exact hprev.trans (hsame ▸ hprev'.symm)
  · intro e he
    obtain ⟨row, p, hstored, hrow⟩ := exists_chainedRow_of_event hl hcanon hdistinct he
    have hne := hrow.eventHash_ne_empty
    rwa [hstored.sameLinks.2] at hne

/-- What is drawn from the events of a chain is linked exactly when it is a front of them. -/
theorem linked_drawn_iff (hl : eventView.Linked (some "") processed)
    (hcanon : ∀ event ∈ processed, Readable input event ∧ Canonical input event)
    (hdistinct : Distinct processed) (hdrawn : ∀ event ∈ written, event ∈ processed) :
    eventView.Linked (some "") written ↔ written <+: processed := by
  constructor
  · intro hw
    have hfront : written.map id <+: processed.map id :=
      hl.prefix_of_drawn hw (nodup_heads_of_distinct hl hcanon hdistinct)
        fun event hevent => ⟨event, hdrawn event hevent, rfl, rfl, rfl⟩
    simpa using hfront
  · rintro ⟨back, rfl⟩
    exact hl.of_append_left

/-- Chaining canonical events leaves canonical events. -/
theorem canonical_processed {events : List Value} {last : HashChain}
    (h : HashChain.new.applyAll events = some (last, processed))
    (hevents : ∀ event ∈ events, event.isObject = true ∧ Canonical input event) :
    ∀ event ∈ processed, Readable input event ∧ Canonical input event :=
  forall_hashed (fun _ _ he hc => ⟨readable_hashed he hc.1, (canonical_hashed_iff he).mpr hc.2⟩)
    (HashChain.applyAll_hashedFrom h)
    fun e he => ⟨(hevents e he).2.readable (hevents e he).1, (hevents e he).2⟩

/-- `verify_chain` on the table of a run with failures. -/
theorem DrawnFrom.valid_iff {events : List Value}
    (h : DrawnFrom input events s processed written)
    (hevents : ∀ event ∈ events, event.isObject = true ∧ Canonical input event)
    (hdistinct : Distinct processed) :
    (verifyChain s.table.rows).valid = true ↔ written <+: processed := by
  have hl : eventView.Linked (some "") processed := (HashChain.applyAll_linked h.chained).1
  have hcanon := canonical_processed h.chained hevents
  have hdrawn : ∀ event ∈ written, event ∈ processed :=
    fun event hevent => h.drawn event (List.mem_append_left _ hevent)
  rw [verifyChain_valid_iff, orderById_eq_self (s.table.ids_lt.imp le_of_lt),
    linked_rows_iff h.stored fun event hevent => hcanon event (hdrawn event hevent)]
  exact linked_drawn_iff hl hcanon hdistinct hdrawn

/-- In every run over canonical events, with failed connections, failed INSERTs, a queue that
overflows, and INSERTs that commit although they are reported to fail, `verify_chain` accepts the
table exactly when the rows are a front of the events processed. -/
theorem faulty_table_accepted_iff (input : TimestamptzInput) (actions : List Action)
    (s : Process) (hrun : run (Process.step input) Process.new actions = some s)
    (hevents : ∀ event ∈ received actions, event.isObject = true ∧ Canonical input event) :
    ∃ processed written,
      HashChain.new.applyAll (received actions) = some (s.processor.chain, processed) ∧
      List.Forall₂ (StoredAs input) written (orderById s.table.rows) ∧
      (Distinct processed →
        ((verifyChain s.table.rows).valid = true ↔ written <+: processed)) := by
  obtain ⟨processed, written, h⟩ := DrawnFrom.of_run hrun
  refine ⟨processed, written, h.chained, ?_, h.valid_iff hevents⟩
  rw [orderById_eq_self (s.table.ids_lt.imp le_of_lt)]
  exact h.stored

/-! ## After a lost reply -/

/-- What every run within the cap preserves. -/
theorem DrawnFrom.of_boundedRun {actions : List Action}
    (hrun : run (Process.boundedStep input) Process.new actions = some s) :
    ∃ processed written,
      DrawnFrom input (received actions) s processed written ∧ s.backlog ≤ maxRetry := by
  refine run_induction (Process.boundedStep input) (I := fun as s => ∃ processed written,
      DrawnFrom input (received as) s processed written ∧ s.backlog ≤ maxRetry)
    (C := fun _ _ _ => True) ⟨[], [], .new, Nat.zero_le _⟩ ?_ hrun (fun _ _ _ _ _ _ => trivial)
  rintro as v a w - ⟨processed, written, hv, -⟩ - hstep
  obtain ⟨hstep, hbounded⟩ := Process.boundedStep_eq_some.mp hstep
  obtain ⟨processed', written', hw⟩ := hv.step hstep
  rw [received_append]
  exact ⟨processed', written', hw, hbounded⟩

/-- After a lost reply that left `first` in front of the queue: the rows are the same as then, or
an event is in the table twice. -/
structure Repeating (input : TimestamptzInput) (events : List Value) (rows : Table)
    (first : Value) (s : Process) (processed written : List Value) : Prop
    extends DrawnFrom input events s processed written where
  bounded : s.backlog ≤ maxRetry
  twice : (s.table.rows = rows ∧ first ∈ written ∧ s.writer.retryQueue.head? = some first) ∨
    ¬ written.Nodup

namespace Repeating

variable {events : List Value} {rows : Table} {first : Value}

/-- A lost reply leaves the backlog queued. -/
theorem replyLost (h : DrawnFrom input events s processed written) (hs : s.backlog ≤ maxRetry)
    (hne : s.processor.batch ≠ []) (hflushed : Flushed input s t .replyLost)
    (ht : t.backlog ≤ maxRetry) :
    ∃ first written', Repeating input events t.table.rows first t processed written' := by
  have hqueue := hflushed.queue
  rw [requeued, rtake_of_backlog hs] at hqueue
  obtain ⟨first, rest, hfirst⟩ := List.exists_cons_of_ne_nil
    (show allEvents s ≠ [] from List.append_ne_nil_of_right_ne_nil _ hne)
  refine ⟨first, written ++ allEvents s, h.flush hflushed, ht, .inl ⟨rfl, ?_, ?_⟩⟩
  · simp [hfirst]
  · rw [hqueue, hfirst]
    rfl

/-- A flush over a connection keeps the first event queued, or adds it again. -/
theorem flush (h : Repeating input events rows first s processed written) {db : DbOutcome}
    (hdb : db ≠ .getFailed) (hflushed : Flushed input s t db) (ht : t.backlog ≤ maxRetry) :
    Repeating input events rows first t processed (written ++ inserted s db) := by
  refine ⟨h.toDrawnFrom.flush hflushed, ht, ?_⟩
  rcases h.twice with ⟨hrows, hwritten, hhead⟩ | hrepeated
  · have hagain : first ∈ allEvents s := List.mem_append_left _ (List.mem_of_mem_head? hhead)
    have hnodup : ¬ (written ++ allEvents s).Nodup := fun hnodup =>
      (List.nodup_append.mp hnodup).2.2 first hwritten first hagain rfl
    cases db with
    | getFailed => exact absurd rfl hdb
    | executeFailed =>
      left
      rw [inserted, List.append_nil, hflushed.queue, requeued, rtake_of_backlog h.bounded]
      refine ⟨(hflushed.rows_eq rfl).trans hrows, hwritten, ?_⟩
      rw [allEvents, List.head?_append, hhead]
      rfl
    | replyLost => exact .inr hnodup
    | executed => exact .inr hnodup
  · exact .inr fun hnodup => hrepeated (List.nodup_append.mp hnodup).1

/-- What one step preserves. -/
theorem step (h : Repeating input events rows first s processed written) {a : Action}
    (hdb : a.db ≠ some .getFailed) (ha : s.boundedStep input a = some t) :
    ∃ processed' written',
      Repeating input (events ++ received [a]) rows first t processed' written' := by
  obtain ⟨hstep, hbounded⟩ := Process.boundedStep_eq_some.mp ha
  rcases Process.step_cases hstep with ⟨event, p, rfl, hp, rfl⟩ |
    ⟨db, gap, hadb, hnone, hne, hflush⟩ | ⟨hnone, rfl⟩
  · obtain ⟨a, -, hnext⟩ := h.toDrawnFrom.receive hp
    exact ⟨_, written, hnext, hbounded, h.twice⟩
  · rw [hnone, List.append_nil]
    have hconnected : db ≠ .getFailed := fun hfailed => hdb (hfailed ▸ hadb)
    exact ⟨processed, _, h.flush hconnected (flushed_of_flush hne hflush) hbounded⟩
  · rw [hnone, List.append_nil]
    exact ⟨processed, written, h⟩

/-- What every run without failed connections preserves. -/
theorem of_run {before after : List Action}
    (h : Repeating input (received before) rows first s processed written)
    (hrun : run (Process.boundedStep input) s after = some t)
    (hdb : ∀ a ∈ after, a.db ≠ some .getFailed) :
    ∃ processed' written',
      Repeating input (received (before ++ after)) rows first t processed' written' := by
  refine run_induction (Process.boundedStep input) (I := fun as v => ∃ processed' written',
      Repeating input (received (before ++ as)) rows first v processed' written')
    (C := fun _ _ a => a.db ≠ some .getFailed) ⟨processed, written, ?_⟩ ?_ hrun ?_
  · rwa [List.append_nil]
  · rintro as v a w - ⟨processed', written', hv⟩ ha hstep
    have hnext := hv.step ha hstep
    rwa [← received_append, List.append_assoc] at hnext
  · rintro pre a post v rfl -
    exact hdb a (by simp)

end Repeating

/-- Where the reply to a flush is lost, `verify_chain` rejects the table from the next time on that
a row is added to it, as long as no connection fails and the backlog stays within the cap: the
writer adds the rows that it did not know to be there. -/
theorem lost_reply_rejected (input : TimestamptzInput) (before after : List Action)
    (lost : Action) (s t u : Process)
    (hbefore : run (Process.boundedStep input) Process.new before = some s)
    (hlost : lost.db = some .replyLost) (hbatch : s.processor.batch ≠ [])
    (hflush : s.boundedStep input lost = some t)
    (hafter : run (Process.boundedStep input) t after = some u)
    (hdb : ∀ a ∈ after, a.db ≠ some .getFailed)
    (hevents : ∀ event ∈ received (before ++ lost :: after),
      event.isObject = true ∧ Canonical input event)
    (hgrown : u.table.rows ≠ t.table.rows) :
    ∃ processed, HashChain.new.applyAll (received (before ++ lost :: after)) =
        some (u.processor.chain, processed) ∧
      (Distinct processed → (verifyChain u.table.rows).valid = false) := by
  obtain ⟨processed, written, hs, hbounded⟩ := DrawnFrom.of_boundedRun hbefore
  obtain ⟨hstep, htBounded⟩ := Process.boundedStep_eq_some.mp hflush
  obtain ⟨hflushed, hnone⟩ := flushed_of_step hstep hlost hbatch
  obtain ⟨first, written', ht⟩ := Repeating.replyLost hs hbounded hbatch hflushed htBounded
  have hsame : received before = received (before ++ [lost]) := by
    rw [received_append, hnone, List.append_nil]
  rw [hsame] at ht
  obtain ⟨processed', written'', hu⟩ := ht.of_run hafter hdb
  rw [List.append_cons] at hevents ⊢
  refine ⟨processed', hu.chained, fun hdistinct => ?_⟩
  have hl : eventView.Linked (some "") processed' := (HashChain.applyAll_linked hu.chained).1
  rw [← Bool.not_eq_true, hu.toDrawnFrom.valid_iff hevents hdistinct]
  intro hprefix
  have hnodup : processed'.Nodup := by
    have hheads := nodup_heads_of_distinct hl (canonical_processed hu.chained hevents) hdistinct
    exact (List.nodup_cons.mp hheads).2.of_map
  rcases hu.twice with ⟨hsame, -⟩ | hrepeated
  · exact hgrown hsame
  · exact hrepeated (hnodup.sublist hprefix.sublist)

def repeatedActions : List Action :=
  [.receive millisEvent, .tick .replyLost 0, .receive millisEvent, .tick .executed 0]

theorem received_repeatedActions : received repeatedActions = [millisEvent, millisEvent] := rfl

theorem canonical_repeatedActions :
    ∀ event ∈ received repeatedActions, event.isObject = true ∧ Canonical isoInput event := by
  intro event hevent
  have hmillis : event = millisEvent := by simpa [received_repeatedActions] using hevent
  rw [hmillis]
  exact ⟨rfl, millisEvent_canonical⟩

theorem distinct_repeatedActions {last : HashChain} {processed : List Value}
    (h : HashChain.new.applyAll (received repeatedActions) = some (last, processed)) :
    Distinct processed := by
  have hall : (HashChain.new.applyAll [millisEvent, millisEvent]).all
      (fun p => decide (Distinct p.2)) = true := by decide +kernel
  rw [received_repeatedActions] at h
  rw [h] at hall
  simpa using hall

theorem faulty_table_accepted_repeated :
    ∃ s, run (Process.step isoInput) Process.new repeatedActions = some s ∧
      ∃ processed written,
        HashChain.new.applyAll (received repeatedActions) = some (s.processor.chain, processed) ∧
        List.Forall₂ (StoredAs isoInput) written (orderById s.table.rows) ∧
        ((verifyChain s.table.rows).valid = true ↔ written <+: processed) := by
  have hsome : (run (Process.step isoInput) Process.new repeatedActions).isSome = true := by
    decide +kernel
  obtain ⟨s, hs⟩ := Option.isSome_iff_exists.mp hsome
  obtain ⟨processed, written, hchain, hstored, hvalid⟩ :=
    faulty_table_accepted_iff isoInput repeatedActions s hs canonical_repeatedActions
  exact ⟨s, hs, processed, written, hchain, hstored, hvalid (distinct_repeatedActions hchain)⟩

theorem lost_reply_rejected_repeated :
    ∃ u, run (Process.boundedStep isoInput) Process.new repeatedActions = some u ∧
      (verifyChain u.table.rows).valid = false := by
  have hthree : (run (Process.boundedStep isoInput) Process.new repeatedActions).any
      (fun u => u.table.rows.length == 3) = true := by decide +kernel
  have hone : (run (Process.boundedStep isoInput) Process.new (repeatedActions.take 2)).any
      (fun t => t.table.rows.length == 1) = true := by decide +kernel
  have hbatch : (run (Process.boundedStep isoInput) Process.new (repeatedActions.take 1)).all
      (fun s => decide (s.processor.batch ≠ [])) = true := by decide +kernel
  obtain ⟨u, hu, huRows⟩ := (Option.any_eq_true _ _).mp hthree
  obtain ⟨t, ht, htRows⟩ := (Option.any_eq_true _ _).mp hone
  have hafter : run (Process.boundedStep isoInput) t (repeatedActions.drop 2) = some u := by
    have happend := run_append (Process.boundedStep isoInput) Process.new (repeatedActions.take 2)
      (repeatedActions.drop 2)
    rw [List.take_append_drop, hu, ht] at happend
    exact happend.symm
  have hfront : repeatedActions.take 2 = repeatedActions.take 1 ++ [.tick .replyLost 0] := rfl
  rw [hfront, run_snoc_eq_some] at ht
  obtain ⟨s, hs, hlost⟩ := ht
  rw [hs] at hbatch
  have hgrown : u.table.rows ≠ t.table.rows := by
    intro hsame
    rw [hsame, beq_iff_eq.mp htRows] at huRows
    exact absurd huRows (by decide)
  obtain ⟨processed, hchain, hrejected⟩ := lost_reply_rejected isoInput
    (repeatedActions.take 1) (repeatedActions.drop 2) (.tick .replyLost 0) s t u hs rfl
    (by simpa using hbatch) hlost hafter (by decide) canonical_repeatedActions hgrown
  exact ⟨u, hu, hrejected (distinct_repeatedActions hchain)⟩

end VibeAudit.Delivery
