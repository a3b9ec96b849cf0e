import VibeAudit.Delivery.Blockage
import VibeAudit.Delivery.Refinement

/-!
# After an outage

Queued events are written with the next batch and not before, and all in one
INSERT. So once the database works again, the loop alone empties a queue exactly
when there is a new event for it to wait for, and when the queue with that event
still fits one statement.
-/

namespace VibeAudit.Delivery

open Foundation Json Extension Forwarder Chain Hooks

def answer (acceptable : BoundRow → Bool) (s : Process) : DbOutcome :=
  if storableBacklog acceptable s then .executed else .executeFailed

/-- The loop takes an arm, over a working database. -/
def Pipeline.recover (acceptable : BoundRow → Bool) (env : Environment) (s : Pipeline)
    (a : PipelineAction) : Option Pipeline :=
  match a with
  | .receive => s.step env .receive
  | .flushFull db _ | .tick db _ =>
    if db = answer acceptable s.process then s.step env a else none
  | _ => none

/-- The event can be received and stored. -/
structure Fit (acceptable : BoundRow → Bool) (input : TimestamptzInput) (event : Value) :
    Prop where
  readable : Readable input event
  accepted : ∀ row, RowOf event row → acceptable row = true

/-- All events in memory can be stored. -/
structure Stocked (acceptable : BoundRow → Bool) (env : Environment) (s : Pipeline) : Prop where
  backlog : ∀ event ∈ allEvents s.process,
    Readable env.input event ∧ acceptable (boundRow event) = true
  channel : ∀ event ∈ s.channel, Fit acceptable env.input event
  batch : s.process.processor.batch.length ≤ batchLimit
  chained : ∃ events hashed, HashChain.new.applyAll events =
    some (s.process.processor.chain, hashed)

/-- What was queued, batched or in the channel is in the table. -/
structure Drained (s t : Pipeline) : Prop where
  channel : t.channel = []
  batch : t.process.processor.batch = []
  queue : t.process.writer.retryQueue = []
  rows : t.process.table.rows.length = held s.process + s.channel.length

variable {acceptable : BoundRow → Bool} {env : Environment} {s t : Pipeline}

/-- An event that fits is stored under the hashes it gets. -/
theorem Fit.hashed {event : Value} (hfit : Fit acceptable env.input event) {c : HashChain}
    {events hashed : List Value} (hchained : HashChain.new.applyAll events = some (c, hashed))
    {a : Applied} (ha : c.apply event = some a) :
    Readable env.input a.event ∧ acceptable (boundRow a.event) = true :=
  ⟨readable_hashed (HashChain.apply_spec ha).hashed hfit.readable,
    hfit.accepted _ ⟨events, c, hashed, a, hchained, ha, rfl⟩⟩

/-- Events that fit are stored under the hashes they get. -/
theorem fit_processed {events out : List Value} {last : HashChain}
    (hchained : HashChain.new.applyAll events = some (last, out))
    (hfit : ∀ event ∈ events, Fit acceptable env.input event) :
    ∀ event ∈ out, Readable env.input event ∧ acceptable (boundRow event) = true := by
  induction events using List.reverseRecOn generalizing last out with
  | nil =>
    obtain ⟨-, rfl⟩ := Prod.mk.inj (Option.some.inj hchained)
    simp
  | append_singleton events event ih =>
    rw [HashChain.applyAll_append] at hchained
    obtain ⟨⟨c, hashed⟩, hbefore, hmap⟩ := Option.bind_eq_some_iff.mp hchained
    obtain ⟨⟨_, rest⟩, hone, hlast⟩ := Option.map_eq_some_iff.mp hmap
    obtain ⟨-, rfl⟩ := Prod.mk.inj hlast
    obtain ⟨a, tail, ha, htail, rfl⟩ := HashChain.applyAll_cons_eq_some.mp hone
    obtain ⟨-, rfl⟩ := Prod.mk.inj (Option.some.inj htail)
    rw [List.forall_mem_append]
    refine ⟨ih hbefore fun e he => hfit e (List.mem_append_left _ he), ?_⟩
    simpa using (hfit event (by simp)).hashed hbefore ha

/-- What a run leaves in memory. -/
theorem stocked_of_run {actions : List PipelineAction}
    (hrun : run (Pipeline.step env) Pipeline.new actions = some s)
    (hfit : ∀ event ∈ sentIn env actions, Fit acceptable env.input event) :
    Stocked acceptable env s := by
  have hsent := sentIn_eq hrun
  have hprocess : run (Process.step env.input) Process.new (loopOf env actions) = some s.process :=
    run_refines (Pipeline.step env) Pipeline.process Pipeline.loopStep
      (fun _ _ _ hstep => process_of_step hstep) hrun
  obtain ⟨processed, written, h⟩ := DrawnFrom.of_run hprocess
  have hreceived : ∀ event ∈ received (loopOf env actions), Fit acceptable env.input event := by
    intro event hevent
    apply hfit
    rw [hsent]
    exact List.mem_append_left _ hevent
  refine ⟨fun event hevent => ?_, fun event hevent => ?_, ?_, ⟨_, _, h.chained⟩⟩
  · have hall : event ∈ processed := h.drawn event (List.mem_append_right _ hevent)
    exact fit_processed h.chained hreceived event hall
  · exact hfit event (hsent ▸ List.mem_append_right _ hevent)
  · exact (bounded_of_run hprocess (Nat.zero_le _) (Nat.zero_le _)).1

/-! ## What the loop can do -/

/-- An arm of the processor loop is one of the pipeline. -/
theorem exists_write {a : Action} {p : Process} (h : s.process.step env.input a = some p) :
    ∃ t, s.write env a = some t ∧ t.channel = s.channel ∧ t.process = p := by
  rw [Pipeline.write, h]
  exact ⟨_, rfl, rfl, rfl⟩

/-- A flush that the database answers stores the backlog. -/
theorem exists_executed_flush (h : Stocked acceptable env s)
    (hne : s.process.processor.batch ≠ []) :
    ∃ p, s.process.flush env.input .executed 0 = some p ∧ p.processor.batch = [] ∧
      p.writer.retryQueue = [] ∧ held p = held s.process ∧
      ∀ t : Pipeline, t.channel = s.channel → t.process = p → Stocked acceptable env t := by
  obtain ⟨p, hp⟩ : ∃ p, s.process.flush env.input .executed 0 = some p := by
    apply exists_flush 0
    rw [BatchWriter.writeBatch_executed _ hne]
    exact fun event hevent => (h.backlog event hevent).1
  have hflushed := flushed_of_flush hne hp
  obtain ⟨rows, htable, hrows⟩ := hflushed.table
  have hbatch := hflushed.batch
  have hqueue : p.writer.retryQueue = [] := hflushed.queue
  have hheld : held p = held s.process := by
    have hlength := hrows.length_eq
    rw [inserted, allEvents, List.length_append] at hlength
    simp only [held, htable, hqueue, hbatch, List.length_append, List.length_nil]
    omega
  refine ⟨p, hp, hbatch, hqueue, hheld, ?_⟩
  rintro t hchannel rfl
  refine ⟨by simp [allEvents, hbatch, hqueue], ?_, by simp [hbatch], ?_⟩
  · rw [hchannel]
    exact h.channel
  · rw [hflushed.processor]
    exact h.chained

/-- A batch that fits one statement with the queue is written with it. -/
theorem exists_recover_flush (h : Stocked acceptable env s)
    (hne : s.process.processor.batch ≠ []) (hfits : (allEvents s.process).length ≤ maxRows) :
    ∃ a t, s.recover acceptable env a = some t ∧ Stocked acceptable env t ∧
      t.channel = s.channel ∧ t.process.processor.batch = [] ∧
      t.process.writer.retryQueue = [] ∧ held t.process = held s.process := by
  have hstorable : storableBacklog acceptable s.process = true := by
    rw [storableBacklog_eq_true]
    refine ⟨fun event hevent => (h.backlog event hevent).2, ?_⟩
    unfold maxBindParams maxRows at *
    omega
  obtain ⟨p, hp, hbatch, hqueue, hheld, hstocked⟩ := exists_executed_flush h hne
  -- a full batch goes through its own arm of the loop
  obtain ⟨a, t, ht, hchannel, hprocess⟩ : ∃ a t, s.recover acceptable env a = some t ∧
      t.channel = s.channel ∧ t.process = p := by
    by_cases hroom : s.process.processor.batch.length < batchLimit
    · have hstep : s.process.step env.input (.tick .executed 0) = some p := by
        simp [Process.step, hroom, hne, hp]
      obtain ⟨t, ht, hsame⟩ := exists_write hstep
      exact ⟨.tick .executed 0, t,
        by simpa [Pipeline.recover, Pipeline.step, answer, hstorable] using ht, hsame⟩
    · have hstep : s.process.step env.input (.flushFull .executed 0) = some p := by
        simp [Process.step, hroom, hp]
      obtain ⟨t, ht, hsame⟩ := exists_write hstep
      exact ⟨.flushFull .executed 0, t,
        by simpa [Pipeline.recover, Pipeline.step, answer, hstorable] using ht, hsame⟩
  refine ⟨a, t, ht, hstocked t hchannel hprocess, hchannel, ?_⟩
  rw [hprocess]
  exact ⟨hbatch, hqueue, hheld⟩

/-- The next event of the channel goes into the empty batch. -/
theorem exists_recover_receive (h : Stocked acceptable env s)
    (hbatch : s.process.processor.batch = []) {event : Value} {events : List Value}
    (hchannel : s.channel = event :: events) :
    ∃ t, s.recover acceptable env .receive = some t ∧ Stocked acceptable env t ∧
      t.channel = events ∧ t.process.processor.batch.length = 1 ∧
      t.process.writer.retryQueue = s.process.writer.retryQueue ∧
      held t.process = held s.process + 1 := by
  have hfit := h.channel event (by simp [hchannel])
  obtain ⟨p, hp⟩ : ∃ p, s.process.processor.receive event = some p := by
    rw [← Option.isSome_iff_exists, Processor.receive_isSome]
    exact Value.isAssignable_of_isObject hfit.readable.1
  obtain ⟨applied, happlied, hchain, hnext, -⟩ := Processor.receive_eq_some hp
  obtain ⟨before, hashed, hchained⟩ := h.chained
  rw [hbatch, List.nil_append] at hnext
  refine ⟨{ s with channel := events, process := { s.process with processor := p } }, ?_,
    ⟨?_, ?_, ?_, ?_⟩, rfl, by rw [hnext, List.length_singleton], rfl,
    by simp [held, hnext, hbatch]⟩
  · simp [Pipeline.recover, Pipeline.step, Process.step, hchannel, hbatch, batchLimit, hp]
  · intro e he
    rw [allEvents, hnext] at he
    rcases List.mem_append.mp he with he | he
    · exact h.backlog e (List.mem_append_left _ he)
    · rw [List.mem_singleton.mp he]
      exact hfit.hashed hchained happlied
  · intro e he
    exact h.channel e (by simp [hchannel, he])
  · simp [hnext, batchLimit]
  · refine ⟨before ++ [event], hashed ++ [applied.event], ?_⟩
    rw [HashChain.applyAll_append, hchained]
    simp [HashChain.applyAll, happlied, hchain]

/-- The next event of the channel takes the queue with it into the table. -/
theorem exists_recover_one (h : Stocked acceptable env s)
    (hbatch : s.process.processor.batch = []) {event : Value} {events : List Value}
    (hchannel : s.channel = event :: events)
    (hfits : s.process.writer.retryQueue.length + 1 ≤ maxRows) :
    ∃ a t, run (Pipeline.recover acceptable env) s [.receive, a] = some t ∧
      Stocked acceptable env t ∧ t.channel = events ∧ t.process.processor.batch = [] ∧
      t.process.writer.retryQueue = [] ∧ held t.process = held s.process + 1 := by
  obtain ⟨u, hu, hstocked, hrest, hone, hsame, hmore⟩ :=
    exists_recover_receive h hbatch hchannel
  obtain ⟨a, t, ht, hnext, hkeep, hempty, hwritten, hheld⟩ := exists_recover_flush hstocked
    (List.ne_nil_of_length_eq_add_one hone) (by simpa [allEvents, hsame, hone] using hfits)
  exact ⟨a, t, by simp [run_cons, hu, ht], hnext, hkeep.trans hrest, hempty, hwritten,
    hheld.trans hmore⟩

/-- With an empty batch, the channel is written one event at a time, the queue with the first. -/
theorem exists_drain (channel : List Value) (h : Stocked acceptable env s)
    (hchannel : s.channel = channel) (hbatch : s.process.processor.batch = [])
    (hready : s.process.writer.retryQueue = [] ∨
      channel ≠ [] ∧ s.process.writer.retryQueue.length + 1 ≤ maxRows) :
    ∃ more t, run (Pipeline.recover acceptable env) s more = some t ∧ Drained s t := by
  induction channel generalizing s with
  | nil =>
    have hqueue := hready.resolve_right fun hwaits => hwaits.1 rfl
    exact ⟨[], s, rfl, hchannel, hbatch, hqueue, by simp [held, hchannel, hbatch, hqueue]⟩
  | cons event events ih =>
    have hfits : s.process.writer.retryQueue.length + 1 ≤ maxRows := by
      rcases hready with hqueue | ⟨-, hroom⟩
      · simp [hqueue, maxRows]
      · exact hroom
    obtain ⟨a, u, hu, hstocked, hrest, hempty, hwritten, hheld⟩ :=
      exists_recover_one h hbatch hchannel hfits
    obtain ⟨more, t, ht, hdrained⟩ := ih hstocked hrest hempty (.inl hwritten)
    refine ⟨[.receive, a] ++ more, t, ?_, hdrained.channel, hdrained.batch, hdrained.queue, ?_⟩
    · rw [run_append, hu]
      exact ht
    · rw [hdrained.rows, hheld, hrest, hchannel, List.length_cons]
      omega

/-- A batch that fits goes first, then the channel. -/
theorem exists_drain_batch (h : Stocked acceptable env s)
    (hne : s.process.processor.batch ≠ []) (hfits : (allEvents s.process).length ≤ maxRows) :
    ∃ more t, run (Pipeline.recover acceptable env) s more = some t ∧ Drained s t := by
  obtain ⟨a, u, hu, hstocked, hrest, hempty, hwritten, hheld⟩ := exists_recover_flush h hne hfits
  obtain ⟨more, t, ht, hdrained⟩ := exists_drain u.channel hstocked rfl hempty (.inl hwritten)
  refine ⟨a :: more, t, by simp [run_cons, hu, ht], hdrained.channel, hdrained.batch,
    hdrained.queue, ?_⟩
  rw [hdrained.rows, hheld, hrest]

/-! ## What it cannot do -/

/-- The queue has nothing to wait for, or is too long for one statement with the next batch. -/
structure Stuck (s : Pipeline) : Prop where
  queued : s.process.writer.retryQueue ≠ []
  stays : (s.channel = [] ∧ s.process.processor.batch = []) ∨
    maxRows < s.process.writer.retryQueue.length + max s.process.processor.batch.length 1

/-- The whole queue comes with the batch into a statement that is too long, and back. -/
theorem Stuck.loop (h : Stuck s) {a : Action} {p : Process} {db : DbOutcome}
    (hdb : db = answer acceptable s.process) (hsame : a.db = some db)
    (hstep : s.process.step env.input a = some p) :
    Stuck { s with process := p } := by
  rcases Process.step_cases hstep with ⟨event, _, rfl, -⟩ | ⟨db', gap, ha, -, hne, hflush⟩ |
    ⟨-, rfl⟩
  · cases hsame
  · have hlong := h.stays.resolve_left fun hidle => hne hidle.2
    have hpos := List.length_pos_iff.mpr hne
    have hunstorable : storableBacklog acceptable s.process = false := by
      rw [← Bool.not_eq_true, storableBacklog_eq_true]
      rintro ⟨-, hfits⟩
      rw [allEvents, List.length_append] at hfits
      unfold maxBindParams maxRows at *
      omega
    obtain rfl := Option.some.inj (hsame.symm.trans ha)
    have hfailed : db = .executeFailed := by simpa [answer, hunstorable] using hdb
    subst hfailed
    have hlength : maxRows < p.writer.retryQueue.length := by
      rw [(flushed_of_flush hne hflush).queue, requeued, length_rtake, allEvents,
        List.length_append]
      unfold maxRows maxRetry at *
      omega
    exact ⟨List.ne_nil_of_length_pos (Nat.zero_lt_of_lt hlength),
      .inr (Nat.lt_add_right _ hlength)⟩
  · exact h

/-- What one arm preserves. -/
theorem Stuck.step (h : Stuck s) {a : PipelineAction} (ha : s.recover acceptable env a = some t) :
    Stuck t := by
  cases a with
  | receive =>
    have hstep : s.step env .receive = some t := ha
    cases Pipeline.step_cases hstep with
    | @receive event events p hchannel hreceive =>
      have hlong := h.stays.resolve_left fun hidle => by simp [hidle.1] at hchannel
      rcases Process.step_cases hreceive with ⟨_, processor, -, hprocessor, rfl⟩ |
        ⟨_, _, -, hnone, -⟩ | ⟨hnone, -⟩
      · obtain ⟨_, -, -, hbatch, -⟩ := Processor.receive_eq_some hprocessor
        refine ⟨h.queued, .inr ?_⟩
        simp only [hbatch, List.length_append, List.length_singleton]
        omega
      · cases hnone
      · cases hnone
  | flushFull db gap | tick db gap =>
    simp only [Pipeline.recover] at ha
    split_ifs at ha with hdb
    obtain ⟨p, hp, rfl⟩ := Option.map_eq_some_iff.mp ha
    have hnext := h.loop hdb rfl hp
    exact ⟨hnext.queued, hnext.stays⟩
  | _ => cases ha

/-- A queue that is stuck stays in memory. -/
theorem Stuck.not_drained (h : Stuck s) {more : List PipelineAction}
    (hrun : run (Pipeline.recover acceptable env) s more = some t) : ¬ Drained s t := by
  have hstuck : Stuck t := run_invariant (Pipeline.recover acceptable env) (C := fun _ => True)
    (fun _ _ _ hu _ hstep => hu.step hstep) h hrun fun _ _ => trivial
  exact fun hdrained => hstuck.queued hdrained.queue

/-- After any run on events that can be stored, the loop can bring every event in the channel, the
batch and the queue into the table of a working database exactly when the queue is empty, or when
an event waits behind it and the queue fits one statement with the next batch. -/
theorem backlog_recovers_iff (acceptable : BoundRow → Bool) (env : Environment)
    (actions : List PipelineAction) (s : Pipeline)
    (hrun : run (Pipeline.step env) Pipeline.new actions = some s)
    (hfit : ∀ event ∈ sentIn env actions, Fit acceptable env.input event) :
    (∃ more t, run (Pipeline.recover acceptable env) s more = some t ∧ Drained s t) ↔
      s.process.writer.retryQueue = [] ∨
        (s.channel ≠ [] ∨ s.process.processor.batch ≠ []) ∧
          s.process.writer.retryQueue.length + max s.process.processor.batch.length 1 ≤
            maxRows := by
  have h := stocked_of_run hrun hfit
  constructor
  · rintro ⟨more, t, ht, hdrained⟩
    by_contra hnot
    push Not at hnot
    refine Stuck.not_drained ⟨hnot.1, ?_⟩ ht hdrained
    by_cases hidle : s.channel ≠ [] ∨ s.process.processor.batch ≠ []
    · exact .inr (hnot.2 hidle)
    · exact .inl (by simpa using hidle)
  · intro hready
    by_cases hbatch : s.process.processor.batch = []
    · exact exists_drain s.channel h rfl hbatch (by simpa [hbatch] using hready)
    · refine exists_drain_batch h hbatch ?_
      have hlimit := h.batch
      rw [allEvents, List.length_append]
      rcases hready with hqueue | ⟨-, hroom⟩
      · rw [hqueue, List.length_nil]
        unfold batchLimit maxRows at *
        omega
      · omega

def queuedBehindChannel : List PipelineAction :=
  [.datagram millisDatagram, .receive, .tick .getFailed 0, .datagram millisDatagram]

theorem backlog_recovers_iff_queued :
    ∃ s, run (Pipeline.step millisEnvironment) Pipeline.new queuedBehindChannel = some s ∧
      s.process.writer.retryQueue ≠ [] ∧
      ((∃ more t, run (Pipeline.recover plainInputs.accepts millisEnvironment) s more = some t ∧
        Drained s t) ↔
        s.process.writer.retryQueue = [] ∨
          (s.channel ≠ [] ∨ s.process.processor.batch ≠ []) ∧
            s.process.writer.retryQueue.length + max s.process.processor.batch.length 1 ≤
              maxRows) := by
  have hend : (run (Pipeline.step millisEnvironment) Pipeline.new queuedBehindChannel).any
      (fun s => s.process.writer.retryQueue.length == 1) = true := by decide +kernel
  obtain ⟨s, hs, hqueue⟩ := (Option.any_eq_true _ _).mp hend
  have hstorable : Storable plainInputs millisEvent :=
    (storable_iff plainInputs rfl).mpr (by decide +kernel)
  refine ⟨s, hs, List.ne_nil_of_length_eq_add_one (beq_iff_eq.mp hqueue),
    backlog_recovers_iff plainInputs.accepts millisEnvironment queuedBehindChannel s hs ?_⟩
  intro event hevent
  obtain ⟨a, ha, u, hsends⟩ := exists_of_mem_outputs _ _ hevent
  obtain rfl : event = millisEvent := by
    rcases a with bytes | _ | _ | _ | _ | _ | _ | _ <;>
      simp [queuedBehindChannel, Pipeline.sends, millisEnvironment] at ha hsends
    exact hsends.2.symm
  exact ⟨millisEvent_readable, hstorable⟩

end VibeAudit.Delivery
