import VibeAudit.Delivery.Order
import VibeAudit.Delivery.Pipeline

/-!
# The pipeline is the process behind a channel

The listener, the capture and the channel only decide which events the processor
loop is given, and in which order: every run of the pipeline is a run of the
process alone, on the events sent less those still in the channel. What holds of
every run of the process holds of its runs in the pipeline, and its memory is
bounded however fast events come in.
-/

namespace VibeAudit.Delivery

open Foundation Json Extension Forwarder

def Pipeline.loopStep (s : Pipeline) : PipelineAction → List Action
  | .receive => (s.channel.take 1).map .receive
  | .flushFull db gap => [.flushFull db gap]
  | .tick db gap => [.tick db gap]
  | _ => []

/-- The events that a step hands to the channel. -/
def Pipeline.sends (env : Environment) (s : Pipeline) : PipelineAction → List Value
  | .datagram bytes => (env.fromSlice bytes).toList
  | .capture registry now => (s.fetched.take 1).flatMap fun row =>
      (parseTestDecoding env.fromStr registry now row.data row.xid row.lsn).getD []
  | _ => []

def loopOf (env : Environment) (actions : List PipelineAction) : List Action :=
  outputs (Pipeline.step env) Pipeline.loopStep Pipeline.new actions

def sentIn (env : Environment) (actions : List PipelineAction) : List Value :=
  outputs (Pipeline.step env) (Pipeline.sends env) Pipeline.new actions

variable {env : Environment} {s t : Pipeline}

theorem run_singleton {σ α : Type*} (step : σ → α → Option σ) (s : σ) (a : α) :
    run step s [a] = step s a := by
  cases h : step s a <;> simp [run_cons, h]

/-- A step of the pipeline is what the process does with its part of it. -/
theorem process_of_step {a : PipelineAction} (h : s.step env a = some t) :
    run (Process.step env.input) s.process (s.loopStep a) = some t.process := by
  cases Pipeline.step_cases h with
  | receive hchannel hreceive =>
    rw [Pipeline.loopStep, hchannel]
    exact (run_singleton _ _ _).trans hreceive
  | flushFull hwrite =>
    obtain ⟨p, hp, rfl⟩ := Option.map_eq_some_iff.mp hwrite
    exact (run_singleton _ _ _).trans hp
  | tick hwrite =>
    obtain ⟨p, hp, rfl⟩ := Option.map_eq_some_iff.mp hwrite
    exact (run_singleton _ _ _).trans hp
  | _ => rfl

/-- What is sent is received in turn, and waits in the channel until then. -/
theorem channel_of_step {a : PipelineAction} (h : s.step env a = some t) :
    s.channel ++ s.sends env a = received (s.loopStep a) ++ t.channel := by
  cases Pipeline.step_cases h with
  | unread hread => simp [Pipeline.sends, Pipeline.loopStep, received, hread]
  | datagram hread => simp [Pipeline.sends, Pipeline.loopStep, received, hread]
  | external hown => simp [Pipeline.sends, Pipeline.loopStep, received]
  | rewind hfetched => simp [Pipeline.sends, Pipeline.loopStep, received]
  | poll hfetched => simp [Pipeline.sends, Pipeline.loopStep, received]
  | capture hfetched => simp [Pipeline.sends, Pipeline.loopStep, received, hfetched]
  | receive hchannel hreceive => simp [Pipeline.sends, Pipeline.loopStep, received, hchannel]
  | flushFull hwrite =>
    obtain ⟨p, hp, rfl⟩ := Option.map_eq_some_iff.mp hwrite
    simp [Pipeline.sends, Pipeline.loopStep, received]
  | tick hwrite =>
    obtain ⟨p, hp, rfl⟩ := Option.map_eq_some_iff.mp hwrite
    simp [Pipeline.sends, Pipeline.loopStep, received]

/-- Nothing in memory grows beyond its bound. -/
structure Bounded (s : Pipeline) : Prop where
  channel : s.channel.length ≤ channelCapacity
  batch : s.process.processor.batch.length ≤ batchLimit
  queue : s.process.writer.retryQueue.length ≤ maxRetry

theorem retryQueue_length_le {p q : Process} {a : Action}
    (hp : p.writer.retryQueue.length ≤ maxRetry) (h : p.step env.input a = some q) :
    q.writer.retryQueue.length ≤ maxRetry := by
  rcases Process.step_cases h with ⟨event, processor, -, -, rfl⟩ |
    ⟨db, gap, -, -, -, hflush⟩ | ⟨-, rfl⟩
  · exact hp
  · rw [(Process.flush_spec hflush).2.1]
    exact BatchWriter.retryQueue_writeBatch_length_le _ hp _ _
  · exact hp

/-- Whoever sends waits until there is room. -/
theorem channel_length_of_send {events : List Value} (h : s.send events = some t) :
    t.channel.length ≤ channelCapacity := by
  simp only [Pipeline.send] at h
  split_ifs at h with hroom
  obtain rfl := Option.some.inj h
  simpa using hroom

/-- No step overfills the channel. -/
theorem channel_length_of_step {a : PipelineAction} (hs : s.channel.length ≤ channelCapacity)
    (h : s.step env a = some t) : t.channel.length ≤ channelCapacity := by
  cases a with
  | datagram bytes =>
    simp only [Pipeline.step] at h
    split at h
    · exact channel_length_of_send h
    · obtain rfl := Option.some.inj h
      exact hs
  | capture registry now =>
    simp only [Pipeline.step] at h
    split at h
    · cases h
    · exact channel_length_of_send h
  | external row =>
    cases Pipeline.step_cases h
    exact hs
  | rewind n =>
    cases Pipeline.step_cases h
    exact hs
  | poll n =>
    cases Pipeline.step_cases h
    exact hs
  | receive =>
    cases Pipeline.step_cases h with
    | receive hchannel hreceive =>
      rw [hchannel] at hs
      exact (Nat.le_succ _).trans hs
  | flushFull db gap =>
    obtain ⟨p, hp, rfl⟩ := Option.map_eq_some_iff.mp h
    exact hs
  | tick db gap =>
    obtain ⟨p, hp, rfl⟩ := Option.map_eq_some_iff.mp h
    exact hs

/-- A bound of the process is one of its runs. -/
theorem bounded_of_run {loop : List Action} {p q : Process}
    (hrun : run (Process.step env.input) p loop = some q)
    (hbatch : p.processor.batch.length ≤ batchLimit)
    (hqueue : p.writer.retryQueue.length ≤ maxRetry) :
    q.processor.batch.length ≤ batchLimit ∧ q.writer.retryQueue.length ≤ maxRetry :=
  run_invariant (Process.step env.input)
    (I := fun p => p.processor.batch.length ≤ batchLimit ∧ p.writer.retryQueue.length ≤ maxRetry)
    (C := fun _ => True)
    (fun _ _ _ hp _ hstep => ⟨batch_length_le hp.1 hstep, retryQueue_length_le hp.2 hstep⟩)
    ⟨hbatch, hqueue⟩ hrun fun _ _ => trivial

/-- What was sent in a run has been received in turn, or is in the channel. -/
theorem sentIn_eq {actions : List PipelineAction}
    (hrun : run (Pipeline.step env) Pipeline.new actions = some s) :
    sentIn env actions = received (loopOf env actions) ++ s.channel := by
  refine run_induction (Pipeline.step env)
    (I := fun as u => sentIn env as = received (loopOf env as) ++ u.channel)
    (C := fun _ _ _ => True) rfl ?_ hrun (fun _ _ _ _ _ _ => trivial)
  intro as u a t hu hall _ hstep
  rw [sentIn, loopOf, outputs_snoc _ _ hu hstep, outputs_snoc _ _ hu hstep, received_append,
    List.append_assoc, ← channel_of_step hstep, ← List.append_assoc]
  exact congrArg (· ++ u.sends env a) hall

/-- In every run, the process of the pipeline has done what it does alone on the events sent to it,
in the order in which they were sent; those not yet received are in the channel; and no part of
the pipeline holds more than its bound. -/
theorem pipeline_refines_process (env : Environment) (actions : List PipelineAction)
    (s : Pipeline) (hrun : run (Pipeline.step env) Pipeline.new actions = some s) :
    run (Process.step env.input) Process.new (loopOf env actions) = some s.process ∧
      sentIn env actions = received (loopOf env actions) ++ s.channel ∧ Bounded s := by
  have hprocess : run (Process.step env.input) Process.new (loopOf env actions) = some s.process :=
    run_refines (Pipeline.step env) Pipeline.process Pipeline.loopStep
      (fun _ _ _ hstep => process_of_step hstep) hrun
  have hchannel : s.channel.length ≤ channelCapacity :=
    run_invariant (Pipeline.step env) (I := fun u => u.channel.length ≤ channelCapacity)
      (C := fun _ => True) (fun _ _ _ hu _ hstep => channel_length_of_step hu hstep)
      (Nat.zero_le _) hrun fun _ _ => trivial
  obtain ⟨hbatch, hqueue⟩ := bounded_of_run hprocess (Nat.zero_le _) (Nat.zero_le _)
  exact ⟨hprocess, sentIn_eq hrun, hchannel, hbatch, hqueue⟩

theorem pipeline_refines_process_user :
    ∃ s, run (Pipeline.step millisEnvironment) Pipeline.new userActions = some s ∧
      s.process.table.rows.length = 1 ∧
      run (Process.step millisEnvironment.input) Process.new
        (loopOf millisEnvironment userActions) = some s.process ∧
      sentIn millisEnvironment userActions =
        received (loopOf millisEnvironment userActions) ++ s.channel ∧ Bounded s := by
  have hend : (run (Pipeline.step millisEnvironment) Pipeline.new userActions).any
      (fun s => s.process.table.rows.length == 1) = true := by decide +kernel
  obtain ⟨s, hs, hrows⟩ := (Option.any_eq_true _ _).mp hend
  exact ⟨s, hs, by simpa using hrows,
    pipeline_refines_process millisEnvironment userActions s hs⟩

end VibeAudit.Delivery
