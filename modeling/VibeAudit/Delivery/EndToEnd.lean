import VibeAudit.Delivery.Capture
import VibeAudit.Delivery.Refinement
import VibeAudit.Hooks.Columns
import VibeAudit.Hooks.Trace

/-!
# From the hooks to `verify_chain`

The whole path: what a server's hooks hand over, and what is captured from the
slot, goes through the channel and the processor into the table. Whatever comes
from these two sources keeps the form in which the database gives it back, so
the table verifies at any time, and it is a front of what was sent.
-/

namespace VibeAudit.Delivery

open Foundation Json Extension Forwarder Chain Hooks

/-- The session reads ISO 8601 as such. -/
def ReadsIso (input : TimestamptzInput) : Prop :=
  ∀ text time, readIso text = some time → input.read text = some time

/-- The datagram was handed over by the hooks of some server, for something that could be printed
as it is, before the year 10000. -/
inductive FromHooks (datagram : List UInt8) : Prop where
  | mk {σ : Type} (b : Backend σ) (e : Ended σ) (legible : Legible b e)
    (clock : (b.now (finish e)).sec < 253402300800) (handed : b.event e = some datagram)

variable {env : Environment} {input : TimestamptzInput}

/-- An event with a type and a time that the clock has printed is stored as it is. -/
theorem canonical_of_isoMillis (hinput : ReadsIso input) {event : Value} {type : String}
    (htype : event.get? "event_type" = some (.string type)) {tv : Timeval}
    (hclock : tv.sec < 253402300800)
    (htime : event.get? "event_time" = some (.string (isoMillis tv))) : Canonical input event := by
  refine ⟨⟨type, Value.index_eq_of_get? htype⟩, _, _, Value.index_eq_of_get? htime,
    hinput _ _ (readIso_isoMillis_eq hclock), toChar_isoMillis hclock⟩

theorem canonical_of_tells (hinput : ReadsIso input) {σ : Type} {b : Backend σ} {e : Ended σ}
    {event : Value} (h : Hooks.Tells b e event) (hclock : (b.now (finish e)).sec < 253402300800) :
    event.isObject = true ∧ Canonical input event := by
  cases h with
  | authentication _ genuine stamped =>
    refine ⟨stamped.isObject, canonical_of_isoMillis hinput genuine.eventType hclock ?_⟩
    rw [← timeText_eq hclock]
    exact stamped.time
  | statement _ genuine _ _ stamped =>
    refine ⟨stamped.isObject, canonical_of_isoMillis hinput genuine.eventType hclock ?_⟩
    rw [← timeText_eq hclock]
    exact stamped.time

/-- The events of the hooks. -/
theorem canonical_of_fromHooks {number : List Char → Option Number}
    (hreads : ReadsJson number env.fromSlice) (hinput : ReadsIso input) {datagram : List UInt8}
    (h : FromHooks datagram) {event : Value} (hread : env.fromSlice datagram = some event) :
    event.isObject = true ∧ Canonical input event := by
  obtain ⟨b, e, hlegible, hclock, hhanded⟩ := h
  have haudits : audits b e = true := by
    by_contra hnot
    rw [event_of_not_audits (by simpa using hnot)] at hhanded
    cases hhanded
  obtain ⟨datagram', event', hevent, hread', htells⟩ := tells_of_legible hreads hlegible haudits
  obtain rfl := Option.some.inj (hhanded.symm.trans hevent)
  obtain rfl := Option.some.inj (hread.symm.trans hread')
  exact canonical_of_tells hinput htells hclock

/-- The events of the capture. -/
theorem canonical_of_capture (hinput : ReadsIso input) {r : ReadRow} {tv : Timeval}
    (hclock : tv.sec < 253402300800) (hnow : r.now = isoMillis tv) {event : Value}
    (h : event ∈ r.events env.fromStr) : event.isObject = true ∧ Canonical input event := by
  obtain ⟨line, docs, hdocs, hevent⟩ := ReadRow.exists_of_mem_events env.fromStr h
  obtain ⟨event', hevent', hobject, htype, htime⟩ := exists_changeEvent env.fromStr r.registry
    r.now r.row.xid r.row.lsn line (by rw [hdocs]; rfl)
  obtain rfl := Option.some.inj (hevent.symm.trans hevent')
  exact ⟨hobject, canonical_of_isoMillis hinput htype hclock (hnow ▸ htime)⟩

/-- A datagram comes from the hooks, and a row is read under a clock before the year 10000. -/
def FromSources : PipelineAction → Prop
  | .datagram bytes => FromHooks bytes
  | .capture _ now => ∃ tv : Timeval, tv.sec < 253402300800 ∧ now = isoMillis tv
  | _ => True

/-- All that is sent is stored as it is. -/
theorem canonical_of_mem_sentIn {number : List Char → Option Number}
    (hreads : ReadsJson number env.fromSlice) (hinput : ReadsIso input)
    {actions : List PipelineAction} (hsources : ∀ a ∈ actions, FromSources a) {event : Value}
    (h : event ∈ sentIn env actions) : event.isObject = true ∧ Canonical input event := by
  obtain ⟨a, ha, s, hsent⟩ := exists_of_mem_outputs _ _ h
  have hsource := hsources a ha
  cases a with
  | datagram bytes =>
    exact canonical_of_fromHooks hreads hinput hsource (Option.mem_toList.mp hsent)
  | capture registry now =>
    obtain ⟨row, -, hrow⟩ := List.mem_flatMap.mp hsent
    obtain ⟨tv, hclock, hnow⟩ := hsource
    exact canonical_of_capture (r := ⟨row, registry, now⟩) hinput hclock hnow hrow
  | _ => cases hsent

/-- A step of the pipeline that keeps the backlog within the cap is what the process does. -/
theorem boundedProcess_of_step {s t : Pipeline} {a : PipelineAction} (h : s.step env a = some t)
    (hbacklog : t.process.backlog ≤ maxRetry) :
    run (Process.boundedStep env.input) s.process (s.loopStep a) = some t.process := by
  have hprocess := process_of_step h
  have hloop : s.loopStep a = [] ∨ ∃ b, s.loopStep a = [b] := by
    cases a <;> simp [Pipeline.loopStep]
    cases s.channel <;> simp
  rcases hloop with hnone | ⟨b, hone⟩
  · rw [hnone] at hprocess ⊢
    exact hprocess
  · rw [hone, run_singleton] at hprocess ⊢
    exact Process.boundedStep_eq_some.mpr ⟨hprocess, hbacklog⟩

/-- The same of a run. -/
theorem boundedProcess_of_run {actions : List PipelineAction} {s : Pipeline}
    (hrun : run (Pipeline.step env) Pipeline.new actions = some s)
    (hbacklog : ∀ pre post u, actions = pre ++ post →
      run (Pipeline.step env) Pipeline.new pre = some u → u.process.backlog ≤ maxRetry) :
    run (Process.boundedStep env.input) Process.new (loopOf env actions) = some s.process := by
  refine run_induction (Pipeline.step env)
    (I := fun as u => run (Process.boundedStep env.input) Process.new (loopOf env as) =
      some u.process)
    (C := fun _ u a => ∀ t, u.step env a = some t → t.process.backlog ≤ maxRetry) rfl ?_ hrun ?_
  · intro as u a t hu hloop hnext hstep
    rw [loopOf, outputs_snoc _ _ hu hstep, run_append]
    rw [loopOf] at hloop
    rw [hloop]
    exact boundedProcess_of_step hstep (hnext t hstep)
  · rintro pre a post u rfl hu t ht
    exact hbacklog (pre ++ [a]) post t (by simp)
      ((run_snoc_eq_some (Pipeline.step env)).mpr ⟨u, hu, ht⟩)

def PipelineAction.db : PipelineAction → Option DbOutcome
  | .flushFull db _ | .tick db _ => some db
  | _ => none

theorem db_of_mem_loopOf {actions : List PipelineAction}
    (hdb : ∀ a ∈ actions, a.db ≠ some .getFailed ∧ a.db ≠ some .replyLost) :
    ∀ b ∈ loopOf env actions, b.db ≠ some .getFailed ∧ b.db ≠ some .replyLost := by
  intro b hb
  obtain ⟨a, ha, s, hout⟩ := exists_of_mem_outputs _ _ hb
  cases a with
  | receive =>
    obtain ⟨event, -, rfl⟩ := List.mem_map.mp hout
    exact ⟨nofun, nofun⟩
  | flushFull db gap =>
    obtain rfl := List.mem_singleton.mp hout
    exact hdb _ ha
  | tick db gap =>
    obtain rfl := List.mem_singleton.mp hout
    exact hdb _ ha
  | _ => cases hout

/-- In every run of the pipeline over what the hooks hand over and what is captured, as long as
connections are to be had, no reply to a committed INSERT is lost and the backlog is within the cap:
what was sent is the front in the table, the queue, the batch and the channel, in this order; and
`verify_chain` accepts the table at any time. -/
theorem audit_trail_verified {number : List Char → Option Number} (env : Environment)
    (hreads : ReadsJson number env.fromSlice) (hinput : ReadsIso env.input)
    (actions : List PipelineAction) (s : Pipeline)
    (hrun : run (Pipeline.step env) Pipeline.new actions = some s)
    (hsources : ∀ a ∈ actions, FromSources a)
    (hdb : ∀ a ∈ actions, a.db ≠ some .getFailed ∧ a.db ≠ some .replyLost)
    (hbacklog : ∀ pre post u, actions = pre ++ post →
      run (Pipeline.step env) Pipeline.new pre = some u → u.process.backlog ≤ maxRetry) :
    ∃ handled written, sentIn env actions = handled ++ s.channel ∧
      HashChain.new.applyAll handled = some (s.process.processor.chain,
        written ++ s.process.writer.retryQueue ++ s.process.processor.batch) ∧
      List.Forall₂ (StoredAs env.input) written (orderById s.process.table.rows) ∧
      verifyChain s.process.table.rows =
        { checkedCount := written.length, valid := true, firstBrokenId := none } := by
  have hsent := sentIn_eq hrun
  obtain ⟨written, h⟩ := Delivered.of_run (boundedProcess_of_run hrun hbacklog)
    (db_of_mem_loopOf hdb)
  have hrows := h.linked_rows fun event hevent =>
    canonical_of_mem_sentIn hreads hinput hsources (hsent ▸ List.mem_append_left _ hevent)
  have horder : orderById s.process.table.rows = s.process.table.rows :=
    orderById_eq_self (s.process.table.ids_lt.imp le_of_lt)
  refine ⟨_, written, hsent, h.chained, horder.symm ▸ h.stored, ?_⟩
  rw [← horder] at hrows
  rw [verifyChain_of_linked hrows, h.stored.length_eq]

/-- A step brings in at most one event. -/
theorem backlog_step_le {s t : Pipeline} {a : PipelineAction} (h : s.step env a = some t) :
    t.process.backlog ≤ s.process.backlog + 1 := by
  have hwrite : ∀ {a : Action} {p : Process}, s.process.step env.input a = some p →
      p.backlog ≤ s.process.backlog + 1 := by
    intro a p hp
    rcases Process.step_cases hp with ⟨event, q, -, hq, rfl⟩ | ⟨_, _, -, -, hne, hflush⟩ | ⟨-, rfl⟩
    · obtain ⟨_, -, -, hbatch, -⟩ := Processor.receive_eq_some hq
      simp [Process.backlog, hbatch]
      omega
    · rw [backlog_eq, backlog_eq, (flushed_of_flush hne hflush).allEvents]
      exact requeued_sublist.length_le.trans (Nat.le_succ _)
    · exact Nat.le_succ _
  cases Pipeline.step_cases h with
  | receive hchannel hreceive => exact hwrite hreceive
  | flushFull h =>
    obtain ⟨p, hp, rfl⟩ := Option.map_eq_some_iff.mp h
    exact hwrite hp
  | tick h =>
    obtain ⟨p, hp, rfl⟩ := Option.map_eq_some_iff.mp h
    exact hwrite hp
  | _ => exact Nat.le_succ _

/-- A run that is no longer than the cap of the queue keeps the backlog within it. -/
theorem backlog_of_short {actions : List PipelineAction} (hshort : actions.length ≤ maxRetry)
    (pre post : List PipelineAction) (u : Pipeline) (hsplit : actions = pre ++ post)
    (hu : run (Pipeline.step env) Pipeline.new pre = some u) : u.process.backlog ≤ maxRetry := by
  have hheld : u.process.backlog ≤ pre.length := by
    refine run_induction (Pipeline.step env) (I := fun as u => u.process.backlog ≤ as.length)
      (C := fun _ _ _ => True) (Nat.zero_le _) ?_ hu (fun _ _ _ _ _ _ => trivial)
    intro as s a t _ hs _ hstep
    rw [List.length_append, List.length_singleton]
    exact (backlog_step_le hstep).trans (Nat.add_le_add_right hs 1)
  have hlength : pre.length ≤ actions.length := by
    rw [hsplit, List.length_append]
    omega
  exact hheld.trans (hlength.trans hshort)

def hookEnvironment : Environment :=
  { millisEnvironment with
    fromSlice := fun bytes => (Utf8.decode bytes).bind (readText readInteger) }

theorem hookEnvironment_fromSlice (bytes : List UInt8) :
    hookEnvironment.fromSlice bytes = (Utf8.decode bytes).bind (readText readInteger) := rfl

def aliceEnded : Ended Nat := .authentication (aliceLogin.names.port aliceLogin.remotePort) true 0

def loginDatagram : List UInt8 := (tableBackend.event aliceEnded).getD []

def loginFields : List (String × Field) :=
  authFields newYear 4711 aliceLogin.application aliceLogin.names aliceLogin.remotePort true

theorem fromSlice_loginDatagram :
    hookEnvironment.fromSlice loginDatagram = some (document loginFields) := by
  have hprinted : loginDatagram = printEvent (loginFields.map fieldMember) := by
    decide +kernel
  have hplain : PlainNames (authNames aliceLogin.application aliceLogin.names) := by
    simp only [PlainNames, authNames, aliceLogin, List.forall_mem_cons, Option.getD_some]
    decide
  have hfields := says_authFields newYear 4711 aliceLogin.application aliceLogin.names
    aliceLogin.remotePort true
  have hread := fromSlice_of_closed readsJson_integers hfields hplain.closed
  rw [hprinted, hookEnvironment_fromSlice]
  exact hread

theorem step_datagram {s : Pipeline} {bytes : List UInt8} {event : Value}
    (hread : env.fromSlice bytes = some event) (hroom : s.channel.length < channelCapacity) :
    s.step env (.datagram bytes) = some { s with channel := s.channel ++ [event] } := by
  have hsum : s.channel.length + [event].length ≤ channelCapacity := hroom
  simp only [Pipeline.step, hread, Pipeline.send, if_pos hsum]

/-- A user logs in and a row is inserted; both events are written. -/
def hookActions : List PipelineAction :=
  .datagram loginDatagram :: [.external userRow, .poll 1,
    .capture emptyRegistry (isoMillis newYear), .receive, .receive, .tick .executed 0]

theorem fromSources_hookActions : ∀ a ∈ hookActions, FromSources a := by
  have hsome : (tableBackend.event aliceEnded).isSome = true := by decide +kernel
  obtain ⟨datagram, hdatagram⟩ := Option.isSome_iff_exists.mp hsome
  have hlogin : loginDatagram = datagram := by rw [loginDatagram, hdatagram]; rfl
  have hhooks : FromHooks loginDatagram := ⟨tableBackend, aliceEnded,
    legible_rolledBackTrail _ (by simp [rolledBackTrail, aliceEnded]), by decide,
    hlogin ▸ hdatagram⟩
  simp only [hookActions, List.forall_mem_cons, FromSources, true_and]
  exact ⟨hhooks, ⟨newYear, by decide, rfl⟩, by simp⟩

theorem audit_trail_verified_login :
    ∃ s, run (Pipeline.step hookEnvironment) Pipeline.new hookActions = some s ∧
      s.process.table.rows.length = 2 ∧
      ∃ handled written, sentIn hookEnvironment hookActions = handled ++ s.channel ∧
        HashChain.new.applyAll handled = some (s.process.processor.chain,
          written ++ s.process.writer.retryQueue ++ s.process.processor.batch) ∧
        List.Forall₂ (StoredAs hookEnvironment.input) written (orderById s.process.table.rows) ∧
        verifyChain s.process.table.rows =
          { checkedCount := written.length, valid := true, firstBrokenId := none } := by
  have hfirst := step_datagram (s := Pipeline.new) fromSlice_loginDatagram (by decide)
  have hrest : (run (Pipeline.step hookEnvironment) { Pipeline.new with
      channel := Pipeline.new.channel ++ [document loginFields] } hookActions.tail).any
      (fun s => s.process.table.rows.length == 2) = true := by decide +kernel
  obtain ⟨s, hs, hrows⟩ := (Option.any_eq_true _ _).mp hrest
  have hs : run (Pipeline.step hookEnvironment) Pipeline.new hookActions = some s := by
    rw [hookActions, run_cons, hfirst, Option.bind_some]
    exact hs
  have hdb : ∀ a ∈ hookActions, a.db ≠ some .getFailed ∧ a.db ≠ some .replyLost := by
    simp [hookActions, PipelineAction.db]
  exact ⟨s, hs, by simpa using hrows, audit_trail_verified hookEnvironment readsJson_integers
    (fun _ _ h => h) hookActions s hs fromSources_hookActions hdb
    (backlog_of_short (by decide))⟩

end VibeAudit.Delivery
