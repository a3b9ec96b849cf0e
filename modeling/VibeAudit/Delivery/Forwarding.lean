import VibeAudit.Chain.Agreement
import VibeAudit.Delivery.Capture
import VibeAudit.Delivery.Order
import VibeAudit.Forwarder.Gelf
import VibeAudit.Forwarder.Health

/-!
# What is forwarded to GELF

The processor loop and the heartbeat share one socket. Every chained event is
handed to it once, in order and before it can be stored, so the stream covers
the table whatever the database does. What the stream says depends on a few
members of the events alone: rows of audited tables never reach it.
-/

namespace VibeAudit.Delivery

open Foundation Json Extension Forwarder Chain

/-- A process and the messages handed to its socket so far. -/
structure Forwarding where
  process : Process
  messages : List Value

/-- The loop takes one of its arms, or the heartbeat ticks. -/
inductive ForwardingAction where
  | loop (a : Action)
  | heartbeat (now : String)

def loopActions : List ForwardingAction → List Action
  | [] => []
  | .loop a :: as => a :: loopActions as
  | .heartbeat _ :: as => loopActions as

theorem loopActions_append (as bs : List ForwardingAction) :
    loopActions (as ++ bs) = loopActions as ++ loopActions bs := by
  induction as with
  | nil => rfl
  | cons a as ih => cases a <;> simp [loopActions, ih]

namespace Forwarding

def new : Forwarding := { process := Process.new, messages := [] }

def step (g : GelfForwarder) (pid : UInt32) (input : TimestamptzInput) (s : Forwarding) :
    ForwardingAction → Option Forwarding
  | .loop (.receive event) => do
    let process ← s.process.step input (.receive event)
    let applied ← s.process.processor.chain.apply event
    let message ← g.toGelf applied.event
    return { process := process, messages := s.messages ++ [message] }
  | .loop a => (s.process.step input a).map fun process => { s with process := process }
  | .heartbeat now =>
    (g.toGelf (heartbeatEvent now pid s.process.processor.health)).map fun message =>
      { s with messages := s.messages ++ [message] }

end Forwarding

/-- The message is about a chained event. -/
def isReport (message : Value) : Bool := (message.index "_event_hash").asStr.isSome

variable {g : GelfForwarder} {pid : UInt32} {input : TimestamptzInput} {s t : Forwarding}

theorem isReport_of_toGelf {event message : Value} (h : g.toGelf event = some message) :
    isReport message = (storedHash event).isSome := by
  rw [isReport, (GelfForwarder.message_of_toGelf h).eventHash]
  rfl

/-- Everything a step can do. -/
theorem Forwarding.step_cases {a : ForwardingAction} (h : s.step g pid input a = some t) :
    (∃ event applied message, a = .loop (.receive event) ∧
      s.process.step input (.receive event) = some t.process ∧
      s.process.processor.chain.apply event = some applied ∧
      g.toGelf applied.event = some message ∧ t.messages = s.messages ++ [message]) ∨
    (∃ b, a = .loop b ∧ received [b] = [] ∧ s.process.step input b = some t.process ∧
      t.messages = s.messages) ∨
    (∃ now message, a = .heartbeat now ∧ t.process = s.process ∧
      g.toGelf (heartbeatEvent now pid s.process.processor.health) = some message ∧
      t.messages = s.messages ++ [message]) := by
  cases a with
  | loop b =>
    cases b with
    | receive event =>
      simp only [step, Option.bind_eq_bind, Option.bind_eq_some_iff, Option.pure_def,
        Option.some.injEq] at h
      obtain ⟨process, hprocess, applied, happlied, message, hmessage, rfl⟩ := h
      exact .inl ⟨event, applied, message, rfl, hprocess, happlied, hmessage, rfl⟩
    | flushFull db gap =>
      obtain ⟨process, hprocess, rfl⟩ := Option.map_eq_some_iff.mp h
      exact .inr (.inl ⟨_, rfl, rfl, hprocess, rfl⟩)
    | tick db gap =>
      obtain ⟨process, hprocess, rfl⟩ := Option.map_eq_some_iff.mp h
      exact .inr (.inl ⟨_, rfl, rfl, hprocess, rfl⟩)
  | heartbeat now =>
    simp only [step, Option.map_eq_some_iff] at h
    obtain ⟨message, hmessage, rfl⟩ := h
    exact .inr (.inr ⟨now, message, rfl, rfl, hmessage, rfl⟩)

/-! ## The stream and the table -/

/-- The one message that all heartbeats of a process send: the counters of a heartbeat are in its
detail, and no message carries a detail. -/
def heartbeatMessage (g : GelfForwarder) (pid : UInt32) : Option Value :=
  g.toGelf (heartbeatEvent "" pid HealthData.new)

theorem toGelf_heartbeatEvent (now : String) (data : HealthData) :
    g.toGelf (heartbeatEvent now pid data) = heartbeatMessage g pid := by
  apply GelfForwarder.toGelf_congr
  simp [GelfForwarder.gelfMembers, AgreeOn, heartbeatEvent, Value.index, Value.get?_obj,
    SortedMap.get?_cons]

/-- The reports among the messages are the messages of the processed events, in order, and every
other message is a heartbeat. -/
structure Reported (g : GelfForwarder) (pid : UInt32) (processed messages : List Value) :
    Prop where
  reports : (messages.filter isReport).map some = processed.map g.toGelf
  heartbeats : ∀ m ∈ messages, isReport m = false → heartbeatMessage g pid = some m

/-- A message about a processed event is the next report. -/
theorem Reported.report {processed messages : List Value} (h : Reported g pid processed messages)
    {c : HashChain} {event message : Value} {applied : Applied}
    (happly : c.apply event = some applied) (hmessage : g.toGelf applied.event = some message) :
    Reported g pid (processed ++ [applied.event]) (messages ++ [message]) := by
  have hreport : isReport message = true := by
    rw [isReport_of_toGelf hmessage, (HashChain.apply_spec happly).storedHash_eq]
    rfl
  refine ⟨?_, fun m hm hnot => ?_⟩
  · simp [hreport, h.reports, hmessage]
  · rcases List.mem_append.mp hm with hm | hm
    · exact h.heartbeats m hm hnot
    · grind

/-- A heartbeat is none. -/
theorem Reported.heartbeat {processed messages : List Value}
    (h : Reported g pid processed messages) {now : String} {data : HealthData} {message : Value}
    (hmessage : g.toGelf (heartbeatEvent now pid data) = some message) :
    Reported g pid processed (messages ++ [message]) := by
  have hreport : isReport message = false := by
    rw [isReport_of_toGelf hmessage, storedHash, heartbeatEvent_eventHash]
    rfl
  rw [toGelf_heartbeatEvent] at hmessage
  refine ⟨?_, fun m hm hnot => ?_⟩
  · simp [hreport, h.reports]
  · rcases List.mem_append.mp hm with hm | hm
    · exact h.heartbeats m hm hnot
    · grind

/-- What one step preserves. -/
theorem Reported.step {as : List ForwardingAction} {processed written : List Value}
    (hreported : Reported g pid processed s.messages)
    (hdrawn : DrawnFrom input (received (loopActions as)) s.process processed written)
    {a : ForwardingAction} (ha : s.step g pid input a = some t) :
    ∃ processed' written', Reported g pid processed' t.messages ∧
      DrawnFrom input (received (loopActions (as ++ [a]))) t.process processed' written' := by
  rw [loopActions_append, received_append]
  rcases Forwarding.step_cases ha with ⟨event, applied, message, rfl, hstep, happly, hgelf, hm⟩ |
    ⟨b, rfl, hnone, hstep, hm⟩ | ⟨now, message, rfl, hprocess, hgelf, hm⟩
  · rcases Process.step_cases hstep with ⟨e, p, he, hp, hprocess⟩ | ⟨_, _, -, hnone, -⟩ | ⟨hnone, -⟩
    · obtain rfl := Action.receive.inj he
      obtain ⟨applied', happly', hnext⟩ := hdrawn.receive hp
      obtain rfl := Option.some.inj (happly.symm.trans happly')
      refine ⟨_, written, ?_, hprocess ▸ hnext⟩
      rw [hm]
      exact hreported.report happly hgelf
    · cases hnone
    · cases hnone
  · obtain ⟨processed', written', hnext⟩ := hdrawn.step hstep
    have hsame : processed = processed' := by
      have hboth := hdrawn.chained.symm.trans (by simpa [hnone] using hnext.chained)
      exact (Prod.mk.inj (Option.some.inj hboth)).2
    refine ⟨processed', written', ?_, hnext⟩
    rw [hm, ← hsame]
    exact hreported
  · refine ⟨processed, written, ?_, ?_⟩
    · rw [hm]
      exact hreported.heartbeat hgelf
    · simpa [loopActions, received, hprocess] using hdrawn

/-- What every run preserves. -/
theorem Reported.of_run {actions : List ForwardingAction}
    (hrun : run (Forwarding.step g pid input) Forwarding.new actions = some s) :
    ∃ processed written, Reported g pid processed s.messages ∧
      DrawnFrom input (received (loopActions actions)) s.process processed written := by
  refine run_induction (Forwarding.step g pid input)
    (I := fun as s => ∃ processed written, Reported g pid processed s.messages ∧
      DrawnFrom input (received (loopActions as)) s.process processed written)
    (C := fun _ _ _ => True) ⟨[], [], ⟨rfl, by simp [Forwarding.new]⟩, DrawnFrom.new⟩ ?_ hrun
    (fun _ _ _ _ _ _ => trivial)
  rintro as u a t - ⟨processed, written, hreported, hdrawn⟩ - hstep
  exact hreported.step hdrawn hstep

/-- In every run, whatever the database does, the stream holds exactly one report for every
processed event, in order; every stored row has its report; and all other messages are one and
the same heartbeat, which tells nothing of the counters. -/
theorem stream_reports_every_event (g : GelfForwarder) (pid : UInt32) (input : TimestamptzInput)
    (actions : List ForwardingAction) (s : Forwarding)
    (hrun : run (Forwarding.step g pid input) Forwarding.new actions = some s) :
    ∃ processed, HashChain.new.applyAll (received (loopActions actions)) =
        some (s.process.processor.chain, processed) ∧
      (s.messages.filter isReport).map some = processed.map g.toGelf ∧
      (∀ row ∈ s.process.table.rows, ∃ message ∈ s.messages, isReport message = true ∧
        (message.index "_event_hash").asStr = row.eventHash) ∧
      ∀ m ∈ s.messages, isReport m = false → heartbeatMessage g pid = some m := by
  obtain ⟨processed, written, hreported, hdrawn⟩ := Reported.of_run hrun
  refine ⟨processed, hdrawn.chained, hreported.reports, ?_, hreported.heartbeats⟩
  intro row hrow
  obtain ⟨event, hevent, hstored⟩ := exists_of_forall₂ hdrawn.stored hrow
  have hprocessed : event ∈ processed :=
    hdrawn.drawn event (List.mem_append_left _ hevent)
  obtain ⟨message, hmessage, -⟩ := g.exists_toGelf event
  have hmem : some message ∈ (s.messages.filter isReport).map some := by
    rw [hreported.reports]
    exact List.mem_map.mpr ⟨event, hprocessed, hmessage⟩
  obtain ⟨m, hm, heq⟩ := List.mem_map.mp hmem
  obtain rfl := Option.some.inj heq
  obtain ⟨hm, hreport⟩ := List.mem_filter.mp hm
  refine ⟨m, hm, hreport, ?_⟩
  rw [(GelfForwarder.message_of_toGelf hmessage).eventHash]
  exact hstored.sameLinks.2.symm

/-- An event is received, a heartbeat falls before its INSERT, and the INSERT fails. -/
def forwardedActions : List ForwardingAction :=
  [.loop (.receive millisEvent), .heartbeat "2026-01-01T00:00:10.000Z",
   .loop (.tick .executeFailed 0)]

theorem stream_reports_every_event_failed :
    ∃ s, run (Forwarding.step ⟨"forwarder"⟩ 7 isoInput) Forwarding.new forwardedActions = some s ∧
      ∃ processed, HashChain.new.applyAll (received (loopActions forwardedActions)) =
          some (s.process.processor.chain, processed) ∧
        (s.messages.filter isReport).map some = processed.map (GelfForwarder.toGelf ⟨"forwarder"⟩) ∧
        (∀ row ∈ s.process.table.rows, ∃ message ∈ s.messages, isReport message = true ∧
          (message.index "_event_hash").asStr = row.eventHash) ∧
        ∀ m ∈ s.messages, isReport m = false → heartbeatMessage ⟨"forwarder"⟩ 7 = some m := by
  have hsome : (run (Forwarding.step ⟨"forwarder"⟩ 7 isoInput) Forwarding.new
      forwardedActions).isSome = true := by decide +kernel
  obtain ⟨s, hs⟩ := Option.isSome_iff_exists.mp hsome
  exact ⟨s, hs, stream_reports_every_event ⟨"forwarder"⟩ 7 isoInput forwardedActions s hs⟩

/-! ## What the stream depends on -/

/-- The members of an event that reach the stream, in its message or in its hash. -/
def streamMembers : List String :=
  ["event_type", "event_time", "session_user", "database", "success", "pid", "command_tag",
   "client_addr", "sqlstate", "query_text", "object_type", "object_name"]

/-- Events that agree on these members move the chain alike and have the same message. -/
theorem apply_agree {c : HashChain} {v w : Value} {a b : Applied}
    (h : AgreeOn streamMembers v w) (ha : c.apply v = some a) (hb : c.apply w = some b) :
    a.chain = b.chain ∧ AgreeOn GelfForwarder.gelfMembers a.event b.event := by
  have hv := HashChain.apply_spec ha
  have hw := HashChain.apply_spec hb
  have hpayload : buildPayload v = buildPayload w := by
    apply buildPayload_congr
    apply h.mono
    simp [payloadMembers, streamMembers]
  have hhash : a.eventHash = b.eventHash := by rw [hv.eventHash_eq, hw.eventHash_eq, hpayload]
  refine ⟨by rw [hv.chain_eq, hw.chain_eq, hhash], fun name hname => ?_⟩
  by_cases hself : name = "event_hash"
  · have ha' := Value.asStr_eq_some.mp hv.storedHash_eq
    have hb' := Value.asStr_eq_some.mp hw.storedHash_eq
    rw [hself, ha', hb', hhash]
  · have hprev : name ≠ "prev_hash" := by
      rintro rfl
      revert hname
      simp [GelfForwarder.gelfMembers]
    rw [hv.hashed.index_eq hprev hself, hw.hashed.index_eq hprev hself]
    apply h
    revert hname
    simp only [GelfForwarder.gelfMembers, streamMembers, List.mem_cons]
    grind

/-- Chained from one head, they have the same messages. -/
theorem applyAll_agree {c last last' : HashChain} {vs ws out out' : List Value}
    (h : List.Forall₂ (AgreeOn streamMembers) vs ws) (hv : c.applyAll vs = some (last, out))
    (hw : c.applyAll ws = some (last', out')) : out.map g.toGelf = out'.map g.toGelf := by
  induction h generalizing c out out' with
  | nil =>
    obtain ⟨-, rfl⟩ := Prod.mk.inj (Option.some.inj hv)
    obtain ⟨-, rfl⟩ := Prod.mk.inj (Option.some.inj hw)
    rfl
  | cons hagree _ ih =>
    obtain ⟨a, rest, ha, hrest, rfl⟩ := HashChain.applyAll_cons_eq_some.mp hv
    obtain ⟨b, rest', hb, hrest', rfl⟩ := HashChain.applyAll_cons_eq_some.mp hw
    obtain ⟨hchain, hmembers⟩ := apply_agree hagree ha hb
    rw [← hchain] at hrest'
    rw [List.map_cons, List.map_cons, g.toGelf_congr hmembers, ih hrest hrest']

/-- Two runs whose events agree on the members of the stream forward the same reports. -/
theorem reports_eq_of_agree {pid' : UInt32} {input' : TimestamptzInput}
    {actions actions' : List ForwardingAction} {s' : Forwarding}
    (hrun : run (Forwarding.step g pid input) Forwarding.new actions = some s)
    (hrun' : run (Forwarding.step g pid' input') Forwarding.new actions' = some s')
    (h : List.Forall₂ (AgreeOn streamMembers) (received (loopActions actions))
      (received (loopActions actions'))) :
    s.messages.filter isReport = s'.messages.filter isReport := by
  obtain ⟨processed, _, hreported, hdrawn⟩ := Reported.of_run hrun
  obtain ⟨processed', _, hreported', hdrawn'⟩ := Reported.of_run hrun'
  have hsame := applyAll_agree (g := g) h hdrawn.chained hdrawn'.chained
  rw [← hreported.reports, ← hreported'.reports] at hsame
  exact List.map_injective_iff.mpr (Option.some_injective _) hsame

/-! ## Rows of audited tables -/

/-- Where an event comes from: a row that capture reads, or a datagram. -/
inductive Source where
  | captured (r : ReadRow)
  | datagram (event : Value)

def Source.events (fromStr : String → Option Value) : Source → List Value
  | .captured r => r.events fromStr
  | .datagram event => [event]

/-- Two rows read at the same time that name the same table and command, if they parse: their
columns, their transactions and positions, and the registries may differ. -/
def SameHeader (r r' : ReadRow) : Prop :=
  r.now = r'.now ∧
    Option.Rel (fun line line' : ChangeLine =>
      line.commandTag = line'.commandTag ∧ line.table = line'.table)
      (parseChangeLine r.row.data) (parseChangeLine r'.row.data)

/-- Two sources that differ in what is inside the rows of audited tables alone. -/
inductive SameOutside : Source → Source → Prop where
  | captured {r r' : ReadRow} (h : SameHeader r r') : SameOutside (.captured r) (.captured r')
  | datagram {v w : Value} (h : AgreeOn streamMembers v w) :
    SameOutside (.datagram v) (.datagram w)

variable {fromStr : String → Option Value}

/-- Of the line of a change only the command and the table are in members of the stream. -/
theorem changeEvent_agree {registry registry' : SensitiveFieldRegistry}
    {now xid xid' lsn lsn' : String} {line line' : ChangeLine}
    (hcommand : line.commandTag = line'.commandTag) (htable : line.table = line'.table) :
    Option.Rel (AgreeOn streamMembers) (changeEvent fromStr registry now xid lsn line)
      (changeEvent fromStr registry' now xid' lsn' line') := by
  have hdocs : (rowDocs fromStr line.commandTag line.columns).isSome =
      (rowDocs fromStr line'.commandTag line'.columns).isSome := by
    rw [Bool.eq_iff_iff, rowDocs_isSome_iff, rowDocs_isSome_iff, hcommand]
  unfold changeEvent
  cases h : rowDocs fromStr line.commandTag line.columns with
  | none =>
    cases h' : rowDocs fromStr line'.commandTag line'.columns with
    | none => exact .none
    | some _ => simp [h, h'] at hdocs
  | some docs =>
    cases h' : rowDocs fromStr line'.commandTag line'.columns with
    | none => simp [h, h'] at hdocs
    | some docs' =>
      apply Option.Rel.some
      simp [AgreeOn, streamMembers, buildDataChangeEvent, Value.index, Value.get?_obj,
        SortedMap.get?_cons, hcommand, htable]

theorem forall₂_toList {α β : Type*} {R : α → β → Prop} {o : Option α} {o' : Option β}
    (h : Option.Rel R o o') : List.Forall₂ R o.toList o'.toList := by
  cases h with
  | none => exact .nil
  | some h => exact .cons h .nil

/-- Sources that differ inside rows alone have events that agree. -/
theorem events_agree {source source' : Source} (h : SameOutside source source') :
    List.Forall₂ (AgreeOn streamMembers) (source.events fromStr) (source'.events fromStr) := by
  cases h with
  | @captured r r' h =>
    obtain ⟨hnow, hlines⟩ := h
    rw [Source.events, Source.events, ReadRow.events_eq, ReadRow.events_eq, hnow]
    generalize parseChangeLine r.row.data = parsed, parseChangeLine r'.row.data = parsed' at hlines
    cases hlines with
    | none => exact .nil
    | some hheader =>
      apply forall₂_toList
      exact changeEvent_agree hheader.1 hheader.2
  | datagram h => exact .cons h .nil

/-- What is inside the rows of audited tables never reaches the stream: two runs over the same
tables, commands and datagrams forward the same reports, whatever the rows hold, whatever is
registered as sensitive, and whatever the database does. -/
theorem rows_never_reach_stream (g : GelfForwarder) (pid : UInt32) (input : TimestamptzInput)
    (fromStr : String → Option Value) (sources sources' : List Source)
    (actions actions' : List ForwardingAction) (s s' : Forwarding)
    (hsame : List.Forall₂ SameOutside sources sources')
    (hrun : run (Forwarding.step g pid input) Forwarding.new actions = some s)
    (hrun' : run (Forwarding.step g pid input) Forwarding.new actions' = some s')
    (hreceived : received (loopActions actions) = sources.flatMap (Source.events fromStr))
    (hreceived' : received (loopActions actions') = sources'.flatMap (Source.events fromStr)) :
    s.messages.filter isReport = s'.messages.filter isReport := by
  apply reports_eq_of_agree hrun hrun'
  rw [hreceived, hreceived']
  exact List.rel_flatMap hsame fun _ _ h => events_agree h

def taxRow : SlotRow where
  lsn := "0/16B3800"
  xid := "744"
  data := "table public.users: INSERT: id[integer]:1 ssn[text]:'078-05-1120'"

/-- A change of `public.users` is received after a datagram, and its INSERT may fail. -/
def sourceActions (row : SlotRow) (db : DbOutcome) : List ForwardingAction :=
  .loop (.receive millisEvent) ::
    (ReadRow.events millisEnvironment.fromStr ⟨row, emptyRegistry, "2026-01-01T00:00:00.000Z"⟩).map
      (fun event => .loop (.receive event)) ++ [.loop (.tick db 0)]

theorem rows_never_reach_stream_users :
    ∃ s s', run (Forwarding.step ⟨"forwarder"⟩ 7 isoInput) Forwarding.new
        (sourceActions userRow .executed) = some s ∧
      run (Forwarding.step ⟨"forwarder"⟩ 7 isoInput) Forwarding.new
        (sourceActions taxRow .getFailed) = some s' ∧
      s.messages.filter isReport = s'.messages.filter isReport := by
  have hsome : (run (Forwarding.step ⟨"forwarder"⟩ 7 isoInput) Forwarding.new
      (sourceActions userRow .executed)).isSome = true := by decide +kernel
  have hsome' : (run (Forwarding.step ⟨"forwarder"⟩ 7 isoInput) Forwarding.new
      (sourceActions taxRow .getFailed)).isSome = true := by decide +kernel
  obtain ⟨s, hs⟩ := Option.isSome_iff_exists.mp hsome
  obtain ⟨s', hs'⟩ := Option.isSome_iff_exists.mp hsome'
  have hpushed : ∀ (events : List Value) (db : DbOutcome), received (loopActions
      (events.map (fun event => .loop (.receive event)) ++ [.loop (.tick db 0)])) = events := by
    intro events db
    induction events with
    | nil => rfl
    | cons event events ih => simpa [loopActions, received] using ih
  have hreceived : ∀ row db, received (loopActions (sourceActions row db)) =
      [Source.datagram millisEvent,
        .captured ⟨row, emptyRegistry, "2026-01-01T00:00:00.000Z"⟩].flatMap
        (Source.events millisEnvironment.fromStr) := by
    intro row db
    simp [sourceActions, Source.events, loopActions, received, hpushed]
  have hline : parseChangeLine userRow.data =
      some ⟨"INSERT", "public", "users", [⟨"id", "1", false⟩]⟩ := by decide +kernel
  have hline' : parseChangeLine taxRow.data =
      some ⟨"INSERT", "public", "users", [⟨"id", "1", false⟩, ⟨"ssn", "078-05-1120", false⟩]⟩ := by
    decide +kernel
  have hheader : SameHeader ⟨userRow, emptyRegistry, "2026-01-01T00:00:00.000Z"⟩
      ⟨taxRow, emptyRegistry, "2026-01-01T00:00:00.000Z"⟩ := by
    refine ⟨rfl, ?_⟩
    rw [hline, hline']
    exact .some ⟨rfl, rfl⟩
  exact ⟨s, s', hs, hs', rows_never_reach_stream ⟨"forwarder"⟩ 7 isoInput
    millisEnvironment.fromStr _ _ _ _ s s'
    (.cons (.datagram fun _ _ => rfl) (.cons (.captured hheader) .nil))
    hs hs' (hreceived userRow .executed) (hreceived taxRow .getFailed)⟩

end VibeAudit.Delivery
