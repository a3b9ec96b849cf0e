import VibeAudit.Delivery.Capture

/-!
# The counters of the health endpoint

The tasks on both sides of the channel, with what each has in hand between two
steps, and the four counters they keep. Capture counts an event before it sends
it, the processor counts an event after it has looked at its content; so the
counts add up exactly when no datagram passes for an event of capture.
-/

namespace VibeAudit.Delivery

open Foundation Json Extension Forwarder

/-- The tasks, the channel between them and the count of capture; the other counters are the
processor's. `parsed` is a datagram the listener has to send, `pending` and `counted` are the
events of a line before and after capture counts them, `taken` is an event the processor has
received. -/
structure Counting where
  parsed : Option Value
  pending : List Value
  counted : Option Value
  channel : List Value
  taken : Option Value
  process : Process
  walCount : UInt64

inductive CountingAction where
  | datagram (bytes : List UInt8)
  | sendParsed
  | capture (r : ReadRow)
  | countNext
  | sendCounted
  | take
  | handle
  | flushFull (db : DbOutcome) (gap : Nat)
  | tick (db : DbOutcome) (gap : Nat)

namespace Counting

def new : Counting where
  parsed := none
  pending := []
  counted := none
  channel := []
  taken := none
  process := Process.new
  walCount := 0

/-- `tx.send`: a full channel makes the sender wait. -/
def send (s : Counting) (event : Value) : Option Counting :=
  if s.channel.length < channelCapacity then some { s with channel := s.channel ++ [event] }
  else none

def step (env : Environment) (s : Counting) : CountingAction → Option Counting
  | .datagram bytes =>
    match s.parsed, env.fromSlice bytes with
    | some _, _ => none
    | none, none => some s
    | none, some event => some { s with parsed := some event }
  | .sendParsed =>
    match s.parsed with
    | none => none
    | some event => { s with parsed := none }.send event
  | .capture r =>
    match s.pending, s.counted with
    | [], none => some { s with pending := r.events env.fromStr }
    | _, _ => none
  | .countNext =>
    match s.pending, s.counted with
    | event :: events, none =>
      some { s with pending := events, counted := some event, walCount := s.walCount + 1 }
    | _, _ => none
  | .sendCounted =>
    match s.counted with
    | none => none
    | some event => { s with counted := none }.send event
  | .take =>
    match s.taken, s.channel with
    | none, event :: events => some { s with taken := some event, channel := events }
    | _, _ => none
  | .handle =>
    match s.taken with
    | none => none
    | some event =>
      (s.process.step env.input (.receive event)).map fun p =>
        { s with taken := none, process := p }
  | .flushFull db gap =>
    if s.taken.isSome then none
    else (s.process.step env.input (.flushFull db gap)).map fun p => { s with process := p }
  | .tick db gap =>
    if s.taken.isSome then none
    else (s.process.step env.input (.tick db gap)).map fun p => { s with process := p }

/-- The channel is empty and no task has an event in hand. -/
structure Idle (s : Counting) : Prop where
  parsed : s.parsed = none
  pending : s.pending = []
  counted : s.counted = none
  channel : s.channel = []
  taken : s.taken = none

/-- The counters account for every event. -/
structure Balanced (s : Counting) : Prop where
  processed_eq_chain :
    s.process.processor.health.eventsProcessed = s.process.processor.health.chainLength
  processed_eq_sum : s.process.processor.health.eventsProcessed.toNat =
    s.process.processor.udpCount.toNat + s.walCount.toNat

end Counting

def arrived (env : Environment) : List CountingAction → List Value
  | [] => []
  | .datagram bytes :: as => (env.fromSlice bytes).toList ++ arrived env as
  | _ :: as => arrived env as

def decoded (env : Environment) : List CountingAction → List Value
  | [] => []
  | .capture r :: as => r.events env.fromStr ++ decoded env as
  | _ :: as => decoded env as

variable {env : Environment}

theorem arrived_append (as bs : List CountingAction) :
    arrived env (as ++ bs) = arrived env as ++ arrived env bs := by
  induction as with
  | nil => rfl
  | cons a as ih => cases a <;> simp [arrived, ih]

theorem decoded_append (as bs : List CountingAction) :
    decoded env (as ++ bs) = decoded env as ++ decoded env bs := by
  induction as with
  | nil => rfl
  | cons a as ih => cases a <;> simp [decoded, ih]

/-- The events of capture say where they come from. -/
theorem isWal_of_mem_events {fromStr : String → Option Value} {r : ReadRow} {event : Value}
    (h : event ∈ r.events fromStr) : isWal event = true := by
  obtain ⟨line, docs, hdocs, hevent⟩ := ReadRow.exists_of_mem_events fromStr h
  simp only [changeEvent, hdocs, Option.bind_eq_bind, Option.bind_some, Option.pure_def,
    Option.some.injEq] at hevent
  subst hevent
  simp [isWal, buildDataChangeEvent, Value.get?_obj, SortedMap.get?_cons, Value.asStr]

/-- The events that an action makes the processor handle. -/
def CountingAction.handled (s : Counting) : CountingAction → List Value
  | .handle => s.taken.toList
  | _ => []

/-- The events that an action makes capture count. -/
def CountingAction.counted (s : Counting) : CountingAction → List Value
  | .countNext => s.pending.take 1
  | _ => []

/-- Where the events are: `handled` by the processor, `sent` or about to be sent by capture. -/
structure Tally (env : Environment) (as : List CountingAction) (s : Counting)
    (handled sent : List Value) : Prop where
  processed : s.process.processor.health.eventsProcessed = UInt64.ofNat handled.length
  reported : s.process.processor.health.chainLength = UInt64.ofNat handled.length
  chained : s.process.processor.chain.chainLength = UInt64.ofNat handled.length
  udp : s.process.processor.udpCount = UInt64.ofNat (handled.countP fun e => !isWal e)
  wal : s.walCount = UInt64.ofNat sent.length
  decoded_eq : decoded env as = sent ++ s.pending
  somewhere : ∀ p : Value → Bool, (handled ++ s.taken.toList ++ s.channel ++ s.counted.toList ++
    s.parsed.toList).countP p = (arrived env as ++ sent).countP p

namespace Tally

variable {as : List CountingAction} {s t : Counting} {handled sent : List Value}

theorem new : Tally env [] Counting.new [] [] where
  processed := rfl
  reported := rfl
  chained := rfl
  udp := rfl
  wal := rfl
  decoded_eq := rfl
  somewhere _ := rfl

theorem ofNat_length_concat (xs : List Value) (x : Value) :
    UInt64.ofNat (xs ++ [x]).length = UInt64.ofNat xs.length + 1 := by
  rw [List.length_append, UInt64.ofNat_add]
  rfl

/-- Sending moves an event from a task to the channel. -/
theorem of_send {s' : Counting} {event : Value} (hsend : s'.send event = some t) :
    t = { s' with channel := s'.channel ++ [event] } := by
  unfold Counting.send at hsend
  split_ifs at hsend
  exact (Option.some.inj hsend).symm

/-- The processor counts an event by its content. -/
theorem handle (h : Tally env as s handled sent) {event : Value} {p : Process}
    (htaken : s.taken = some event) (hp : s.process.step env.input (.receive event) = some p) :
    Tally env as { s with taken := none, process := p } (handled ++ [event]) sent := by
  rcases Process.step_cases hp with ⟨e, processor, hevent, hreceive, rfl⟩ |
    ⟨_, _, -, hnone, -⟩ | ⟨hnone, -⟩
  · obtain rfl := Action.receive.inj hevent
    obtain ⟨applied, happly, hchain, -, hhealth, hudp⟩ := Processor.receive_eq_some hreceive
    have hlength := (HashChain.apply_spec happly).chain_eq
    refine ⟨?_, ?_, ?_, ?_, h.wal, h.decoded_eq, ?_⟩
    · rw [hhealth, ofNat_length_concat, ← h.processed]
      rfl
    · rw [hhealth, ofNat_length_concat, ← h.chained, hlength]
      rfl
    · rw [hchain, ofNat_length_concat, ← h.chained, hlength]
    · rw [hudp, h.udp, List.countP_append]
      cases hwal : isWal event with
      | true => simp [hwal]
      | false =>
        have hone : UInt64.ofNat 1 = 1 := rfl
        simp [hwal, hone]
    · intro p
      have hsome := h.somewhere p
      simp only [htaken, List.countP_append, Option.toList_some, Option.toList_none,
        List.countP_nil] at hsome ⊢
      omega
  · cases hnone
  · cases hnone

/-- Flushing the batch leaves the counters alone. -/
theorem flush (h : Tally env as s handled sent) {a : Action} {p : Process}
    (ha : a.db.isSome = true) (hp : s.process.step env.input a = some p) :
    Tally env as { s with process := p } handled sent := by
  rcases Process.step_cases hp with ⟨_, _, rfl, -⟩ | ⟨_, _, -, -, -, hflush⟩ | ⟨-, rfl⟩
  · cases ha
  · obtain ⟨hprocessor, -⟩ := Process.flush_spec hflush
    exact ⟨by rw [hprocessor]; exact h.processed, by rw [hprocessor]; exact h.reported,
      by rw [hprocessor]; exact h.chained, by rw [hprocessor]; exact h.udp, h.wal, h.decoded_eq,
      h.somewhere⟩
  · exact h

/-- A step by which no event comes in. -/
theorem extend (h : Tally env as s handled sent) {a : CountingAction}
    (harrived : arrived env [a] = []) (hdecoded : decoded env [a] = []) :
    Tally env (as ++ [a]) s handled sent where
  __ := h
  decoded_eq := by rw [decoded_append, hdecoded, List.append_nil, h.decoded_eq]
  somewhere := by
    rw [arrived_append, harrived, List.append_nil]
    exact h.somewhere

/-- What one step preserves. -/
theorem step (h : Tally env as s handled sent) {a : CountingAction}
    (ha : s.step env a = some t) :
    Tally env (as ++ [a]) t (handled ++ a.handled s) (sent ++ a.counted s) := by
  have hquiet : Tally env (as ++ [a]) t handled sent → a.handled s = [] → a.counted s = [] →
      Tally env (as ++ [a]) t (handled ++ a.handled s) (sent ++ a.counted s) := by
    intro hsame hhandled hcounted
    rwa [hhandled, hcounted, List.append_nil, List.append_nil]
  cases a with
  | datagram bytes =>
    simp only [Counting.step] at ha
    split at ha
    · cases ha
    · next hread =>
      obtain rfl := Option.some.inj ha
      exact hquiet (h.extend (by simp [arrived, hread]) rfl) rfl rfl
    · next event hparsed hread =>
      obtain rfl := Option.some.inj ha
      refine hquiet { h with decoded_eq := ?_, somewhere := fun p => ?_ } rfl rfl
      · rw [decoded_append, h.decoded_eq]
        simp [decoded]
      · have hsome := h.somewhere p
        simp only [arrived_append, arrived, hread, hparsed, List.countP_append,
          Option.toList_some, Option.toList_none, List.countP_nil] at hsome ⊢
        omega
  | sendParsed =>
    simp only [Counting.step] at ha
    split at ha
    · cases ha
    · next event hparsed =>
      obtain rfl := of_send ha
      refine hquiet (extend ?_ rfl rfl) rfl rfl
      refine { h with somewhere := fun p => ?_ }
      have hsome := h.somewhere p
      simp only [hparsed, List.countP_append, Option.toList_some, Option.toList_none,
        List.countP_nil] at hsome ⊢
      omega
  | capture r =>
    simp only [Counting.step] at ha
    split at ha
    · next hpending hcounted =>
      obtain rfl := Option.some.inj ha
      refine hquiet { h with decoded_eq := ?_, somewhere := ?_ } rfl rfl
      · rw [decoded_append, h.decoded_eq, hpending]
        simp [decoded]
      · rw [arrived_append]
        simpa [arrived] using h.somewhere
    · cases ha
  | countNext =>
    simp only [Counting.step] at ha
    split at ha
    · next event events hpending hcounted =>
      obtain rfl := Option.some.inj ha
      have hnext : CountingAction.counted s .countNext = [event] := by
        simp [CountingAction.counted, hpending]
      have hnone : CountingAction.handled s .countNext = [] := rfl
      rw [hnext, hnone, List.append_nil]
      refine extend ?_ rfl rfl
      refine { h with wal := ?_, decoded_eq := ?_, somewhere := fun p => ?_ }
      · rw [ofNat_length_concat, ← h.wal]
      · rw [h.decoded_eq, hpending, List.append_assoc, List.singleton_append]
      · have hsome := h.somewhere p
        simp only [hcounted, List.countP_append, Option.toList_some, Option.toList_none,
          List.countP_nil] at hsome ⊢
        omega
    · cases ha
  | sendCounted =>
    simp only [Counting.step] at ha
    split at ha
    · cases ha
    · next event hcounted =>
      obtain rfl := of_send ha
      refine hquiet (extend ?_ rfl rfl) rfl rfl
      refine { h with somewhere := fun p => ?_ }
      have hsome := h.somewhere p
      simp only [hcounted, List.countP_append, Option.toList_some, Option.toList_none,
        List.countP_nil] at hsome ⊢
      omega
  | take =>
    simp only [Counting.step] at ha
    split at ha
    · next event events htaken hchannel =>
      obtain rfl := Option.some.inj ha
      refine hquiet (extend ?_ rfl rfl) rfl rfl
      refine { h with somewhere := fun p => ?_ }
      have hsome := h.somewhere p
      have hcons : (event :: events).countP p = [event].countP p + events.countP p := by
        rw [← List.countP_append, List.singleton_append]
      simp only [htaken, hchannel, hcons, List.countP_append, Option.toList_some,
        Option.toList_none, List.countP_nil] at hsome ⊢
      omega
    · cases ha
  | handle =>
    simp only [Counting.step] at ha
    split at ha
    · cases ha
    · next event htaken =>
      obtain ⟨p, hp, rfl⟩ := Option.map_eq_some_iff.mp ha
      have hnext : CountingAction.handled s .handle = [event] := by
        simp [CountingAction.handled, htaken]
      have hnone : CountingAction.counted s .handle = [] := rfl
      rw [hnext, hnone, List.append_nil]
      exact (h.handle htaken hp).extend rfl rfl
  | flushFull db gap =>
    simp only [Counting.step] at ha
    split_ifs at ha
    obtain ⟨p, hp, rfl⟩ := Option.map_eq_some_iff.mp ha
    exact hquiet ((h.flush rfl hp).extend rfl rfl) rfl rfl
  | tick db gap =>
    simp only [Counting.step] at ha
    split_ifs at ha
    obtain ⟨p, hp, rfl⟩ := Option.map_eq_some_iff.mp ha
    exact hquiet ((h.flush rfl hp).extend rfl rfl) rfl rfl

/-- What every run preserves. -/
theorem of_run (hrun : run (Counting.step env) Counting.new as = some s) :
    ∃ handled sent, Tally env as s handled sent := by
  refine run_induction (Counting.step env) (I := fun as s => ∃ handled sent, Tally env as s
    handled sent) (C := fun _ _ _ => True) ⟨[], [], new⟩ ?_ hrun (fun _ _ _ _ _ _ => trivial)
  rintro as u a t - ⟨handled, sent, hu⟩ - hstep
  exact ⟨_, _, hu.step hstep⟩

/-- Once nothing is in flight, the processor has handled what has come in. -/
theorem countP_of_idle (h : Tally env as s handled sent) (hidle : s.Idle) (p : Value → Bool) :
    handled.countP p = (arrived env as).countP p + (decoded env as).countP p := by
  have hsome := h.somewhere p
  have hdecoded := h.decoded_eq
  rw [hidle.pending, List.append_nil] at hdecoded
  rw [hdecoded]
  simpa [hidle.taken, hidle.channel, hidle.counted, hidle.parsed] using hsome

end Tally

theorem isWal_of_mem_decoded {as : List CountingAction} {event : Value}
    (h : event ∈ decoded env as) : isWal event = true := by
  induction as with
  | nil => cases h
  | cons a as ih =>
    cases a with
    | capture r =>
      rcases List.mem_append.mp h with h | h
      · exact isWal_of_mem_events h
      · exact ih h
    | _ => exact ih h

/-- Whenever nothing is in flight, the counters account for every event exactly when no datagram
has said of itself that it comes from the WAL. -/
theorem counters_balanced_iff (env : Environment) (actions : List CountingAction) (s : Counting)
    (hrun : run (Counting.step env) Counting.new actions = some s) (hidle : s.Idle)
    (hbelow : (arrived env actions).length + (decoded env actions).length < 2 ^ 64) :
    s.Balanced ↔ ∀ event ∈ arrived env actions, isWal event = false := by
  obtain ⟨handled, sent, h⟩ := Tally.of_run hrun
  have hdecoded : decoded env actions = sent := by
    rw [h.decoded_eq, hidle.pending, List.append_nil]
  have hall : handled.length = (arrived env actions).length + sent.length := by
    have hcount := h.countP_of_idle hidle fun _ => true
    rwa [List.countP_true, hdecoded] at hcount
  have hother : (handled.countP fun e => !isWal e) =
      (arrived env actions).countP fun e => !isWal e := by
    have hnone : ((decoded env actions).countP fun e => !isWal e) = 0 := by
      rw [List.countP_eq_zero]
      intro event hevent
      simp [isWal_of_mem_decoded hevent]
    rw [h.countP_of_idle hidle, hnone, Nat.add_zero]
  have hle : ((arrived env actions).countP fun e => !isWal e) ≤ (arrived env actions).length :=
    List.countP_le_length
  have hlimit : (arrived env actions).length + sent.length < UInt64.size := by
    rwa [← hdecoded]
  have hprocessed : s.process.processor.health.eventsProcessed.toNat = handled.length := by
    rw [h.processed, UInt64.toNat_ofNat_of_lt' (by omega)]
  have hudp : s.process.processor.udpCount.toNat =
      (arrived env actions).countP fun e => !isWal e := by
    rw [h.udp, hother, UInt64.toNat_ofNat_of_lt' (by omega)]
  have hwal : s.walCount.toNat = sent.length := by
    rw [h.wal, UInt64.toNat_ofNat_of_lt' (by omega)]
  have hplain : (∀ event ∈ arrived env actions, isWal event = false) ↔
      ((arrived env actions).countP fun e => !isWal e) = (arrived env actions).length := by
    rw [List.countP_eq_length]
    simp
  rw [hplain]
  constructor
  · intro hbalanced
    have hsum := hbalanced.processed_eq_sum
    omega
  · intro hcount
    exact ⟨h.processed.trans h.reported.symm, by omega⟩

def countedActions : List CountingAction :=
  [.datagram millisDatagram, .sendParsed, .take, .handle,
   .capture ⟨userRow, emptyRegistry, "2026-01-01T00:00:00.000Z"⟩, .countNext, .sendCounted, .take,
   .handle]

def Counting.isIdle (s : Counting) : Bool :=
  s.parsed.isNone && s.pending.isEmpty && s.counted.isNone && s.channel.isEmpty && s.taken.isNone

theorem Counting.idle_of_isIdle {s : Counting} (h : s.isIdle = true) : s.Idle := by
  simp only [isIdle, Bool.and_eq_true, Option.isNone_iff_eq_none, List.isEmpty_iff] at h
  obtain ⟨⟨⟨⟨hparsed, hpending⟩, hcounted⟩, hchannel⟩, htaken⟩ := h
  exact ⟨hparsed, hpending, hcounted, hchannel, htaken⟩

theorem counters_balanced_both :
    ∃ s, run (Counting.step millisEnvironment) Counting.new countedActions = some s ∧
      s.Balanced := by
  have hidle : (run (Counting.step millisEnvironment) Counting.new countedActions).any
      Counting.isIdle = true := by decide +kernel
  obtain ⟨s, hs, hsIdle⟩ := (Option.any_eq_true _ _).mp hidle
  refine ⟨s, hs, (counters_balanced_iff millisEnvironment countedActions s hs
    (Counting.idle_of_isIdle hsIdle) (by decide +kernel)).mpr ?_⟩
  decide +kernel

def walDatagram : Value := .obj [("detail", .obj [("source", .string "wal")])]

def walEnvironment : Environment :=
  { millisEnvironment with fromSlice := fun _ => some walDatagram }

/-- One event is processed, and none is counted. -/
theorem not_counters_balanced :
    ¬ ∀ (env : Environment) (actions : List CountingAction) (s : Counting),
      run (Counting.step env) Counting.new actions = some s → s.Idle →
        (∀ bytes event, env.fromSlice bytes = some event → event.isObject = true) →
        s.Balanced := by
  intro h
  have hend : (run (Counting.step walEnvironment) Counting.new
      [.datagram [], .sendParsed, .take, .handle]).any (fun s => s.isIdle &&
        s.process.processor.health.eventsProcessed == 1 && s.process.processor.udpCount == 0 &&
        s.walCount == 0) = true := by decide +kernel
  obtain ⟨s, hs, hstate⟩ := (Option.any_eq_true _ _).mp hend
  simp only [Bool.and_eq_true, beq_iff_eq] at hstate
  obtain ⟨⟨⟨hidle, hprocessed⟩, hudp⟩, hwal⟩ := hstate
  have hobject : ∀ bytes event, walEnvironment.fromSlice bytes = some event →
      event.isObject = true := by
    intro bytes event hevent
    obtain rfl := Option.some.inj hevent
    rfl
  have hsum := (h walEnvironment _ s hs (Counting.idle_of_isIdle hidle) hobject).processed_eq_sum
  rw [hprocessed, hudp, hwal] at hsum
  exact absurd hsum (by decide)

end VibeAudit.Delivery
