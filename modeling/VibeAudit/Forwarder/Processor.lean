import VibeAudit.Forwarder.HashChain
import VibeAudit.Foundation.Machine

/-!
# The processor task, the listener and the health data

`Processor.receive` is one iteration of the processor loop for a value from the
channel, up to the push onto the batch; forwarding to GELF sends a copy and
changes nothing here. `none` is a panic, which ends the task, and with it the
`select!` of `main`.
-/

namespace VibeAudit.Forwarder

open Foundation Json

structure HealthData where
  eventsProcessed : UInt64
  chainLength : UInt64
  lastEventTime : Option String
  deriving DecidableEq, Repr

def HealthData.new : HealthData := { eventsProcessed := 0, chainLength := 0, lastEventTime := none }

def HealthData.update (data : HealthData) (chainLength : UInt64) (lastTime : Option String) :
    HealthData where
  eventsProcessed := data.eventsProcessed + 1
  chainLength := chainLength
  lastEventTime := lastTime

/-- `detail.source` of the event is the string `wal`. -/
def isWal (event : Value) : Bool :=
  ((event.get? "detail").bind fun d => (d.get? "source").bind Value.asStr) == some "wal"

/-- The locals of the processor task and the counters it updates. -/
structure Processor where
  chain : HashChain
  batch : List Value
  health : HealthData
  udpCount : UInt64

namespace Processor

def new : Processor :=
  { chain := HashChain.new, batch := [], health := HealthData.new, udpCount := 0 }

def receive (p : Processor) (event : Value) : Option Processor := do
  let udpCount := if isWal event then p.udpCount else p.udpCount + 1
  let applied ← p.chain.apply event
  let eventTime := (applied.event.index "event_time").asStr
  return {
    chain := applied.chain
    batch := p.batch ++ [applied.event]
    health := p.health.update applied.chain.chainLength eventTime
    udpCount := udpCount }

theorem receive_eq_some {p q : Processor} {event : Value} (h : p.receive event = some q) :
    ∃ applied, p.chain.apply event = some applied ∧ q.chain = applied.chain ∧
      q.batch = p.batch ++ [applied.event] ∧
      q.health = p.health.update applied.chain.chainLength
        (applied.event.index "event_time").asStr ∧
      q.udpCount = if isWal event then p.udpCount else p.udpCount + 1 := by
  simp only [receive, Option.bind_eq_bind, Option.bind_eq_some_iff, Option.pure_def,
    Option.some.injEq] at h
  obtain ⟨applied, happlied, rfl⟩ := h
  exact ⟨applied, happlied, rfl, rfl, rfl, rfl⟩

/-- An iteration completes exactly when the value takes the two hash members. -/
theorem receive_isSome (p : Processor) (event : Value) :
    (p.receive event).isSome = event.isAssignable := by
  rw [← HashChain.apply_isSome p.chain event]
  unfold receive
  cases p.chain.apply event <;> rfl

end Processor

/-! ## Datagrams -/

/-- `serde_json::from_slice::<Value>` on the bytes of a datagram. -/
abbrev FromSlice := List UInt8 → Option Value

/-- A datagram that parses is sent on the channel and processed; any other is only logged. -/
def datagramStep (fromSlice : FromSlice) (p : Processor) (datagram : List UInt8) :
    Option Processor :=
  match fromSlice datagram with
  | some event => p.receive event
  | none => some p

/-- A datagram is survived exactly when it holds no JSON, or an object or null. -/
theorem datagramStep_isSome (fromSlice : FromSlice) (p : Processor) (datagram : List UInt8) :
    (datagramStep fromSlice p datagram).isSome = true ↔
      ∀ event, fromSlice datagram = some event → event.isObject = true ∨ event.isNull = true := by
  unfold datagramStep
  cases h : fromSlice datagram with
  | none => simp
  | some event =>
    simp only [Processor.receive_isSome, Option.some.injEq]
    constructor
    · rintro hassign v rfl
      cases event <;> simp_all [Value.isAssignable, Value.isObject, Value.isNull]
    · intro hall
      have := hall event rfl
      cases event <;> simp_all [Value.isAssignable, Value.isObject, Value.isNull]

/-- From every state of the processor, the task survives a sequence of datagrams exactly when
each of them is malformed or parses to an object or to null. -/
theorem datagrams_survived_iff (fromSlice : FromSlice) (p : Processor)
    (datagrams : List (List UInt8)) :
    (run (datagramStep fromSlice) p datagrams).isSome = true ↔
      ∀ d ∈ datagrams, ∀ event, fromSlice d = some event →
        event.isObject = true ∨ event.isNull = true := by
  induction datagrams generalizing p with
  | nil => simp
  | cons d ds ih =>
    rw [run_cons, List.forall_mem_cons, ← datagramStep_isSome fromSlice p d]
    cases datagramStep fromSlice p d with
    | none => simp
    | some q => simp [ih q]

def readBracketOne : FromSlice := fun datagram =>
  if datagram = [0x5b, 0x31, 0x5d] then some (.array [.number (.posInt 1)]) else none

/-- The three bytes `[1]` in one datagram end the processor task. -/
theorem not_datagrams_survived :
    ¬ ∀ (fromSlice : FromSlice) (p : Processor) (datagram : List UInt8) (event : Value),
      fromSlice datagram = some event → (p.receive event).isSome = true := by
  intro h
  exact absurd (h readBracketOne Processor.new [0x5b, 0x31, 0x5d] (.array [.number (.posInt 1)])
    rfl) (by decide)

end VibeAudit.Forwarder
