import VibeAudit.Foundation.HashLink
import VibeAudit.Foundation.Sha256
import VibeAudit.Json.Value

/-!
# `hashchain.rs`

The producer side of the hash chain. `HashChain.apply` writes the two hash
members into the event, which panics on an event that is neither an object nor
null. Events that have been through `apply` in order are hash-linked, read
through `eventView`.
-/

namespace VibeAudit.Forwarder

open Foundation Json

structure HashChain where
  prevHash : String
  chainLength : UInt64
  deriving DecidableEq, Repr

def HashChain.new : HashChain := { prevHash := "", chainLength := 0 }

def textField (event : Value) (key : String) : String := (event.index key).asStr.getD ""

def buildPayload (event : Value) : String :=
  textField event "event_type" ++ "|" ++ textField event "event_time" ++ "|" ++
    textField event "session_user" ++ "|" ++ textField event "database" ++ "|" ++
    textField event "command_tag" ++ "|" ++ textField event "query_text"

/-- What `apply` leaves behind: the chain, the event with its hashes, and the pair returned. -/
structure Applied where
  chain : HashChain
  event : Value
  prev : String
  eventHash : String

def HashChain.apply (c : HashChain) (event : Value) : Option Applied := do
  let payload := buildPayload event
  let eventHash := sha256Hex (c.prevHash ++ payload)
  let prev := c.prevHash
  let event ← event.setIndex "prev_hash" (.string prev)
  let event ← event.setIndex "event_hash" (.string eventHash)
  return {
    chain := { prevHash := eventHash, chainLength := c.chainLength + 1 }
    event := event
    prev := prev
    eventHash := eventHash }

def HashChain.applyAll (c : HashChain) : List Value → Option (HashChain × List Value)
  | [] => some (c, [])
  | event :: events => do
    let a ← c.apply event
    let (last, rest) ← a.chain.applyAll events
    return (last, a.event :: rest)

/-- The hash members of an event that has been through `apply`. -/
def storedPrev (event : Value) : Option String := (event.index "prev_hash").asStr

def storedHash (event : Value) : Option String := (event.index "event_hash").asStr

/-- How the producer reads a hashed event as a record of a hash chain. -/
def eventView : LinkView Value (Option String) where
  prevOf := storedPrev
  headOf := storedHash
  digest prev event := prev.map fun p => sha256Hex (p ++ buildPayload event)

/-- `hashed` is `event` with its two hash members written, all else unchanged. -/
structure HashedFrom (event hashed : Value) : Prop where
  isObject : hashed.isObject = true
  get?_eq : ∀ key, key ≠ "prev_hash" → key ≠ "event_hash" → hashed.get? key = event.get? key

theorem HashedFrom.index_eq {event hashed : Value} (h : HashedFrom event hashed) {key : String}
    (hp : key ≠ "prev_hash") (he : key ≠ "event_hash") : hashed.index key = event.index key := by
  unfold Value.index
  rw [h.get?_eq key hp he]

theorem HashedFrom.buildPayload_eq {event hashed : Value} (h : HashedFrom event hashed) :
    buildPayload hashed = buildPayload event := by
  have hfield : ∀ key, key ≠ "prev_hash" → key ≠ "event_hash" →
      textField hashed key = textField event key :=
    fun key hp he => congrArg (fun v => (Value.asStr v).getD "") (h.index_eq hp he)
  simp only [buildPayload]
  rw [hfield "event_type" (by decide) (by decide), hfield "event_time" (by decide) (by decide),
    hfield "session_user" (by decide) (by decide), hfield "database" (by decide) (by decide),
    hfield "command_tag" (by decide) (by decide), hfield "query_text" (by decide) (by decide)]

namespace HashChain

/-- Everything a completed `apply` does. -/
structure ApplySpec (c : HashChain) (event : Value) (a : Applied) : Prop where
  prev_eq : a.prev = c.prevHash
  eventHash_eq : a.eventHash = sha256Hex (c.prevHash ++ buildPayload event)
  chain_eq : a.chain = { prevHash := a.eventHash, chainLength := c.chainLength + 1 }
  storedPrev_eq : storedPrev a.event = some c.prevHash
  storedHash_eq : storedHash a.event = some a.eventHash
  hashed : HashedFrom event a.event

theorem apply_spec {c : HashChain} {event : Value} {a : Applied} (h : c.apply event = some a) :
    ApplySpec c event a := by
  unfold apply at h
  simp only [Option.bind_eq_bind, Option.bind_eq_some_iff, Option.pure_def,
    Option.some.injEq] at h
  obtain ⟨mid, hmid, out, hout, rfl⟩ := h
  have hindex := Value.index_setIndex hout
  have hindex' := Value.index_setIndex hmid
  constructor
  · rfl
  · rfl
  · rfl
  · simp [storedPrev, hindex, hindex', Value.asStr]
  · simp [storedHash, hindex, Value.asStr]
  · refine ⟨Value.isObject_of_setIndex hout, fun key hp he => ?_⟩
    rw [Value.get?_setIndex hout, if_neg he, Value.get?_setIndex hmid, if_neg hp]

/-- `apply` completes exactly on objects and null. -/
theorem apply_isSome (c : HashChain) (event : Value) :
    (c.apply event).isSome = event.isAssignable := by
  cases event <;> rfl

theorem exists_apply {c : HashChain} {event : Value} (h : event.isObject = true) :
    ∃ a, c.apply event = some a := by
  rw [← Option.isSome_iff_exists, apply_isSome]
  exact Value.isAssignable_of_isObject h

theorem applyAll_cons_eq_some {c last : HashChain} {event : Value} {events out : List Value} :
    c.applyAll (event :: events) = some (last, out) ↔
      ∃ a rest, c.apply event = some a ∧ a.chain.applyAll events = some (last, rest) ∧
        out = a.event :: rest := by
  simp only [applyAll, Option.bind_eq_bind, Option.bind_eq_some_iff, Option.pure_def,
    Option.some.injEq, Prod.exists, Prod.mk.injEq]
  constructor
  · rintro ⟨a, ha, l, rest, hrest, rfl, rfl⟩
    exact ⟨a, rest, ha, hrest, rfl⟩
  · rintro ⟨a, rest, ha, hrest, rfl⟩
    exact ⟨a, ha, last, rest, hrest, rfl, rfl⟩

/-- Objects go through the whole chain. -/
theorem exists_applyAll (c : HashChain) {events : List Value}
    (h : ∀ e ∈ events, e.isObject = true) :
    ∃ last out, c.applyAll events = some (last, out) := by
  induction events generalizing c with
  | nil => exact ⟨c, [], rfl⟩
  | cons e es ih =>
    obtain ⟨a, ha⟩ := exists_apply (c := c) (h e List.mem_cons_self)
    obtain ⟨last, rest, hrest⟩ := ih a.chain fun e he => h e (List.mem_cons_of_mem _ he)
    exact ⟨last, a.event :: rest, applyAll_cons_eq_some.mpr ⟨a, rest, ha, hrest, rfl⟩⟩

theorem applyAll_hashedFrom {c last : HashChain} {events out : List Value}
    (h : c.applyAll events = some (last, out)) : List.Forall₂ HashedFrom events out := by
  induction events generalizing c out with
  | nil =>
    obtain ⟨-, rfl⟩ := Prod.mk.inj (Option.some.inj h)
    exact .nil
  | cons e es ih =>
    obtain ⟨a, rest, ha, hrest, rfl⟩ := applyAll_cons_eq_some.mp h
    exact .cons (apply_spec ha).hashed (ih hrest)

/-- The events of a run of the chain are linked from its first head to its last. -/
theorem applyAll_linked {c last : HashChain} {events out : List Value}
    (h : c.applyAll events = some (last, out)) :
    eventView.Linked (some c.prevHash) out ∧
      eventView.head (some c.prevHash) out = some last.prevHash := by
  induction events generalizing c out with
  | nil =>
    obtain ⟨rfl, rfl⟩ := Prod.mk.inj (Option.some.inj h)
    exact ⟨trivial, rfl⟩
  | cons e es ih =>
    obtain ⟨a, rest, ha, hrest, rfl⟩ := applyAll_cons_eq_some.mp h
    have spec := apply_spec ha
    have hhead : eventView.headOf a.event = some a.chain.prevHash := by
      rw [spec.chain_eq]
      exact spec.storedHash_eq
    obtain ⟨hlinked, hlast⟩ := ih hrest
    refine ⟨⟨spec.storedPrev_eq, ?_, hhead ▸ hlinked⟩, ?_⟩
    · change storedHash a.event = some (sha256Hex (c.prevHash ++ buildPayload a.event))
      rw [spec.storedHash_eq, spec.eventHash_eq, spec.hashed.buildPayload_eq]
    · rw [LinkView.head_cons, hhead, hlast]

/-- A list of events is chained part after part. -/
theorem applyAll_append (c : HashChain) (xs ys : List Value) :
    c.applyAll (xs ++ ys) = (c.applyAll xs).bind fun p =>
      (p.1.applyAll ys).map fun q => (q.1, p.2 ++ q.2) := by
  induction xs generalizing c with
  | nil => simp [applyAll]
  | cons x xs ih =>
    cases hx : c.apply x with
    | none => simp [applyAll, hx]
    | some a =>
      cases hxs : a.chain.applyAll xs with
      | none => simp [applyAll, hx, ih, hxs]
      | some p => cases hys : p.1.applyAll ys <;> simp [applyAll, hx, ih, hxs, hys]

end HashChain

/-- A chain of two events, as in the repository's own test of linking. -/
example : ((HashChain.new.applyAll [.obj [("event_type", .string "A")], .null]).map
    fun p => (p.1.chainLength, p.2.length)) = some (2, 2) := by decide

end VibeAudit.Forwarder
