import VibeAudit.Forwarder.Processor
import VibeAudit.Foundation.Utf8

/-!
# `gelf.rs`

`toGelf` builds the message for an event, and `send` the bytes of its datagram;
what the network does with them is outside. The members that a message takes
from an event are listed once, in `gelfMembers`: two events that agree on them
have the same message.
-/

namespace VibeAudit.Forwarder

open Foundation Json

/-- Two documents read the same under every one of the names. -/
def AgreeOn (names : List String) (v w : Value) : Prop :=
  ∀ name ∈ names, v.index name = w.index name

theorem AgreeOn.mono {names names' : List String} {v w : Value} (h : AgreeOn names v w)
    (hsub : ∀ name ∈ names', name ∈ names) : AgreeOn names' v w :=
  fun name hname => h name (hsub name hname)

/-- The hash payload reads six members of an event. -/
def payloadMembers : List String :=
  ["event_type", "event_time", "session_user", "database", "command_tag", "query_text"]

theorem buildPayload_congr {v w : Value} (h : AgreeOn payloadMembers v w) :
    buildPayload v = buildPayload w := by
  have hfield : ∀ key ∈ payloadMembers, textField v key = textField w key := by
    intro key hkey
    rw [textField, textField, h key hkey]
  simp only [buildPayload]
  rw [hfield "event_type" (by simp [payloadMembers]),
    hfield "event_time" (by simp [payloadMembers]),
    hfield "session_user" (by simp [payloadMembers]), hfield "database" (by simp [payloadMembers]),
    hfield "command_tag" (by simp [payloadMembers]), hfield "query_text" (by simp [payloadMembers])]

/-- The socket and the target decide where a message goes, not what it says. -/
structure GelfForwarder where
  hostname : String
  deriving DecidableEq, Repr

namespace GelfForwarder

def shortMessage (event : Value) : String :=
  "[" ++ (event.index "event_type").asStr.getD "UNKNOWN" ++ "] " ++
    (event.index "session_user").asStr.getD "?" ++ " @ " ++
    (event.index "database").asStr.getD "?"

def fixedMembers (g : GelfForwarder) (event : Value) : List (String × Value) :=
  [("version", .string "1.1"), ("host", .string g.hostname),
   ("short_message", .string (shortMessage event)),
   ("level", .number (.posInt (if (event.index "success").asBool.getD true then 6 else 3))),
   ("_event_type", .string ((event.index "event_type").asStr.getD "UNKNOWN")),
   ("_success", event.index "success"), ("_session_user", event.index "session_user"),
   ("_database", event.index "database"), ("_pid", event.index "pid"),
   ("_command_tag", event.index "command_tag"), ("_client_addr", event.index "client_addr"),
   ("_sqlstate", event.index "sqlstate"), ("_event_hash", event.index "event_hash"),
   ("_source", .string "vibe_audit")]

/-- `if let Some(s) = event[...].as_str()`, with the assignment under it. -/
def setText (gelf : Value) (key : String) (text : Option String) : Option Value :=
  match text with
  | some s => gelf.setIndex key (.string s)
  | none => some gelf

def toGelf (g : GelfForwarder) (event : Value) : Option Value := do
  let gelf := Value.obj (g.fixedMembers event)
  let gelf ← setText gelf "full_message"
    ((event.index "query_text").asStr.filter fun qt => !qt.isEmpty)
  let gelf ← setText gelf "_object_type" (event.index "object_type").asStr
  setText gelf "_object_name" (event.index "object_name").asStr

/-- The bytes handed to `send_to`; `gzip` fails where the encoder does, and then nothing is. -/
def send (gzip : List UInt8 → Option (List UInt8)) (g : GelfForwarder) (event : Value) :
    Option (List UInt8) :=
  (g.toGelf event).bind fun gelf => gzip (Utf8.encode gelf.render.toList)

/-! ## What a message says -/

/-- The members of an event that its message depends on. -/
def gelfMembers : List String :=
  ["event_type", "session_user", "database", "success", "pid", "command_tag", "client_addr",
   "sqlstate", "event_hash", "query_text", "object_type", "object_name"]

theorem toGelf_congr (g : GelfForwarder) {v w : Value} (h : AgreeOn gelfMembers v w) :
    g.toGelf v = g.toGelf w := by
  simp only [gelfMembers, AgreeOn, List.forall_mem_cons] at h
  simp only [toGelf, fixedMembers, shortMessage, h]

theorem setText_spec {gelf : Value} (h : gelf.isObject = true) (key : String)
    (text : Option String) :
    ∃ gelf', setText gelf key text = some gelf' ∧ gelf'.isObject = true ∧
      ∀ j, gelf'.get? j = if j = key then (text.map Value.string).or (gelf.get? j)
        else gelf.get? j := by
  cases text with
  | none => exact ⟨gelf, rfl, h, by simp⟩
  | some s =>
    cases gelf with
    | object m =>
      have hset : (Value.object m).setIndex key (.string s) =
          some (.object (SortedMap.insert m key (.string s))) := rfl
      exact ⟨_, hset, rfl, fun j => by simp [Value.get?_setIndex hset]⟩
    | null | bool | number | string | array => cases h

/-- What `toGelf` builds for an event. -/
structure Message (g : GelfForwarder) (event gelf : Value) : Prop where
  isObject : gelf.isObject = true
  fixed : ∀ p ∈ g.fixedMembers event, gelf.index p.1 = p.2
  fullMessage : gelf.get? "full_message" =
    ((event.index "query_text").asStr.filter fun qt => !qt.isEmpty).map .string
  objectType : gelf.get? "_object_type" = (event.index "object_type").asStr.map .string
  objectName : gelf.get? "_object_name" = (event.index "object_name").asStr.map .string

theorem nodup_fixedMembers (g : GelfForwarder) (event : Value) :
    ((g.fixedMembers event).map Prod.fst).Nodup := by
  simp [fixedMembers]

/-- A message is always built, whatever the event is. -/
theorem exists_toGelf (g : GelfForwarder) (event : Value) :
    ∃ gelf, g.toGelf event = some gelf ∧ Message g event gelf := by
  have hnone : ∀ j ∈ ["full_message", "_object_type", "_object_name"],
      ∀ p ∈ g.fixedMembers event, p.1 ≠ j := by
    simp [fixedMembers]
  have hbase : ∀ j ∈ ["full_message", "_object_type", "_object_name"],
      (Value.obj (g.fixedMembers event)).get? j = none := by
    intro j hj
    rw [Value.get?_obj]
    by_contra hsome
    obtain ⟨v, hv⟩ := Option.ne_none_iff_exists'.mp hsome
    exact hnone j hj _ (List.mem_reverse.mp (SortedMap.mem_of_get? hv)) rfl
  have hobj : (Value.obj (g.fixedMembers event)).isObject = true := rfl
  obtain ⟨v₁, h₁, hobj₁, hget₁⟩ := setText_spec hobj "full_message"
    ((event.index "query_text").asStr.filter fun qt => !qt.isEmpty)
  obtain ⟨v₂, h₂, hobj₂, hget₂⟩ := setText_spec hobj₁ "_object_type"
    (event.index "object_type").asStr
  obtain ⟨v₃, h₃, hobj₃, hget₃⟩ := setText_spec hobj₂ "_object_name"
    (event.index "object_name").asStr
  refine ⟨v₃, by simp [toGelf, h₁, h₂, h₃], hobj₃, ?_, ?_, ?_, ?_⟩
  · intro p hp
    have hne : ∀ j ∈ ["full_message", "_object_type", "_object_name"], p.1 ≠ j :=
      fun j hj => hnone j hj p hp
    simp only [List.forall_mem_cons] at hne
    rw [← Value.index_obj (nodup_fixedMembers g event) hp, Value.index, Value.index, hget₃, hget₂,
      hget₁]
    simp [hne]
  · simp [hget₃, hget₂, hget₁, hbase]
  · simp [hget₃, hget₂, hget₁, hbase]
  · simp [hget₃, hget₂, hget₁, hbase]

theorem message_of_toGelf {g : GelfForwarder} {event gelf : Value}
    (h : g.toGelf event = some gelf) : Message g event gelf := by
  obtain ⟨gelf', hgelf, hmessage⟩ := g.exists_toGelf event
  rw [h] at hgelf
  obtain rfl := Option.some.inj hgelf
  exact hmessage

/-- The hash by which a message can be matched with a row. -/
theorem Message.eventHash {g : GelfForwarder} {event gelf : Value} (h : Message g event gelf) :
    gelf.index "_event_hash" = event.index "event_hash" :=
  h.fixed ("_event_hash", event.index "event_hash") (by simp [fixedMembers])

end GelfForwarder

end VibeAudit.Forwarder
