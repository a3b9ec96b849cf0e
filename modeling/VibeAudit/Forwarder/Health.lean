import VibeAudit.Forwarder.Processor

/-!
# `health.rs`

What the health endpoint answers, and the event of a heartbeat. A request reads
the shared data one after the other, and other tasks run between two reads, so
an answer is built in stages.
-/

namespace VibeAudit.Forwarder

open Foundation Json

structure HealthResponse where
  status : String
  eventsProcessed : UInt64
  chainLength : UInt64
  lastEventTime : Option String
  walEnabled : Bool
  walLsn : String
  walEvents : UInt64
  udpEvents : UInt64
  deriving DecidableEq, Repr

/-- How far `health_handler` has come with one request. -/
inductive HealthRequest where
  | locked (data : HealthData)
  | located (data : HealthData) (lsn : String)
  | counted (data : HealthData) (lsn : String) (walEvents : UInt64)
  deriving DecidableEq, Repr

namespace HealthRequest

def data : HealthRequest → HealthData
  | .locked data | .located data _ | .counted data _ _ => data

def walEvents? : HealthRequest → Option UInt64
  | .counted _ _ walEvents => some walEvents
  | _ => none

end HealthRequest

def healthResponse (walEnabled : Bool) (data : HealthData) (lsn : String)
    (walEvents udpEvents : UInt64) : HealthResponse where
  status := "ok"
  eventsProcessed := data.eventsProcessed
  chainLength := data.chainLength
  lastEventTime := data.lastEventTime
  walEnabled := walEnabled
  walLsn := lsn
  walEvents := walEvents
  udpEvents := udpEvents

def heartbeatEvent (now : String) (pid : UInt32) (data : HealthData) : Value :=
  .obj [
    ("event_type", .string "SYSTEM_EVENT"), ("event_time", .string now), ("success", .bool true),
    ("session_user", .string "vibe_audit_forwarder"), ("client_addr", .null),
    ("client_port", .null), ("database", .null), ("pid", .number (.posInt pid.toUInt64)),
    ("application", .string "vibe-audit-forwarder"), ("command_tag", .string "heartbeat"),
    ("object_type", .null), ("object_name", .null), ("schema_name", .null),
    ("query_text", .null), ("sqlstate", .null),
    ("detail", .obj [
      ("type", .string "heartbeat"), ("events_processed", .number (.posInt data.eventsProcessed)),
      ("chain_length", .number (.posInt data.chainLength))])]

/-- A heartbeat is no event of the chain. -/
theorem heartbeatEvent_eventHash (now : String) (pid : UInt32) (data : HealthData) :
    (heartbeatEvent now pid data).index "event_hash" = .null := by
  simp [heartbeatEvent, Value.index, Value.get?_obj, SortedMap.get?_cons]

end VibeAudit.Forwarder
