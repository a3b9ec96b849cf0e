import VibeAudit.Foundation.Calendar
import VibeAudit.Foundation.Utf8

/-!
# `vibe_hooks.c`

The events of the hooks as the extension prints them: C strings are lists of
bytes without the terminating NUL, a printed event is the datagram handed to
`vibe_emit_event`, and an event that does not fit the buffer is not handed over.
What the server supplies (the port, the session, the clock, the parsed
statement) is an argument.
-/

namespace VibeAudit.Extension

open Foundation

abbrev CString := List UInt8

def bytes (s : String) : CString := Utf8.encode s.toList

/-- `VIBE_MAX_EVENT_SIZE`. -/
def maxEventSize : Nat := 8192

/-! ## `vibe_json_escape` -/

/-- The letter behind the backslash, for the characters that have one. -/
def escapeLetter (c : UInt8) : Option UInt8 :=
  if c = 0x22 ∨ c = 0x5C then some c
  else if c = 0x0A then some 0x6E
  else if c = 0x0D then some 0x72
  else if c = 0x09 then some 0x74
  else none

/-- A hexadecimal digit as `%x` prints it. -/
def hexDigit (n : UInt8) : UInt8 := if n < 10 then 0x30 + n else 0x57 + n

/-- `"\\u%04x"` of a byte. -/
def unicodeEscape (c : UInt8) : CString :=
  [0x5C, 0x75, 0x30, 0x30, hexDigit (c / 16), hexDigit (c % 16)]

/-- The loop over the source, with what has been written. -/
def escapeLoop (dstSize : Nat) (dst : CString) : CString → CString
  | [] => dst
  | c :: src =>
    if dst.length + 1 < dstSize then
      match escapeLetter c with
      | some letter =>
        if dst.length + 2 ≥ dstSize then dst else escapeLoop dstSize (dst ++ [0x5C, letter]) src
      | none =>
        if c < 0x20 then
          if dst.length + 6 ≥ dstSize then dst
          else escapeLoop dstSize (dst ++ unicodeEscape c) src
        else escapeLoop dstSize (dst ++ [c]) src
    else dst

/-- The bytes in front of the terminator that is written behind them. A null pointer is read as
the empty string. -/
def vibeJsonEscape (dstSize : Nat) (src : Option CString) : CString :=
  escapeLoop dstSize [] (src.getD [])

/-! ## Parts of an event -/

/-- `gettimeofday`, after 1970. -/
structure Timeval where
  sec : Nat
  usec : Nat
  usec_lt : usec < 1000000

/-- The time in UTC. -/
def isoMillis (tv : Timeval) : String :=
  let date := civilFromDays (tv.sec / 86400)
  let time := tv.sec % 86400
  zeroPad 4 date.year.toNat ++ "-" ++ zeroPad 2 date.month ++ "-" ++ zeroPad 2 date.day ++
    "T" ++ zeroPad 2 (time / 3600) ++ ":" ++ zeroPad 2 (time / 60 % 60) ++ ":" ++
    zeroPad 2 (time % 60) ++ "." ++ zeroPad 3 (tv.usec / 1000) ++ "Z"

/-- The buffer for the time has 64 bytes. -/
def timebuf (tv : Timeval) : CString := (bytes (isoMillis tv)).take 63

example : timebuf ⟨1767225600, 123456, by decide⟩ = bytes "2026-01-01T00:00:00.123Z" := by
  decide +kernel

/-- `"%s"` between quotes. -/
def quoted (s : CString) : CString := 0x22 :: (s ++ [0x22])

/-- `%s%s%s`: the string in quotes, or `null`. -/
def nullable (s : Option CString) : CString :=
  match s with
  | some s => quoted s
  | none => bytes "null"

def boolText (b : Bool) : CString := bytes (if b then "true" else "false")

/-- `%d`. -/
def intText (n : Int32) : CString := bytes (toString n)

/-- A member of the printed object: its name and the text of its value. -/
structure EventMember where
  key : String
  text : CString

def EventMember.print (m : EventMember) : CString := quoted (bytes m.key) ++ 0x3A :: m.text

def printMembers : List EventMember → CString
  | [] => []
  | [m] => m.print
  | m :: ms => m.print ++ 0x2C :: printMembers ms

/-- The object of the format string. -/
def printEvent (ms : List EventMember) : CString := 0x7B :: (printMembers ms ++ [0x7D])

/-- `len > 0 && len < sizeof(buf)`. -/
def emit (event : CString) : Option CString :=
  if 0 < event.length ∧ event.length < maxEventSize then some event else none

theorem eq_of_emit {event datagram : CString} (h : emit event = some datagram) :
    datagram = event := by
  unfold emit at h
  split_ifs at h
  exact (Option.some.inj h).symm

/-! ## `vibe_emit_auth_event` -/

/-- The members of `Port` that are read. -/
structure Port where
  userName : Option CString
  databaseName : Option CString
  remoteHost : Option CString
  remotePort : Option CString

/-- `atoi`: blanks, a sign, digits; the value is cut to 64 bits and then narrowed. -/
def atoi (s : CString) : Int32 :=
  let s := s.dropWhile fun c => c = 0x20 ∨ (0x09 ≤ c ∧ c ≤ 0x0D)
  let negative := s.head? = some 0x2D
  let s := if negative ∨ s.head? = some 0x2B then s.tail else s
  let digits := s.takeWhile fun c => 0x30 ≤ c ∧ c ≤ 0x39
  let n : Int := digits.foldl (fun n c => 10 * n + (c.toNat - 48)) 0
  (Int64.ofInt (max Int64.minValue.toInt
    (min Int64.maxValue.toInt (if negative then -n else n)))).toInt32

def authMembers (tv : Timeval) (pid : Int32) (applicationName : Option CString) (port : Port)
    (ok : Bool) : List EventMember :=
  [⟨"event_type", quoted (bytes (if ok then "AUTH_SUCCESS" else "AUTH_FAIL"))⟩,
   ⟨"event_time", quoted (timebuf tv)⟩, ⟨"success", boolText ok⟩,
   ⟨"session_user", quoted (port.userName.getD [])⟩,
   ⟨"client_addr", quoted (port.remoteHost.getD [])⟩,
   ⟨"client_port", intText (atoi (port.remotePort.getD (bytes "0")))⟩,
   ⟨"database", quoted (port.databaseName.getD [])⟩, ⟨"pid", intText pid⟩,
   ⟨"application", quoted (applicationName.getD [])⟩,
   ⟨"command_tag", quoted (bytes "authentication")⟩, ⟨"object_type", bytes "null"⟩,
   ⟨"object_name", bytes "null"⟩, ⟨"schema_name", bytes "null"⟩, ⟨"query_text", bytes "null"⟩,
   ⟨"sqlstate", quoted (bytes (if ok then "00000" else "28P01"))⟩,
   ⟨"detail", printEvent [⟨"reason", quoted (bytes
     (if ok then "authentication successful" else "password authentication failed"))⟩]⟩]

def vibeEmitAuthEvent (tv : Timeval) (pid : Int32) (applicationName : Option CString) (port : Port)
    (ok : Bool) : Option CString :=
  emit (printEvent (authMembers tv pid applicationName port ok))

/-! ## `vibe_emit_utility_event_with_status` -/

inductive ObjectType where
  | table | index | sequence | view | function | schema | trigger | extension | role | other
  deriving DecidableEq, Repr

def vibeObjectTypeStr : ObjectType → String
  | .table => "TABLE"
  | .index => "INDEX"
  | .sequence => "SEQUENCE"
  | .view => "VIEW"
  | .function => "FUNCTION"
  | .schema => "SCHEMA"
  | .trigger => "TRIGGER"
  | .extension => "EXTENSION"
  | .role => "ROLE"
  | .other => "UNKNOWN"

structure RangeVar where
  schemaname : Option CString
  relname : CString

/-- A utility statement by its node tag, with the fields that are read. -/
inductive UtilityStmt where
  | createStmt (relation : Option RangeVar)
  | indexStmt | createFunctionStmt | viewStmt | createSchemaStmt | createSeqStmt
  | createTrigStmt | createExtensionStmt
  | alterTableStmt (relation : Option RangeVar)
  | renameStmt
  | dropStmt (removeType : ObjectType)
  | grantStmt (isGrant : Bool) (objtype : ObjectType)
  | grantRoleStmt
  | createRoleStmt (role : CString)
  | alterRoleStmt | dropRoleStmt
  | other

def vibeNodeTagToDdl : UtilityStmt → Option String
  | .createStmt _ => some "CREATE TABLE"
  | .indexStmt => some "CREATE INDEX"
  | .createFunctionStmt => some "CREATE FUNCTION"
  | .viewStmt => some "CREATE VIEW"
  | .createSchemaStmt => some "CREATE SCHEMA"
  | .createSeqStmt => some "CREATE SEQUENCE"
  | .createTrigStmt => some "CREATE TRIGGER"
  | .createExtensionStmt => some "CREATE EXTENSION"
  | .alterTableStmt _ => some "ALTER TABLE"
  | .renameStmt => some "RENAME"
  | .dropStmt _ => some "DROP"
  | .grantStmt .. => some "GRANT"
  | .grantRoleStmt => some "GRANT ROLE"
  | .createRoleStmt _ => some "CREATE ROLE"
  | .alterRoleStmt => some "ALTER ROLE"
  | .dropRoleStmt => some "DROP ROLE"
  | .other => none

/-- The locals that the switch over the node tag sets. -/
structure UtilityObject where
  ddlTag : String
  objectType : Option String := none
  objectName : Option CString := none
  schemaName : Option CString := none

def utilityObject (ddlTag : String) : UtilityStmt → UtilityObject
  | .createStmt relation | .alterTableStmt relation =>
    { ddlTag := ddlTag, objectType := some "TABLE", objectName := relation.map RangeVar.relname
      schemaName := relation.bind RangeVar.schemaname }
  | .dropStmt removeType => { ddlTag := ddlTag, objectType := some (vibeObjectTypeStr removeType) }
  | .grantStmt isGrant objtype =>
    { ddlTag := if isGrant then "GRANT" else "REVOKE"
      objectType := some (vibeObjectTypeStr objtype) }
  | .createRoleStmt role =>
    { ddlTag := ddlTag, objectType := some "ROLE", objectName := some role }
  | .dropRoleStmt => { ddlTag := ddlTag, objectType := some "ROLE" }
  | _ => { ddlTag := ddlTag }

/-- The names of the session, and its process. -/
structure Session where
  userName : CString
  databaseName : CString
  pid : Int32
  applicationName : Option CString

/-- The size of the buffer for the escaped text of a query. -/
def querySize : Nat := maxEventSize / 2

def utilityMembers (tv : Timeval) (session : Session) (object : UtilityObject)
    (queryString : Option CString) (success : Bool) : List EventMember :=
  [⟨"event_type", quoted (bytes "DDL")⟩, ⟨"event_time", quoted (timebuf tv)⟩,
   ⟨"success", boolText success⟩, ⟨"session_user", quoted session.userName⟩,
   ⟨"client_addr", quoted []⟩, ⟨"client_port", bytes "0"⟩,
   ⟨"database", quoted session.databaseName⟩, ⟨"pid", intText session.pid⟩,
   ⟨"application", quoted (session.applicationName.getD [])⟩,
   ⟨"command_tag", quoted (bytes object.ddlTag)⟩,
   ⟨"object_type", nullable (object.objectType.map bytes)⟩,
   ⟨"object_name", nullable object.objectName⟩, ⟨"schema_name", nullable object.schemaName⟩,
   ⟨"query_text", quoted (vibeJsonEscape querySize queryString)⟩,
   ⟨"sqlstate", quoted (bytes "00000")⟩, ⟨"detail", bytes "null"⟩]

def vibeEmitUtilityEventWithStatus (tv : Timeval) (session : Session)
    (utilityStmt : Option UtilityStmt) (queryString : Option CString) (success : Bool) :
    Option CString := do
  let stmt ← utilityStmt
  let ddlTag ← vibeNodeTagToDdl stmt
  emit (printEvent (utilityMembers tv session (utilityObject ddlTag stmt) queryString success))

/-- An audited statement. -/
theorem vibeEmitUtilityEventWithStatus_of_tag (tv : Timeval) (session : Session)
    {stmt : UtilityStmt} {ddlTag : String} (h : vibeNodeTagToDdl stmt = some ddlTag)
    (queryString : Option CString) (success : Bool) :
    vibeEmitUtilityEventWithStatus tv session (some stmt) queryString success =
      emit (printEvent (utilityMembers tv session (utilityObject ddlTag stmt) queryString
        success)) := by
  rw [vibeEmitUtilityEventWithStatus, Option.bind_eq_bind, Option.bind_some, h,
    Option.bind_eq_bind, Option.bind_some]

theorem exists_tag_of_emitted {tv : Timeval} {session : Session} {stmt : UtilityStmt}
    {queryString : Option CString} {success : Bool} {datagram : CString}
    (h : vibeEmitUtilityEventWithStatus tv session (some stmt) queryString success =
      some datagram) : ∃ ddlTag, vibeNodeTagToDdl stmt = some ddlTag := by
  cases htag : vibeNodeTagToDdl stmt with
  | some ddlTag => exact ⟨ddlTag, rfl⟩
  | none =>
    rw [vibeEmitUtilityEventWithStatus, Option.bind_eq_bind, Option.bind_some, htag] at h
    cases h

/-! ## `vibe_emit_executor_event` -/

inductive CmdType where
  | select | insert | update | delete | other
  deriving DecidableEq, Repr

def cmdTag : CmdType → String
  | .select => "SELECT"
  | .insert => "INSERT"
  | .update => "UPDATE"
  | .delete => "DELETE"
  | .other => "UNKNOWN"

structure QueryDesc where
  operation : CmdType
  sourceText : Option CString

def executorMembers (tv : Timeval) (session : Session) (operation : CmdType)
    (sourceText : CString) : List EventMember :=
  [⟨"event_type", quoted (bytes "DML")⟩, ⟨"event_time", quoted (timebuf tv)⟩,
   ⟨"success", bytes "true"⟩, ⟨"session_user", quoted session.userName⟩,
   ⟨"client_addr", quoted []⟩, ⟨"client_port", bytes "0"⟩,
   ⟨"database", quoted session.databaseName⟩, ⟨"pid", intText session.pid⟩,
   ⟨"application", quoted (session.applicationName.getD [])⟩,
   ⟨"command_tag", quoted (bytes (cmdTag operation))⟩, ⟨"object_type", bytes "null"⟩,
   ⟨"object_name", bytes "null"⟩, ⟨"schema_name", bytes "null"⟩,
   ⟨"query_text", quoted (vibeJsonEscape querySize (some sourceText))⟩,
   ⟨"sqlstate", quoted (bytes "00000")⟩,
   ⟨"detail", printEvent [⟨"superuser", bytes "true"⟩]⟩]

def vibeEmitExecutorEvent (tv : Timeval) (session : Session) (queryDesc : Option QueryDesc) :
    Option CString := do
  let queryDesc ← queryDesc
  let sourceText ← queryDesc.sourceText
  emit (printEvent (executorMembers tv session queryDesc.operation sourceText))

theorem vibeEmitExecutorEvent_of_text (tv : Timeval) (session : Session) (operation : CmdType)
    (sourceText : CString) :
    vibeEmitExecutorEvent tv session (some ⟨operation, some sourceText⟩) =
      emit (printEvent (executorMembers tv session operation sourceText)) := by
  rw [vibeEmitExecutorEvent, Option.bind_eq_bind, Option.bind_some, Option.bind_eq_bind,
    Option.bind_some]

end VibeAudit.Extension
