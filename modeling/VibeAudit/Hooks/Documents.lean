import VibeAudit.Hooks.Fields

/-!
# The documents of the three events

What each event of the hooks says, field by field, where its names are texts.
Printed, the fields are the event that the extension prints, for the text of a
query as long as it is not cut inside a character.
-/

namespace VibeAudit.Hooks

open Foundation Extension

/-! ## Names as texts -/

/-- The names of a connection. -/
structure PortNames where
  user : Option String
  database : Option String
  host : Option String

def PortNames.port (names : PortNames) (remotePort : Option CString) : Port where
  userName := names.user.map bytes
  databaseName := names.database.map bytes
  remoteHost := names.host.map bytes
  remotePort := remotePort

/-- The names of a session. -/
structure SessionNames where
  user : String
  database : String
  application : Option String

def SessionNames.session (names : SessionNames) (pid : Int32) : Session where
  userName := bytes names.user
  databaseName := bytes names.database
  pid := pid
  applicationName := names.application.map bytes

/-- The names of the object of a statement. -/
structure ObjectNames where
  name : Option String
  schema : Option String

/-- The statement has these names. -/
def ObjectNames.Of (names : ObjectNames) (stmt : UtilityStmt) : Prop :=
  ∀ ddlTag, (utilityObject ddlTag stmt).objectName = names.name.map bytes ∧
    (utilityObject ddlTag stmt).schemaName = names.schema.map bytes

/-! ## The time -/

theorem mem_isoMillis {tv : Timeval} {c : Char} (h : c ∈ (isoMillis tv).toList) :
    c.isDigit = true ∨ c ∈ ['-', 'T', ':', '.', 'Z'] := by
  simp only [isoMillis, String.toList_append, List.mem_append] at h
  have hdigits : ∀ width n, c ∈ (zeroPad width n).toList → c.isDigit = true :=
    fun _ _ => isDigit_of_mem_zeroPad
  have hmark : ∀ mark ∈ ["-", "T", ":", ".", "Z"], c ∈ mark.toList →
      c ∈ ['-', 'T', ':', '.', 'Z'] := by
    simp +contextual
  grind

def timeText (tv : Timeval) : String := String.ofList ((isoMillis tv).toList.take 63)

theorem isPlainChar_of_mem_isoMillis {tv : Timeval} {c : Char} (h : c ∈ (isoMillis tv).toList) :
    Json.isPlainChar c = true ∧ c.toNat < 128 := by
  rcases mem_isoMillis h with hdigit | hmark
  · have hrange : 48 ≤ c.toNat ∧ c.toNat ≤ 57 := by
      rw [Char.isDigit_iff_toNat] at hdigit
      exact hdigit
    have hne : ∀ d : Char, 57 < d.toNat ∨ d.toNat < 48 → c ≠ d := by
      rintro d hd rfl
      omega
    have hfirst : 0x20 ≤ c.toNat := by omega
    refine ⟨?_, by omega⟩
    simp [Json.isPlainChar, hne '"' (by decide), hne '\\' (by decide), hfirst]
  · revert hmark
    simp only [List.mem_cons, List.not_mem_nil, or_false]
    rintro (rfl | rfl | rfl | rfl | rfl) <;> decide

theorem timebuf_eq (tv : Timeval) : timebuf tv = bytes (timeText tv) := by
  rw [timebuf, bytes, Utf8.encode_take_ascii fun c hc => (isPlainChar_of_mem_isoMillis hc).2,
    bytes, timeText, String.toList_ofList]

theorem plain_timeText (tv : Timeval) : Plain (timeText tv) := by
  rw [Plain, timeText, String.toList_ofList, List.all_eq_true]
  exact fun c hc => (isPlainChar_of_mem_isoMillis (List.mem_of_mem_take hc)).1

/-! ## Members of an event -/

/-- A name that may be missing. -/
def optional : Option String → Field
  | some s => .text s
  | none => .null

theorem bytes_getD (s : Option String) : (s.map bytes).getD [] = bytes (s.getD "") := by
  cases s <;> rfl

theorem fieldMember_text (key raw : String) :
    fieldMember (key, .text raw) = ⟨key, quoted (bytes raw)⟩ := by
  rw [bytes, quoted_encode]
  rfl

theorem fieldMember_query (key s : String) : fieldMember (key, .query s) =
    ⟨key, quoted (Utf8.encode (s.toList.flatMap escapeChar))⟩ := by
  rw [quoted_encode]
  rfl

theorem fieldMember_null (key : String) : fieldMember (key, .null) = ⟨key, bytes "null"⟩ := rfl

theorem fieldMember_bool (key : String) (b : Bool) :
    fieldMember (key, .bool b) = ⟨key, boolText b⟩ := rfl

theorem fieldMember_int (key : String) (n : Int32) :
    fieldMember (key, .int n) = ⟨key, intText n⟩ := rfl

theorem fieldMember_optional (key : String) (s : Option String) :
    fieldMember (key, optional s) = ⟨key, nullable (s.map bytes)⟩ := by
  cases s with
  | none => rfl
  | some s => exact fieldMember_text key s

theorem fieldMember_reason (key s : String) : fieldMember (key, .reason s) =
    ⟨key, printEvent [⟨"reason", quoted (bytes s)⟩]⟩ := by
  have hspelled : List.Forall₂ Spelled [⟨"reason", quoted (bytes s)⟩]
      [⟨"reason".toList, '"' :: (s.toList ++ ['"'])⟩] :=
    .cons ⟨rfl, by rw [bytes, quoted_encode]⟩ .nil
  rw [printEvent_eq hspelled]
  rfl

theorem fieldMember_superuser (key : String) : fieldMember (key, .superuser) =
    ⟨key, printEvent [⟨"superuser", bytes "true"⟩]⟩ := by
  have hspelled : List.Forall₂ Spelled [⟨"superuser", bytes "true"⟩]
      [⟨"superuser".toList, "true".toList⟩] := .cons ⟨rfl, rfl⟩ .nil
  rw [printEvent_eq hspelled]
  rfl

/-! ## The events -/

def authFields (tv : Timeval) (pid : Int32) (application : Option String) (names : PortNames)
    (remotePort : Option CString) (ok : Bool) : List (String × Field) :=
  [("event_type", .text (if ok then "AUTH_SUCCESS" else "AUTH_FAIL")),
   ("event_time", .text (timeText tv)), ("success", .bool ok),
   ("session_user", .text (names.user.getD "")), ("client_addr", .text (names.host.getD "")),
   ("client_port", .int (atoi (remotePort.getD (bytes "0")))),
   ("database", .text (names.database.getD "")), ("pid", .int pid),
   ("application", .text (application.getD "")), ("command_tag", .text "authentication"),
   ("object_type", .null), ("object_name", .null), ("schema_name", .null),
   ("query_text", .null), ("sqlstate", .text (if ok then "00000" else "28P01")),
   ("detail", .reason (if ok then "authentication successful"
     else "password authentication failed"))]

theorem authMembers_eq (tv : Timeval) (pid : Int32) (application : Option String)
    (names : PortNames) (remotePort : Option CString) (ok : Bool) :
    authMembers tv pid (application.map bytes) (names.port remotePort) ok =
      (authFields tv pid application names remotePort ok).map fieldMember := by
  simp only [authFields, List.map_cons, List.map_nil, fieldMember_text, fieldMember_null,
    fieldMember_bool, fieldMember_int, fieldMember_reason, authMembers, PortNames.port,
    bytes_getD, timebuf_eq]

def utilityFront (tv : Timeval) (names : SessionNames) (pid : Int32) (object : UtilityObject)
    (objectNames : ObjectNames) (success : Bool) : List (String × Field) :=
  [("event_type", .text "DDL"), ("event_time", .text (timeText tv)), ("success", .bool success),
   ("session_user", .text names.user), ("client_addr", .text ""), ("client_port", .int 0),
   ("database", .text names.database), ("pid", .int pid),
   ("application", .text (names.application.getD "")), ("command_tag", .text object.ddlTag),
   ("object_type", optional object.objectType), ("object_name", optional objectNames.name),
   ("schema_name", optional objectNames.schema)]

def executorFront (tv : Timeval) (names : SessionNames) (pid : Int32) (operation : CmdType) :
    List (String × Field) :=
  [("event_type", .text "DML"), ("event_time", .text (timeText tv)), ("success", .bool true),
   ("session_user", .text names.user), ("client_addr", .text ""), ("client_port", .int 0),
   ("database", .text names.database), ("pid", .int pid),
   ("application", .text (names.application.getD "")),
   ("command_tag", .text (cmdTag operation)), ("object_type", .null), ("object_name", .null),
   ("schema_name", .null)]

/-- What the two fronts have in common. -/
def statementFront (tv : Timeval) (names : SessionNames) (pid : Int32) (eventType : String)
    (success : Bool) (tag : String) (objectType : Option String) (objectNames : ObjectNames) :
    List (String × Field) :=
  [("event_type", .text eventType), ("event_time", .text (timeText tv)), ("success", .bool success),
   ("session_user", .text names.user), ("client_addr", .text ""), ("client_port", .int 0),
   ("database", .text names.database), ("pid", .int pid),
   ("application", .text (names.application.getD "")), ("command_tag", .text tag),
   ("object_type", optional objectType), ("object_name", optional objectNames.name),
   ("schema_name", optional objectNames.schema)]

theorem utilityFront_eq (tv : Timeval) (names : SessionNames) (pid : Int32)
    (object : UtilityObject) (objectNames : ObjectNames) (success : Bool) :
    utilityFront tv names pid object objectNames success =
      statementFront tv names pid "DDL" success object.ddlTag object.objectType objectNames := rfl

theorem executorFront_eq (tv : Timeval) (names : SessionNames) (pid : Int32)
    (operation : CmdType) : executorFront tv names pid operation =
      statementFront tv names pid "DML" true (cmdTag operation) none ⟨none, none⟩ := rfl

/-- The fields of an event with a query: those in front, its text, the state and the detail. -/
def queryFields (front : List (String × Field)) (query : Field) (detail : Field) :
    List (String × Field) :=
  front ++ [("query_text", query), ("sqlstate", .text "00000"), ("detail", detail)]

def queryMembers (front : List (String × Field)) (escaped : CString) (detail : Field) :
    List EventMember :=
  front.map fieldMember ++ ⟨"query_text", quoted escaped⟩ ::
    [("sqlstate", .text "00000"), ("detail", detail)].map fieldMember

theorem queryMembers_of_text (front : List (String × Field)) (s : String) (detail : Field) :
    queryMembers front (Utf8.encode (s.toList.flatMap escapeChar)) detail =
      (queryFields front (.query s) detail).map fieldMember := by
  simp only [queryMembers, queryFields, List.map_append, List.map_cons, fieldMember_query]

theorem utilityMembers_eq (tv : Timeval) (names : SessionNames) (pid : Int32)
    {object : UtilityObject} {objectNames : ObjectNames}
    (hname : object.objectName = objectNames.name.map bytes)
    (hschema : object.schemaName = objectNames.schema.map bytes) (queryString : Option CString)
    (success : Bool) :
    utilityMembers tv (names.session pid) object queryString success =
      queryMembers (utilityFront tv names pid object objectNames success)
        (vibeJsonEscape querySize queryString) .null := by
  have hempty : quoted [] = quoted (bytes "") := rfl
  have hzero : bytes "0" = intText 0 := rfl
  simp only [queryMembers, utilityFront, List.map_cons, List.map_nil, List.cons_append,
    List.nil_append, fieldMember_text, fieldMember_null, fieldMember_bool, fieldMember_int,
    fieldMember_optional, utilityMembers, SessionNames.session, bytes_getD, timebuf_eq, hname,
    hschema, hempty, hzero]

/-- The datagram of a utility statement: its members, with the escape of the query, and of an empty
text where there is no query. -/
theorem eq_of_utility_emitted {tv : Timeval} {names : SessionNames} {pid : Int32}
    {stmt : UtilityStmt} {objectNames : ObjectNames} (hobject : objectNames.Of stmt)
    {query : Option String} {success : Bool} {datagram : CString}
    (hsent : vibeEmitUtilityEventWithStatus tv (names.session pid) (some stmt) (query.map bytes)
      success = some datagram) :
    ∃ ddlTag, vibeNodeTagToDdl stmt = some ddlTag ∧ datagram = printEvent (queryMembers
      (utilityFront tv names pid (utilityObject ddlTag stmt) objectNames success)
      (vibeJsonEscape querySize (some (bytes (query.getD "")))) .null) := by
  obtain ⟨ddlTag, htag⟩ := exists_tag_of_emitted hsent
  rw [vibeEmitUtilityEventWithStatus_of_tag tv _ htag] at hsent
  have htext : vibeJsonEscape querySize (query.map bytes) =
      vibeJsonEscape querySize (some (bytes (query.getD ""))) := by
    cases query <;> rfl
  refine ⟨ddlTag, htag, ?_⟩
  rw [eq_of_emit hsent, utilityMembers_eq tv names pid (hobject ddlTag).1 (hobject ddlTag).2, htext]

theorem executorMembers_eq (tv : Timeval) (names : SessionNames) (pid : Int32)
    (operation : CmdType) (sourceText : CString) :
    executorMembers tv (names.session pid) operation sourceText =
      queryMembers (executorFront tv names pid operation)
        (vibeJsonEscape querySize (some sourceText)) .superuser := by
  have hempty : quoted [] = quoted (bytes "") := rfl
  have hzero : bytes "0" = intText 0 := rfl
  have htrue : bytes "true" = boolText true := rfl
  simp only [queryMembers, executorFront, List.map_cons, List.map_nil, List.cons_append,
    List.nil_append, fieldMember_text, fieldMember_null, fieldMember_bool, fieldMember_int,
    fieldMember_superuser, executorMembers, SessionNames.session, bytes_getD, timebuf_eq, hempty,
    hzero, htrue]

/-! ## Their names -/

/-- The names of the members, in the order of the format strings. -/
def eventKeys : List String :=
  ["event_type", "event_time", "success", "session_user", "client_addr", "client_port",
   "database", "pid", "application", "command_tag", "object_type", "object_name", "schema_name",
   "query_text", "sqlstate", "detail"]

theorem isName_of_mem_eventKeys {key : String} (h : key ∈ eventKeys) : Json.IsName key.toList := by
  have hkeys : ∀ key ∈ eventKeys, key.toList.all Json.isPlainChar = true ∧
      key.toList.head?.any Json.isWordChar = true := by decide
  obtain ⟨hplain, hhead⟩ := hkeys key h
  obtain ⟨c, hc, hword⟩ := (Option.any_eq_true _ _).mp hhead
  exact ⟨hplain, c, key.toList.tail, (List.cons_head?_tail hc).symm, hword⟩

theorem named_of_keys {fs : List (String × Field)} (h : fs.map Prod.fst = eventKeys) :
    Named fs := by
  refine ⟨?_, fun f hf => isName_of_mem_eventKeys (h ▸ List.mem_map_of_mem hf)⟩
  rintro rfl
  cases h

/-- Every field is found under its name. -/
theorem get?_document {fs : List (String × Field)} (h : fs.map Prod.fst = eventKeys)
    {f : String × Field} (hf : f ∈ fs) : (document fs).get? f.1 = some f.2.value := by
  have hkeys : SortedMap.keys (fs.map fun f => (f.1, f.2.value)).reverse = eventKeys.reverse := by
    rw [SortedMap.keys, List.map_reverse, List.map_map, ← h]
    rfl
  rw [document, Json.Value.get?_obj]
  refine SortedMap.get?_of_nodup ?_ ?_
  · rw [hkeys]
    decide
  · rw [List.mem_reverse]
    exact List.mem_map_of_mem (f := fun f => (f.1, f.2.value)) hf

theorem isEvent_authFields (tv : Timeval) (pid : Int32) (application : Option String)
    (names : PortNames) (remotePort : Option CString) (ok : Bool) :
    IsEvent (authFields tv pid application names remotePort ok) := by
  refine ⟨named_of_keys rfl, ?_, ?_, ?_, ?_⟩
  · simp [authFields]
  · simp [authFields]
  · simp only [authFields, List.forall_mem_cons]
    cases ok <;> simp [Plain] <;> decide
  · simp [authFields]

/-- The fields in front of a query: none of them is a query or a reason. -/
structure IsFront (front : List (String × Field)) : Prop where
  keys : front.map Prod.fst = eventKeys.take 13
  query : ∀ f ∈ front, ∀ s, f.2 ≠ .query s
  reason : ∀ f ∈ front, ∀ s, f.2 ≠ .reason s

theorem isFront_statementFront (tv : Timeval) (names : SessionNames) (pid : Int32)
    (eventType : String) (success : Bool) (tag : String) (objectType : Option String)
    (objectNames : ObjectNames) :
    IsFront (statementFront tv names pid eventType success tag objectType objectNames) := by
  have hquery : ∀ o s, optional o ≠ .query s := by intro o s; cases o <;> simp [optional]
  have hreason : ∀ o s, optional o ≠ .reason s := by intro o s; cases o <;> simp [optional]
  refine ⟨rfl, ?_, ?_⟩
  · simp [statementFront, hquery]
  · simp [statementFront, hreason]

theorem isFront_utilityFront (tv : Timeval) (names : SessionNames) (pid : Int32)
    (object : UtilityObject) (objectNames : ObjectNames) (success : Bool) :
    IsFront (utilityFront tv names pid object objectNames success) := by
  rw [utilityFront_eq]
  apply isFront_statementFront

theorem isFront_executorFront (tv : Timeval) (names : SessionNames) (pid : Int32)
    (operation : CmdType) : IsFront (executorFront tv names pid operation) := by
  rw [executorFront_eq]
  apply isFront_statementFront

theorem named_queryFields {front : List (String × Field)} (h : IsFront front)
    (query detail : Field) :
    Named (queryFields front query detail) :=
  named_of_keys (by rw [queryFields, List.map_append, h.keys]; rfl)

/-- A front with a query behind it is an event. -/
theorem isEvent_queryFields {front : List (String × Field)} (h : IsFront front) (s : String)
    {detail : Field} (hdetail : detail = .null ∨ detail = .superuser) :
    IsEvent (queryFields front (.query s) detail) := by
  have hkeys : ∀ f ∈ front, f.1 ≠ "query_text" := by
    intro f hf heq
    have hmem : f.1 ∈ eventKeys.take 13 := h.keys ▸ List.mem_map_of_mem hf
    rw [heq] at hmem
    exact absurd hmem (by decide)
  have hback : ∀ (P : String × Field → Prop), (∀ f ∈ front, P f) →
      P ("query_text", .query s) → P ("sqlstate", .text "00000") → P ("detail", detail) →
      ∀ f ∈ queryFields front (.query s) detail, P f := by
    intro P hfront hquery hstate hlast f hf
    simp only [queryFields, List.mem_append, List.mem_cons, List.not_mem_nil, or_false] at hf
    rcases hf with hf | rfl | rfl | rfl
    · exact hfront f hf
    · exact hquery
    · exact hstate
    · exact hlast
  refine ⟨named_queryFields h _ _, ?_, ?_, ?_, ?_⟩
  · refine hback _ (fun f hf s' hs => absurd hs (h.query f hf s')) (fun _ _ => rfl) nofun ?_
    rcases hdetail with rfl | rfl <;> nofun
  · refine hback _ (fun f hf _ _ => hkeys f hf) nofun (fun _ _ => by decide) ?_
    rcases hdetail with rfl | rfl <;> nofun
  · refine hback _ (fun f hf s' hs => absurd hs (h.reason f hf s')) nofun nofun ?_
    rcases hdetail with rfl | rfl <;> nofun
  · intro f hf raw
    have hlast : ("detail", detail) = f := by
      simpa [queryFields, List.getLast?_append] using hf
    subst hlast
    rcases hdetail with rfl | rfl <;> nofun

end VibeAudit.Hooks
