import VibeAudit.Forwarder.Sensitive

/-!
# `walcapture.rs`

From a line of `test_decoding` output to the event for the channel: the line is
cut at its first two colons, the rest is split at whitespace and read column by
column, the columns become the documents of the old and the new row, and what
the registry says of the changed fields is redacted in both documents.
`serde_json::from_str` and the clock are parameters.
-/

namespace VibeAudit.Forwarder

open Foundation Json

structure ParsedColumn where
  name : String
  value : String
  isOld : Bool
  deriving DecidableEq, Repr

/-- The tuple that `parse_change_line` returns. -/
structure ChangeLine where
  commandTag : String
  schema : String
  table : String
  columns : List ParsedColumn
  deriving DecidableEq, Repr

/-- The value without its closing quote, if it ends in a quote that is not doubled. -/
def closedValue (value : List Char) : Option (List Char) :=
  if Text.endsWith '\'' value && !Text.endsWith '\'' value.dropLast then some value.dropLast
  else none

/-- The loop that reads a quoted value, with the parts behind it; it returns the parts it
leaves. Parts are joined by one space each. -/
def readQuoted (value : List Char) : List (List Char) → List Char × List (List Char)
  | [] => ((closedValue value).getD (value.rdropWhile (· == '\'')), [])
  | part :: parts =>
    match closedValue value with
    | some trimmed => (trimmed, part :: parts)
    | none => readQuoted (value ++ ' ' :: part) parts

/-- The loop over the parts; each round consumes one part at least, so their number is fuel
enough. -/
def parseParts : Nat → Bool → List (List Char) → List ParsedColumn
  | 0, _, _ => []
  | _ + 1, _, [] => []
  | fuel + 1, isOld, part :: parts =>
    if part = "old-key:".toList then parseParts fuel true parts
    else if part = "new-tuple:".toList then parseParts fuel false parts
    else
      match Text.cutAt '[' part with
      | none => parseParts fuel isOld parts
      | some (name, restOfCol) =>
        match Text.cutAt ':' restOfCol with
        | none => parseParts fuel isOld parts
        | some (_, value) =>
          if value.head? = some '\'' then
            let (value, parts) := readQuoted value.tail parts
            { name := String.ofList name, value := String.ofList (Text.undouble '\'' value)
              isOld := isOld } :: parseParts fuel isOld parts
          else
            { name := String.ofList name, value := String.ofList value
              isOld := isOld } :: parseParts fuel isOld parts

def parseColumnValues (data : List Char) : List ParsedColumn :=
  let parts := Text.splitWhitespace data
  parseParts parts.length false parts

def parseChangeLine (data : String) : Option ChangeLine := do
  let afterTable ← Text.stripPrefix? "table ".toList (Text.trim data.toList)
  let (fullTable, afterFirstColon) ← Text.cutAt ':' afterTable
  let fullTable := Text.trim fullTable
  let (command, colData) ← Text.cutAt ':' (Text.trim afterFirstColon)
  let (schema, table) := (Text.cutAt '.' fullTable).getD ("public".toList, fullTable)
  return {
    commandTag := String.ofList (Text.trim command)
    schema := String.ofList schema
    table := String.ofList table
    columns := parseColumnValues (Text.trim colData) }

section

variable (fromStr : String → Option Value)

/-- The member `insert_column_value` writes for a column. -/
def columnValue (col : ParsedColumn) : Value :=
  if col.value = "null" then .null
  else
    match fromStr col.value with
    | some parsed =>
      if col.name = "data" ∨ parsed.isObject = true ∨ parsed.isArray = true then parsed
      else .string col.value
    | none => .string col.value

def insertColumnValue (m : Map) (col : ParsedColumn) : Map :=
  SortedMap.insert m col.name (columnValue fromStr col)

def columnsToJsonb (columns : List ParsedColumn) : Value :=
  .object (columns.foldl (insertColumnValue fromStr) [])

/-- The documents of the old and the new row. -/
def rowDocs (commandTag : String) (columns : List ParsedColumn) :
    Option (Option Value × Option Value) :=
  if commandTag = "INSERT" then some (none, some (columnsToJsonb fromStr columns))
  else if commandTag = "UPDATE" then
    let oldCols := columns.filter (·.isOld)
    let newCols := columns.filter (!·.isOld)
    some (if oldCols.isEmpty then none else some (columnsToJsonb fromStr oldCols),
      some (columnsToJsonb fromStr newCols))
  else if commandTag = "DELETE" then some (some (columnsToJsonb fromStr columns), none)
  else none

def changedFieldsOf : Option Value → Option Value → List String
  | some old, some new => diffFields old new
  | none, some new => allFields new
  | some old, none => allFields old
  | none, none => []

def buildDataChangeEvent (now commandTag schema table : String) (oldData newData : Option Value)
    (changedFields : List String) (sensitiveMatches : List SensitiveMatch) (xid lsn : String) :
    Value :=
  .obj [
    ("event_type", .string "DATA_CHANGE"), ("event_time", .string now), ("success", .bool true),
    ("session_user", .null), ("client_addr", .null), ("client_port", .null), ("database", .null),
    ("pid", .null), ("application", .string "vibe_audit_forwarder"),
    ("command_tag", .string commandTag), ("object_type", .string "TABLE"),
    ("object_name", .string table), ("schema_name", .string schema), ("query_text", .null),
    ("sqlstate", .null),
    ("detail", .obj [
      ("source", .string "wal"), ("xid", .string xid), ("lsn", .string lsn),
      ("old_data", oldData.getD .null), ("new_data", newData.getD .null),
      ("changed_fields", .array (changedFields.map .string)),
      ("sensitive_fields_touched", .array (sensitiveMatches.map fun m => .string m.jsonPath))])]

/-- The event for a parsed line; `none` for a command that is not captured. -/
def changeEvent (registry : SensitiveFieldRegistry) (now xid lsn : String) (line : ChangeLine) :
    Option Value := do
  let (oldData, newData) ← rowDocs fromStr line.commandTag line.columns
  let changedFields := changedFieldsOf oldData newData
  let found := registry.detect line.schema line.table changedFields
  let redactIn := fun doc : Value =>
    if found.isEmpty then doc else SensitiveFieldRegistry.redact doc found
  return buildDataChangeEvent now line.commandTag line.schema line.table (oldData.map redactIn)
    (newData.map redactIn) changedFields found xid lsn

def parseTestDecoding (registry : SensitiveFieldRegistry) (now data xid lsn : String) :
    Option (List Value) := do
  if "BEGIN".toList.isPrefixOf data.toList || "COMMIT".toList.isPrefixOf data.toList then none
  else
    let line ← parseChangeLine data
    let event ← changeEvent fromStr registry now xid lsn line
    return [event]

end

/-- The line of the repository's own test of doubled quotes. -/
example : parseChangeLine "table public.users: INSERT: id[integer]:1 name[text]:'O''Brien'" =
    some {
      commandTag := "INSERT", schema := "public", table := "users"
      columns := [⟨"id", "1", false⟩, ⟨"name", "O'Brien", false⟩] } := by
  decide +kernel

/-- The event of a captured line is an object with its own type and the given time. -/
theorem exists_changeEvent (fromStr : String → Option Value) (registry : SensitiveFieldRegistry)
    (now xid lsn : String) (line : ChangeLine)
    (h : (rowDocs fromStr line.commandTag line.columns).isSome = true) :
    ∃ event, changeEvent fromStr registry now xid lsn line = some event ∧
      event.isObject = true ∧ event.get? "event_type" = some (.string "DATA_CHANGE") ∧
      event.get? "event_time" = some (.string now) := by
  obtain ⟨docs, hdocs⟩ := Option.isSome_iff_exists.mp h
  refine ⟨_, by simp only [changeEvent, hdocs]; rfl, rfl, ?_, ?_⟩
  · simp [buildDataChangeEvent, Value.get?_obj, SortedMap.get?_cons]
  · simp [buildDataChangeEvent, Value.get?_obj, SortedMap.get?_cons]

/-! ## Lines that parse -/

/-- A line that parses begins neither with BEGIN nor with COMMIT. -/
theorem parseChangeLine_eq_none {c : Char} {s : List Char} {data : String}
    (hdata : data.toList = c :: s) (hws : Text.isWhitespace c = false) (hc : c ≠ 't') :
    parseChangeLine data = none := by
  obtain ⟨t, ht⟩ := Text.trim_cons hws s
  have hstrip : Text.stripPrefix? "table ".toList (c :: t) = none := by
    simp [Text.stripPrefix?, hc.symm]
  rw [parseChangeLine, hdata, ht, hstrip]
  rfl

theorem parseTestDecoding_of_line (fromStr : String → Option Value)
    (registry : SensitiveFieldRegistry) (now xid lsn : String) {data : String} {line : ChangeLine}
    (h : parseChangeLine data = some line) :
    parseTestDecoding fromStr registry now data xid lsn =
      (changeEvent fromStr registry now xid lsn line).map fun event => [event] := by
  have hstart : ∀ (c : Char) (word : List Char), Text.isWhitespace c = false → c ≠ 't' →
      (c :: word).isPrefixOf data.toList = false := by
    intro c word hws hc
    by_contra hbegins
    have hword : c :: word <+: data.toList := by simpa using hbegins
    obtain ⟨rest, hrest⟩ := hword
    rw [parseChangeLine_eq_none hrest.symm hws hc] at h
    cases h
  have hbegin : "BEGIN".toList.isPrefixOf data.toList = false :=
    hstart 'B' _ (by decide) (by decide)
  have hcommit : "COMMIT".toList.isPrefixOf data.toList = false :=
    hstart 'C' _ (by decide) (by decide)
  rw [parseTestDecoding, hbegin, hcommit, h, Bool.or_self, if_neg Bool.false_ne_true,
    Option.bind_eq_bind, Option.bind_some]
  cases changeEvent fromStr registry now xid lsn line <;> rfl

/-! ## Lines in the layout of `test_decoding` -/

/-- A line that names a table and a command parses to them and to the columns of the rest. -/
theorem parseChangeLine_layout {data : String} {fullTable command cols : List Char}
    (hdata : data.toList = "table ".toList ++ (fullTable ++ ':' :: ' ' :: (command ++ ':' :: cols)))
    (htable : ':' ∉ fullTable) (htableTrim : Text.trim fullTable = fullTable)
    (hcommand : ':' ∉ command) (hcommandTrim : Text.trim command = command) :
    parseChangeLine data = some {
      commandTag := String.ofList command
      schema := String.ofList ((Text.cutAt '.' fullTable).getD ("public".toList, fullTable)).1
      table := String.ofList ((Text.cutAt '.' fullTable).getD ("public".toList, fullTable)).2
      columns := parseColumnValues (Text.trim cols) } := by
  have hcolon : Text.isWhitespace ':' = false := by decide
  have hline : Text.trim data.toList = "table ".toList ++
      (fullTable ++ ':' :: ' ' :: (command ++ ':' :: cols.rdropWhile Text.isWhitespace)) := by
    have hstart : data.toList.dropWhile Text.isWhitespace = data.toList := by
      rw [hdata]
      exact List.dropWhile_cons_of_neg (by decide)
    have hsplit : data.toList =
        ("table ".toList ++ (fullTable ++ ':' :: ' ' :: command)) ++ ':' :: cols := by
      rw [hdata]
      simp only [List.append_assoc, List.cons_append]
    rw [Text.trim, hstart, hsplit, Text.rdropWhile_append_cons hcolon]
    simp only [List.append_assoc, List.cons_append]
  have hrest : Text.trim (' ' :: (command ++ ':' :: cols.rdropWhile Text.isWhitespace)) =
      command ++ ':' :: (cols.rdropWhile Text.isWhitespace).rdropWhile Text.isWhitespace := by
    rw [Text.trim_cons_space, Text.trim_append_cons hcommandTrim hcolon]
  have hcols : Text.trim ((cols.rdropWhile Text.isWhitespace).rdropWhile Text.isWhitespace) =
      Text.trim cols := by
    rw [Text.trim_rdropWhile, Text.trim_rdropWhile]
  simp only [parseChangeLine, hline, Text.stripPrefix?_append, Text.cutAt_append htable,
    Text.cutAt_append hcommand, hrest, htableTrim, hcommandTrim, hcols, Option.bind_eq_bind,
    Option.bind_some, Option.pure_def]

end VibeAudit.Forwarder
