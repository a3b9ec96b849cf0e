import Mathlib.Data.List.Find
import VibeAudit.Foundation.Text
import VibeAudit.Json.Value

/-!
# `sensitive.rs`

The registry of sensitive fields, the matches it reports for the changed fields
of a change, and the redaction of a document. What `detect` reports for a field
depends on that field alone, `Registry.flag`; what `redact` leaves under a key
depends on whether some match to redact names the key.
-/

namespace VibeAudit.Forwarder

open Foundation Json

structure SensitiveMatch where
  jsonPath : String
  redact : Bool
  deriving DecidableEq, Repr

structure DbSensitiveField where
  jsonPath : String
  redactInLog : Bool
  deriving DecidableEq, Repr

/-- The global list, and the cached entries by `schema.table`. -/
structure SensitiveFieldRegistry where
  globalFields : List String
  dbFields : SortedMap String (List DbSensitiveField)

/-- A row of `vibe_audit.sensitive_fields`, in the columns `refresh_cache` selects. -/
structure SensitiveFieldRow where
  schemaName : String
  tableName : String
  jsonPath : String
  redactInLog : Bool

/-- `trim_start_matches("$.")`. -/
def trimPath (path : String) : String := String.ofList (Text.trimStartPair '$' '.' path.toList)

def tableKey (schema table : String) : String := schema ++ "." ++ table

/-- The string that replaces a value. -/
def redacted : Value := .string "[REDACTED]"

namespace SensitiveFieldRegistry

def new (globalFieldsCsv : String) : SensitiveFieldRegistry where
  globalFields :=
    ((globalFieldsCsv.toList.splitOnP (· == ',')).map fun s => String.ofList (Text.trim s)).filter
      fun s => !s.isEmpty
  dbFields := []

/-- `map.entry(key).or_default().push(field)`. -/
def pushRow (m : SortedMap String (List DbSensitiveField)) (row : SensitiveFieldRow) :
    SortedMap String (List DbSensitiveField) :=
  let key := tableKey row.schemaName row.tableName
  SortedMap.insert m key
    ((SortedMap.get? m key).getD [] ++
      [{ jsonPath := row.jsonPath, redactInLog := row.redactInLog }])

/-- `refresh_cache`, with the rows of the query or `none` when the connection or the query
fails. -/
def refreshCache (r : SensitiveFieldRegistry) : Option (List SensitiveFieldRow) →
    SensitiveFieldRegistry
  | none => r
  | some rows => { r with dbFields := rows.foldl pushRow [] }

/-- The test of the first loop of `detect`. -/
def isGlobal (r : SensitiveFieldRegistry) (field : String) : Bool :=
  r.globalFields.any fun g => g == trimPath field || g == field

def pushGlobal (r : SensitiveFieldRegistry) (found : List SensitiveMatch) (field : String) :
    List SensitiveMatch :=
  if r.isGlobal field then found ++ [{ jsonPath := field, redact := true }] else found

/-- The test of the inner loop of `detect` that compares an entry with a field. -/
def names (dbField : DbSensitiveField) (field : String) : Bool :=
  trimPath dbField.jsonPath == trimPath field || trimPath dbField.jsonPath == field

def pushDb (field : String) (found : List SensitiveMatch) (dbField : DbSensitiveField) :
    List SensitiveMatch :=
  if names dbField field then
    if found.any fun m => m.jsonPath == field then found
    else found ++ [{ jsonPath := field, redact := dbField.redactInLog }]
  else found

def entries (r : SensitiveFieldRegistry) (schema table : String) : List DbSensitiveField :=
  (SortedMap.get? r.dbFields (tableKey schema table)).getD []

def detect (r : SensitiveFieldRegistry) (schema table : String) (changedFields : List String) :
    List SensitiveMatch :=
  let found := changedFields.foldl r.pushGlobal []
  changedFields.foldl (fun found field => (r.entries schema table).foldl (pushDb field) found) found

def redactOne (m : Map) (found : SensitiveMatch) : Map :=
  if !found.redact then m
  else
    let key := trimPath found.jsonPath
    if SortedMap.containsKey m key then SortedMap.insert m key redacted else m

def redact (doc : Value) (found : List SensitiveMatch) : Value :=
  match doc with
  | .object m => .object (found.foldl redactOne m)
  | doc => doc

/-- What the registry says of a field of a table: nothing, or whether to redact it. -/
def flag (r : SensitiveFieldRegistry) (schema table field : String) : Option Bool :=
  if r.isGlobal field then some true
  else ((r.entries schema table).find? (names · field)).map DbSensitiveField.redactInLog

end SensitiveFieldRegistry

/-- Two members are the same if both are absent or both are there and equal. -/
def sameMember : Option Value → Option Value → Bool
  | some a, some b => a.eqv b
  | none, none => true
  | _, _ => false

def diffFields (old new : Value) : List String :=
  match old, new with
  | .object oldMap, .object newMap =>
    ((newMap.filter fun p => !sameMember (SortedMap.get? oldMap p.1) (some p.2)).map Prod.fst) ++
      (SortedMap.keys oldMap).filter fun key => !SortedMap.containsKey newMap key
  | _, _ => []

def allFields : Value → List String
  | .object m => SortedMap.keys m
  | _ => []

/-! ## What is detected -/

theorem trimPath_idem (path : String) : trimPath (trimPath path) = trimPath path := by
  simp [trimPath, Text.trimStartPair_idem]

namespace SensitiveFieldRegistry

variable (r : SensitiveFieldRegistry) (schema table : String)

/-- The first loop of `detect` finds the global ones among the fields. -/
theorem mem_foldl_pushGlobal (fields : List String) (found : List SensitiveMatch)
    (m : SensitiveMatch) :
    m ∈ fields.foldl r.pushGlobal found ↔
      m ∈ found ∨ (m.jsonPath ∈ fields ∧ r.isGlobal m.jsonPath = true ∧ m.redact = true) := by
  induction fields generalizing found with
  | nil => simp
  | cons field fields ih =>
    rw [List.foldl_cons, ih, List.mem_cons]
    obtain ⟨path, red⟩ := m
    by_cases hglobal : r.isGlobal field = true
    · simp only [pushGlobal, hglobal, if_true, List.mem_append, List.mem_singleton,
        SensitiveMatch.mk.injEq]
      grind
    · simp only [pushGlobal, hglobal, if_false, Bool.false_eq_true]
      grind

/-- The inner loop adds the first entry that names the field, unless the field is found already. -/
theorem foldl_pushDb (field : String) (entries : List DbSensitiveField)
    (found : List SensitiveMatch) :
    entries.foldl (pushDb field) found =
      if found.any fun m => m.jsonPath == field then found
      else found ++ ((entries.find? (names · field)).map fun d =>
        { jsonPath := field, redact := d.redactInLog : SensitiveMatch }).toList := by
  induction entries generalizing found with
  | nil => simp
  | cons d entries ih =>
    rw [List.foldl_cons, ih]
    by_cases hfound : found.any (fun m => m.jsonPath == field) = true
    · have hkeep : pushDb field found d = found := by simp [pushDb, hfound]
      rw [hkeep, if_pos hfound, if_pos hfound]
    · by_cases hnames : names d field = true
      · have hpush : pushDb field found d =
            found ++ [{ jsonPath := field, redact := d.redactInLog }] := by
          simp [pushDb, hnames, hfound]
        rw [hpush, if_pos (by simp), if_neg hfound,
          List.find?_cons_of_pos (p := (names · field)) hnames]
        rfl
      · have hkeep : pushDb field found d = found := by simp [pushDb, hnames]
        rw [hkeep, if_neg hfound, if_neg hfound,
          List.find?_cons_of_neg (p := (names · field)) hnames]

/-- The outer loop reports a field by its first entry, unless it was found before. -/
theorem mem_foldl_pushDb (entries : List DbSensitiveField) (fields : List String)
    (found : List SensitiveMatch) (m : SensitiveMatch) :
    m ∈ fields.foldl (fun found field => entries.foldl (pushDb field) found) found ↔
      m ∈ found ∨ (m.jsonPath ∈ fields ∧ (∀ m' ∈ found, m'.jsonPath ≠ m.jsonPath) ∧
        (entries.find? (names · m.jsonPath)).map DbSensitiveField.redactInLog =
          some m.redact) := by
  induction fields generalizing found with
  | nil => simp
  | cons field fields ih =>
    obtain ⟨path, red⟩ := m
    rw [List.foldl_cons, ih, foldl_pushDb, List.mem_cons]
    by_cases hfound : found.any (fun m => m.jsonPath == field) = true
    · rw [if_pos hfound]
      have hsome : ∃ m ∈ found, m.jsonPath = field := by simpa using hfound
      grind
    · have hnone : ∀ m ∈ found, m.jsonPath ≠ field := by simpa using hfound
      rw [if_neg hfound]
      cases hfind : entries.find? (names · field) with
      | none => grind
      | some d => grind [Option.toList_some]

/-- A field is reported exactly when it changed and the registry has a flag for it. -/
theorem mem_detect_iff (changedFields : List String) (m : SensitiveMatch) :
    m ∈ r.detect schema table changedFields ↔
      m.jsonPath ∈ changedFields ∧ r.flag schema table m.jsonPath = some m.redact := by
  rw [detect, mem_foldl_pushDb, mem_foldl_pushGlobal]
  simp only [mem_foldl_pushGlobal, List.not_mem_nil, false_or, flag]
  by_cases hglobal : r.isGlobal m.jsonPath = true
  · rw [if_pos hglobal, Option.some.injEq]
    constructor
    · rintro (⟨hmem, -, hred⟩ | ⟨hmem, hnew, -⟩)
      · exact ⟨hmem, hred.symm⟩
      · exact absurd rfl (hnew ⟨m.jsonPath, true⟩ ⟨hmem, hglobal, rfl⟩)
    · rintro ⟨hmem, hred⟩
      exact .inl ⟨hmem, hglobal, hred.symm⟩
  · rw [if_neg hglobal]
    constructor
    · rintro (⟨-, h, -⟩ | ⟨hmem, -, hentry⟩)
      · exact absurd h hglobal
      · exact ⟨hmem, hentry⟩
    · rintro ⟨hmem, hentry⟩
      refine .inr ⟨hmem, ?_, hentry⟩
      rintro m' ⟨-, hm', -⟩ heq
      exact hglobal (heq ▸ hm')

/-- The cached entries of a table are its rows, in the order of the query. -/
theorem entries_refreshCache (rows : List SensitiveFieldRow) :
    (r.refreshCache (some rows)).entries schema table =
      (rows.filter fun row => tableKey row.schemaName row.tableName = tableKey schema table).map
        fun row => { jsonPath := row.jsonPath, redactInLog := row.redactInLog } := by
  have hfold : ∀ m : SortedMap String (List DbSensitiveField),
      (SortedMap.get? (rows.foldl pushRow m) (tableKey schema table)).getD [] =
        (SortedMap.get? m (tableKey schema table)).getD [] ++
          (rows.filter fun row => tableKey row.schemaName row.tableName = tableKey schema table).map
            fun row => { jsonPath := row.jsonPath, redactInLog := row.redactInLog } := by
    induction rows with
    | nil => simp
    | cons row rows ih =>
      intro m
      rw [List.foldl_cons, ih, pushRow, SortedMap.get?_insert]
      by_cases hkey : tableKey row.schemaName row.tableName = tableKey schema table
      · simp [hkey]
      · simp [hkey, Ne.symm hkey]
  exact hfold []

/-- A row of the registry that `detect` takes for the field of the table. -/
def marks (row : SensitiveFieldRow) (field : String) : Bool :=
  tableKey row.schemaName row.tableName == tableKey schema table &&
    names { jsonPath := row.jsonPath, redactInLog := row.redactInLog } field

/-- After a load the first row that marks a field speaks for it. -/
theorem flag_refreshCache (rows : List SensitiveFieldRow) (field : String) :
    (r.refreshCache (some rows)).flag schema table field =
      if r.isGlobal field then some true
      else (rows.find? (marks schema table · field)).map SensitiveFieldRow.redactInLog := by
  have hglobal : (r.refreshCache (some rows)).isGlobal field = r.isGlobal field := rfl
  have hfirst : ((r.refreshCache (some rows)).entries schema table).find? (names · field) =
      (rows.find? (marks schema table · field)).map fun row =>
        { jsonPath := row.jsonPath, redactInLog := row.redactInLog } := by
    rw [entries_refreshCache, List.find?_map, List.find?_filter]
    refine congrArg _ (List.find?_congr fun row _ => ?_)
    rw [Bool.eq_iff_iff]
    simp [marks]
  rw [flag, hglobal, hfirst, Option.map_map]
  rfl

/-- A field named by a row of the table is reported when it changed. -/
theorem exists_mem_detect {rows : List SensitiveFieldRow} {row : SensitiveFieldRow}
    (hrow : row ∈ rows) (hschema : row.schemaName = schema) (htable : row.tableName = table)
    {changedFields : List String} (hmem : row.jsonPath ∈ changedFields) :
    ∃ m ∈ (r.refreshCache (some rows)).detect schema table changedFields,
      m.jsonPath = row.jsonPath := by
  obtain ⟨red, hflag⟩ : ∃ red, (r.refreshCache (some rows)).flag schema table row.jsonPath =
      some red := by
    rw [← Option.isSome_iff_exists, flag]
    split_ifs
    · rfl
    · rw [Option.isSome_map, List.find?_isSome, entries_refreshCache]
      refine ⟨_, List.mem_map_of_mem (List.mem_filter.mpr ⟨hrow, ?_⟩), ?_⟩
      · rw [hschema, htable]
        exact decide_eq_true rfl
      · simp [names]
  exact ⟨⟨row.jsonPath, red⟩, (mem_detect_iff _ _ _ _ _).mpr ⟨hmem, hflag⟩, rfl⟩

/-- What the registry demands of a name it demands of the name with `$.` in front. -/
theorem flag_of_flag_trimPath {field : String}
    (h : r.flag schema table (trimPath field) = some true) :
    r.flag schema table field = some true := by
  by_cases hfield : trimPath field = field
  · rwa [hfield] at h
  · unfold flag at h ⊢
    by_cases hglobal : r.isGlobal field = true
    · rw [if_pos hglobal]
    · have hglobal' : r.isGlobal (trimPath field) ≠ true := by
        intro htrim
        refine hglobal ?_
        simp only [isGlobal, trimPath_idem, Bool.or_self, List.any_eq_true] at htrim ⊢
        obtain ⟨g, hg, heq⟩ := htrim
        exact ⟨g, hg, by simp [heq]⟩
      have hnames : (names · (trimPath field)) = (names · field) := by
        funext d
        have hne : trimPath d.jsonPath ≠ field := by
          intro heq
          exact hfield (by rw [← heq, trimPath_idem])
        simp [names, trimPath_idem, hne]
      rw [if_neg hglobal', hnames] at h
      rw [if_neg hglobal]
      exact h

/-! ## What is redacted -/

/-- Redacting for one match replaces the value under its path, if there is one. -/
theorem get?_redactOne (m : Map) (found : SensitiveMatch) (key : String) :
    SortedMap.get? (redactOne m found) key =
      if found.redact = true ∧ trimPath found.jsonPath = key then
        (SortedMap.get? m key).map fun _ => redacted
      else SortedMap.get? m key := by
  unfold redactOne
  by_cases hred : found.redact = true
  · simp only [hred, Bool.not_true, Bool.false_eq_true, if_false, true_and]
    by_cases hkey : trimPath found.jsonPath = key
    · subst hkey
      cases hget : SortedMap.get? m (trimPath found.jsonPath) with
      | none => simp [SortedMap.containsKey, hget]
      | some v => simp [SortedMap.containsKey, hget, SortedMap.get?_insert_self]
    · rw [if_neg hkey]
      split_ifs
      · exact SortedMap.get?_insert_of_ne m redacted (Ne.symm hkey)
      · rfl
  · simp [hred]

/-- `found` asks for the value under `key` to be redacted. -/
def Demands (found : List SensitiveMatch) (key : String) : Prop :=
  ∃ m ∈ found, m.redact = true ∧ trimPath m.jsonPath = key

/-- Redaction replaces exactly the values under the keys that some match demands. -/
theorem get?_redact (doc : Value) (found : List SensitiveMatch) (key : String) :
    (Demands found key → (redact doc found).get? key = (doc.get? key).map fun _ => redacted) ∧
      (¬ Demands found key → (redact doc found).get? key = doc.get? key) := by
  cases doc with
  | object m =>
    simp only [redact, Value.get?_object]
    induction found generalizing m with
    | nil => simp [Demands]
    | cons f found ih =>
      obtain ⟨hyes, hno⟩ := ih (redactOne m f)
      rw [List.foldl_cons]
      rw [get?_redactOne] at hyes hno
      have hcons : Demands (f :: found) key ↔
          (f.redact = true ∧ trimPath f.jsonPath = key) ∨ Demands found key := by
        simp [Demands]
      rw [hcons]
      by_cases hf : f.redact = true ∧ trimPath f.jsonPath = key
      · rw [if_pos hf] at hyes hno
        refine ⟨fun _ => ?_, fun h => absurd (Or.inl hf) h⟩
        by_cases hrest : Demands found key
        · rw [hyes hrest, Option.map_map]
          rfl
        · exact hno hrest
      · rw [if_neg hf] at hyes hno
        simp only [hf, false_or]
        exact ⟨hyes, hno⟩
  | null | bool | number | string | array => simp [redact, Value.get?]

end SensitiveFieldRegistry

/-! ## What changed -/

theorem sameMember_none_left (new : Option Value) :
    sameMember none new = false ↔ new.isSome = true := by
  cases new <;> simp [sameMember]

theorem sameMember_none_right (old : Option Value) :
    sameMember old none = false ↔ old.isSome = true := by
  cases old <;> simp [sameMember]

theorem mem_allFields_iff (doc : Value) (key : String) :
    key ∈ allFields doc ↔ (doc.get? key).isSome = true := by
  cases doc with
  | object m => exact SortedMap.mem_keys_iff m key
  | null | bool | number | string | array => simp [allFields, Value.get?]

/-- Two documents differ in exactly the members `diff_fields` names. -/
theorem mem_diffFields_iff {m n : Map} (hn : SortedMap.Sorted n) (key : String) :
    key ∈ diffFields (.object m) (.object n) ↔
      sameMember (SortedMap.get? m key) (SortedMap.get? n key) = false := by
  simp only [diffFields, List.mem_append, List.mem_map, List.mem_filter, SortedMap.mem_keys_iff,
    SortedMap.containsKey]
  constructor
  · rintro (⟨⟨k, v⟩, ⟨hmem, hdiff⟩, rfl⟩ | ⟨hold, hnew⟩)
    · rw [SortedMap.get?_of_mem hn hmem]
      simpa using hdiff
    · have hnone : SortedMap.get? n key = none := by simpa using hnew
      obtain ⟨v, hv⟩ := Option.isSome_iff_exists.mp hold
      simp [hnone, hv, sameMember]
  · intro hdiff
    cases hnew : SortedMap.get? n key with
    | some v =>
      refine .inl ⟨(key, v), ⟨SortedMap.mem_of_get? hnew, ?_⟩, rfl⟩
      rw [hnew] at hdiff
      simp [hdiff]
    | none =>
      rw [hnew] at hdiff
      cases hold : SortedMap.get? m key with
      | none => simp [hold, sameMember] at hdiff
      | some v => exact .inr ⟨rfl, rfl⟩

end VibeAudit.Forwarder
