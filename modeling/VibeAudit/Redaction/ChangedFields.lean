import Mathlib.Data.List.Nodup
import VibeAudit.Decoding.Names
import VibeAudit.Redaction.Columns

/-!
# Which fields an UPDATE changed

Two rows over the same columns are printed as an UPDATE with the whole old row.
The forwarder compares what it makes of the printed values: NULL is the text
`null`, runs of whitespace are one blank each, and documents are compared as
such. So it reports the columns that differ exactly if it takes no two different
values for the same, and no two writings of one JSON value for different ones.
-/

namespace VibeAudit.Redaction

open Foundation Json Forwarder Decoding

/-! ## The rows -/

inductive ColumnType where
  | text
  | jsonb
  deriving DecidableEq, Repr

def ColumnType.print : ColumnType → List Char
  | .text => "text".toList
  | .jsonb => "jsonb".toList

/-- A column with its values in the old and in the new row; `none` is NULL. -/
structure ColumnChange where
  name : List Char
  type : ColumnType
  old : Option (List Char)
  new : Option (List Char)
  deriving DecidableEq, Repr

def printNullable : Option (List Char) → PrintedValue
  | none => .bare "null".toList
  | some v => .quoted v

def ColumnChange.oldColumn (c : ColumnChange) : PrintedColumn :=
  ⟨c.name, c.type.print, printNullable c.old⟩

def ColumnChange.newColumn (c : ColumnChange) : PrintedColumn :=
  ⟨c.name, c.type.print, printNullable c.new⟩

def updateOf (table : TableName) (row : List ColumnChange) : Change :=
  .update table (some (row.map ColumnChange.oldColumn)) (some (row.map ColumnChange.newColumn))

/-- The names are plain and distinct. -/
structure Named (row : List ColumnChange) : Prop where
  plain : ∀ c ∈ row, isPlain c.name = true
  distinct : (row.map ColumnChange.name).Nodup

/-- No value ends in a single quote. -/
def Closed (row : List ColumnChange) : Prop :=
  ∀ c ∈ row, (printNullable c.old).isClosed = true ∧ (printNullable c.new).isClosed = true

/-- The two values are the same: both NULL, or equal as texts, or as JSON values. -/
def ColumnChange.Same {J : Type*} (jsonb : List Char → J) (c : ColumnChange) : Prop :=
  match c.old, c.new, c.type with
  | none, none, _ => True
  | some v, some w, .text => v = w
  | some v, some w, .jsonb => jsonb v = jsonb w
  | _, _, _ => False

/-! ## What the forwarder compares -/

def shown : Option (List Char) → List Char
  | none => "null".toList
  | some v => Text.blankRuns v

section

variable (fromStr : String → Option Value)

/-- The document that a text stands for: null, an object or an array, and any JSON in a column
named `data`. -/
def document (name text : List Char) : Option Value :=
  if text = "null".toList then some .null
  else (fromStr (String.ofList text)).filter fun d =>
    name == "data".toList || d.isObject || d.isArray

/-- The forwarder takes the two values for the same. -/
def ColumnChange.Alike (c : ColumnChange) : Prop :=
  match document fromStr c.name (shown c.old), document fromStr c.name (shown c.new) with
  | some d, some e => d.eqv e = true
  | some d, none => d = .string (String.ofList (shown c.new))
  | none, some e => e = .string (String.ofList (shown c.old))
  | none, none => shown c.old = shown c.new

theorem columnValue_eq (name text : List Char) (isOld : Bool) :
    columnValue fromStr ⟨String.ofList name, String.ofList text, isOld⟩ =
      (document fromStr name text).getD (.string (String.ofList text)) := by
  have hnull : String.ofList text = "null" ↔ text = "null".toList := by
    rw [← String.toList_inj, String.toList_ofList]
  have hdata : String.ofList name = "data" ↔ name = "data".toList := by
    rw [← String.toList_inj, String.toList_ofList]
  rw [columnValue, document]
  simp only [hnull]
  split_ifs with htext
  · rfl
  · cases fromStr (String.ofList text) with
    | none => rfl
    | some d =>
      simp only [hdata, Option.filter_some, beq_iff_eq, Bool.or_eq_true, or_assoc]
      split_ifs <;> rfl

theorem eqv_string_iff (d : Value) (s : String) : d.eqv (.string s) = true ↔ d = .string s := by
  cases d <;> simp [Value.eqv]

theorem string_eqv_iff (d : Value) (s : String) :
    (Value.string s).eqv d = true ↔ d = .string s := by
  cases d with
  | string t => simpa [Value.eqv] using eq_comm
  | _ => simp [Value.eqv]

theorem ColumnChange.parsed_oldColumn (c : ColumnChange) : c.oldColumn.parsed true =
    ⟨String.ofList c.name, String.ofList (shown c.old), true⟩ := by
  cases hold : c.old with
  | none => simp [PrintedColumn.parsed, oldColumn, printNullable, PrintedValue.parsed, shown, hold]
  | some v =>
    simp [PrintedColumn.parsed, oldColumn, printNullable, PrintedValue.parsed, shown, hold,
      Text.collapse_eq_blankRuns]

theorem ColumnChange.parsed_newColumn (c : ColumnChange) : c.newColumn.parsed false =
    ⟨String.ofList c.name, String.ofList (shown c.new), false⟩ := by
  cases hnew : c.new with
  | none => simp [PrintedColumn.parsed, newColumn, printNullable, PrintedValue.parsed, shown, hnew]
  | some v =>
    simp [PrintedColumn.parsed, newColumn, printNullable, PrintedValue.parsed, shown, hnew,
      Text.collapse_eq_blankRuns]

theorem ColumnChange.alike_iff (c : ColumnChange) : c.Alike fromStr ↔
    sameMember (some (columnValue fromStr (c.oldColumn.parsed true)))
      (some (columnValue fromStr (c.newColumn.parsed false))) = true := by
  rw [parsed_oldColumn, parsed_newColumn, columnValue_eq, columnValue_eq, sameMember, Alike]
  cases document fromStr c.name (shown c.old) <;> cases document fromStr c.name (shown c.new)
  · simp [eqv_string_iff, String.ofList_inj]
  · simp [string_eqv_iff]
  · simp [eqv_string_iff]
  · rfl

instance (c : ColumnChange) : Decidable (c.Alike fromStr) :=
  decidable_of_iff _ (c.alike_iff fromStr).symm

/-- The cell of a column of the row, where the names are distinct. -/
theorem cell_map {row : List ColumnChange} (hnames : Named row) {f : ColumnChange → ParsedColumn}
    (hf : ∀ c, (f c).name = String.ofList c.name) {c : ColumnChange} (hc : c ∈ row) :
    cell fromStr (row.map f) (String.ofList c.name) = some (columnValue fromStr (f c)) := by
  have hfind : (row.map f).reverse.find? (·.name == String.ofList c.name) = some (f c) := by
    have hsome : ((row.map f).reverse.find? (·.name == String.ofList c.name)).isSome = true := by
      rw [List.find?_isSome]
      exact ⟨f c, by simpa using ⟨c, hc, rfl⟩, by simp [hf]⟩
    obtain ⟨x, hx⟩ := Option.isSome_iff_exists.mp hsome
    have hname := List.find?_some hx
    have hmem := List.mem_of_find?_eq_some hx
    rw [List.mem_reverse] at hmem
    obtain ⟨d, hd, rfl⟩ := List.mem_map.mp hmem
    have heq : d.name = c.name := by
      simpa [hf, String.ofList_inj] using hname
    rw [hx, List.inj_on_of_nodup_map hnames.distinct hd hc heq]
  rw [cell, hfind, Option.map_some]

theorem cell_map_none {row : List ColumnChange} {f : ColumnChange → ParsedColumn}
    (hf : ∀ c, (f c).name = String.ofList c.name) {name : String}
    (h : ∀ c ∈ row, String.ofList c.name ≠ name) : cell fromStr (row.map f) name = none := by
  have hfind : (row.map f).reverse.find? (·.name == name) = none := by
    rw [List.find?_eq_none]
    intro x hx
    rw [List.mem_reverse] at hx
    obtain ⟨d, hd, rfl⟩ := List.mem_map.mp hx
    simpa [hf] using h d hd
  rw [cell, hfind, Option.map_none]

/-! ## The line -/

theorem readable_column {name : List Char} (hplain : isPlain name = true) (type : ColumnType)
    {value : Option (List Char)} (hclosed : (printNullable value).isClosed = true) :
    Readable ⟨name, type.print, printNullable value⟩ where
  name x hx := by
    obtain ⟨hws, hne⟩ := isPlain_ne hplain hx
    exact ⟨hws, fun heq => hne (by simp [heq])⟩
  type := by
    have hprint : ∀ t : ColumnType, ∀ x ∈ t.print, Text.isWhitespace x = false ∧ x ≠ ':' := by
      intro t
      cases t <;> exact List.all_iff_forall_prop.mp (by decide)
    exact hprint type
  token := by
    cases value with
    | none => exact ⟨List.all_iff_forall_prop.mp (by decide), by decide⟩
    | some v => trivial
  closed := hclosed

variable (reserved : List Char → Bool)

/-- The parser gives both rows, under their names. -/
theorem parseChangeLine_updateOf (table : TableName) {row : List ColumnChange}
    (hnames : Named row) (hcolon : ':' ∉ table.print reserved) (hclosed : Closed row) :
    ∃ line, parseChangeLine (String.ofList ((updateOf table row).print reserved)) = some line ∧
      line.commandTag = "UPDATE" ∧
      oldColumns line = row.map (fun c => c.oldColumn.parsed true) ∧
      newColumns line = row.map fun c => c.newColumn.parsed false := by
  obtain ⟨schema, name, -, hline⟩ := parseChangeLine_print reserved
    (show (updateOf table row).command ≠ "TRUNCATE".toList from (by decide :
      "UPDATE".toList ≠ "TRUNCATE".toList)) hcolon
  have hbody : (updateOf table row).body =
      Layout.print ⟨some (row.map ColumnChange.oldColumn), row.map ColumnChange.newColumn⟩ :=
    (Change.body_of_layout rfl).1
  have hread : ∀ c ∈ Layout.columns ⟨some (row.map ColumnChange.oldColumn),
      row.map ColumnChange.newColumn⟩, Readable c := by
    intro c hc
    rcases List.mem_append.mp hc with hc | hc
    · obtain ⟨d, hd, rfl⟩ := List.mem_map.mp hc
      exact readable_column (hnames.plain d hd) d.type (hclosed d hd).1
    · obtain ⟨d, hd, rfl⟩ := List.mem_map.mp hc
      exact readable_column (hnames.plain d hd) d.type (hclosed d hd).2
  have hcolumns : parseColumnValues (updateOf table row).body =
      row.map (fun c => c.oldColumn.parsed true) ++ row.map fun c => c.newColumn.parsed false := by
    rw [hbody, parseColumnValues_layout hread, Layout.parsed, Option.getD_some, List.map_map,
      List.map_map]
    rfl
  refine ⟨_, hline, rfl, ?_, ?_⟩
  · have hcommand : String.ofList (updateOf table row).command = "UPDATE" := rfl
    simp only [oldColumns, hcommand, hcolumns, if_pos, List.filter_append]
    rw [List.filter_eq_self.mpr (by simp [PrintedColumn.parsed]),
      List.filter_eq_nil_iff.mpr (by simp [PrintedColumn.parsed]), List.append_nil]
  · have hcommand : String.ofList (updateOf table row).command = "UPDATE" := rfl
    simp only [newColumns, hcommand, hcolumns, if_pos, List.filter_append]
    rw [List.filter_eq_nil_iff.mpr (by simp [PrintedColumn.parsed]),
      List.filter_eq_self.mpr (by simp [PrintedColumn.parsed]), List.nil_append]

/-- The forwarder reports a column of the row exactly if it takes its values for different. -/
theorem changed_iff {line : ChangeLine} {row : List ColumnChange} (hnames : Named row)
    (hold : oldColumns line = row.map fun c => c.oldColumn.parsed true)
    (hnew : newColumns line = row.map fun c => c.newColumn.parsed false) (name : String) :
    Changed fromStr line name ↔
      ∃ c ∈ row, String.ofList c.name = name ∧ ¬ c.Alike fromStr := by
  have holdName : ∀ c : ColumnChange, (c.oldColumn.parsed true).name = String.ofList c.name :=
    fun _ => rfl
  have hnewName : ∀ c : ColumnChange, (c.newColumn.parsed false).name = String.ofList c.name :=
    fun _ => rfl
  have hmem : ∀ c ∈ row, Changed fromStr line (String.ofList c.name) ↔ ¬ c.Alike fromStr := by
    intro c hc
    rw [Changed, oldCell, newCell, hold, hnew, cell_map fromStr hnames holdName hc,
      cell_map fromStr hnames hnewName hc, c.alike_iff, Bool.not_eq_true]
  constructor
  · intro h
    by_cases hname : ∃ c ∈ row, String.ofList c.name = name
    · obtain ⟨c, hc, rfl⟩ := hname
      exact ⟨c, hc, rfl, (hmem c hc).mp h⟩
    · push Not at hname
      rw [Changed, oldCell, newCell, hold, hnew, cell_map_none fromStr holdName hname,
        cell_map_none fromStr hnewName hname] at h
      cases h
  · rintro ⟨c, hc, rfl, hdiff⟩
    exact (hmem c hc).mpr hdiff

/-- The event of a captured change lists the names under which its rows differ. -/
theorem changeEvent_changedFields (registry : SensitiveFieldRegistry) (now xid lsn : String)
    {line : ChangeLine} (h : IsRowChange line) :
    ∃ (event : Value) (fields : List String),
      changeEvent fromStr registry now xid lsn line = some event ∧
      (event.index "detail").index "changed_fields" = .array (fields.map .string) ∧
      ∀ name, name ∈ fields ↔ Changed fromStr line name := by
  obtain ⟨old, new, hdocs, -, -, hchanged⟩ := rowDocs_spec fromStr h
  refine ⟨_, changedFieldsOf old new, by simp only [changeEvent, hdocs]; rfl, ?_, hchanged⟩
  simp [buildDataChangeEvent, Value.index, Value.get?_obj, SortedMap.get?_cons]

/-! ## What is reported -/

section

variable {J : Type*} (jsonb : List Char → J) (registry : SensitiveFieldRegistry)
  (now xid lsn : String) (table : TableName) (row : List ColumnChange)

/-- The event of the UPDATE lists exactly the columns whose values differ. -/
def ChangesReported : Prop :=
  ∃ (event : Value) (fields : List String), parseTestDecoding fromStr registry now
      (String.ofList ((updateOf table row).print reserved)) xid lsn = some [event] ∧
    (event.index "detail").index "changed_fields" = .array (fields.map .string) ∧
    ∀ name, name ∈ fields ↔ ∃ c ∈ row, String.ofList c.name = name ∧ ¬ c.Same jsonb

end

variable {row : List ColumnChange}

theorem names_eq_iff (hnames : Named row) (p q : ColumnChange → Prop) :
    (∀ name, (∃ c ∈ row, String.ofList c.name = name ∧ ¬ p c) ↔
      ∃ c ∈ row, String.ofList c.name = name ∧ ¬ q c) ↔ ∀ c ∈ row, p c ↔ q c := by
  have hone : ∀ r : ColumnChange → Prop, ∀ c ∈ row,
      (∃ d ∈ row, String.ofList d.name = String.ofList c.name ∧ ¬ r d) ↔ ¬ r c := by
    intro r c hc
    constructor
    · rintro ⟨d, hd, hname, hr⟩
      rwa [List.inj_on_of_nodup_map hnames.distinct hd hc (String.ofList_injective hname)] at hr
    · exact fun hr => ⟨c, hc, rfl, hr⟩
  constructor
  · intro h c hc
    rw [← not_iff_not, ← hone p c hc, ← hone q c hc]
    exact h _
  · intro h name
    refine exists_congr fun c => and_congr_right fun hc => and_congr_right fun _ => ?_
    rw [h c hc]

/-- What the event of the UPDATE lists. -/
theorem changesReported_iff {J : Type*} (jsonb : List Char → J)
    (registry : SensitiveFieldRegistry) (now xid lsn : String) (table : TableName)
    (hnames : Named row) (hcolon : ':' ∉ table.print reserved) (hclosed : Closed row) :
    ChangesReported fromStr reserved jsonb registry now xid lsn table row ↔
      ∀ name, (∃ c ∈ row, String.ofList c.name = name ∧ ¬ c.Alike fromStr) ↔
        ∃ c ∈ row, String.ofList c.name = name ∧ ¬ c.Same jsonb := by
  obtain ⟨line, hline, hcommand, hold, hnew⟩ :=
    parseChangeLine_updateOf reserved table hnames hcolon hclosed
  obtain ⟨event, fields, hevent, hdetail, hfields⟩ :=
    changeEvent_changedFields fromStr registry now xid lsn (.inr (.inl hcommand) : IsRowChange line)
  have hparse := parseTestDecoding_of_line fromStr registry now xid lsn hline
  rw [hevent, Option.map_some] at hparse
  simp only [changed_iff fromStr hnames hold hnew] at hfields
  constructor
  · rintro ⟨event', fields', hparse', hdetail', hfields'⟩ name
    obtain rfl : event = event' := by simpa [hparse] using hparse'
    have heq : fields = fields' := by
      rw [hdetail, Value.array.injEq] at hdetail'
      exact List.map_injective_iff.mpr (fun _ _ h => by simpa using h) hdetail'
    rw [← hfields, heq, hfields']
  · intro h
    exact ⟨event, fields, hparse, hdetail, fun name => (hfields name).trans (h name)⟩

/-- Of an UPDATE of a table without a colon in its name and without a value that ends in a quote,
the event lists the columns that differ, exactly if in every column the forwarder takes for the
same what is the same. -/
theorem changed_fields_exact_iff {J : Type*} (jsonb : List Char → J)
    (registry : SensitiveFieldRegistry) (now xid lsn : String) (table : TableName)
    (row : List ColumnChange) (hnames : Named row) (hcolon : ':' ∉ table.print reserved)
    (hclosed : Closed row) :
    ChangesReported fromStr reserved jsonb registry now xid lsn table row ↔
      ∀ c ∈ row, c.Alike fromStr ↔ c.Same jsonb := by
  rw [changesReported_iff fromStr reserved jsonb registry now xid lsn table hnames hcolon hclosed]
  exact names_eq_iff hnames _ _

end

def editedRow : List ColumnChange :=
  [⟨"note".toList, .text, none, some "x y".toList⟩,
    ⟨"score".toList, .jsonb, some "1".toList, some "2".toList⟩,
    ⟨"kind".toList, .text, some "a  b".toList, some "a  b".toList⟩]

theorem changed_fields_editedRow :
    ChangesReported readNumeral (fun _ => false) id (SensitiveFieldRegistry.new "") "" "7" "0/1"
      ⟨"public".toList, "notes".toList⟩ editedRow := by
  refine (changed_fields_exact_iff readNumeral (fun _ => false) id _ _ _ _ _ editedRow
    ⟨by decide, by decide⟩ (by decide) ?_).mpr ?_
  · unfold Closed
    decide
  · simp only [editedRow, List.forall_mem_cons, List.not_mem_nil, false_imp_iff, implies_true,
      and_true]
    exact ⟨iff_of_false (by decide) (by simp [ColumnChange.Same]),
      iff_of_false (by decide) (by simp [ColumnChange.Same]), iff_of_true (by decide) rfl⟩

def respacedRow : List ColumnChange :=
  [⟨"note".toList, .text, some "a  b".toList, some "a b".toList⟩]

theorem not_changed_fields_exact :
    ¬ ∀ row : List ColumnChange, Named row → ∀ table : TableName, isPlain table.schema = true →
      isPlain table.table = true →
      ChangesReported readNumeral (fun _ => false) id (SensitiveFieldRegistry.new "") "" "7" "0/1"
        table row := by
  intro h
  have hnames : Named respacedRow := ⟨by decide, by decide⟩
  have hreport := h respacedRow hnames ⟨"public".toList, "notes".toList⟩ (by decide) (by decide)
  rw [changesReported_iff _ _ _ _ _ _ _ _ hnames (by decide) (by unfold Closed; decide)] at hreport
  obtain ⟨c, hc, -, hdiff⟩ := (hreport "note").mpr
    ⟨_, List.mem_cons_self, rfl, by simp [ColumnChange.Same]⟩
  obtain rfl := List.mem_singleton.mp hc
  exact hdiff (by decide)

end VibeAudit.Redaction
