import VibeAudit.Forwarder.WalCapture

/-!
# What a change line leaves in its event

The documents of an event are read member by member: `oldCell` and `newCell` are
the members before redaction, in terms of the line's columns, `Changed` are the
names under which they differ, and `Covered` the names that a changed and
registered field overwrites. `RedactedEvent` says what the event holds.
-/

namespace VibeAudit.Redaction

open Foundation Json Forwarder

variable (fromStr : String → Option Value)

/-- The last column of that name, as a member of a document. -/
def cell (columns : List ParsedColumn) (name : String) : Option Value :=
  (columns.reverse.find? (·.name == name)).map (columnValue fromStr)

theorem get?_map_columns (columns : List ParsedColumn) (name : String) :
    SortedMap.get? (columns.map fun c => (c.name, columnValue fromStr c)) name =
      (columns.find? (·.name == name)).map (columnValue fromStr) := by
  induction columns with
  | nil => rfl
  | cons c columns ih =>
    rw [List.map_cons, SortedMap.get?_cons, ih]
    by_cases h : name = c.name
    · simp [h]
    · have hne : ¬ (c.name == name) = true := by simpa using Ne.symm h
      rw [if_neg h, List.find?_cons_of_neg (p := fun c : ParsedColumn => c.name == name) hne]

theorem columnsToJsonb_eq (columns : List ParsedColumn) :
    columnsToJsonb fromStr columns =
      .obj (columns.map fun c => (c.name, columnValue fromStr c)) := by
  unfold columnsToJsonb Value.obj SortedMap.ofList
  rw [List.foldl_map]
  rfl

/-- Of several columns of one name the last one is kept. -/
theorem get?_columnsToJsonb (columns : List ParsedColumn) (name : String) :
    (columnsToJsonb fromStr columns).get? name = cell fromStr columns name := by
  rw [columnsToJsonb_eq, Value.get?_obj, ← List.map_reverse, get?_map_columns]
  rfl

def IsRowChange (line : ChangeLine) : Prop :=
  line.commandTag = "INSERT" ∨ line.commandTag = "UPDATE" ∨ line.commandTag = "DELETE"

/-- The columns of the old row that the line carries. -/
def oldColumns (line : ChangeLine) : List ParsedColumn :=
  if line.commandTag = "UPDATE" then line.columns.filter (·.isOld)
  else if line.commandTag = "DELETE" then line.columns
  else []

/-- The columns of the new row that the line carries. -/
def newColumns (line : ChangeLine) : List ParsedColumn :=
  if line.commandTag = "UPDATE" then line.columns.filter (!·.isOld)
  else if line.commandTag = "INSERT" then line.columns
  else []

def oldCell (line : ChangeLine) (name : String) : Option Value :=
  cell fromStr (oldColumns line) name

def newCell (line : ChangeLine) (name : String) : Option Value :=
  cell fromStr (newColumns line) name

/-- The two rows differ under `name`; a row the line does not carry has no members. -/
def Changed (line : ChangeLine) (name : String) : Prop :=
  sameMember (oldCell fromStr line name) (newCell fromStr line name) = false

def member (doc : Option Value) (name : String) : Option Value := doc.bind (·.get? name)

@[simp] theorem member_none (name : String) : member none name = none := rfl

@[simp] theorem cell_nil (name : String) : cell fromStr [] name = none := rfl

@[simp] theorem member_columnsToJsonb (columns : List ParsedColumn) (name : String) :
    member (some (columnsToJsonb fromStr columns)) name = cell fromStr columns name :=
  get?_columnsToJsonb fromStr columns name

/-- A section without columns has no document, which has the same members as an empty one. -/
theorem member_section (columns : List ParsedColumn) (name : String) :
    member (if columns.isEmpty then none else some (columnsToJsonb fromStr columns)) name =
      cell fromStr columns name := by
  cases columns <;> simp

/-- The fields that changed between the documents of a line are those whose cells differ. -/
theorem mem_changedFieldsOf_iff {old new : Option Value} {oldCols newCols : List ParsedColumn}
    (hold : old = some (columnsToJsonb fromStr oldCols) ∨ (old = none ∧ oldCols = []))
    (hnew : new = some (columnsToJsonb fromStr newCols) ∨ (new = none ∧ newCols = []))
    (name : String) :
    name ∈ changedFieldsOf old new ↔
      sameMember (cell fromStr oldCols name) (cell fromStr newCols name) = false := by
  rcases hold with rfl | ⟨rfl, rfl⟩ <;> rcases hnew with rfl | ⟨rfl, rfl⟩
  · rw [changedFieldsOf, ← get?_columnsToJsonb, ← get?_columnsToJsonb, columnsToJsonb_eq,
      columnsToJsonb_eq]
    exact mem_diffFields_iff (SortedMap.sorted_ofList _) name
  · rw [changedFieldsOf, mem_allFields_iff, get?_columnsToJsonb, cell_nil, sameMember_none_right]
  · rw [changedFieldsOf, mem_allFields_iff, get?_columnsToJsonb, cell_nil, sameMember_none_left]
  · simp [changedFieldsOf, sameMember]

/-- The documents of a captured change, and the fields that changed between them. -/
theorem rowDocs_spec {line : ChangeLine} (h : IsRowChange line) :
    ∃ old new, rowDocs fromStr line.commandTag line.columns = some (old, new) ∧
      (∀ name, member old name = oldCell fromStr line name) ∧
      (∀ name, member new name = newCell fromStr line name) ∧
      ∀ name, name ∈ changedFieldsOf old new ↔ Changed fromStr line name := by
  rcases h with hcommand | hcommand | hcommand
  · have hold : oldColumns line = [] := by simp [oldColumns, hcommand]
    have hnew : newColumns line = line.columns := by simp [newColumns, hcommand]
    have hdocs : rowDocs fromStr line.commandTag line.columns =
        some (none, some (columnsToJsonb fromStr line.columns)) := by
      simp [rowDocs, hcommand]
    refine ⟨_, _, hdocs, ?_, ?_, ?_⟩
    · simp [oldCell, hold]
    · simp [newCell, hnew]
    · simp only [Changed, oldCell, newCell, hold, hnew]
      exact mem_changedFieldsOf_iff fromStr (.inr ⟨rfl, rfl⟩) (.inl rfl)
  · have hold : oldColumns line = line.columns.filter (·.isOld) := if_pos hcommand
    have hnew : newColumns line = line.columns.filter (!·.isOld) := if_pos hcommand
    refine ⟨_, _, by simp only [rowDocs, hcommand]; rfl, ?_, ?_, ?_⟩
    · intro name
      rw [member_section, oldCell, hold]
    · simp [newCell, hnew]
    · simp only [Changed, oldCell, newCell, hold, hnew]
      refine mem_changedFieldsOf_iff fromStr ?_ (.inl rfl)
      cases line.columns.filter (·.isOld) with
      | nil => exact .inr ⟨rfl, rfl⟩
      | cons c cs => exact .inl rfl
  · have hold : oldColumns line = line.columns := by simp [oldColumns, hcommand]
    have hnew : newColumns line = [] := by simp [newColumns, hcommand]
    have hdocs : rowDocs fromStr line.commandTag line.columns =
        some (some (columnsToJsonb fromStr line.columns), none) := by
      simp [rowDocs, hcommand]
    refine ⟨_, _, hdocs, ?_, ?_, ?_⟩
    · simp [oldCell, hold]
    · simp [newCell, hnew]
    · simp only [Changed, oldCell, newCell, hold, hnew]
      exact mem_changedFieldsOf_iff fromStr (.inl rfl) (.inr ⟨rfl, rfl⟩)

/-- Some changed field that is registered for redaction is `name`, up to `$.` in front. -/
def Covered (registry : SensitiveFieldRegistry) (line : ChangeLine) (name : String) : Prop :=
  ∃ field, Changed fromStr line field ∧
    registry.flag line.schema line.table field = some true ∧ trimPath field = name

/-- A member of one of the two documents of an event. -/
def detailMember (event : Value) (doc name : String) : Option Value :=
  ((event.index "detail").index doc).get? name

/-- What the event of a change holds, member by member. -/
structure RedactedEvent (registry : SensitiveFieldRegistry) (line : ChangeLine) (event : Value) :
    Prop where
  covered : ∀ name, Covered fromStr registry line name →
    detailMember event "old_data" name = (oldCell fromStr line name).map (fun _ => redacted) ∧
      detailMember event "new_data" name = (newCell fromStr line name).map fun _ => redacted
  kept : ∀ name, ¬ Covered fromStr registry line name →
    detailMember event "old_data" name = oldCell fromStr line name ∧
      detailMember event "new_data" name = newCell fromStr line name

/-- Redacting a document that may be absent. -/
theorem member_redact (found : List SensitiveMatch) (doc : Option Value) (name : String) :
    (SensitiveFieldRegistry.Demands found name →
      member (doc.map fun d => SensitiveFieldRegistry.redact d found) name =
        (member doc name).map fun _ => redacted) ∧
    (¬ SensitiveFieldRegistry.Demands found name →
      member (doc.map fun d => SensitiveFieldRegistry.redact d found) name = member doc name) := by
  cases doc with
  | none => simp [member]
  | some d => exact SensitiveFieldRegistry.get?_redact d found name

theorem getD_null_get? (doc : Option Value) (name : String) :
    (doc.getD .null).get? name = member doc name := by
  cases doc <;> rfl

/-- The members of the two documents are those the event was built from. -/
theorem detailMember_build (now commandTag schema table xid lsn : String)
    (oldData newData : Option Value) (changedFields : List String) (found : List SensitiveMatch)
    (name : String) :
    let event := buildDataChangeEvent now commandTag schema table oldData newData changedFields
      found xid lsn
    detailMember event "old_data" name = member oldData name ∧
      detailMember event "new_data" name = member newData name := by
  intro event
  have hold : (event.index "detail").index "old_data" = oldData.getD .null := by
    simp [event, buildDataChangeEvent, Value.index, Value.get?_obj, SortedMap.get?_cons]
  have hnew : (event.index "detail").index "new_data" = newData.getD .null := by
    simp [event, buildDataChangeEvent, Value.index, Value.get?_obj, SortedMap.get?_cons]
  rw [detailMember, detailMember, hold, hnew, getD_null_get?, getD_null_get?]
  exact ⟨rfl, rfl⟩

/-- Redacting for no match is no redaction. -/
theorem redact_unless_empty (found : List SensitiveMatch) (doc : Value) :
    (if found.isEmpty then doc else SensitiveFieldRegistry.redact doc found) =
      SensitiveFieldRegistry.redact doc found := by
  cases found with
  | nil => cases doc <;> rfl
  | cons m found => rfl

/-- What is detected among the changed fields demands the covered names. -/
theorem demands_detect_iff (registry : SensitiveFieldRegistry) {line : ChangeLine}
    {fields : List String} (hchanged : ∀ name, name ∈ fields ↔ Changed fromStr line name)
    (name : String) :
    SensitiveFieldRegistry.Demands (registry.detect line.schema line.table fields) name ↔
      Covered fromStr registry line name := by
  simp only [SensitiveFieldRegistry.Demands, SensitiveFieldRegistry.mem_detect_iff, hchanged]
  constructor
  · rintro ⟨m, ⟨hm, hflag⟩, hred, hname⟩
    exact ⟨m.jsonPath, hm, hred ▸ hflag, hname⟩
  · rintro ⟨field, hfield, hflag, hname⟩
    exact ⟨⟨field, true⟩, ⟨hfield, hflag⟩, rfl, hname⟩

/-- A captured line has an event, and it is redacted under the covered names alone. -/
theorem changeEvent_spec (registry : SensitiveFieldRegistry) (now xid lsn : String)
    {line : ChangeLine} (h : IsRowChange line) :
    ∃ event, changeEvent fromStr registry now xid lsn line = some event ∧
      RedactedEvent fromStr registry line event := by
  obtain ⟨old, new, hdocs, hold, hnew, hchanged⟩ := rowDocs_spec fromStr h
  have hdemands := demands_detect_iff fromStr registry hchanged
  refine ⟨_, by simp only [changeEvent, hdocs, redact_unless_empty]; rfl, ?_, ?_⟩
  · intro name hcovered
    have hdemand := (hdemands name).mpr hcovered
    rw [(detailMember_build ..).1, (detailMember_build ..).2, ← hold, ← hnew]
    exact ⟨(member_redact _ old name).1 hdemand, (member_redact _ new name).1 hdemand⟩
  · intro name hfree
    have hdemand := mt (hdemands name).mp hfree
    rw [(detailMember_build ..).1, (detailMember_build ..).2, ← hold, ← hnew]
    exact ⟨(member_redact _ old name).2 hdemand, (member_redact _ new name).2 hdemand⟩

/-- The event of a line, under the parse of the line. -/
theorem parseTestDecoding_spec (registry : SensitiveFieldRegistry) (now xid lsn : String)
    {data : String} {line : ChangeLine} (hline : parseChangeLine data = some line)
    (hrow : IsRowChange line) :
    ∃ event, parseTestDecoding fromStr registry now data xid lsn = some [event] ∧
      RedactedEvent fromStr registry line event := by
  obtain ⟨event, hevent, hspec⟩ := changeEvent_spec fromStr registry now xid lsn hrow
  refine ⟨event, ?_, hspec⟩
  rw [parseTestDecoding_of_line fromStr registry now xid lsn hline, hevent]
  rfl

end VibeAudit.Redaction
