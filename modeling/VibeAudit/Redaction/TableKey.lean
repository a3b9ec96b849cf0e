import VibeAudit.Redaction.RowOrder

/-!
# The key of a table in the cache

The cache is keyed by `schema.table`, and a PostgreSQL name may itself contain a
dot. Tables of different names then share their entries: `detect` takes the rows
of both for rows of either, so the rules of a table are its own exactly where
no row of the other table speaks first.
-/

namespace VibeAudit.Redaction

open Foundation Json Forwarder SensitiveFieldRegistry

/-- Names of schemas without a dot make the key unambiguous. -/
theorem tableKey_inj {schema schema' table table' : String} (h : '.' ∉ schema.toList)
    (h' : '.' ∉ schema'.toList) (heq : tableKey schema table = tableKey schema' table') :
    schema = schema' ∧ table = table' := by
  have hchars : schema.toList ++ '.' :: table.toList = schema'.toList ++ '.' :: table'.toList := by
    have hlist := congrArg String.toList heq
    simpa [tableKey] using hlist
  have hcut := Text.cutAt_append h table.toList
  rw [hchars, Text.cutAt_append h' table'.toList] at hcut
  obtain ⟨hschema, htable⟩ := Prod.mk.inj (Option.some.inj hcut)
  exact ⟨String.toList_inj.mp hschema.symm, String.toList_inj.mp htable.symm⟩

/-! ## What decides the list of matches -/

section

variable (schema table : String)

/-- Entries that flag every field not found yet alike add the same matches. -/
theorem foldl_pushDb_congr {es es' : List DbSensitiveField} (fields : List String)
    {found : List SensitiveMatch}
    (h : ∀ field ∈ fields, (found.any fun m => m.jsonPath == field) = true ∨
      (es.find? (names · field)).map DbSensitiveField.redactInLog =
        (es'.find? (names · field)).map DbSensitiveField.redactInLog) :
    fields.foldl (fun found field => es.foldl (pushDb field) found) found =
      fields.foldl (fun found field => es'.foldl (pushDb field) found) found := by
  induction fields generalizing found with
  | nil => rfl
  | cons field fields ih =>
    obtain ⟨hfirst, hrest⟩ := List.forall_mem_cons.mp h
    have hstep : es.foldl (pushDb field) found = es'.foldl (pushDb field) found := by
      rw [foldl_pushDb, foldl_pushDb]
      rcases hfirst with hfound | hflag
      · rw [if_pos hfound, if_pos hfound]
      · have hmatch := congrArg (Option.map fun red => (⟨field, red⟩ : SensitiveMatch)) hflag
        rw [Option.map_map, Option.map_map] at hmatch
        exact congrArg (fun o : Option SensitiveMatch =>
          if found.any (fun m => m.jsonPath == field) then found else found ++ o.toList) hmatch
    rw [List.foldl_cons, List.foldl_cons, ← hstep]
    refine ih fun other hother => ?_
    -- a field that was found stays found
    refine (hrest other hother).imp_left fun hfound => ?_
    rw [foldl_pushDb]
    split_ifs
    · exact hfound
    · rw [List.any_append, hfound, Bool.true_or]

/-- With one global list, two caches give the same matches in the same order exactly when they
flag the changed fields alike. -/
theorem detect_eq_iff {r₁ r₂ : SensitiveFieldRegistry} (hglobal : r₁.globalFields = r₂.globalFields)
    (changedFields : List String) :
    r₁.detect schema table changedFields = r₂.detect schema table changedFields ↔
      ∀ field ∈ changedFields, r₁.flag schema table field = r₂.flag schema table field := by
  have hsame : r₁.isGlobal = r₂.isGlobal := by
    funext field
    rw [isGlobal, isGlobal, hglobal]
  constructor
  · intro heq
    exact (detect_congr_iff schema table changedFields).mp fun m => by rw [heq]
  · intro hflag
    have hpush : r₁.pushGlobal = r₂.pushGlobal := by
      funext found field
      rw [pushGlobal, pushGlobal, hsame]
    rw [detect, detect, hpush]
    refine foldl_pushDb_congr changedFields fun field hfield => ?_
    by_cases hg : r₂.isGlobal field = true
    · refine .inl (List.any_eq_true.mpr ⟨⟨field, true⟩, ?_, beq_self_eq_true field⟩)
      exact (mem_foldl_pushGlobal r₂ changedFields [] _).mpr (.inr ⟨hfield, hg, rfl⟩)
    · have hboth := hflag field hfield
      rw [flag, flag, hsame, if_neg hg, if_neg hg] at hboth
      exact .inr hboth

end

/-! ## The rows of the table -/

def ofTable (schema table : String) (row : SensitiveFieldRow) : Bool :=
  row.schemaName == schema && row.tableName == table

variable (r : SensitiveFieldRegistry) (schema table : String)

/-- A field is flagged as the rows of the table alone would have it, unless the row that speaks
for it is one of another table and no row of the table says the same. -/
theorem flag_own_iff (rows : List SensitiveFieldRow) (field : String) :
    (r.refreshCache (some rows)).flag schema table field =
        (r.refreshCache (some (rows.filter (ofTable schema table)))).flag schema table field ↔
      (r.isGlobal field = false → ∀ row, rows.find? (marks schema table · field) = some row →
        ofTable schema table row = true ∨ ∃ own,
          (rows.filter (ofTable schema table)).find? (marks schema table · field) = some own ∧
            own.redactInLog = row.redactInLog) := by
  rw [flag_refreshCache, flag_refreshCache]
  cases r.isGlobal field with
  | true => simp
  | false =>
    simp only [Bool.false_eq_true, if_false, forall_const]
    cases hfirst : rows.find? (marks schema table · field) with
    | none =>
      have hown : (rows.filter (ofTable schema table)).find? (marks schema table · field) =
          none := by
        rw [List.find?_eq_none] at hfirst ⊢
        exact fun row hrow => hfirst row (List.mem_of_mem_filter hrow)
      simp [hown]
    | some row =>
      by_cases hrow : ofTable schema table row = true
      · -- the first row that marks the field is the first such row of the table
        have hown : (rows.filter (ofTable schema table)).find? (marks schema table · field) =
            some row := by
          obtain ⟨hmark, before, after, rfl, hbefore⟩ := List.find?_eq_some_iff_append.mp hfirst
          rw [List.find?_eq_some_iff_append]
          refine ⟨hmark, before.filter (ofTable schema table), after.filter (ofTable schema table),
            by simp [hrow], fun b hb => hbefore b (List.mem_of_mem_filter hb)⟩
        simp [hown, hrow]
      · cases hown : (rows.filter (ofTable schema table)).find?
            (marks schema table · field) with
        | none => simp [hrow]
        | some own => simpa [hrow] using eq_comm

/-- `detect` returns what it would return with the rows of the table alone loaded exactly when,
for each changed field outside the global list, the first row with the key of the table that
names the field is a row of the table, or has the flag of the first row of the table that does. -/
theorem detect_own_iff (rows : List SensitiveFieldRow) (changedFields : List String) :
    (r.refreshCache (some rows)).detect schema table changedFields =
        (r.refreshCache (some (rows.filter (ofTable schema table)))).detect schema table
          changedFields ↔
      ∀ field ∈ changedFields, r.isGlobal field = false → ∀ row,
        rows.find? (marks schema table · field) = some row →
          ofTable schema table row = true ∨ ∃ own,
            (rows.filter (ofTable schema table)).find? (marks schema table · field) = some own ∧
              own.redactInLog = row.redactInLog := by
  refine (detect_eq_iff schema table ?_ changedFields).trans ?_
  · rfl
  · exact forall₂_congr fun field _ => flag_own_iff r schema table rows field

/-- So it is when no name of a schema has a dot. -/
theorem detect_own_of_plain {rows : List SensitiveFieldRow} (hschema : '.' ∉ schema.toList)
    (hrows : ∀ row ∈ rows, '.' ∉ row.schemaName.toList) (changedFields : List String) :
    (r.refreshCache (some rows)).detect schema table changedFields =
      (r.refreshCache (some (rows.filter (ofTable schema table)))).detect schema table
        changedFields := by
  refine (detect_eq_iff schema table ?_ changedFields).mpr fun field _ => ?_
  · rfl
  · refine (flag_own_iff r schema table rows field).mpr fun _ row hfirst => ?_
    have hmark : marks schema table row field = true := by simpa using List.find?_some hfirst
    simp only [marks, Bool.and_eq_true, beq_iff_eq] at hmark
    obtain ⟨rfl, rfl⟩ := tableKey_inj (hrows row (List.mem_of_find?_eq_some hfirst)) hschema hmark.1
    exact .inl (by simp [ofTable])

/-- The table `c` of the schema `a.b` and the table `b.c` of the schema `a` have one key. -/
theorem not_detect_own :
    ¬ ∀ (r : SensitiveFieldRegistry) (schema table : String) (rows : List SensitiveFieldRow)
      (changedFields : List String),
      (r.refreshCache (some rows)).detect schema table changedFields =
        (r.refreshCache (some (rows.filter (ofTable schema table)))).detect schema table
          changedFields := by
  intro h
  have hpan := h (SensitiveFieldRegistry.new "") "a" "b.c" [⟨"a.b", "c", "pan", true⟩] ["pan"]
  revert hpan
  decide +kernel

end VibeAudit.Redaction
