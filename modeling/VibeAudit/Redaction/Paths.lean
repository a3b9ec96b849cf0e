import VibeAudit.Redaction.Detected
import VibeAudit.Redaction.TableKey

/-!
# One path in the global list and in the registry

`detect` strips `$.` from the changed field and, in its second loop, from the
path of the registry's row as well. The entries of the global list it takes as
they are. So the two lists read a path alike where it has no `$.` in front, and
a path with `$.` names a plain field in the registry only.
-/

namespace VibeAudit.Redaction

open Foundation Json Forwarder SensitiveFieldRegistry

/-- An entry of a table names the fields that are spelled like it apart from `$.` in front. -/
theorem names_iff (d : DbSensitiveField) (field : String) :
    names d field = true ↔ trimPath field = trimPath d.jsonPath := by
  simp only [names, Bool.or_eq_true, beq_iff_eq]
  constructor
  · rintro (heq | heq)
    · exact heq.symm
    · rw [← heq, trimPath_idem]
  · intro heq
    exact .inl heq.symm

/-- A single entry without commas and blanks around it is taken as it stands. -/
theorem globalFields_new {p : String} (hcomma : ',' ∉ p.toList)
    (htrim : Text.trim p.toList = p.toList) :
    (SensitiveFieldRegistry.new p).globalFields = if p = "" then [] else [p] := by
  have hsplit : p.toList.splitOnP (· == ',') = [p.toList] := by
    apply List.splitOnP_eq_singleton
    intro c hc
    simpa using ne_of_mem_of_not_mem hc hcomma
  rw [SensitiveFieldRegistry.new, hsplit]
  by_cases hp : p = ""
  · subst hp
    rfl
  · simp [htrim, hp]

/-- The fields the global entry reports: those it equals as it stands. -/
theorem mem_paths_new {p : String} (hcomma : ',' ∉ p.toList)
    (htrim : Text.trim p.toList = p.toList) (schema table : String) (changedFields : List String)
    (field : String) :
    field ∈ ((SensitiveFieldRegistry.new p).detect schema table changedFields).map
        SensitiveMatch.jsonPath ↔
      field ∈ changedFields ∧ p ≠ "" ∧ (p = trimPath field ∨ p = field) := by
  rw [mem_paths_detect]
  refine and_congr_right fun _ => ?_
  have hentries : (SensitiveFieldRegistry.new p).entries schema table = [] := rfl
  have hglobal : (SensitiveFieldRegistry.new p).isGlobal field = true ↔
      p ≠ "" ∧ (p = trimPath field ∨ p = field) := by
    rw [isGlobal, globalFields_new hcomma htrim]
    by_cases hp : p = "" <;> simp [hp]
  rw [flag, hentries, ← hglobal]
  split_ifs with h <;> simp [h]

/-- The fields the rows of the registry report. -/
theorem mem_paths_rows (schema table : String) (rows : List SensitiveFieldRow)
    (changedFields : List String) (field : String) :
    field ∈ (((SensitiveFieldRegistry.new "").refreshCache (some rows)).detect schema table
        changedFields).map SensitiveMatch.jsonPath ↔
      field ∈ changedFields ∧ ∃ row ∈ rows, marks schema table row field = true := by
  rw [mem_paths_detect, flag_refreshCache]
  have hglobal : (SensitiveFieldRegistry.new "").isGlobal field = false := rfl
  simp [hglobal]

/-- The one row of a table reports the changed fields that are spelled like it apart from `$.` in
front, and rows of other tables with the same key report theirs as well. -/
theorem exists_marks_iff {schema table : String} {rows : List SensitiveFieldRow}
    {row : SensitiveFieldRow} (hrows : rows.filter (ofTable schema table) = [row])
    (field : String) :
    (∃ other ∈ rows, marks schema table other field = true) ↔
      trimPath field = trimPath row.jsonPath ∨
        ∃ other ∈ rows, ofTable schema table other = false ∧
          marks schema table other field = true := by
  have hown : ∀ other, (other ∈ rows ∧ ofTable schema table other = true) ↔ other = row := by
    intro other
    rw [← List.mem_singleton (a := other), ← hrows, List.mem_filter]
  obtain ⟨hmem, htable⟩ := (hown row).mpr rfl
  constructor
  · rintro ⟨other, hother, hmark⟩
    cases hsame : ofTable schema table other with
    | false => exact .inr ⟨other, hother, hsame, hmark⟩
    | true =>
      obtain rfl := (hown other).mp ⟨hother, hsame⟩
      simp only [marks, Bool.and_eq_true, names_iff] at hmark
      exact .inl hmark.2
  · rintro (hfield | ⟨other, hother, -, hmark⟩)
    · simp only [ofTable, Bool.and_eq_true, beq_iff_eq] at htable
      refine ⟨row, hmem, ?_⟩
      simp [marks, htable, names_iff, hfield]
    · exact ⟨other, hother, hmark⟩

/-- A path that is the only global entry or the only row of a table names the same fields in both
places, those spelled like it apart from `$.` in front, exactly when every such changed field is
the path itself or the path has no `$.` in front and is not empty, and no row of another table
with the same key names further fields. -/
theorem paths_alike_iff {p schema table : String} (hcomma : ',' ∉ p.toList)
    (htrim : Text.trim p.toList = p.toList) {rows : List SensitiveFieldRow}
    {row : SensitiveFieldRow} (hpath : row.jsonPath = p)
    (hrows : rows.filter (ofTable schema table) = [row]) (changedFields : List String) :
    (∀ field,
      (field ∈ ((SensitiveFieldRegistry.new p).detect schema table changedFields).map
          SensitiveMatch.jsonPath ↔
        field ∈ (((SensitiveFieldRegistry.new "").refreshCache (some rows)).detect schema table
          changedFields).map SensitiveMatch.jsonPath) ∧
      (field ∈ ((SensitiveFieldRegistry.new p).detect schema table changedFields).map
          SensitiveMatch.jsonPath ↔
        field ∈ changedFields ∧ trimPath field = trimPath p)) ↔
      ∀ field ∈ changedFields,
        (trimPath field = trimPath p → p ≠ "" ∧ (trimPath p = p ∨ field = p)) ∧
          ∀ other ∈ rows, ofTable schema table other = false →
            marks schema table other field = true → trimPath field = trimPath p := by
  subst hpath
  simp only [mem_paths_new hcomma htrim, mem_paths_rows, exists_marks_iff hrows]
  refine forall_congr' fun field => ?_
  by_cases hfield : field ∈ changedFields
  · have hglobal : (row.jsonPath = trimPath field ∨ row.jsonPath = field) →
        trimPath field = trimPath row.jsonPath := by
      rintro (heq | heq)
      · rw [heq, trimPath_idem]
      · rw [heq]
    grind
  · simp [hfield]

/-- A path without `$.` in front reports a field with it, from either list. -/
theorem paths_alike_pan :
    "$.pan" ∈ ((SensitiveFieldRegistry.new "pan").detect "public" "cards" ["$.pan", "id"]).map
        SensitiveMatch.jsonPath ↔
      "$.pan" ∈ (((SensitiveFieldRegistry.new "").refreshCache
        (some [⟨"public", "cards", "pan", true⟩])).detect "public" "cards" ["$.pan", "id"]).map
          SensitiveMatch.jsonPath :=
  ((paths_alike_iff (by decide) (by decide)
    (show SensitiveFieldRow.jsonPath ⟨"public", "cards", "pan", true⟩ = "pan" from rfl) rfl
    ["$.pan", "id"]).mpr (by decide +kernel) "$.pan").1

/-- The path `$.pan` names the field `pan` as a row of the registry, and nothing as a global
entry. -/
theorem not_paths_alike :
    ¬ ∀ (p schema table : String) (changedFields : List String), ',' ∉ p.toList →
      Text.trim p.toList = p.toList → ∀ field,
        (field ∈ ((SensitiveFieldRegistry.new p).detect schema table changedFields).map
            SensitiveMatch.jsonPath ↔
          field ∈ (((SensitiveFieldRegistry.new "").refreshCache
            (some [⟨schema, table, p, true⟩])).detect schema table changedFields).map
              SensitiveMatch.jsonPath) ∧
        (field ∈ ((SensitiveFieldRegistry.new p).detect schema table changedFields).map
            SensitiveMatch.jsonPath ↔
          field ∈ changedFields ∧ trimPath field = trimPath p) := by
  intro h
  have hpan := (h "$.pan" "public" "cards" ["pan"] (by decide) (by decide) "pan").1
  revert hpan
  decide +kernel

end VibeAudit.Redaction
