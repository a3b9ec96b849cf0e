import VibeAudit.Forwarder.Sensitive

/-!
# Redaction of what was detected

`detect` reports a changed field once, however many entries name it, and
`redact` replaces the values under the reported names and nothing else. What a
document becomes is decided name by name, so neither the order of the matches
nor a second pass makes a difference.
-/

namespace VibeAudit.Redaction

open Foundation Json Forwarder SensitiveFieldRegistry

/-- A path that does not start with `$.` is left as it is. -/
theorem trimPath_of_bare {path : String} (h : ¬ ['$', '.'] <+: path.toList) :
    trimPath path = path := by
  have hchars : Text.trimStartPair '$' '.' path.toList = path.toList := by
    rw [Text.trimStartPair.eq_def]
    split
    · rename_i x y s hpath
      rw [if_neg, hpath]
      rintro ⟨rfl, rfl⟩
      exact h (hpath ▸ ⟨s, rfl⟩)
    · rfl
  rw [trimPath, hchars, String.ofList_toList]

/-! ## What is reported -/

section

variable (r : SensitiveFieldRegistry) (schema table : String)

theorem map_foldl_pushGlobal (fields : List String) (found : List SensitiveMatch) :
    (fields.foldl r.pushGlobal found).map SensitiveMatch.jsonPath =
      found.map SensitiveMatch.jsonPath ++ fields.filter r.isGlobal := by
  induction fields generalizing found with
  | nil => simp
  | cons field fields ih =>
    rw [List.foldl_cons, ih, pushGlobal]
    by_cases hglobal : r.isGlobal field = true
    · simp [hglobal]
    · simp [hglobal]

/-- The second loop adds a field only where it is not reported yet. -/
theorem nodup_foldl_pushDb (entries : List DbSensitiveField) (fields : List String)
    {found : List SensitiveMatch} (h : (found.map SensitiveMatch.jsonPath).Nodup) :
    ((fields.foldl (fun found field => entries.foldl (pushDb field) found) found).map
      SensitiveMatch.jsonPath).Nodup := by
  induction fields generalizing found with
  | nil => exact h
  | cons field fields ih =>
    rw [List.foldl_cons, foldl_pushDb]
    apply ih
    split_ifs with hfound
    · exact h
    · cases entries.find? (names · field) with
      | none => simpa using h
      | some d =>
        have hnew : field ∉ found.map SensitiveMatch.jsonPath := by simpa using hfound
        simp [List.nodup_append, h]
        grind

/-- Every field is reported at most once, if it is listed at most once. -/
theorem nodup_detect {changedFields : List String} (h : changedFields.Nodup) :
    ((r.detect schema table changedFields).map SensitiveMatch.jsonPath).Nodup := by
  apply nodup_foldl_pushDb
  rw [map_foldl_pushGlobal]
  exact h.filter r.isGlobal

/-- The registry has a flag for a field that the global list or an entry of the table names. -/
theorem flag_isSome_iff {field : String} (h : trimPath field = field) :
    (r.flag schema table field).isSome = true ↔
      field ∈ r.globalFields ∨ ∃ d ∈ r.entries schema table, trimPath d.jsonPath = field := by
  have hglobal : r.isGlobal field = true ↔ field ∈ r.globalFields := by simp [isGlobal, h]
  rw [flag, ← hglobal]
  split_ifs with hg
  · simp [hg]
  · simp [hg, names, h]

/-- The paths reported are the changed fields with a flag. -/
theorem mem_paths_detect (changedFields : List String) (field : String) :
    field ∈ (r.detect schema table changedFields).map SensitiveMatch.jsonPath ↔
      field ∈ changedFields ∧ (r.flag schema table field).isSome = true := by
  rw [List.mem_map, Option.isSome_iff_exists]
  constructor
  · rintro ⟨m, hm, rfl⟩
    obtain ⟨hmem, hflag⟩ := (mem_detect_iff _ _ _ _ _).mp hm
    exact ⟨hmem, m.redact, hflag⟩
  · rintro ⟨hmem, red, hflag⟩
    exact ⟨⟨field, red⟩, (mem_detect_iff _ _ _ _ _).mpr ⟨hmem, hflag⟩, rfl⟩

end

/-! ## What is redacted -/

theorem sorted_foldl_redactOne {m : Map} (hm : SortedMap.Sorted m) (found : List SensitiveMatch) :
    SortedMap.Sorted (found.foldl redactOne m) := by
  induction found generalizing m with
  | nil => exact hm
  | cons f found ih =>
    apply ih
    dsimp only [redactOne]
    split_ifs
    · exact hm
    · exact SortedMap.sorted_insert hm _ _
    · exact hm

/-- Redaction neither adds nor removes a name. -/
theorem keys_foldl_redactOne {m : Map} (hm : SortedMap.Sorted m) (found : List SensitiveMatch) :
    SortedMap.keys (found.foldl redactOne m) = SortedMap.keys m := by
  induction found generalizing m with
  | nil => rfl
  | cons f found ih =>
    have hone : SortedMap.keys (redactOne m f) = SortedMap.keys m := by
      dsimp only [redactOne]
      split_ifs with _ hkey
      · rfl
      · exact SortedMap.keys_insert hm _ hkey
      · rfl
    exact (ih (sorted_foldl_redactOne hm [f])).trans hone

open Classical in
theorem get?_foldl_redactOne (m : Map) (found : List SensitiveMatch) (key : String) :
    SortedMap.get? (found.foldl redactOne m) key =
      if Demands found key then (SortedMap.get? m key).map fun _ => redacted
      else SortedMap.get? m key := by
  obtain ⟨hyes, hno⟩ := get?_redact (.object m) found key
  split_ifs with h
  · exact hyes h
  · exact hno h

/-- Matches with the same demands redact a document alike. -/
theorem foldl_redactOne_congr {m : Map} (hm : SortedMap.Sorted m)
    {found found' : List SensitiveMatch} (h : ∀ key, Demands found key ↔ Demands found' key) :
    found.foldl redactOne m = found'.foldl redactOne m := by
  apply SortedMap.ext (sorted_foldl_redactOne hm found) (sorted_foldl_redactOne hm found')
  intro key
  classical
  rw [get?_foldl_redactOne, get?_foldl_redactOne]
  exact if_congr (h key) rfl rfl

/-- A second pass finds nothing left to replace. -/
theorem foldl_redactOne_idem {m : Map} (hm : SortedMap.Sorted m) (found : List SensitiveMatch) :
    found.foldl redactOne (found.foldl redactOne m) = found.foldl redactOne m := by
  have hout := sorted_foldl_redactOne hm found
  apply SortedMap.ext (sorted_foldl_redactOne hout found) hout
  intro key
  simp only [get?_foldl_redactOne]
  split_ifs with h
  · rw [Option.map_map]
    rfl
  · rfl

theorem demands_perm {found found' : List SensitiveMatch} (h : found.Perm found') (key : String) :
    Demands found key ↔ Demands found' key := by
  simp only [Demands, h.mem_iff]

end VibeAudit.Redaction
