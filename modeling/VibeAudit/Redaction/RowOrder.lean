import VibeAudit.Forwarder.Sensitive

/-!
# The order of the registry's rows

`refresh_cache` reads the rows in any order, and `detect` lets the first row
that marks a field speak for it. So the order is of no account exactly when the
rows that mark a field agree, and then no demand to redact is lost.
-/

namespace VibeAudit.Redaction

open Foundation Json Forwarder SensitiveFieldRegistry

/-- The first element with a property has the same image in every order of a list exactly when
all elements with the property have it. -/
theorem map_find?_perm_iff {α β : Type*} (p : α → Bool) (f : α → β) (xs : List α) :
    (∀ ys zs : List α, ys.Perm xs → zs.Perm xs → (ys.find? p).map f = (zs.find? p).map f) ↔
      ∀ a ∈ xs, ∀ b ∈ xs, p a = true → p b = true → f a = f b := by
  constructor
  · intro h a ha b hb hpa hpb
    obtain ⟨s, t, hs⟩ := List.append_of_mem ha
    obtain ⟨u, v, hu⟩ := List.append_of_mem hb
    have hfirst := h (a :: (s ++ t)) (b :: (u ++ v)) (hs ▸ List.perm_middle.symm)
      (hu ▸ List.perm_middle.symm)
    rw [List.find?_cons_of_pos hpa, List.find?_cons_of_pos hpb] at hfirst
    exact Option.some.inj hfirst
  · intro h ys zs hys hzs
    have hmem : ∀ a, a ∈ ys ↔ a ∈ zs := fun a => (hys.trans hzs.symm).mem_iff
    cases hy : ys.find? p with
    | none =>
      have hz : zs.find? p = none := by
        rw [List.find?_eq_none] at hy ⊢
        exact fun a ha => hy a ((hmem a).mpr ha)
      rw [hz]
    | some a =>
      have hpa : p a = true := List.find?_some hy
      have ha : a ∈ ys := List.mem_of_find?_eq_some hy
      obtain ⟨b, hz⟩ : ∃ b, zs.find? p = some b := by
        rw [← Option.isSome_iff_exists, List.find?_isSome]
        exact ⟨a, (hmem a).mp ha, hpa⟩
      have hb : b ∈ zs := List.mem_of_find?_eq_some hz
      rw [hz, Option.map_some, Option.map_some,
        h a (hys.mem_iff.mp ha) b (hzs.mem_iff.mp hb) hpa (List.find?_some hz)]

section

variable (r : SensitiveFieldRegistry) (schema table : String)

/-- Two loads report the same pairs exactly when they have the same flags. -/
theorem detect_congr_iff {r₁ r₂ : SensitiveFieldRegistry} (changedFields : List String) :
    (∀ m, m ∈ r₁.detect schema table changedFields ↔ m ∈ r₂.detect schema table changedFields) ↔
      ∀ field ∈ changedFields, r₁.flag schema table field = r₂.flag schema table field := by
  simp only [mem_detect_iff]
  constructor
  · intro h field hfield
    refine Option.ext fun red => ?_
    have hm := h ⟨field, red⟩
    simpa [hfield] using hm
  · intro h m
    exact and_congr_right fun hm => by rw [h m.jsonPath hm]

/-- The rows that mark a field the global list leaves out agree on it. -/
def RowsAgree (rows : List SensitiveFieldRow) (changedFields : List String) : Prop :=
  ∀ field ∈ changedFields, r.isGlobal field = false → ∀ a ∈ rows, ∀ b ∈ rows,
    marks schema table a field = true → marks schema table b field = true →
      a.redactInLog = b.redactInLog

/-- The order of the rows does not matter exactly when those that mark the field agree. -/
theorem flags_agree_iff (rows : List SensitiveFieldRow) (field : String) :
    (∀ rows₁ rows₂ : List SensitiveFieldRow, rows₁.Perm rows → rows₂.Perm rows →
      (r.refreshCache (some rows₁)).flag schema table field =
        (r.refreshCache (some rows₂)).flag schema table field) ↔
      (r.isGlobal field = false → ∀ a ∈ rows, ∀ b ∈ rows, marks schema table a field = true →
        marks schema table b field = true → a.redactInLog = b.redactInLog) := by
  simp only [flag_refreshCache]
  cases r.isGlobal field with
  | true => simp
  | false =>
    have hperm := map_find?_perm_iff (marks schema table · field) SensitiveFieldRow.redactInLog rows
    simpa using hperm

/-- `detect` reports the same fields with the same flags after a load of the rows in any order,
and redacts a field whenever the global list or a row of the table demands it, exactly when the
rows that mark a changed field agree. -/
theorem detect_any_order_iff (rows : List SensitiveFieldRow) (changedFields : List String) :
    ((∀ rows₁ rows₂ : List SensitiveFieldRow, rows₁.Perm rows → rows₂.Perm rows → ∀ m,
        m ∈ (r.refreshCache (some rows₁)).detect schema table changedFields ↔
          m ∈ (r.refreshCache (some rows₂)).detect schema table changedFields) ∧
      ∀ rows₁ : List SensitiveFieldRow, rows₁.Perm rows →
        ∀ m ∈ (r.refreshCache (some rows₁)).detect schema table changedFields,
          (r.isGlobal m.jsonPath = true ∨ ∃ row ∈ rows, row.schemaName = schema ∧
            row.tableName = table ∧ names ⟨row.jsonPath, row.redactInLog⟩ m.jsonPath = true ∧
              row.redactInLog = true) → m.redact = true) ↔
      RowsAgree r schema table rows changedFields := by
  simp only [detect_congr_iff]
  constructor
  · rintro ⟨h, -⟩ field hfield
    exact (flags_agree_iff r schema table rows field).mp
      fun rows₁ rows₂ h₁ h₂ => h rows₁ rows₂ h₁ h₂ field hfield
  · intro hagree
    refine ⟨fun rows₁ rows₂ h₁ h₂ field hfield =>
      (flags_agree_iff r schema table rows field).mpr (hagree field hfield) rows₁ rows₂ h₁ h₂, ?_⟩
    intro rows₁ h₁ m hm hdemand
    obtain ⟨hfield, hflag⟩ := (mem_detect_iff _ _ _ _ _).mp hm
    rw [flag_refreshCache] at hflag
    cases hglobal : r.isGlobal m.jsonPath with
    | true => simpa [hglobal] using hflag.symm
    | false =>
      rw [hglobal] at hdemand
      obtain ⟨row, hrow, rfl, rfl, hnames, hred⟩ := hdemand.resolve_left Bool.false_ne_true
      rw [if_neg (by simp [hglobal])] at hflag
      obtain ⟨first, hfirst, hflag⟩ := Option.map_eq_some_iff.mp hflag
      have hmem : first ∈ rows := h₁.mem_iff.mp (List.mem_of_find?_eq_some hfirst)
      have hmark : marks row.schemaName row.tableName row m.jsonPath = true := by
        simp [marks, hnames]
      have hfirstMark : marks row.schemaName row.tableName first m.jsonPath = true := by
        simpa using List.find?_some hfirst
      rw [← hflag, hagree m.jsonPath hfield hglobal first hmem row hrow hfirstMark hmark, hred]

end

def panRows : List SensitiveFieldRow :=
  [⟨"public", "cards", "pan", false⟩, ⟨"public", "cards", "$.pan", true⟩]

/-- The flag of `pan` is that of the row read first. -/
theorem not_detect_any_order :
    ¬ ∀ rows rows₁ rows₂ : List SensitiveFieldRow,
      (rows.map fun row => (row.schemaName, row.tableName, row.jsonPath)).Nodup →
      rows₁.Perm rows → rows₂.Perm rows → ∀ m,
        m ∈ ((SensitiveFieldRegistry.new "").refreshCache (some rows₁)).detect "public" "cards"
            ["pan"] ↔
          m ∈ ((SensitiveFieldRegistry.new "").refreshCache (some rows₂)).detect "public" "cards"
            ["pan"] := by
  intro h
  have hpan := h panRows panRows panRows.reverse (by decide) (.refl _) (List.reverse_perm _)
    ⟨"pan", true⟩
  revert hpan
  decide +kernel

end VibeAudit.Redaction
