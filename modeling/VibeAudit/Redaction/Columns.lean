import VibeAudit.Redaction.Change

/-!
# Redaction of columns

The fields to redact are looked for among the changed ones only. A registered
column is hidden in the event of an UPDATE when it changed; when the old and the
new row agree on it, it is written out.
-/

namespace VibeAudit.Redaction

open Foundation Json Forwarder

variable (fromStr : String → Option Value)

/-- There is no such member, or it is the redaction marker. -/
def Hidden (m : Option Value) : Prop := ∀ v, m = some v → v = redacted

theorem hidden_none : Hidden none := by simp [Hidden]

theorem hidden_map_redacted (m : Option Value) : Hidden (m.map fun _ => redacted) := by
  rintro v hv
  obtain ⟨w, -, rfl⟩ := Option.map_eq_some_iff.mp hv
  rfl

/-- A covered column is hidden in both documents. -/
theorem RedactedEvent.hidden_of_covered {registry : SensitiveFieldRegistry} {line : ChangeLine}
    {event : Value} (h : RedactedEvent fromStr registry line event) {c : String}
    (hc : Covered fromStr registry line c) :
    Hidden (detailMember event "old_data" c) ∧ Hidden (detailMember event "new_data" c) := by
  rw [(h.covered c hc).1, (h.covered c hc).2]
  exact ⟨hidden_map_redacted _, hidden_map_redacted _⟩

/-- A column is hidden in both documents exactly when it is covered or was hidden before. -/
theorem RedactedEvent.hidden_iff {registry : SensitiveFieldRegistry} {line : ChangeLine}
    {event : Value} (h : RedactedEvent fromStr registry line event) (c : String) :
    Hidden (detailMember event "old_data" c) ∧ Hidden (detailMember event "new_data" c) ↔
      Covered fromStr registry line c ∨
        (Hidden (oldCell fromStr line c) ∧ Hidden (newCell fromStr line c)) := by
  by_cases hc : Covered fromStr registry line c
  · exact iff_of_true (h.hidden_of_covered fromStr hc) (.inl hc)
  · rw [(h.kept c hc).1, (h.kept c hc).2]
    exact ⟨.inr, fun hor => hor.resolve_left hc⟩

/-- For a column that the registry redacts, being covered is a matter of the rows alone. -/
theorem covered_iff_of_flag {registry : SensitiveFieldRegistry} {line : ChangeLine} {c : String}
    (hc : registry.flag line.schema line.table c = some true) :
    Covered fromStr registry line c ↔ ∃ field, Changed fromStr line field ∧ trimPath field = c := by
  constructor
  · rintro ⟨field, hchanged, -, hname⟩
    exact ⟨field, hchanged, hname⟩
  · rintro ⟨field, hchanged, rfl⟩
    exact ⟨field, hchanged, registry.flag_of_flag_trimPath _ _ hc, rfl⟩

/-- In the event of an UPDATE line, a column that `detect` reports for redaction whenever it
changes is absent or redacted in both documents exactly when the rows differ under its name (up
to `$.` in front of it), or neither row had a value to hide. -/
theorem update_column_hidden_iff (registry : SensitiveFieldRegistry) (now data xid lsn : String)
    (line : ChangeLine) (c : String) (hline : parseChangeLine data = some line)
    (hupdate : line.commandTag = "UPDATE")
    (hc : ∀ changed, c ∈ changed →
      { jsonPath := c, redact := true } ∈ registry.detect line.schema line.table changed) :
    ∃ event, parseTestDecoding fromStr registry now data xid lsn = some [event] ∧
      (Hidden (detailMember event "old_data" c) ∧ Hidden (detailMember event "new_data" c) ↔
        (∃ field, Changed fromStr line field ∧ trimPath field = c) ∨
          (Hidden (oldCell fromStr line c) ∧ Hidden (newCell fromStr line c))) := by
  obtain ⟨event, hevent, hspec⟩ :=
    parseTestDecoding_spec fromStr registry now xid lsn hline (.inr (.inl hupdate))
  have hflag : registry.flag line.schema line.table c = some true :=
    ((registry.mem_detect_iff line.schema line.table [c] _).mp (hc [c] List.mem_cons_self)).2
  exact ⟨event, hevent, by rw [hspec.hidden_iff fromStr c, covered_iff_of_flag fromStr hflag]⟩

/-- What `serde_json::from_str` makes of a decimal numeral, and of a text that is no JSON. -/
def readNumeral (text : String) : Option Value :=
  if text = "1" then some (.number (.posInt 1))
  else if text = "2" then some (.number (.posInt 2))
  else none

def panRegistry : SensitiveFieldRegistry := SensitiveFieldRegistry.new "pan"

theorem panRegistry_detect (schema table : String) (changed : List String) (h : "pan" ∈ changed) :
    { jsonPath := "pan", redact := true } ∈ panRegistry.detect schema table changed := by
  rw [SensitiveFieldRegistry.mem_detect_iff]
  exact ⟨h, by rw [SensitiveFieldRegistry.flag, if_pos (by decide +kernel)]⟩

def keyUpdate : String :=
  "table public.cards: UPDATE: old-key: id[integer]:1 pan[text]:'p-7' " ++
    "new-tuple: id[integer]:2 pan[text]:'p-7'"

def keyUpdateLine : ChangeLine where
  commandTag := "UPDATE"
  schema := "public"
  table := "cards"
  columns := [⟨"id", "1", true⟩, ⟨"pan", "p-7", true⟩, ⟨"id", "2", false⟩, ⟨"pan", "p-7", false⟩]

theorem parseChangeLine_keyUpdate : parseChangeLine keyUpdate = some keyUpdateLine := by
  decide +kernel

def panUpdate : String :=
  "table public.cards: UPDATE: old-key: id[integer]:1 pan[text]:'p-7' " ++
    "new-tuple: id[integer]:1 pan[text]:'p-8'"

def panUpdateLine : ChangeLine where
  commandTag := "UPDATE"
  schema := "public"
  table := "cards"
  columns := [⟨"id", "1", true⟩, ⟨"pan", "p-7", true⟩, ⟨"id", "1", false⟩, ⟨"pan", "p-8", false⟩]

theorem update_column_hidden_keyUpdate :
    (∃ event, parseTestDecoding readNumeral panRegistry "" keyUpdate "7" "0/1" = some [event] ∧
      (Hidden (detailMember event "old_data" "pan") ∧
          Hidden (detailMember event "new_data" "pan") ↔
        (∃ field, Changed readNumeral keyUpdateLine field ∧ trimPath field = "pan") ∨
          (Hidden (oldCell readNumeral keyUpdateLine "pan") ∧
            Hidden (newCell readNumeral keyUpdateLine "pan")))) ∧
    ∃ event, parseTestDecoding readNumeral panRegistry "" panUpdate "7" "0/1" = some [event] ∧
      Hidden (detailMember event "old_data" "pan") ∧
        Hidden (detailMember event "new_data" "pan") := by
  refine ⟨update_column_hidden_iff readNumeral panRegistry "" keyUpdate "7" "0/1" keyUpdateLine
    "pan" parseChangeLine_keyUpdate rfl (panRegistry_detect _ _), ?_⟩
  have hline : parseChangeLine panUpdate = some panUpdateLine := by decide +kernel
  have hchanged : Changed readNumeral panUpdateLine "pan" := by
    unfold Changed
    decide +kernel
  obtain ⟨event, hevent, hhidden⟩ := update_column_hidden_iff readNumeral panRegistry "" panUpdate
    "7" "0/1" panUpdateLine "pan" hline rfl (panRegistry_detect _ _)
  exact ⟨event, hevent, hhidden.mpr (.inl ⟨"pan", hchanged, by decide +kernel⟩)⟩

/-- The unchanged `pan` is in the event as it is in the row. -/
theorem not_update_column_hidden :
    ¬ ∀ (registry : SensitiveFieldRegistry) (now data xid lsn : String) (line : ChangeLine)
      (c : String) (event : Value), parseChangeLine data = some line → line.commandTag = "UPDATE" →
      (∀ changed, c ∈ changed →
        { jsonPath := c, redact := true } ∈ registry.detect line.schema line.table changed) →
      parseTestDecoding readNumeral registry now data xid lsn = some [event] →
      Hidden (detailMember event "old_data" c) ∧ Hidden (detailMember event "new_data" c) := by
  intro h
  obtain ⟨event, hevent, -⟩ := parseTestDecoding_spec readNumeral panRegistry "" "7" "0/1"
    parseChangeLine_keyUpdate (.inr (.inl rfl))
  have hhidden := h panRegistry "" keyUpdate "7" "0/1" keyUpdateLine "pan" event
    parseChangeLine_keyUpdate rfl (panRegistry_detect _ _) hevent
  have hwritten : (parseTestDecoding readNumeral panRegistry "" keyUpdate "7" "0/1").map
      (fun events => events.map fun e => (detailMember e "new_data" "pan").bind Value.asStr) =
        some [some "p-7"] := by decide +kernel
  rw [hevent] at hwritten
  obtain ⟨v, hv, hstr⟩ : ∃ v, detailMember event "new_data" "pan" = some v ∧
      v.asStr = some "p-7" := by
    simpa [Option.bind_eq_some_iff] using hwritten
  rw [hhidden.2 v hv] at hstr
  exact absurd hstr (by decide)

end VibeAudit.Redaction
