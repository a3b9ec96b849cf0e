import VibeAudit.Redaction.Columns

/-!
# Redaction inside documents

A registered path is compared with the names of columns only, and a redaction
replaces a column as a whole. So the members of a document are never redacted
one by one: what a document holds under a registered name stays, unless the
column itself is replaced.
-/

namespace VibeAudit.Redaction

open Foundation Json Forwarder

variable (fromStr : String → Option Value)

/-- Every object document in the event that has a top-level member `f` holds the redaction
marker there. -/
def DocumentsHide (event : Value) (f : String) : Prop :=
  ∀ doc ∈ ["old_data", "new_data"], ∀ column v, detailMember event doc column = some v →
    v.isObject = true → Hidden (v.get? f)

/-- In the event of a row change, every document hides its member `f` exactly when each column
that holds a document with something else under `f` is itself replaced: it changed and is
registered for redaction as a column. -/
theorem documents_hidden_iff (registry : SensitiveFieldRegistry) (now data xid lsn : String)
    (line : ChangeLine) (f : String) (hline : parseChangeLine data = some line)
    (hrow : IsRowChange line) :
    ∃ event, parseTestDecoding fromStr registry now data xid lsn = some [event] ∧
      (DocumentsHide event f ↔
        ∀ column v, oldCell fromStr line column = some v ∨ newCell fromStr line column = some v →
          v.isObject = true → ¬ Hidden (v.get? f) →
          ∃ field, Changed fromStr line field ∧
            registry.flag line.schema line.table field = some true ∧ trimPath field = column) := by
  obtain ⟨event, hevent, hspec⟩ := parseTestDecoding_spec fromStr registry now xid lsn hline hrow
  refine ⟨event, hevent, ?_, ?_⟩
  · intro hhide column v hv hobj hshown
    by_contra hfree
    obtain ⟨hold, hnew⟩ := hspec.kept column hfree
    rcases hv with hv | hv
    · exact hshown (hhide "old_data" (by simp) column v (hold.trans hv) hobj)
    · exact hshown (hhide "new_data" (by simp) column v (hnew.trans hv) hobj)
  · intro hcolumns doc hdoc column v hv hobj
    have hfree : ¬ Covered fromStr registry line column := by
      intro hcovered
      have hhidden := hspec.hidden_of_covered fromStr hcovered
      have hmarker : v = redacted := by
        rcases List.mem_pair.mp hdoc with rfl | rfl
        · exact hhidden.1 v hv
        · exact hhidden.2 v hv
      rw [hmarker] at hobj
      cases hobj
    by_contra hshown
    refine hfree (hcolumns column v ?_ hobj hshown)
    rcases List.mem_pair.mp hdoc with rfl | rfl
    · exact .inl ((hspec.kept column hfree).1 ▸ hv)
    · exact .inr ((hspec.kept column hfree).2 ▸ hv)

def cardRegistry : SensitiveFieldRegistry :=
  (SensitiveFieldRegistry.new "").refreshCache
    (some [⟨"public", "payment_cards", "$.card_number", true⟩])

def cardText : String := "\x7b\"card_number\":\"4111\"\x7d"

def readCard (text : String) : Option Value :=
  if text = cardText then some (.obj [("card_number", .string "4111")])
  else readNumeral text

def cardInsert : String :=
  "table public.payment_cards: INSERT: id[integer]:1 data[jsonb]:'" ++ cardText ++ "'"

def cardInsertLine : ChangeLine where
  commandTag := "INSERT"
  schema := "public"
  table := "payment_cards"
  columns := [⟨"id", "1", false⟩, ⟨"data", cardText, false⟩]

theorem parseChangeLine_cardInsert : parseChangeLine cardInsert = some cardInsertLine := by
  decide +kernel

def dataRegistry : SensitiveFieldRegistry := SensitiveFieldRegistry.new "data"

theorem documents_hidden_cardInsert :
    (∃ event, parseTestDecoding readCard cardRegistry "" cardInsert "7" "0/1" = some [event] ∧
      (DocumentsHide event "card_number" ↔
        ∀ column v, oldCell readCard cardInsertLine column = some v ∨
            newCell readCard cardInsertLine column = some v →
          v.isObject = true → ¬ Hidden (v.get? "card_number") →
          ∃ field, Changed readCard cardInsertLine field ∧
            cardRegistry.flag "public" "payment_cards" field = some true ∧
            trimPath field = column)) ∧
    ∃ event, parseTestDecoding readCard dataRegistry "" cardInsert "7" "0/1" = some [event] ∧
      DocumentsHide event "card_number" := by
  refine ⟨documents_hidden_iff readCard cardRegistry "" cardInsert "7" "0/1" cardInsertLine
    "card_number" parseChangeLine_cardInsert (.inl rfl), ?_⟩
  obtain ⟨event, hevent, hhide⟩ := documents_hidden_iff readCard dataRegistry "" cardInsert "7"
    "0/1" cardInsertLine "card_number" parseChangeLine_cardInsert (.inl rfl)
  refine ⟨event, hevent, hhide.mpr fun column v hv hobj _ => ?_⟩
  have hdata : column = "data" := by
    by_contra hother
    have hnew := hv.resolve_left (by rintro ⟨⟩)
    by_cases hid : column = "id"
    · subst hid
      have hnumber : (newCell readCard cardInsertLine "id").any Value.isObject = false := by
        decide +kernel
      simp [hnew, hobj] at hnumber
    · simp [newCell, cell, newColumns, cardInsertLine, Ne.symm hid, Ne.symm hother] at hnew
  subst hdata
  refine ⟨"data", ?_, by decide +kernel, by decide +kernel⟩
  unfold Changed
  decide +kernel

/-- The registered card number is in the event, inside the document of the column `data`. -/
theorem not_documents_hidden :
    ¬ ∀ (registry : SensitiveFieldRegistry) (now data xid lsn : String) (line : ChangeLine)
      (f : String) (event : Value), parseChangeLine data = some line → IsRowChange line →
      { jsonPath := "$." ++ f, redactInLog := true } ∈ registry.entries line.schema line.table →
      parseTestDecoding readCard registry now data xid lsn = some [event] →
      DocumentsHide event f := by
  intro h
  obtain ⟨event, hevent, -⟩ := parseTestDecoding_spec readCard cardRegistry "" "7" "0/1"
    parseChangeLine_cardInsert (.inl rfl)
  have hhide := h cardRegistry "" cardInsert "7" "0/1" cardInsertLine "card_number" event
    parseChangeLine_cardInsert (.inl rfl) (by decide +kernel) hevent
  have hwritten : (parseTestDecoding readCard cardRegistry "" cardInsert "7" "0/1").map
      (fun events => events.map fun e => (detailMember e "new_data" "data").bind fun v =>
        if v.isObject then (v.get? "card_number").bind Value.asStr else none) =
        some [some "4111"] := by decide +kernel
  rw [hevent] at hwritten
  obtain ⟨v, hv, hobj, w, hw, hstr⟩ : ∃ v, detailMember event "new_data" "data" = some v ∧
      v.isObject = true ∧ ∃ w, v.get? "card_number" = some w ∧ w.asStr = some "4111" := by
    simpa [Option.bind_eq_some_iff] using hwritten
  rw [hhide "new_data" (by simp) "data" v hv hobj w hw] at hstr
  exact absurd hstr (by decide)

end VibeAudit.Redaction
