import VibeAudit.Redaction.Columns

/-!
# Redaction and the loads of the registry

Capture and the refresh task share the registry; a load that fails leaves it as
it is, and before the first load that succeeds it knows the global list alone.
So whether a column of an INSERT is hidden depends on the last load that
succeeded before the line was read.
-/

namespace VibeAudit.Redaction

open Foundation Json Forwarder SensitiveFieldRegistry

/-- A refresh, with the rows of its query or `none` when it fails, or a line that capture reads. -/
inductive WatchAction where
  | refresh (rows : Option (List SensitiveFieldRow))
  | line (now data xid lsn : String)

/-- An event that was sent, with the line it was built from. -/
structure Sent where
  data : String
  event : Value

structure Watch where
  registry : SensitiveFieldRegistry
  sent : List Sent

variable (fromStr : String → Option Value)

namespace Watch

def new (globalFieldsCsv : String) : Watch :=
  { registry := SensitiveFieldRegistry.new globalFieldsCsv, sent := [] }

def step (s : Watch) : WatchAction → Watch
  | .refresh rows => { s with registry := s.registry.refreshCache rows }
  | .line now data xid lsn =>
    let events := (parseTestDecoding fromStr s.registry now data xid lsn).getD []
    { s with sent := s.sent ++ events.map fun event => { data := data, event := event } }

def run (s : Watch) (actions : List WatchAction) : Watch := actions.foldl (step fromStr) s

end Watch

/-- The rows of the last refresh that succeeded. -/
def lastLoad : List WatchAction → Option (List SensitiveFieldRow)
  | [] => none
  | .refresh (some rows) :: actions => some ((lastLoad actions).getD rows)
  | _ :: actions => lastLoad actions

theorem refreshCache_lastLoad_cons (s : Watch) (a : WatchAction) (actions : List WatchAction) :
    (s.step fromStr a).registry.refreshCache (lastLoad actions) =
      s.registry.refreshCache (lastLoad (a :: actions)) := by
  cases a with
  | line => rfl
  | refresh rows =>
    cases rows with
    | none => rfl
    | some rows =>
      rw [lastLoad]
      cases lastLoad actions <;> rfl

/-- What a run sends, line by line, each read with the registry of its moment. -/
theorem mem_sent_run (s : Watch) (actions : List WatchAction) (x : Sent) :
    x ∈ (s.run fromStr actions).sent ↔ x ∈ s.sent ∨
      ∃ pre now xid lsn post, actions = pre ++ .line now x.data xid lsn :: post ∧
        x.event ∈ (parseTestDecoding fromStr (s.registry.refreshCache (lastLoad pre)) now x.data
          xid lsn).getD [] := by
  induction actions generalizing s with
  | nil => simp [Watch.run]
  | cons a actions ih =>
    have hrun : s.run fromStr (a :: actions) = (s.step fromStr a).run fromStr actions := rfl
    have hfirst : x ∈ (s.step fromStr a).sent ↔ x ∈ s.sent ∨ ∃ now xid lsn,
        a = .line now x.data xid lsn ∧
          x.event ∈ (parseTestDecoding fromStr s.registry now x.data xid lsn).getD [] := by
      obtain ⟨data, event⟩ := x
      cases a with
      | refresh rows => simp [Watch.step]
      | line now data' xid lsn =>
        simp only [Watch.step, List.mem_append, List.mem_map, Sent.mk.injEq,
          WatchAction.line.injEq]
        grind
    rw [hrun, ih, hfirst, or_assoc]
    refine or_congr_right ?_
    constructor
    · rintro (⟨now, xid, lsn, rfl, hevent⟩ | ⟨pre, now, xid, lsn, post, rfl, hevent⟩)
      · exact ⟨[], now, xid, lsn, actions, rfl, hevent⟩
      · rw [refreshCache_lastLoad_cons] at hevent
        exact ⟨a :: pre, now, xid, lsn, post, rfl, hevent⟩
    · rintro ⟨pre, now, xid, lsn, post, hsplit, hevent⟩
      cases pre with
      | nil =>
        obtain ⟨rfl, rfl⟩ := List.cons.inj hsplit
        exact .inl ⟨now, xid, lsn, rfl, hevent⟩
      | cons b pre =>
        obtain ⟨rfl, rfl⟩ := List.cons.inj hsplit
        rw [← refreshCache_lastLoad_cons] at hevent
        exact .inr ⟨pre, now, xid, lsn, post, rfl, hevent⟩

/-- The global list names the field, or of the rows last loaded the first that marks it demands
redaction. -/
def Demanded (globalFieldsCsv : String) (load : Option (List SensitiveFieldRow))
    (schema table field : String) : Prop :=
  (SensitiveFieldRegistry.new globalFieldsCsv).isGlobal field = true ∨
    ∃ rows, load = some rows ∧ ∃ row, rows.find? (marks schema table · field) = some row ∧
      row.redactInLog = true

theorem flag_eq_true_iff (globalFieldsCsv : String) (load : Option (List SensitiveFieldRow))
    (schema table field : String) :
    ((SensitiveFieldRegistry.new globalFieldsCsv).refreshCache load).flag schema table field =
      some true ↔ Demanded globalFieldsCsv load schema table field := by
  cases load with
  | none =>
    have hentries : ((SensitiveFieldRegistry.new globalFieldsCsv).refreshCache none).entries schema
        table = [] := rfl
    have hglobal : ((SensitiveFieldRegistry.new globalFieldsCsv).refreshCache none).isGlobal field =
      (SensitiveFieldRegistry.new globalFieldsCsv).isGlobal field := rfl
    rw [flag, hentries, hglobal]
    simp [Demanded]
  | some rows =>
    rw [flag_refreshCache]
    cases hglobal : (SensitiveFieldRegistry.new globalFieldsCsv).isGlobal field with
    | true => simp [Demanded, hglobal]
    | false => simp [Demanded, hglobal, Option.map_eq_some_iff]

/-- After a load, a field is demanded if a row marks it for redaction and the rows that mark it
agree. -/
theorem demanded_of_agree {globalFieldsCsv schema table field : String}
    {rows : List SensitiveFieldRow} {row : SensitiveFieldRow} (hrow : row ∈ rows)
    (hmark : marks schema table row field = true) (hred : row.redactInLog = true)
    (hagree : ∀ a ∈ rows, marks schema table a field = true → a.redactInLog = row.redactInLog) :
    Demanded globalFieldsCsv (some rows) schema table field := by
  have hsome : (rows.find? (marks schema table · field)).isSome = true := by
    rw [List.find?_isSome]
    exact ⟨row, hrow, hmark⟩
  obtain ⟨first, hfirst⟩ := Option.isSome_iff_exists.mp hsome
  have hfirstMark : marks schema table first field = true := by
    simpa using List.find?_some hfirst
  refine .inr ⟨rows, rfl, first, hfirst, ?_⟩
  rw [hagree first (List.mem_of_find?_eq_some hfirst) hfirstMark, hred]

/-- The event of an INSERT hides a column exactly when a column of that name, up to `$.` in front,
is demanded, or there is nothing to hide. -/
theorem insert_hidden_iff (globalFieldsCsv : String) (load : Option (List SensitiveFieldRow))
    (now xid lsn : String) {data : String} {line : ChangeLine}
    (hline : parseChangeLine data = some line) (hinsert : line.commandTag = "INSERT") (c : String) :
    (∀ event ∈ (parseTestDecoding fromStr
        ((SensitiveFieldRegistry.new globalFieldsCsv).refreshCache load) now data xid lsn).getD [],
      Hidden (detailMember event "new_data" c)) ↔
    (∃ field, (newCell fromStr line field).isSome = true ∧ trimPath field = c ∧
      Demanded globalFieldsCsv load line.schema line.table field) ∨
        Hidden (newCell fromStr line c) := by
  obtain ⟨event, hevent, hspec⟩ := parseTestDecoding_spec fromStr
    ((SensitiveFieldRegistry.new globalFieldsCsv).refreshCache load) now xid lsn hline
    (.inl hinsert)
  have hold : oldColumns line = [] := by simp [oldColumns, hinsert]
  have holdCell : ∀ name, oldCell fromStr line name = none := by
    intro name
    rw [oldCell, hold, cell_nil]
  have hnone : Hidden (detailMember event "old_data" c) := by
    by_cases hc : Covered fromStr ((SensitiveFieldRegistry.new globalFieldsCsv).refreshCache load)
        line c
    · exact (hspec.hidden_of_covered fromStr hc).1
    · rw [(hspec.kept c hc).1, holdCell]
      exact hidden_none
  have hhidden := hspec.hidden_iff fromStr c
  have holdHidden : Hidden (oldCell fromStr line c) := by
    rw [holdCell]
    exact hidden_none
  have hcovered : Covered fromStr ((SensitiveFieldRegistry.new globalFieldsCsv).refreshCache load)
      line c ↔ ∃ field, (newCell fromStr line field).isSome = true ∧ trimPath field = c ∧
        Demanded globalFieldsCsv load line.schema line.table field := by
    refine exists_congr fun field => ?_
    rw [flag_eq_true_iff, Changed, holdCell, sameMember_none_left,
      and_comm (a := trimPath field = c)]
  rw [← hcovered]
  simp only [hnone, holdHidden, true_and] at hhidden
  rw [hevent, Option.getD_some, List.forall_mem_singleton, hhidden]

section

variable (globalFieldsCsv : String) (actions : List WatchAction) (schema table c : String)

/-- The column is hidden in every event that a run sends for an INSERT line on the table. -/
def InsertsHidden : Prop :=
  ∀ x ∈ ((Watch.new globalFieldsCsv).run fromStr actions).sent, ∀ line,
    parseChangeLine x.data = some line → line.commandTag = "INSERT" → line.schema = schema →
    line.table = table → Hidden (detailMember x.event "new_data" c)

/-- Before every INSERT line on the table the column was demanded, by the global list or by the
rows last loaded, or the line has nothing to hide. -/
def DemandedBefore : Prop :=
  ∀ pre now data xid lsn post, actions = pre ++ .line now data xid lsn :: post → ∀ line,
    parseChangeLine data = some line → line.commandTag = "INSERT" → line.schema = schema →
    line.table = table →
      (∃ field, (newCell fromStr line field).isSome = true ∧ trimPath field = c ∧
        Demanded globalFieldsCsv (lastLoad pre) schema table field) ∨
          Hidden (newCell fromStr line c)

/-- The column is hidden in every INSERT of a run exactly when it was demanded before each. -/
theorem insertsHidden_iff_demandedBefore :
    InsertsHidden fromStr globalFieldsCsv actions schema table c ↔
      DemandedBefore fromStr globalFieldsCsv actions schema table c := by
  constructor
  · rintro h pre now data xid lsn post rfl line hline hinsert rfl rfl
    rw [← insert_hidden_iff fromStr globalFieldsCsv (lastLoad pre) now xid lsn hline hinsert c]
    intro event hevent
    refine h ⟨data, event⟩ ?_ line hline hinsert rfl rfl
    rw [mem_sent_run]
    exact .inr ⟨pre, now, xid, lsn, post, rfl, hevent⟩
  · rintro h x hx line hline hinsert rfl rfl
    rcases (mem_sent_run fromStr _ _ _).mp hx with hnil | ⟨pre, now, xid, lsn, post, hsplit, hevent⟩
    · cases hnil
    · exact (insert_hidden_iff fromStr globalFieldsCsv (lastLoad pre) now xid lsn hline hinsert
        c).mpr (h pre now x.data xid lsn post hsplit line hline hinsert rfl rfl) x.event hevent

end

/-- The rows last loaded came with a refresh. -/
theorem mem_of_lastLoad {actions : List WatchAction} {rows : List SensitiveFieldRow}
    (h : lastLoad actions = some rows) : .refresh (some rows) ∈ actions := by
  induction actions with
  | nil => cases h
  | cons a actions ih =>
    have hlater : lastLoad actions = some rows → .refresh (some rows) ∈ a :: actions :=
      fun hload => List.mem_cons_of_mem a (ih hload)
    cases a with
    | line => exact hlater h
    | refresh loaded =>
      cases loaded with
      | none => exact hlater h
      | some loaded =>
        rw [lastLoad] at h
        cases hload : lastLoad actions with
        | none =>
          rw [hload] at h
          obtain rfl := Option.some.inj h
          exact List.mem_cons_self
        | some later =>
          rw [hload] at h
          exact hlater (hload.trans h)

/-- In every run, the column `c` of a table is hidden in the events of all INSERT lines exactly
when it was demanded before each of them that has something to hide. Where every load has a row
that marks a plain column for redaction, and no row that contradicts it, one load before each
line is enough. -/
theorem inserts_hidden_iff (globalFieldsCsv : String) (actions : List WatchAction)
    (schema table c : String) :
    (InsertsHidden fromStr globalFieldsCsv actions schema table c ↔
      DemandedBefore fromStr globalFieldsCsv actions schema table c) ∧
    ∀ row : SensitiveFieldRow, trimPath c = c → marks schema table row c = true →
      row.redactInLog = true →
      (∀ rows, .refresh (some rows) ∈ actions → row ∈ rows ∧
        ∀ a ∈ rows, marks schema table a c = true → a.redactInLog = row.redactInLog) →
      (∀ pre now data xid lsn post, actions = pre ++ .line now data xid lsn :: post →
        lastLoad pre ≠ none) →
      InsertsHidden fromStr globalFieldsCsv actions schema table c := by
  refine ⟨insertsHidden_iff_demandedBefore fromStr globalFieldsCsv actions schema table c, ?_⟩
  intro row hplain hmark hred hrows hloaded
  rw [insertsHidden_iff_demandedBefore]
  intro pre now data xid lsn post hsplit line hline hinsert hschema htable
  cases hcell : newCell fromStr line c with
  | none => exact .inr hidden_none
  | some v =>
    obtain ⟨rows, hload⟩ := Option.ne_none_iff_exists'.mp (hloaded pre now data xid lsn post hsplit)
    have hmem : .refresh (some rows) ∈ actions := by
      rw [hsplit]
      exact List.mem_append_left _ (mem_of_lastLoad hload)
    obtain ⟨hrow, hagree⟩ := hrows rows hmem
    refine .inl ⟨c, by rw [hcell]; rfl, hplain, ?_⟩
    rw [hload]
    exact demanded_of_agree hrow hmark hred hagree

def panInsert : String := "table public.cards: INSERT: id[integer]:1 pan[text]:'p-7'"

def panInsertLine : ChangeLine where
  commandTag := "INSERT"
  schema := "public"
  table := "cards"
  columns := [⟨"id", "1", false⟩, ⟨"pan", "p-7", false⟩]

def panRow : SensitiveFieldRow := ⟨"public", "cards", "pan", true⟩

def loadedStart : List WatchAction :=
  [.refresh (some [panRow]), .line "" panInsert "7" "0/1"]

theorem inserts_hidden_loaded :
    InsertsHidden readNumeral "" loadedStart "public" "cards" "pan" := by
  refine (inserts_hidden_iff readNumeral "" loadedStart "public" "cards" "pan").2 panRow
    (by decide) (by decide +kernel) rfl ?_ ?_
  · intro rows hrows
    obtain rfl : rows = [panRow] := by simpa [loadedStart] using hrows
    simp
  · intro pre now data xid lsn post hsplit
    obtain ⟨a, pre, rfl⟩ : ∃ a as, pre = a :: as := by
      cases pre with
      | nil => cases hsplit
      | cons a pre => exact ⟨a, pre, rfl⟩
    obtain ⟨rfl, -⟩ := List.cons.inj hsplit
    exact Option.some_ne_none _

/-- The registry marks `pan` of the cards, but the first refresh fails. -/
def failedStart : List WatchAction := [.refresh none, .line "" panInsert "7" "0/1"]

theorem not_inserts_hidden :
    ¬ ∀ (actions : List WatchAction) (schema table c : String) (row : SensitiveFieldRow),
      row.schemaName = schema → row.tableName = table → row.jsonPath = c →
      row.redactInLog = true → (∀ rows, .refresh (some rows) ∈ actions → row ∈ rows) →
      InsertsHidden readNumeral "" actions schema table c := by
  intro h
  have hhidden := h failedStart "public" "cards" "pan" panRow rfl rfl rfl rfl
    (by simp [failedStart])
  have hline : parseChangeLine panInsert = some panInsertLine := by decide +kernel
  rcases (insertsHidden_iff_demandedBefore readNumeral "" failedStart "public" "cards" "pan").mp
    hhidden [.refresh none] "" panInsert "7" "0/1" [] rfl panInsertLine hline rfl rfl rfl with
    ⟨field, -, -, hglobal | ⟨rows, hload, -⟩⟩ | hcell
  · have hnone : (SensitiveFieldRegistry.new "").globalFields = [] := by decide
    simp [isGlobal, hnone] at hglobal
  · cases hload
  · have hvalue : (newCell readNumeral panInsertLine "pan").bind Value.asStr = some "p-7" := by
      decide +kernel
    obtain ⟨v, hv, hstr⟩ := Option.bind_eq_some_iff.mp hvalue
    rw [hcell v hv] at hstr
    exact absurd hstr (by decide)

end VibeAudit.Redaction
