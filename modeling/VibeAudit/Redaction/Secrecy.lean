import VibeAudit.Redaction.Detected
import VibeAudit.Redaction.Refresh

/-!
# What the values of covered columns influence

Two changes that differ in the values of covered columns alone, and change the
same fields, have one and the same event. So nothing downstream of capture can
tell them apart, over whole runs and whatever the loads of the registry bring.
-/

namespace VibeAudit.Redaction

open Foundation Json Forwarder SensitiveFieldRegistry

/-! ## Documents with the same names -/

/-- Maps that bind the same keys list them in the same order. -/
theorem keys_eq_of_isSome {m n : Map} (hm : SortedMap.Sorted m) (hn : SortedMap.Sorted n)
    (h : ∀ key, (SortedMap.get? m key).isSome = (SortedMap.get? n key).isSome) :
    SortedMap.keys m = SortedMap.keys n := by
  have hpairs : List.Forall₂ (fun p q : String × Value => p.1 = q.1 ∧ True) m n := by
    rw [SortedMap.forall₂_iff_rel (R := fun _ _ => True) hm hn]
    intro key
    have hkey := h key
    cases hleft : SortedMap.get? m key <;> cases hright : SortedMap.get? n key <;> simp_all
  unfold SortedMap.keys
  rw [← List.forall₂_eq_eq_eq, List.forall₂_map_left_iff, List.forall₂_map_right_iff]
  exact hpairs.imp fun _ _ h => h.1

/-- The first loop of `diff_fields` by the names of the new document. -/
theorem diffFields_eq {old new : Map} (hnew : SortedMap.Sorted new) :
    diffFields (.object old) (.object new) =
      ((SortedMap.keys new).filter fun key =>
        !sameMember (SortedMap.get? old key) (SortedMap.get? new key)) ++
      (SortedMap.keys old).filter fun key => !SortedMap.containsKey new key := by
  have hfirst : ((SortedMap.keys new).filter fun key =>
      !sameMember (SortedMap.get? old key) (SortedMap.get? new key)) =
        (new.filter fun p => !sameMember (SortedMap.get? old p.1) (some p.2)).map Prod.fst := by
    rw [SortedMap.keys, List.filter_map]
    congr 1
    apply List.filter_congr
    rintro ⟨key, v⟩ hmem
    simp [SortedMap.get?_of_mem hnew hmem]
  rw [diffFields, hfirst]

/-- Documents of two changes: both absent, or objects with the same names that have the same
values under all names but those in `hidden`. -/
inductive SameBut (hidden : String → Prop) : Option Value → Option Value → Prop where
  | absent : SameBut hidden none none
  | objects {m n : Map} (hm : SortedMap.Sorted m) (hn : SortedMap.Sorted n)
      (hkeys : ∀ key, (SortedMap.get? m key).isSome = (SortedMap.get? n key).isSome)
      (hvalues : ∀ key, ¬ hidden key → SortedMap.get? m key = SortedMap.get? n key) :
      SameBut hidden (some (.object m)) (some (.object n))

variable {hidden : String → Prop} {old old' new new' : Option Value}

/-- Redacting the hidden names leaves no difference. -/
theorem SameBut.redact_eq {found : List SensitiveMatch} (h : SameBut (Demands found) old old') :
    old.map (fun doc => redact doc found) = old'.map fun doc => redact doc found := by
  cases h with
  | absent => rfl
  | @objects m n hm hn hkeys hvalues =>
    simp only [Option.map_some, redact]
    congr 2
    apply SortedMap.ext (sorted_foldl_redactOne hm found) (sorted_foldl_redactOne hn found)
    intro key
    obtain ⟨hyes, hno⟩ := get?_redact (.object m) found key
    obtain ⟨hyes', hno'⟩ := get?_redact (.object n) found key
    simp only [redact, Value.get?_object] at hyes hno hyes' hno'
    by_cases hdemand : Demands found key
    · have hkey := hkeys key
      rw [hyes hdemand, hyes' hdemand]
      cases hleft : SortedMap.get? m key <;> cases hright : SortedMap.get? n key <;> simp_all
    · rw [hno hdemand, hno' hdemand, hvalues key hdemand]

/-- Where the same names differ, the same fields are listed, in the same order. -/
theorem SameBut.changedFieldsOf_eq (hold : SameBut hidden old old') (hnew : SameBut hidden new new')
    (hsame : ∀ name, sameMember (member old name) (member new name) =
      sameMember (member old' name) (member new' name)) :
    changedFieldsOf old new = changedFieldsOf old' new' := by
  cases hold with
  | absent =>
    cases hnew with
    | absent => rfl
    | objects hm hn hkeys => exact keys_eq_of_isSome hm hn hkeys
  | @objects m n hm hn hkeys =>
    cases hnew with
    | absent => exact keys_eq_of_isSome hm hn hkeys
    | @objects m' n' hm' hn' hkeys' =>
      have hall : ∀ key, sameMember (SortedMap.get? m key) (SortedMap.get? m' key) =
          sameMember (SortedMap.get? n key) (SortedMap.get? n' key) := hsame
      simp only [changedFieldsOf, diffFields_eq hm', diffFields_eq hn',
        keys_eq_of_isSome hm hn hkeys, keys_eq_of_isSome hm' hn' hkeys', hall,
        SortedMap.containsKey, hkeys']

/-! ## Lines that differ in covered columns -/

variable (fromStr : String → Option Value)

/-- Two changes of one table by one command that carry the same columns, change the same fields,
and have the same values in all columns that are not covered. -/
structure SameButCovered (registry : SensitiveFieldRegistry) (line line' : ChangeLine) : Prop where
  command : line.commandTag = line'.commandTag
  schema : line.schema = line'.schema
  table : line.table = line'.table
  carried : (oldColumns line).isEmpty = (oldColumns line').isEmpty
  columns : ∀ name, (oldCell fromStr line name).isSome = (oldCell fromStr line' name).isSome ∧
    (newCell fromStr line name).isSome = (newCell fromStr line' name).isSome
  changed : ∀ name, Changed fromStr line name ↔ Changed fromStr line' name
  values : ∀ name, ¬ Covered fromStr registry line name →
    oldCell fromStr line name = oldCell fromStr line' name ∧
      newCell fromStr line name = newCell fromStr line' name

def columnsMap (columns : List ParsedColumn) : Map :=
  SortedMap.ofList (columns.map fun c => (c.name, columnValue fromStr c))

theorem sorted_columnsMap (columns : List ParsedColumn) :
    SortedMap.Sorted (columnsMap fromStr columns) := SortedMap.sorted_ofList _

theorem columnsToJsonb_eq_object (columns : List ParsedColumn) :
    columnsToJsonb fromStr columns = .object (columnsMap fromStr columns) :=
  columnsToJsonb_eq fromStr columns

theorem get?_columnsMap (columns : List ParsedColumn) (name : String) :
    SortedMap.get? (columnsMap fromStr columns) name = cell fromStr columns name := by
  rw [← get?_columnsToJsonb, columnsToJsonb_eq_object]
  rfl

/-- The documents of two such lists of columns. -/
theorem sameBut_columns {hidden : String → Prop} {columns columns' : List ParsedColumn}
    (hkeys : ∀ name, (cell fromStr columns name).isSome = (cell fromStr columns' name).isSome)
    (hvalues : ∀ name, ¬ hidden name → cell fromStr columns name = cell fromStr columns' name) :
    SameBut hidden (some (columnsToJsonb fromStr columns))
      (some (columnsToJsonb fromStr columns')) := by
  rw [columnsToJsonb_eq_object, columnsToJsonb_eq_object]
  apply SameBut.objects (sorted_columnsMap fromStr columns) (sorted_columnsMap fromStr columns')
  · simpa only [get?_columnsMap] using hkeys
  · simpa only [get?_columnsMap] using hvalues

/-- The documents of two such lines, if the command is captured. -/
theorem SameButCovered.rowDocs_cases {registry : SensitiveFieldRegistry} {line line' : ChangeLine}
    (h : SameButCovered fromStr registry line line') :
    (rowDocs fromStr line.commandTag line.columns = none ∧
      rowDocs fromStr line'.commandTag line'.columns = none) ∨
    ∃ old new old' new', rowDocs fromStr line.commandTag line.columns = some (old, new) ∧
      rowDocs fromStr line'.commandTag line'.columns = some (old', new') ∧
      IsRowChange line ∧ SameBut (Covered fromStr registry line) old old' ∧
      SameBut (Covered fromStr registry line) new new' := by
  have hold := sameBut_columns fromStr (fun name => (h.columns name).1)
    fun name hname => (h.values name hname).1
  have hnew := sameBut_columns fromStr (fun name => (h.columns name).2)
    fun name hname => (h.values name hname).2
  have hcarried := h.carried
  rw [← h.command]
  by_cases hinsert : line.commandTag = "INSERT"
  · right
    refine ⟨_, _, _, _, if_pos hinsert, if_pos hinsert, .inl hinsert, .absent, ?_⟩
    simpa [newColumns, hinsert, ← h.command] using hnew
  by_cases hupdate : line.commandTag = "UPDATE"
  · right
    refine ⟨_, _, _, _, by rw [rowDocs, if_neg hinsert, if_pos hupdate],
      by rw [rowDocs, if_neg hinsert, if_pos hupdate], .inr (.inl hupdate), ?_, ?_⟩
    · simp only [oldColumns, hupdate, ← h.command, if_true] at hold hcarried
      rw [← hcarried]
      split_ifs
      · exact .absent
      · exact hold
    · simpa [newColumns, hupdate, ← h.command] using hnew
  by_cases hdelete : line.commandTag = "DELETE"
  · right
    refine ⟨_, _, _, _, by rw [rowDocs, if_neg hinsert, if_neg hupdate, if_pos hdelete],
      by rw [rowDocs, if_neg hinsert, if_neg hupdate, if_pos hdelete], .inr (.inr hdelete), ?_,
      .absent⟩
    simpa [oldColumns, hdelete, ← h.command] using hold
  · left
    simp [rowDocs, hinsert, hupdate, hdelete]

/-- Their events are equal. -/
theorem SameButCovered.changeEvent_eq {registry : SensitiveFieldRegistry} {line line' : ChangeLine}
    (h : SameButCovered fromStr registry line line') (now xid lsn : String) :
    changeEvent fromStr registry now xid lsn line =
      changeEvent fromStr registry now xid lsn line' := by
  rcases h.rowDocs_cases with ⟨hnone, hnone'⟩ |
    ⟨old, new, old', new', hdocs, hdocs', hrow, hold, hnew⟩
  · simp [changeEvent, hnone, hnone']
  · obtain ⟨o, n, hspec, holdCells, hnewCells, hchanged⟩ := rowDocs_spec fromStr hrow
    obtain ⟨rfl, rfl⟩ := Prod.mk.inj (Option.some.inj (hdocs.symm.trans hspec))
    have hrow' : IsRowChange line' := by
      unfold IsRowChange
      rw [← h.command]
      exact hrow
    obtain ⟨o', n', hspec', holdCells', hnewCells', -⟩ := rowDocs_spec fromStr hrow'
    obtain ⟨rfl, rfl⟩ := Prod.mk.inj (Option.some.inj (hdocs'.symm.trans hspec'))
    have hsame : ∀ name, sameMember (member old name) (member new name) =
        sameMember (member old' name) (member new' name) := by
      intro name
      have hiff := h.changed name
      unfold Changed at hiff
      rw [holdCells, hnewCells, holdCells', hnewCells', ← Bool.not_inj_iff, Bool.eq_iff_iff]
      simpa using hiff
    have hfields := hold.changedFieldsOf_eq hnew hsame
    have hcovered : Covered fromStr registry line =
        Demands (registry.detect line.schema line.table (changedFieldsOf old new)) :=
      funext fun name => propext (demands_detect_iff fromStr registry hchanged name).symm
    rw [hcovered] at hold hnew
    rw [← h.command] at hdocs'
    simp only [changeEvent, hdocs, hdocs', redact_unless_empty, ← h.command, ← h.schema, ← h.table,
      ← hfields, Option.bind_eq_bind, Option.bind_some, hold.redact_eq, hnew.redact_eq]

/-! ## Runs of capture -/

/-- Two texts of a line that the registry lets differ: the same text, or changes that differ in
covered columns alone. -/
def SameText (registry : SensitiveFieldRegistry) (data data' : String) : Prop :=
  data = data' ∨ ∃ line line', parseChangeLine data = some line ∧
    parseChangeLine data' = some line' ∧ SameButCovered fromStr registry line line'

theorem SameText.parse_eq {registry : SensitiveFieldRegistry} {data data' : String}
    (h : SameText fromStr registry data data') (now xid lsn : String) :
    parseTestDecoding fromStr registry now data xid lsn =
      parseTestDecoding fromStr registry now data' xid lsn := by
  rcases h with rfl | ⟨line, line', hline, hline', hsame⟩
  · rfl
  · rw [parseTestDecoding_of_line fromStr registry now xid lsn hline,
      parseTestDecoding_of_line fromStr registry now xid lsn hline',
      hsame.changeEvent_eq fromStr now xid lsn]

/-- Two runs of capture and refreshes that differ only so, each line under the registry that it is
read with. -/
inductive SameRuns : SensitiveFieldRegistry → List WatchAction → List WatchAction → Prop where
  | nil {registry : SensitiveFieldRegistry} : SameRuns registry [] []
  | refresh {registry : SensitiveFieldRegistry} {actions actions' : List WatchAction}
      (rows : Option (List SensitiveFieldRow))
      (h : SameRuns (registry.refreshCache rows) actions actions') :
      SameRuns registry (.refresh rows :: actions) (.refresh rows :: actions')
  | line {registry : SensitiveFieldRegistry} {actions actions' : List WatchAction}
      {data data' : String} (now xid lsn : String) (htext : SameText fromStr registry data data')
      (h : SameRuns registry actions actions') :
      SameRuns registry (.line now data xid lsn :: actions) (.line now data' xid lsn :: actions')

/-- What two such runs have sent is the same, event by event. -/
theorem events_run_eq {s t : Watch} {actions actions' : List WatchAction}
    (hregistry : s.registry = t.registry)
    (hevents : s.sent.map Sent.event = t.sent.map Sent.event)
    (h : SameRuns fromStr s.registry actions actions') :
    (s.run fromStr actions).sent.map Sent.event =
      (t.run fromStr actions').sent.map Sent.event := by
  generalize hr : s.registry = registry at h
  induction h generalizing s t with
  | nil => exact hevents
  | refresh rows _ ih =>
    apply ih (s := s.step fromStr (.refresh rows)) (t := t.step fromStr (.refresh rows))
    · simp [Watch.step, hregistry]
    · exact hevents
    · simp [Watch.step, hr]
  | @line registry actions actions' data data' now xid lsn htext _ ih =>
    apply ih (s := s.step fromStr (.line now data xid lsn))
      (t := t.step fromStr (.line now data' xid lsn))
    · exact hregistry
    · simp [Watch.step, ← hregistry, hr, htext.parse_eq, hevents, Function.comp_def]
    · exact hr

/-- The values of covered columns influence nothing that capture sends: two runs, with the same
refreshes, over lines that differ in such values alone and change the same fields, send the same
events. -/
theorem covered_values_secret (fromStr : String → Option Value) (globalFieldsCsv : String)
    (actions actions' : List WatchAction)
    (h : SameRuns fromStr (SensitiveFieldRegistry.new globalFieldsCsv) actions actions') :
    ((Watch.new globalFieldsCsv).run fromStr actions).sent.map Sent.event =
      ((Watch.new globalFieldsCsv).run fromStr actions').sent.map Sent.event :=
  events_run_eq fromStr rfl rfl h

def cardLine (pan : String) : ChangeLine where
  commandTag := "INSERT"
  schema := "public"
  table := "cards"
  columns := [⟨"id", "1", false⟩, ⟨"pan", pan, false⟩]

/-- Cards inserted under different numbers differ in a covered column alone. -/
theorem sameButCovered_cardLine (pan pan' : String) :
    SameButCovered readNumeral panRegistry (cardLine pan) (cardLine pan') := by
  have hold : ∀ pan name, oldCell readNumeral (cardLine pan) name = none := fun _ _ => rfl
  have hnew : ∀ pan name, newCell readNumeral (cardLine pan) name =
      if name = "pan" then some (columnValue readNumeral ⟨"pan", pan, false⟩)
      else if name = "id" then some (columnValue readNumeral ⟨"id", "1", false⟩) else none := by
    intro pan name
    have hcolumns : newColumns (cardLine pan) = [⟨"id", "1", false⟩, ⟨"pan", pan, false⟩] := rfl
    rw [newCell, hcolumns, cell]
    by_cases hpan : name = "pan"
    · simp [hpan]
    · by_cases hid : name = "id"
      · simp [hid]
      · simp [Ne.symm hpan, Ne.symm hid, hpan, hid]
  have hsome : ∀ name, (newCell readNumeral (cardLine pan) name).isSome =
      (newCell readNumeral (cardLine pan') name).isSome := by
    intro name
    rw [hnew, hnew]
    split_ifs <;> rfl
  refine ⟨rfl, rfl, rfl, rfl, fun name => ⟨rfl, hsome name⟩, fun name => ?_, fun name hname => ?_⟩
  · rw [Changed, Changed, hold, hold, sameMember_none_left, sameMember_none_left, hsome]
  · refine ⟨rfl, ?_⟩
    have hflag : panRegistry.flag "public" "cards" "pan" = some true := by decide +kernel
    have hpan : name ≠ "pan" := by
      rintro rfl
      refine hname ⟨"pan", ?_, hflag, by decide⟩
      rw [Changed, hold, hnew, if_pos rfl]
      rfl
    rw [hnew, hnew, if_neg hpan, if_neg hpan]

def cardRun (pan : String) : List WatchAction :=
  [.refresh (some []),
    .line "" ("table public.cards: INSERT: id[integer]:1 pan[text]:'" ++ pan ++ "'") "7" "0/1",
    .refresh none]

theorem covered_values_secret_cards :
    ((Watch.new "pan").run readNumeral (cardRun "p-7")).sent.map Sent.event =
      ((Watch.new "pan").run readNumeral (cardRun "p-8")).sent.map Sent.event := by
  have hline : ∀ pan ∈ ["p-7", "p-8"], parseChangeLine
      ("table public.cards: INSERT: id[integer]:1 pan[text]:'" ++ pan ++ "'") =
        some (cardLine pan) := by decide +kernel
  have htext : SameText readNumeral (panRegistry.refreshCache (some []))
      ("table public.cards: INSERT: id[integer]:1 pan[text]:'" ++ "p-7" ++ "'")
      ("table public.cards: INSERT: id[integer]:1 pan[text]:'" ++ "p-8" ++ "'") :=
    .inr ⟨_, _, hline "p-7" (by simp), hline "p-8" (by simp), sameButCovered_cardLine "p-7" "p-8"⟩
  exact covered_values_secret readNumeral "pan" (cardRun "p-7") (cardRun "p-8")
    (.refresh (some []) (.line "" "7" "0/1" htext (.refresh none .nil)))

end VibeAudit.Redaction
