import VibeAudit.Decoding.Names
import VibeAudit.Delivery.Pipeline

/-!
# Every change of the slot

`run_inner` over any sequence of polls: what it counts and what it hands to the
channel. A line gives one event at most, and a change gives an event of its own
command and table exactly where it is no TRUNCATE and its table is printed
without the characters the header is cut at.
-/

namespace VibeAudit.Delivery

open Foundation Json Forwarder Decoding

/-- The state `run_inner` shares with the other tasks: the position it reports, its counter, what
it has sent, whether the channel has a receiver; and whether it has returned. -/
structure Capture where
  walLsn : String
  walEventCount : UInt64
  sent : List Value
  receiver : Bool
  returned : Bool

/-- A row of a poll, with the registry and the clock of the moment it is read. -/
structure ReadRow where
  row : SlotRow
  registry : SensitiveFieldRegistry
  now : String

variable (fromStr : String → Option Value)

def ReadRow.events (r : ReadRow) : List Value :=
  (parseTestDecoding fromStr r.registry r.now r.row.data r.row.xid r.row.lsn).getD []

/-- A row has the event of the line it holds, if it holds one. -/
theorem ReadRow.events_eq (r : ReadRow) : r.events fromStr = ((parseChangeLine r.row.data).bind
    (changeEvent fromStr r.registry r.now r.row.xid r.row.lsn)).toList := by
  cases hline : parseChangeLine r.row.data with
  | none =>
    rw [ReadRow.events, parseTestDecoding, hline]
    split_ifs <;> rfl
  | some line =>
    rw [ReadRow.events, parseTestDecoding_of_line _ _ _ _ _ hline, Option.bind_some]
    cases changeEvent fromStr r.registry r.now r.row.xid r.row.lsn line <;> rfl

theorem ReadRow.exists_of_mem_events {r : ReadRow} {event : Value} (h : event ∈ r.events fromStr) :
    ∃ line docs, rowDocs fromStr line.commandTag line.columns = some docs ∧
      changeEvent fromStr r.registry r.now r.row.xid r.row.lsn line = some event := by
  rw [ReadRow.events_eq, Option.mem_toList, Option.bind_eq_some_iff] at h
  obtain ⟨line, -, hevent⟩ := h
  obtain ⟨docs, hdocs, -⟩ := Option.bind_eq_some_iff.mp hevent
  exact ⟨line, docs, hdocs, hevent⟩

namespace Capture

/-- An event is counted before it is sent; the loop returns when the channel is closed. -/
def sendEvent (s : Capture) (event : Value) : Capture :=
  if s.returned then s
  else
    let s := { s with walEventCount := s.walEventCount + 1 }
    if s.receiver then { s with sent := s.sent ++ [event] } else { s with returned := true }

def handleRow (s : Capture) (r : ReadRow) : Capture :=
  if s.returned then s else (r.events fromStr).foldl sendEvent { s with walLsn := r.row.lsn }

/-- The polls one after the other; an empty one only makes the loop sleep. -/
def runInner (s : Capture) (polls : List (List ReadRow)) : Capture :=
  polls.foldl (fun s rows => rows.foldl (handleRow fromStr) s) s

end Capture

/-! ## What a run sends -/

theorem Capture.foldl_sendEvent {s : Capture} (hopen : s.receiver = true)
    (hrunning : s.returned = false) (events : List Value) :
    events.foldl sendEvent s =
      { s with walEventCount := s.walEventCount + UInt64.ofNat events.length
               sent := s.sent ++ events } := by
  induction events generalizing s with
  | nil => simp
  | cons event events ih =>
    have hsend : s.sendEvent event =
        { s with walEventCount := s.walEventCount + 1, sent := s.sent ++ [event] } := by
      simp [sendEvent, hopen, hrunning]
    have hcount : UInt64.ofNat (event :: events).length = 1 + UInt64.ofNat events.length := by
      rw [List.length_cons, UInt64.ofNat_add, UInt64.add_comm]
      rfl
    rw [List.foldl_cons, hsend, ih (by exact hopen) (by exact hrunning), hcount]
    simp [UInt64.add_assoc]

/-- Every event of a row is sent over an open channel, and counted. -/
theorem Capture.handleRow_eq {s : Capture} (hopen : s.receiver = true)
    (hrunning : s.returned = false) (r : ReadRow) :
    s.handleRow fromStr r =
      { s with walLsn := r.row.lsn
               walEventCount := s.walEventCount + UInt64.ofNat (r.events fromStr).length
               sent := s.sent ++ r.events fromStr } := by
  rw [handleRow, if_neg (by simp [hrunning]),
    foldl_sendEvent (by exact hopen) (by exact hrunning)]

/-- A run with an open channel sends the events of all rows in turn, and counts each. -/
theorem Capture.runInner_spec {s : Capture} (hopen : s.receiver = true)
    (hrunning : s.returned = false) (polls : List (List ReadRow)) :
    (s.runInner fromStr polls).sent = s.sent ++ polls.flatten.flatMap (ReadRow.events fromStr) ∧
      (s.runInner fromStr polls).walEventCount = s.walEventCount +
        UInt64.ofNat (polls.flatten.flatMap (ReadRow.events fromStr)).length := by
  rw [runInner, ← List.foldl_flatten]
  generalize polls.flatten = rows
  induction rows generalizing s with
  | nil => simp
  | cons r rows ih =>
    have hrow := handleRow_eq fromStr hopen hrunning r
    obtain ⟨hsent, hcount⟩ := ih (s := s.handleRow fromStr r) (by rw [hrow]; exact hopen)
      (by rw [hrow]; exact hrunning)
    rw [List.foldl_cons, hsent, hcount, hrow, List.flatMap_cons]
    simp [UInt64.add_assoc]

/-! ## The event of a line -/

/-- The event names the command of the change, and its table as the line does. -/
structure Carries (reserved : List Char → Bool) (c : Change) (event : Value) : Prop where
  command : event.get? "command_tag" = some (.string (String.ofList c.command))
  schema : event.get? "schema_name" =
    some (.string (String.ofList (quoteIdentifier reserved c.table.schema)))
  table : event.get? "object_name" =
    some (.string (String.ofList (quoteIdentifier reserved c.table.table)))

/-- The condition of the capture. -/
structure Captured (c : Change) : Prop where
  command : c.command ≠ "TRUNCATE".toList
  schema : ':' ∉ c.table.schema ∧ '.' ∉ c.table.schema
  table : ':' ∉ c.table.table

theorem rowDocs_isSome_iff {command : String} {columns : List ParsedColumn} :
    (rowDocs fromStr command columns).isSome = true ↔
      command = "INSERT" ∨ command = "UPDATE" ∨ command = "DELETE" := by
  rw [rowDocs]
  split_ifs <;> simp_all

theorem changeEvent_members {registry : SensitiveFieldRegistry} {now xid lsn : String}
    {line : ChangeLine} {event : Value}
    (h : changeEvent fromStr registry now xid lsn line = some event) :
    (line.commandTag = "INSERT" ∨ line.commandTag = "UPDATE" ∨ line.commandTag = "DELETE") ∧
      event.get? "command_tag" = some (.string line.commandTag) ∧
      event.get? "schema_name" = some (.string line.schema) ∧
      event.get? "object_name" = some (.string line.table) := by
  cases hdocs : rowDocs fromStr line.commandTag line.columns with
  | none => simp [changeEvent, hdocs] at h
  | some docs =>
    simp only [changeEvent, hdocs, Option.bind_eq_bind, Option.bind_some, Option.pure_def,
      Option.some.injEq] at h
    subst h
    refine ⟨(rowDocs_isSome_iff fromStr).mp (by rw [hdocs]; rfl), ?_, ?_, ?_⟩ <;>
      simp [buildDataChangeEvent, Value.get?_obj, SortedMap.get?_cons]

/-- The line a row holds. -/
def Prints (reserved : List Char → Bool) (r : ReadRow) (line : Line) : Prop :=
  r.row.data = line.print reserved

def Line.change? : Line → Option Change
  | .change c => some c
  | _ => none

variable {reserved : List Char → Bool}

theorem mem_quoteIdentifier_iff {name : List Char} {x : Char} (hx : x ≠ '"') :
    x ∈ quoteIdentifier reserved name ↔ x ∈ name := by
  rw [quoteIdentifier]
  split_ifs
  · exact Iff.rfl
  · simp [Text.mem_double, hx]

theorem events_frame {r : ReadRow} {line : Line} (h : Prints reserved r line)
    (hframe : Line.change? line = none) : r.events fromStr = [] := by
  have hnone :
      parseTestDecoding fromStr r.registry r.now r.row.data r.row.xid r.row.lsn = none := by
    refine if_pos ?_
    have hbegins : ∀ word rest : List Char,
        word.isPrefixOf (String.ofList (word ++ rest)).toList = true := by simp
    rw [h]
    cases line with
    | begin xid => exact Bool.or_eq_true_iff.mpr (.inl (hbegins "BEGIN".toList (printXid xid)))
    | commit xid => exact Bool.or_eq_true_iff.mpr (.inr (hbegins "COMMIT".toList (printXid xid)))
    | change c => cases hframe
  rw [ReadRow.events, hnone]
  rfl

/-- The events of a change line: that of the parsed line, if there is one. -/
theorem events_change {r : ReadRow} {c : Change} (h : Prints reserved r (.change c)) :
    r.events fromStr = ((parseChangeLine (String.ofList (c.print reserved))).bind
      (changeEvent fromStr r.registry r.now r.row.xid r.row.lsn)).toList := by
  have hdata : r.row.data = String.ofList (c.print reserved) := h
  have hframe : ¬ ("BEGIN".toList.isPrefixOf r.row.data.toList ||
      "COMMIT".toList.isPrefixOf r.row.data.toList) = true := by
    rw [hdata, String.toList_ofList]
    simp [Change.print_eq]
  rw [ReadRow.events, parseTestDecoding, if_neg hframe, hdata]
  cases parseChangeLine (String.ofList (c.print reserved)) with
  | none => rfl
  | some line =>
    simp only [Option.bind_eq_bind, Option.bind_some]
    cases changeEvent fromStr r.registry r.now r.row.xid r.row.lsn line <;> rfl

theorem length_events_le {r : ReadRow} {line : Line} (h : Prints reserved r line) :
    (r.events fromStr).length ≤ (Line.change? line).toList.length := by
  cases line with
  | begin xid => rw [events_frame fromStr h rfl]; exact Nat.zero_le _
  | commit xid => rw [events_frame fromStr h rfl]; exact Nat.zero_le _
  | change c =>
    rw [events_change fromStr h]
    exact Option.length_toList_le

theorem command_cases {c : Change} (h : c.command ≠ "TRUNCATE".toList) :
    String.ofList c.command = "INSERT" ∨ String.ofList c.command = "UPDATE" ∨
      String.ofList c.command = "DELETE" := by
  cases c with
  | insert => exact .inl (String.ofList_toList)
  | update => exact .inr (.inl (String.ofList_toList))
  | delete => exact .inr (.inr (String.ofList_toList))
  | truncate => exact absurd rfl h

/-- A captured change gives its event. -/
theorem events_of_captured {r : ReadRow} {c : Change} (h : Prints reserved r (.change c))
    (hc : Captured c) : ∃ event, r.events fromStr = [event] ∧ Carries reserved c event := by
  have hschema : ':' ∉ quoteIdentifier reserved c.table.schema ∧
      '.' ∉ quoteIdentifier reserved c.table.schema := by
    rw [mem_quoteIdentifier_iff (by decide), mem_quoteIdentifier_iff (by decide)]
    exact hc.schema
  have htable : ':' ∉ quoteIdentifier reserved c.table.table := by
    rw [mem_quoteIdentifier_iff (by decide)]
    exact hc.table
  have hcolon : ':' ∉ c.table.print reserved := by
    simp [TableName.print, hschema.1, htable]
  obtain ⟨schema, table, hcut, hline⟩ := parseChangeLine_print reserved hc.command hcolon
  rw [TableName.print, Text.cutAt_append hschema.2] at hcut
  obtain ⟨rfl, rfl⟩ := Prod.mk.inj (Option.some.inj hcut)
  obtain ⟨event, hevent, -⟩ := exists_changeEvent fromStr r.registry r.now r.row.xid r.row.lsn
    ⟨String.ofList c.command, _, _, parseColumnValues c.body⟩
    ((rowDocs_isSome_iff fromStr).mpr (command_cases hc.command))
  refine ⟨event, ?_, ?_⟩
  · rw [events_change fromStr h, hline, Option.bind_some, hevent]
    rfl
  · obtain ⟨-, hcommand, hschema, htable⟩ := changeEvent_members fromStr hevent
    exact ⟨hcommand, hschema, htable⟩

/-- Only a captured change has an event that carries it. -/
theorem captured_of_carries {r : ReadRow} {c : Change} (h : Prints reserved r (.change c))
    {event : Value} (hevent : event ∈ r.events fromStr) (hcarries : Carries reserved c event) :
    Captured c := by
  rw [events_change fromStr h, Option.mem_toList, Option.bind_eq_some_iff] at hevent
  obtain ⟨line, hline, hevent⟩ := hevent
  obtain ⟨hcommands, hcommand, hschema, htable⟩ := changeEvent_members fromStr hevent
  have hcut := cut_of_parseChangeLine hline
  have hcommandEq : line.commandTag = String.ofList c.command := by
    simpa [hcommand] using hcarries.command
  have hschemaEq : line.schema = String.ofList (quoteIdentifier reserved c.table.schema) := by
    simpa [hschema] using hcarries.schema
  have htableEq : line.table = String.ofList (quoteIdentifier reserved c.table.table) := by
    simpa [htable] using hcarries.table
  have hcutSchema := hcut.schema
  have hcutTable := hcut.table
  rw [hschemaEq, String.toList_ofList, mem_quoteIdentifier_iff (by decide),
    mem_quoteIdentifier_iff (by decide)] at hcutSchema
  rw [htableEq, String.toList_ofList, mem_quoteIdentifier_iff (by decide)] at hcutTable
  refine ⟨fun htruncate => ?_, hcutSchema, hcutTable⟩
  rw [hcommandEq, htruncate, String.ofList_toList] at hcommands
  revert hcommands
  decide

/-! ## The events of a run -/

def changesOf (lines : List Line) : List Change := lines.filterMap Line.change?

theorem changesOf_cons (line : Line) (lines : List Line) :
    changesOf (line :: lines) = (Line.change? line).toList ++ changesOf lines := by
  cases h : Line.change? line <;> simp [changesOf, h]

variable {rows : List ReadRow} {lines : List Line}

theorem length_flatMap_events_le (h : List.Forall₂ (Prints reserved) rows lines) :
    (rows.flatMap (ReadRow.events fromStr)).length ≤ (changesOf lines).length := by
  induction h with
  | nil => simp
  | cons hline hrest ih =>
    have hhead := length_events_le fromStr hline
    rw [List.flatMap_cons, List.length_append, changesOf_cons, List.length_append]
    omega

/-- The events of a run match its changes one by one exactly where all changes are captured: a
line gives no more events than it holds changes, so no event of another line can stand in for a
missing one. -/
theorem forall₂_events_iff (h : List.Forall₂ (Prints reserved) rows lines) :
    List.Forall₂ (Carries reserved) (changesOf lines) (rows.flatMap (ReadRow.events fromStr)) ↔
      ∀ c ∈ changesOf lines, Captured c := by
  induction h with
  | nil => simp [changesOf]
  | @cons r line rows lines hline hrest ih =>
    rw [List.flatMap_cons, changesOf_cons]
    cases hchange : Line.change? line with
    | none =>
      rw [events_frame fromStr hline hchange]
      simpa using ih
    | some c =>
      obtain rfl : line = .change c := by
        cases line <;> simp_all [Line.change?]
      rw [Option.toList_some, List.singleton_append, List.forall_mem_cons]
      constructor
      · intro hall
        have hlen := hall.length_eq
        have hle := length_flatMap_events_le fromStr hrest
        have hone := length_events_le fromStr hline
        rw [List.length_cons, List.length_append] at hlen
        rw [hchange] at hone
        obtain ⟨event, hevent⟩ : ∃ event, r.events fromStr = [event] :=
          List.length_eq_one_iff.mp (by simp at hone; omega)
        rw [hevent, List.singleton_append, List.forall₂_cons] at hall
        exact ⟨captured_of_carries fromStr hline (by simp [hevent]) hall.1, ih.mp hall.2⟩
      · rintro ⟨hc, hall⟩
        obtain ⟨event, hevent, hcarries⟩ := events_of_captured fromStr hline hc
        rw [hevent, List.singleton_append]
        exact .cons hcarries (ih.mpr hall)

/-- Over any polls, the run sends one event for each change, of its command and table, in the
order of the lines, and counts as many, if and only if all changes are captured. -/
theorem changes_recorded_iff (s : Capture) (hopen : s.receiver = true)
    (hrunning : s.returned = false) (polls : List (List ReadRow)) (lines : List Line)
    (hlines : List.Forall₂ (Prints reserved) polls.flatten lines) :
    (∃ events, (s.runInner fromStr polls).sent = s.sent ++ events ∧
      List.Forall₂ (Carries reserved) (changesOf lines) events ∧
      (s.runInner fromStr polls).walEventCount =
        s.walEventCount + UInt64.ofNat (changesOf lines).length) ↔
    ∀ c ∈ changesOf lines, Captured c := by
  obtain ⟨hsent, hcount⟩ := Capture.runInner_spec fromStr hopen hrunning polls
  rw [← forall₂_events_iff fromStr hlines]
  constructor
  · rintro ⟨events, hevents, hall, -⟩
    rw [hsent, List.append_cancel_left_eq] at hevents
    rwa [hevents]
  · intro hall
    exact ⟨_, hsent, hall, by rw [hcount, hall.length_eq]⟩

def Capture.new : Capture :=
  { walLsn := "", walEventCount := 0, sent := [], receiver := true, returned := false }

def pollOf (lines : List Line) : List ReadRow :=
  lines.map fun line =>
    { row := { lsn := "0/1", xid := "7", data := line.print fun _ => false }
      registry := SensitiveFieldRegistry.new "", now := "2026-01-01T00:00:00.000Z" }

theorem prints_pollOf (lines : List Line) :
    List.Forall₂ (Prints fun _ => false) (pollOf lines) lines := by
  induction lines with
  | nil => exact .nil
  | cons line lines ih => exact .cons rfl ih

def deletion : List Line :=
  [.begin (some 7), .change (.delete ⟨"public".toList, "users".toList⟩ none), .commit (some 7)]

theorem changes_recorded_deletion :
    ∃ events, (Capture.new.runInner (fun _ => none) [pollOf deletion]).sent = [] ++ events ∧
      List.Forall₂ (Carries fun _ => false) (changesOf deletion) events ∧
      (Capture.new.runInner (fun _ => none) [pollOf deletion]).walEventCount = 0 + 1 := by
  refine (changes_recorded_iff (fun _ => none) Capture.new rfl rfl [pollOf deletion] deletion
    (by simpa using prints_pollOf deletion)).mpr ?_
  intro c hc
  obtain rfl : Change.delete ⟨"public".toList, "users".toList⟩ none = c := by
    simpa [changesOf, deletion, Line.change?] using hc
  exact ⟨by decide, by decide, by decide⟩

/-- A TRUNCATE is not recorded. -/
theorem not_changes_recorded :
    ¬ ∀ (fromStr : String → Option Value) (polls : List (List ReadRow)) (lines : List Line),
      List.Forall₂ (Prints fun _ => false) polls.flatten lines →
      ∃ events, (Capture.new.runInner fromStr polls).sent = Capture.new.sent ++ events ∧
        List.Forall₂ (Carries fun _ => false) (changesOf lines) events ∧
        (Capture.new.runInner fromStr polls).walEventCount =
          Capture.new.walEventCount + UInt64.ofNat (changesOf lines).length := by
  intro h
  let truncation : Change := .truncate ⟨"public".toList, "users".toList⟩ [] false false
  have hlines : List.Forall₂ (Prints fun _ => false) [pollOf [.change truncation]].flatten
      [.change truncation] := by
    simpa using prints_pollOf [.change truncation]
  obtain ⟨events, hsent, hall, -⟩ := h (fun _ => none) [pollOf [.change truncation]]
    [.change truncation] hlines
  rw [(Capture.runInner_spec _ rfl rfl _).1, List.append_cancel_left_eq] at hsent
  rw [← hsent, forall₂_events_iff _ hlines] at hall
  exact (hall truncation (by simp [changesOf, Line.change?])).command rfl

end VibeAudit.Delivery
