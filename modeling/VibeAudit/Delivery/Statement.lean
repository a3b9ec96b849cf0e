import Mathlib.Data.List.Range
import VibeAudit.Foundation.Placeholders
import VibeAudit.Forwarder.Writer

/-!
# The statement of one call

`write_batch` numbers the placeholders and pushes the parameters in one loop,
eighteen of each for an event. The numbers run from `$1` without a gap, and the
parameter bound to a number is the value of its column for its event. An integer
loses its upper half on the way when it does not fit the column.
-/

namespace VibeAudit.Delivery

open Foundation Json Forwarder

/-- How the value of a column is taken from a member of the event. -/
inductive ColumnKind where
  | text (default : String)
  | flag
  | optText
  | integer
  | document
  deriving DecidableEq

def ColumnKind.value (member : Value) : ColumnKind → Param
  | .text default => .text ((strVal member).getD default)
  | .flag => .bool (member.asBool.getD false)
  | .optText => .optText (strVal member)
  | .integer => .optInt (intVal member)
  | .document => .optText (if member.isNull then none else some member.render)

def columns : List (String × ColumnKind) :=
  [("event_type", .text "UNKNOWN"), ("event_time", .text "1970-01-01T00:00:00Z"),
   ("success", .flag), ("session_user", .optText), ("client_addr", .optText),
   ("client_port", .integer), ("database", .optText), ("pid", .integer),
   ("application", .optText), ("command_tag", .optText), ("object_type", .optText),
   ("object_name", .optText), ("schema_name", .optText), ("query_text", .optText),
   ("sqlstate", .optText), ("detail", .document), ("prev_hash", .optText),
   ("event_hash", .optText)]

/-- The parameter says what the event says: for an integer column NULL where the event has no
integer, and otherwise that integer. -/
def ColumnKind.Holds (member : Value) (p : Param) : ColumnKind → Prop
  | .integer =>
    (member.asI64 = none ∧ p = .optInt none) ∨
      ∃ v n, member.asI64 = some v ∧ p = .optInt (some n) ∧ n.toInt = v.toInt
  | kind => p = kind.value member

/-- The statement numbers its placeholders from 1 and binds to each the value of its column for
its event. -/
structure Faithful (st : Statement) (events : List Value) : Prop where
  header : ∃ rows, st.query = "INSERT INTO vibe_audit.events (" ++
    ", ".intercalate (columns.map Prod.fst) ++ ") VALUES " ++ rows
  placeholders : placeholders st.query.toList = List.range' 1 (18 * events.length)
  length : st.params.length = 18 * events.length
  params : ∀ i event, events[i]? = some event → ∀ j column, columns[j]? = some column →
    ∃ p, st.params[18 * i + j]? = some p ∧ column.2.Holds (event.index column.1) p

/-! ## The placeholders -/

theorem endsNumber_separator : EndsNumber ", ".toList := (endsNumber_cons ',' [' ']).mpr rfl

def placeholder (paramIdx : UInt32) (item : String × Nat) : List Char :=
  ('$' :: Nat.toDigits 10 (paramIdx + item.2.toUInt32).toNat) ++ item.1.toList

/-- The placeholders of a row, in parentheses. -/
theorem toList_rowPlaceholders (paramIdx : UInt32) : (rowPlaceholders paramIdx).toList =
    ['('] ++ (", ".toList.intercalate (placeholderCasts.zipIdx.map (placeholder paramIdx)) ++
      [')']) := by
  have hitem : ∀ item : String × Nat,
      ("$" ++ toString (paramIdx + item.2.toUInt32) ++ item.1).toList =
        placeholder paramIdx item := by
    intro item
    have hnumber : (toString (paramIdx + item.2.toUInt32)).toList =
        Nat.toDigits 10 (paramIdx + item.2.toUInt32).toNat := Nat.toList_repr
    rw [String.toList_append, String.toList_append, hnumber]
    rfl
  rw [rowPlaceholders, List.mapIdx_eq_zipIdx_map, String.toList_append, String.toList_append,
    String.toList_intercalate, List.map_map, List.append_assoc]
  refine congrArg (fun parts => ['('] ++ (", ".toList.intercalate parts ++ [')'])) ?_
  exact List.map_congr_left fun item _ => hitem item

theorem placeholderCasts_plain :
    ∀ cast ∈ placeholderCasts, '$' ∉ cast.toList ∧ EndsNumber cast.toList := by
  have hplain : (placeholderCasts.all fun cast =>
      !cast.toList.contains '$' && cast.toList.head?.all fun c => !c.isDigit) = true := by decide
  intro cast hcast
  simpa [EndsNumber, Option.all_eq_true] using List.all_eq_true.mp hplain cast hcast

theorem endsNumber_placeholder (paramIdx : UInt32) (item : String × Nat) :
    EndsNumber (placeholder paramIdx item) := (endsNumber_cons _ _).mpr rfl

theorem placeholders_placeholder {paramIdx : UInt32} (h : paramIdx.toNat + 18 ≤ 2 ^ 32)
    {item : String × Nat} (hitem : item ∈ placeholderCasts.zipIdx) :
    placeholders (placeholder paramIdx item) = [paramIdx.toNat + item.2] := by
  obtain ⟨hdollar, hend⟩ := placeholderCasts_plain item.1 (List.fst_mem_of_mem_zipIdx hitem)
  have hj : item.2 < 18 := List.snd_lt_of_mem_zipIdx hitem
  have hnumber : (paramIdx + item.2.toUInt32).toNat = paramIdx.toNat + item.2 := by
    have hsmall : item.2.toUInt32.toNat = item.2 := UInt32.toNat_ofNat_of_lt' (hj.trans (by decide))
    rw [UInt32.toNat_add, hsmall]
    omega
  rw [placeholder, placeholders_append _ hend, placeholders_number, placeholders_eq_nil hdollar,
    hnumber]
  rfl

/-- A row has the eighteen numbers from its first on. -/
theorem placeholders_rowPlaceholders {paramIdx : UInt32} (h : paramIdx.toNat + 18 ≤ 2 ^ 32) :
    placeholders (rowPlaceholders paramIdx).toList = List.range' paramIdx.toNat 18 := by
  have hparts : ∀ part ∈ placeholderCasts.zipIdx.map (placeholder paramIdx), EndsNumber part :=
    List.forall_mem_map.mpr fun item _ => endsNumber_placeholder paramIdx item
  have hitems : placeholders (", ".toList.intercalate
      (placeholderCasts.zipIdx.map (placeholder paramIdx))) =
        placeholderCasts.zipIdx.map fun item => paramIdx.toNat + item.2 := by
    rw [placeholders_intercalate (by decide) endsNumber_separator hparts, List.flatMap_map,
      List.map_eq_flatMap]
    exact List.flatMap_congr fun item hitem => placeholders_placeholder h hitem
  have hclose : EndsNumber [')'] := (endsNumber_cons _ _).mpr rfl
  rw [toList_rowPlaceholders,
    placeholders_append _ ((endsNumber_separator.intercalate hparts).append hclose),
    placeholders_append _ hclose, hitems, placeholders_eq_nil (by decide : '$' ∉ ['(']),
    placeholders_eq_nil (by decide : '$' ∉ [')']), List.append_nil, List.nil_append]
  calc placeholderCasts.zipIdx.map (fun item => paramIdx.toNat + item.2)
      = (placeholderCasts.zipIdx.map Prod.snd).map (paramIdx.toNat + ·) := by
        rw [List.map_map]
        rfl
    _ = List.range' paramIdx.toNat 18 := by
        rw [List.zipIdx_map_snd, List.map_add_range']
        rfl

/-- One iteration appends a row and its eighteen numbers. -/
theorem placeholders_pushRow {b : Building} (i : Nat) (event : Value)
    (h : b.paramIdx.toNat + 18 ≤ 2 ^ 32) :
    (∃ row, (b.pushRow i event).query = b.query ++ row) ∧
      placeholders (b.pushRow i event).query.toList =
        placeholders b.query.toList ++ List.range' b.paramIdx.toNat 18 := by
  have hrow : EndsNumber (rowPlaceholders b.paramIdx).toList := by
    rw [toList_rowPlaceholders]
    exact (endsNumber_cons _ _).mpr rfl
  rw [Building.pushRow]
  split_ifs
  · refine ⟨⟨", " ++ rowPlaceholders b.paramIdx, String.append_assoc⟩, ?_⟩
    rw [String.toList_append, String.toList_append, placeholders_append _ hrow,
      placeholders_append _ endsNumber_separator, placeholders_rowPlaceholders h,
      placeholders_eq_nil (by decide : '$' ∉ ", ".toList), List.append_nil]
  · refine ⟨⟨rowPlaceholders b.paramIdx, rfl⟩, ?_⟩
    rw [String.toList_append, placeholders_append _ hrow, placeholders_rowPlaceholders h]

/-- The loop appends to the text, and continues the numbers. -/
theorem placeholders_pushRows (b : Building) (i : Nat) (events : List Value)
    (h : b.paramIdx.toNat + 18 * events.length < 2 ^ 32) :
    (∃ rows, (b.pushRows i events).query = b.query ++ rows) ∧
      placeholders (b.pushRows i events).query.toList =
        placeholders b.query.toList ++ List.range' b.paramIdx.toNat (18 * events.length) := by
  induction events generalizing b i with
  | nil => exact ⟨⟨"", by simp [Building.pushRows]⟩, by simp [Building.pushRows]⟩
  | cons event events ih =>
    rw [List.length_cons] at h
    have hnext : (b.pushRow i event).paramIdx.toNat = b.paramIdx.toNat + 18 := by
      have heighteen : (18 : UInt32).toNat = 18 := rfl
      rw [Building.pushRow, UInt32.toNat_add]
      omega
    obtain ⟨⟨row, hrow⟩, hfirst⟩ := placeholders_pushRow i event (b := b) (by omega)
    obtain ⟨⟨rows, hrows⟩, hrest⟩ := ih (b.pushRow i event) (i + 1) (by omega)
    refine ⟨⟨row ++ rows, by rw [Building.pushRows, hrows, hrow, String.append_assoc]⟩, ?_⟩
    rw [Building.pushRows, hrest, hfirst, hnext, List.append_assoc, List.length_cons,
      Nat.mul_succ, Nat.add_comm (18 * events.length), List.range'_append_1]

/-! ## The parameters -/

/-- The pushes for an event are the values of the columns, in their order. -/
theorem params_boundRow (event : Value) : (boundRow event).params =
    columns.map fun column => column.2.value (event.index column.1) := rfl

theorem getElem?_insertStatement_params (events : List Value) (i : Nat) {j : Nat} (hj : j < 18) :
    (insertStatement events).params[18 * i + j]? =
      (events[i]?).bind fun event => (boundRow event).params[j]? := by
  rw [insertStatement_params]
  exact getElem?_flatMap_of_length (fun event => (boundRow event).params_length) events i hj

/-- The narrowing keeps the number exactly when it has 32 bits. -/
theorem toInt_toInt32_eq_iff (v : Int64) :
    v.toInt32.toInt = v.toInt ↔ -2 ^ 31 ≤ v.toInt ∧ v.toInt < 2 ^ 31 := by
  rw [Int64.toInt_toInt32]
  constructor
  · intro h
    rw [← h]
    exact ⟨Int.le_bmod (by decide), Int.bmod_lt (by decide)⟩
  · rintro ⟨hlow, hhigh⟩
    exact Int.bmod_eq_of_le hlow hhigh

/-- A value is bound as the event has it, unless it is an integer too large for the column. -/
theorem holds_value_iff (kind : ColumnKind) (member : Value) :
    kind.Holds member (kind.value member) ↔
      (kind = .integer → ∀ v, member.asI64 = some v → -2 ^ 31 ≤ v.toInt ∧ v.toInt < 2 ^ 31) := by
  cases kind with
  | integer =>
    simp only [ColumnKind.Holds, ColumnKind.value, intVal, forall_const]
    cases hmember : member.asI64 with
    | none => simp
    | some v => simpa using toInt_toInt32_eq_iff v
  | text | flag | optText | document => simp [ColumnKind.Holds]

/-- The text in front of the rows names the columns. -/
theorem insertHeader_eq : insertHeader = "INSERT INTO vibe_audit.events (" ++
    ", ".intercalate (columns.map Prod.fst) ++ ") VALUES " := by
  -- short pieces: the kernel reads a long literal slowly
  have hlines : insertHeader =
      ("INSERT INTO vibe_audit.events (" ++ ("event_type" ++ ", ") ++ ("event_time" ++ ", ") ++
        ("success" ++ ", ") ++ ("session_user" ++ ", ") ++ ("client_addr" ++ ", ")) ++
      (("client_port" ++ ", ") ++ ("database" ++ ", ") ++ ("pid" ++ ", ") ++
        ("application" ++ ", ") ++ ("command_tag" ++ ", ") ++ ("object_type" ++ ", ") ++
        ("object_name" ++ ", ")) ++
      (("schema_name" ++ ", ") ++ ("query_text" ++ ", ") ++ ("sqlstate" ++ ", ") ++
        ("detail" ++ ", ") ++ ("prev_hash" ++ ", ") ++ "event_hash" ++ ") VALUES ") :=
    congrArg₂ (· ++ ·) (congrArg₂ (· ++ ·) (by rfl) (by rfl)) (by rfl)
  rw [hlines]
  simp only [-String.reduceAppend, columns, List.map_cons, List.map_nil,
    String.intercalate_cons_cons, String.intercalate_singleton, String.append_assoc]

theorem placeholders_insertHeader : placeholders insertHeader.toList = [] := by
  apply placeholders_eq_nil
  rw [insertHeader_eq, String.toList_append, String.toList_append, String.toList_intercalate]
  decide +kernel

/-- The members bound to integer columns have 32 bits. -/
def FitsColumns (event : Value) : Prop :=
  ∀ name ∈ ["client_port", "pid"], ∀ v, (event.index name).asI64 = some v →
    -2 ^ 31 ≤ v.toInt ∧ v.toInt < 2 ^ 31

theorem fitsColumns_iff (event : Value) : FitsColumns event ↔
    ∀ column ∈ columns, column.2.Holds (event.index column.1)
      (column.2.value (event.index column.1)) := by
  simp only [holds_value_iff]
  simp [FitsColumns, columns]

/-- The statement for fewer than 2 ^ 32 parameters is faithful exactly when the integers fit. -/
theorem faithful_insertStatement_iff {events : List Value} (h : 18 * events.length < 2 ^ 32) :
    Faithful (insertStatement events) events ↔ ∀ event ∈ events, FitsColumns event := by
  obtain ⟨⟨rows, hrows⟩, hplaceholders⟩ :=
    placeholders_pushRows { query := insertHeader, params := [], paramIdx := 1 } 0 events
      (show 1 + 18 * events.length < 2 ^ 32 by omega)
  have hparam : ∀ {i j event column}, events[i]? = some event → columns[j]? = some column →
      (insertStatement events).params[18 * i + j]? =
        some (column.2.value (event.index column.1)) := by
    intro i j event column hevent hcolumn
    have hj : j < 18 := (List.getElem?_eq_some_iff.mp hcolumn).1
    rw [getElem?_insertStatement_params events i hj, hevent, Option.bind_some, params_boundRow,
      List.getElem?_map, hcolumn, Option.map_some]
  simp only [fitsColumns_iff]
  constructor
  · intro hfaithful event hevent column hcolumn
    obtain ⟨i, hi⟩ := List.mem_iff_getElem?.mp hevent
    obtain ⟨j, hj⟩ := List.mem_iff_getElem?.mp hcolumn
    obtain ⟨p, hp, hholds⟩ := hfaithful.params i event hi j column hj
    rw [hparam hi hj] at hp
    rwa [Option.some.inj hp]
  · intro hfits
    refine ⟨⟨rows, ?_⟩, ?_, insertStatement_params_length events, ?_⟩
    · rw [← insertHeader_eq]
      exact hrows
    · exact hplaceholders.trans (by rw [placeholders_insertHeader]; rfl)
    · intro i event hi j column hj
      exact ⟨_, hparam hi hj,
        hfits event (List.mem_of_getElem? hi) column (List.mem_of_getElem? hj)⟩

/-- A call that reaches the database builds its statement from the retried events and the new ones.
The statement numbers its placeholders `$1` to `$(18 n)`, once each in increasing order, and binds
to each the value of its column for its event, exactly when no event has a `client_port` or `pid`
that is a 64-bit integer outside the 32-bit range. -/
theorem faithful_writeBatch_iff (w : BatchWriter) {events : List Value} (hevents : events ≠ [])
    {db : DbOutcome} (hdb : db ≠ .getFailed)
    (h : 18 * (w.retryQueue ++ events).length < 2 ^ 32) :
    ∃ st, (w.writeBatch events db).statement = some st ∧
      (Faithful st (w.retryQueue ++ events) ↔
        ∀ event ∈ w.retryQueue ++ events, FitsColumns event) := by
  refine ⟨insertStatement (w.retryQueue ++ events), ?_, faithful_insertStatement_iff h⟩
  cases db with
  | getFailed => exact absurd rfl hdb
  | executeFailed => rw [BatchWriter.writeBatch_executeFailed w hevents]
  | replyLost => rw [BatchWriter.writeBatch_replyLost w hevents]
  | executed => rw [BatchWriter.writeBatch_executed w hevents]

/-- A retried event and a new one, each with its own port. -/
theorem faithful_writeBatch_two :
    ∃ st, (BatchWriter.writeBatch ⟨[.object [("client_port", .number (.posInt 5432))]]⟩
        [.object [("client_port", .number (.posInt 5433))]] .executed).statement = some st ∧
      Faithful st [.object [("client_port", .number (.posInt 5432))],
        .object [("client_port", .number (.posInt 5433))]] := by
  obtain ⟨st, hst, hfaithful⟩ := faithful_writeBatch_iff
    ⟨[.object [("client_port", .number (.posInt 5432))]]⟩
    (List.cons_ne_nil (.object [("client_port", .number (.posInt 5433))]) [])
    (show DbOutcome.executed ≠ .getFailed by simp) (by decide)
  refine ⟨st, hst, hfaithful.mpr ?_⟩
  intro event hevent name hname v hv
  simp only [List.cons_append, List.nil_append, List.mem_cons, List.not_mem_nil, or_false]
    at hevent hname
  rcases hevent with rfl | rfl <;> rcases hname with rfl | rfl <;> cases hv <;> decide

/-- The port 4294967297 is stored as 1. -/
theorem not_faithful_writeBatch :
    ¬ ∀ (w : BatchWriter) (events : List Value) (db : DbOutcome), events ≠ [] →
      db ≠ .getFailed → 18 * (w.retryQueue ++ events).length < 2 ^ 32 →
        ∃ st, (w.writeBatch events db).statement = some st ∧
          Faithful st (w.retryQueue ++ events) := by
  intro h
  obtain ⟨st, hst, hfaithful⟩ := h ⟨[]⟩ [.object [("client_port", .number (.posInt 4294967297))]]
    .executed (by simp) (by simp) (by decide)
  rw [BatchWriter.writeBatch_executed _ (by simp)] at hst
  obtain rfl := Option.some.inj hst
  have hfits := (faithful_insertStatement_iff (by decide)).mp hfaithful _ List.mem_cons_self
  have hport := (hfits "client_port" (by decide) 4294967297 (by decide)).2
  exact absurd hport (by decide)

end VibeAudit.Delivery
