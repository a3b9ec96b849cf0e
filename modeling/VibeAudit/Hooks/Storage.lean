import Mathlib.Tactic.Tauto
import VibeAudit.Forwarder.WalCapture
import VibeAudit.Hooks.Columns

/-!
# Events and the columns of the table

Whether the row that `write_batch` binds for an event fits the columns of
`vibe_audit.events`: the events of the hooks member by member, then those of
WAL capture.
-/

namespace VibeAudit.Hooks

open Foundation Extension Forwarder
open Json (Value Number)

/-! ## Rows -/

/-- The row bound for an event that the chain of a running forwarder has hashed. -/
def RowOf (event : Value) (row : BoundRow) : Prop :=
  ∃ before c hashed a, HashChain.new.applyAll before = some (c, hashed) ∧
    c.apply event = some a ∧ row = boundRow a.event

def Storable (inputs : ColumnInputs) (event : Value) : Prop :=
  ∀ row, RowOf event row → inputs.accepts row = true

theorem noNul_sha256Hex (text : String) : noNul (sha256Hex text) = true := by
  rw [noNul, List.all_eq_true]
  intro c hc
  have hdigits : ∀ d ∈ Sha256.hexDigits, (d != '\x00') = true := List.all_eq_true.mp (by decide)
  exact hdigits c (sha256Hex_hexDigits text c hc)

theorem noNul_prevHash {c last : HashChain} {events out : List Value}
    (h : c.applyAll events = some (last, out)) (hc : noNul c.prevHash = true) :
    noNul last.prevHash = true := by
  induction events generalizing c out with
  | nil =>
    obtain ⟨rfl, -⟩ := Prod.mk.inj (Option.some.inj h)
    exact hc
  | cons e es ih =>
    obtain ⟨a, rest, ha, hrest, -⟩ := HashChain.applyAll_cons_eq_some.mp h
    have hspec := HashChain.apply_spec ha
    refine ih hrest ?_
    rw [hspec.chain_eq, hspec.eventHash_eq]
    exact noNul_sha256Hex _

/-- Hashing changes the two columns of the hashes. -/
theorem boundRow_hashed {event hashed : Value} (h : HashedFrom event hashed) :
    boundRow hashed = { boundRow event with
      prevHash := strVal (hashed.index "prev_hash")
      eventHash := strVal (hashed.index "event_hash") } := by
  have hindex : ∀ key, key ≠ "prev_hash" → key ≠ "event_hash" →
      hashed.index key = event.index key := fun key hp he => h.index_eq hp he
  simp only [boundRow]
  rw [hindex "event_type" (by decide) (by decide), hindex "event_time" (by decide) (by decide),
    hindex "success" (by decide) (by decide), hindex "session_user" (by decide) (by decide),
    hindex "client_addr" (by decide) (by decide), hindex "client_port" (by decide) (by decide),
    hindex "database" (by decide) (by decide), hindex "pid" (by decide) (by decide),
    hindex "application" (by decide) (by decide), hindex "command_tag" (by decide) (by decide),
    hindex "object_type" (by decide) (by decide), hindex "object_name" (by decide) (by decide),
    hindex "schema_name" (by decide) (by decide), hindex "query_text" (by decide) (by decide),
    hindex "sqlstate" (by decide) (by decide), hindex "detail" (by decide) (by decide)]

def withoutHashes (row : BoundRow) : BoundRow := { row with prevHash := none, eventHash := none }

/-- The hashes of a row always fit, so they do not matter. -/
theorem storable_iff (inputs : ColumnInputs) {event : Value} (hobj : event.isObject = true) :
    Storable inputs event ↔ inputs.accepts (withoutHashes (boundRow event)) = true := by
  have hrow : ∀ row, RowOf event row →
      inputs.accepts row = inputs.accepts (withoutHashes (boundRow event)) := by
    rintro row ⟨before, c, hashed, a, hbefore, happly, rfl⟩
    have hspec := HashChain.apply_spec happly
    have hprev : strVal (a.event.index "prev_hash") = some c.prevHash := hspec.storedPrev_eq
    have hhash : strVal (a.event.index "event_hash") = some a.eventHash := hspec.storedHash_eq
    have hprevNul : noNul c.prevHash = true := noNul_prevHash hbefore (by decide)
    have hhashNul : noNul a.eventHash = true := hspec.eventHash_eq ▸ noNul_sha256Hex _
    have hhashes : [some c.prevHash, some a.eventHash].reduceOption.all noNul = true := by
      simp [hprevNul, hhashNul]
    have hnone : ([none, none] : List (Option String)).reduceOption.all noNul = true := rfl
    rw [boundRow_hashed hspec.hashed, hprev, hhash]
    simp only [ColumnInputs.accepts, texts, withoutHashes, List.all_append, hhashes, hnone]
  constructor
  · intro h
    obtain ⟨a, ha⟩ := HashChain.exists_apply (c := .new) hobj
    have hof : RowOf event (boundRow a.event) := ⟨[], .new, [], a, rfl, ha, rfl⟩
    rw [← hrow _ hof]
    exact h _ hof
  · intro h row hof
    rw [hrow row hof, h]

def textKeys : List String :=
  ["session_user", "database", "application", "command_tag", "object_type", "object_name",
   "schema_name", "query_text", "sqlstate"]

theorem strVal_all (v : Value) (p : String → Bool) :
    (strVal v).all p = true ↔ ∀ s, v = .string s → p s = true := by
  cases v <;> simp [strVal, Value.asStr]

theorem all_reduceOption (event : Value) (keys : List String) (p : String → Bool) :
    (keys.map fun key => strVal (event.index key)).reduceOption.all p = true ↔
      ∀ key ∈ keys, ∀ s, event.index key = .string s → p s = true := by
  induction keys with
  | nil => simp
  | cons key keys ih =>
    rw [List.map_cons, List.forall_mem_cons, ← ih, ← strVal_all]
    cases strVal (event.index key) with
    | none => simp
    | some s => simp

/-- What makes an event storable, member by member. -/
theorem accepts_iff (inputs : ColumnInputs) (event : Value) :
    inputs.accepts (withoutHashes (boundRow event)) = true ↔
      (∀ key ∈ "event_type" :: textKeys, ∀ s, event.index key = .string s → noNul s = true) ∧
      (inputs.timestamptz.read ((strVal (event.index "event_time")).getD
        "1970-01-01T00:00:00Z")).isSome = true ∧
      (∀ s, event.index "client_addr" = .string s → inputs.inet s = true) ∧
      ((event.index "detail").isNull = false →
        inputs.jsonb (event.index "detail").render = true) := by
  have htype : noNul ((strVal (event.index "event_type")).getD "UNKNOWN") = true ↔
      ∀ s, event.index "event_type" = .string s → noNul s = true := by
    rw [← strVal_all]
    cases strVal (event.index "event_type") with
    | none => exact iff_of_true (by decide) rfl
    | some s => rfl
  have hdetail : (boundRow event).detail.all inputs.jsonb = true ↔
      ((event.index "detail").isNull = false →
        inputs.jsonb (event.index "detail").render = true) := by
    cases hnull : (event.index "detail").isNull <;> simp [boundRow, hnull]
  have htexts : (texts (withoutHashes (boundRow event))).all noNul = true ↔
      ∀ key ∈ "event_type" :: textKeys, ∀ s, event.index key = .string s → noNul s = true := by
    rw [List.forall_mem_cons, ← htype, ← all_reduceOption, ← Bool.and_eq_true]
    have hnone : ([none, none] : List (Option String)).reduceOption = [] := rfl
    simp only [texts, withoutHashes, boundRow, hnone, List.append_nil, List.all_cons, textKeys,
      List.map_cons, List.map_nil]
  have haddr := strVal_all (event.index "client_addr") inputs.inet
  rw [← htexts, ← hdetail, ← haddr]
  simp only [ColumnInputs.accepts, Bool.and_eq_true, and_assoc]
  rfl

/-! ## The events of the hooks -/

/-- What a reader makes of a name between quotes. -/
def reading (raw : String) : String := String.ofList ((Json.unescape raw.toList).getD [])

theorem value_of_text (raw : String) : (Field.text raw).value = .string (reading raw) := rfl

theorem Plain.reading_eq {raw : String} (h : Plain raw) : reading raw = raw :=
  Value.string.inj ((value_of_text raw).symm.trans h.value_text)

theorem Plain.noNul {s : String} (h : Plain s) : noNul s = true := by
  rw [Hooks.noNul, List.all_eq_true]
  intro c hc
  have hplain := List.all_eq_true.mp h c hc
  rw [bne_iff_ne]
  rintro rfl
  exact absurd hplain (by decide)

theorem index_document {fs : List (String × Field)} (h : fs.map Prod.fst = eventKeys)
    {f : String × Field} (hf : f ∈ fs) : (document fs).index f.1 = f.2.value :=
  Value.index_eq_of_get? (get?_document h hf)

/-- An event of authentication fits if its remote host is an address. -/
theorem storable_authFields_iff {inputs : ColumnInputs} (hinputs : inputs.Documented)
    {tv : Timeval} (hclock : tv.sec < 253402300800) (pid : Int32) (application : Option String)
    (names : PortNames) (remotePort : Option CString) (ok : Bool) :
    Storable inputs (document (authFields tv pid application names remotePort ok)) ↔
      inputs.inet (reading (names.host.getD "")) = true ∧
        ∀ raw ∈ [names.user.getD "", names.database.getD "", application.getD ""],
          noNul (reading raw) = true := by
  have hindex : ∀ f ∈ authFields tv pid application names remotePort ok,
      (document (authFields tv pid application names remotePort ok)).index f.1 = f.2.value :=
    fun f hf => index_document rfl hf
  have hplain : ∀ s, Plain s → noNul (reading s) = true := fun s hs => by
    rw [hs.reading_eq]
    exact hs.noNul
  have htime : (inputs.timestamptz.read (timeText tv)).isSome = true := by
    rw [timeText_eq hclock]
    exact hinputs.iso _ (readIso_isoMillis hclock)
  have hdetail : ∀ s, Plain s →
      inputs.jsonb (Value.obj [("reason", .string s)]).render = true := by
    intro s hs
    have hvalue : (Value.obj [("reason", .string s)]).every (fun _ => true) noNul =
        (noNul "reason" && noNul s && true) := rfl
    have hreason : noNul "reason" = true := by decide
    rw [hinputs.jsonb _ rfl, hvalue, hreason, hs.noNul]
    rfl
  rw [storable_iff inputs rfl, accepts_iff]
  generalize document (authFields tv pid application names remotePort ok) = event at hindex ⊢
  simp only [authFields, List.forall_mem_cons] at hindex
  obtain ⟨htype, htimeIndex, -, huser, haddr, -, hdatabase, -, happlication, htag, hobjectType,
    hobjectName, hschemaName, hquery, hstate, hdetailIndex, -⟩ := hindex
  have htypePlain : Plain (if ok then "AUTH_SUCCESS" else "AUTH_FAIL") := by cases ok <;> decide
  have hstatePlain : Plain (if ok then "00000" else "28P01") := by cases ok <;> decide
  have hreasonPlain : Plain (if ok then "authentication successful"
      else "password authentication failed") := by cases ok <;> decide
  have hnull : Field.null.value = .null := rfl
  have hreason : ∀ s, (Field.reason s).value = .obj [("reason", .string s)] := fun _ => rfl
  simp only [textKeys, List.forall_mem_cons, List.not_mem_nil, htype, htimeIndex, huser, haddr,
    hdatabase, happlication, htag, hobjectType, hobjectName, hschemaName, hquery, hstate,
    hdetailIndex, value_of_text, hnull, hreason, Value.string.injEq, forall_eq', strVal,
    Value.asStr, Option.getD_some, (plain_timeText tv).reading_eq, htime, reduceCtorEq,
    false_implies, implies_true, hdetail _ hreasonPlain, hplain _ htypePlain,
    hplain _ hstatePlain, hplain "authentication" (by decide), true_and, and_true]
  exact and_comm

section

variable {number : List Char → Option Json.Number} {fromSlice : List UInt8 → Option Json.Value}
  {inputs : ColumnInputs}

/-- An event with an empty address does not fit. -/
theorem not_storable_of_empty (hinputs : inputs.Documented) {event : Value}
    (hobj : event.isObject = true) (h : event.index "client_addr" = .string "") :
    ¬ Storable inputs event := by
  rw [storable_iff inputs hobj, accepts_iff]
  rintro ⟨-, -, haddr, -⟩
  have hempty := haddr "" h
  rw [hinputs.inet_empty] at hempty
  cases hempty

/-- An event with a query has an empty address. -/
theorem clientAddr_query (hreads : Json.ReadsJson number fromSlice)
    {front : List (String × Field)} {detail : Field}
    {eventType : String} {success : Bool} {names : List (String × Option String)}
    (haddr : ("client_addr", .text "") ∈ front) (hclosed : ClosedNames names)
    (hfields : ∀ s, Says (queryFields front (.query s) detail) eventType success names)
    (query : String) {event : Value}
    (h : fromSlice (printEvent (queryMembers front
      (vibeJsonEscape querySize (some (bytes query))) detail)) = some event) :
    event.isObject = true ∧ event.index "client_addr" = .string "" := by
  by_cases hcut : CutShort querySize query.toList
  · rw [fromSlice_cutShort hreads front hcut] at h
    cases h
  · obtain ⟨s, -, hescape⟩ := exists_escaped hcut
    rw [hescape, queryMembers_of_text, fromSlice_of_closed hreads (hfields s) hclosed] at h
    obtain rfl := Option.some.inj h
    exact ⟨rfl, index_document (hfields s).keys (List.mem_append_left _ haddr)⟩

theorem not_storable_query (hreads : Json.ReadsJson number fromSlice)
    (hinputs : inputs.Documented) {front : List (String × Field)} {detail : Field}
    {eventType : String} {success : Bool} {names : List (String × Option String)}
    (haddr : ("client_addr", .text "") ∈ front) (hclosed : ClosedNames names)
    (hfields : ∀ s, Says (queryFields front (.query s) detail) eventType success names)
    (query : String) {event : Value}
    (h : fromSlice (printEvent (queryMembers front
      (vibeJsonEscape querySize (some (bytes query))) detail)) = some event) :
    ¬ Storable inputs event := by
  obtain ⟨hobj, hempty⟩ := clientAddr_query hreads haddr hclosed hfields query h
  exact not_storable_of_empty hinputs hobj hempty

end

/-! ## The events of WAL capture -/

def changeDetail (oldData newData : Option Value) (changedFields : List String)
    (sensitiveMatches : List SensitiveMatch) (xid lsn : String) : List (String × Value) :=
  [("source", .string "wal"), ("xid", .string xid), ("lsn", .string lsn),
   ("old_data", oldData.getD .null), ("new_data", newData.getD .null),
   ("changed_fields", .array (changedFields.map .string)),
   ("sensitive_fields_touched", .array (sensitiveMatches.map fun m => .string m.jsonPath))]

def changeMembers (now commandTag schema table : String) (detail : List (String × Value)) :
    List (String × Value) :=
  [("event_type", .string "DATA_CHANGE"), ("event_time", .string now), ("success", .bool true),
   ("session_user", .null), ("client_addr", .null), ("client_port", .null), ("database", .null),
   ("pid", .null), ("application", .string "vibe_audit_forwarder"),
   ("command_tag", .string commandTag), ("object_type", .string "TABLE"),
   ("object_name", .string table), ("schema_name", .string schema), ("query_text", .null),
   ("sqlstate", .null), ("detail", .obj detail)]

theorem index_changeMembers (now commandTag schema table : String)
    (detail : List (String × Value)) :
    ∀ p ∈ changeMembers now commandTag schema table detail,
      (Value.obj (changeMembers now commandTag schema table detail)).index p.1 = p.2 := by
  have hkeys : ((changeMembers now commandTag schema table detail).map Prod.fst).Nodup :=
    show eventKeys.Nodup by decide
  exact fun p hp => Value.index_obj hkeys hp

theorem every_strings (number : Number → Bool) (text : String → Bool) (xs : List String) :
    (Value.array (xs.map .string)).every number text = true ↔ ∀ s ∈ xs, text s = true := by
  rw [Value.every, Value.everyElement_eq_true, List.forall_mem_map]
  rfl

/-- A property that the fixed names have holds of the detail of a change if it holds of what the
change brings in. -/
theorem every_changeDetail {number : Number → Bool} {text : String → Bool}
    (hfixed : ∀ s ∈ ["source", "wal", "xid", "lsn", "old_data", "new_data", "changed_fields",
      "sensitive_fields_touched"], text s = true) (oldData newData : Option Value)
    (changedFields : List String) (sensitiveMatches : List SensitiveMatch) (xid lsn : String) :
    (Value.obj (changeDetail oldData newData changedFields sensitiveMatches xid lsn)).every
        number text = true ↔
      (∀ s ∈ xid :: lsn :: (changedFields ++ sensitiveMatches.map (·.jsonPath)), text s = true) ∧
        ∀ doc ∈ [oldData.getD .null, newData.getD .null], doc.every number text = true := by
  have hpaths : (sensitiveMatches.map fun m => Value.string m.jsonPath) =
      (sensitiveMatches.map (·.jsonPath)).map .string := by
    rw [List.map_map]
    rfl
  have hkeys : ((changeDetail oldData newData changedFields sensitiveMatches xid lsn).map
      Prod.fst).Nodup :=
    show ["source", "xid", "lsn", "old_data", "new_data", "changed_fields",
      "sensitive_fields_touched"].Nodup by decide
  have hstring : ∀ s, (Value.string s).every number text = text s := fun _ => rfl
  rw [Value.every_obj hkeys]
  simp only [changeDetail, List.forall_mem_cons, List.not_mem_nil, false_implies, implies_true,
    and_true] at hfixed ⊢
  simp only [hpaths, every_strings, hfixed, hstring, true_and, List.forall_mem_append]
  tauto

/-- An event of WAL capture has no address; it fits unless one of its strings has a NUL. -/
theorem storable_change_iff {inputs : ColumnInputs} (hinputs : inputs.Documented) {tv : Timeval}
    (hclock : tv.sec < 253402300800) (commandTag schema table : String)
    (oldData newData : Option Value) (changedFields : List String)
    (sensitiveMatches : List SensitiveMatch) (xid lsn : String)
    (hdecimal : ∀ doc ∈ [oldData.getD .null, newData.getD .null],
      doc.every isDecimal (fun _ => true) = true) :
    Storable inputs (buildDataChangeEvent (isoMillis tv) commandTag schema table oldData newData
      changedFields sensitiveMatches xid lsn) ↔
        (∀ s ∈ [commandTag, schema, table], noNul s = true) ∧
        (∀ s ∈ xid :: lsn :: (changedFields ++ sensitiveMatches.map (·.jsonPath)),
          noNul s = true) ∧
        ∀ doc ∈ [oldData.getD .null, newData.getD .null],
          doc.every (fun _ => true) noNul = true := by
  have htime := hinputs.iso _ (readIso_isoMillis hclock)
  have hdecimalDetail : (Value.obj (changeDetail oldData newData changedFields sensitiveMatches xid
      lsn)).every isDecimal (fun _ => true) = true :=
    (every_changeDetail (fun _ _ => rfl) _ _ _ _ _ _).mpr ⟨fun _ _ => rfl, hdecimal⟩
  have hnulDetail := hinputs.jsonb _ hdecimalDetail
  rw [storable_iff inputs rfl, accepts_iff, ← every_changeDetail (by decide), ← hnulDetail]
  have hindex := index_changeMembers (isoMillis tv) commandTag schema table
    (changeDetail oldData newData changedFields sensitiveMatches xid lsn)
  have hevent : buildDataChangeEvent (isoMillis tv) commandTag schema table oldData newData
      changedFields sensitiveMatches xid lsn = .obj (changeMembers (isoMillis tv) commandTag schema
        table (changeDetail oldData newData changedFields sensitiveMatches xid lsn)) := rfl
  rw [hevent]
  generalize Value.obj (changeMembers (isoMillis tv) commandTag schema table
    (changeDetail oldData newData changedFields sensitiveMatches xid lsn)) = event at hindex ⊢
  simp only [changeMembers, List.forall_mem_cons] at hindex
  obtain ⟨htype, htimeIndex, -, huser, haddr, -, hdatabase, -, happlication, htag, hobjectType,
    hobjectName, hschemaName, hquery, hstate, hdetailIndex, -⟩ := hindex
  have hfixed : noNul "DATA_CHANGE" = true ∧ noNul "vibe_audit_forwarder" = true ∧
      noNul "TABLE" = true := by decide
  have hobj : (Value.obj (changeDetail oldData newData changedFields sensitiveMatches xid
      lsn)).isNull = false := rfl
  simp only [textKeys, List.forall_mem_cons, List.not_mem_nil, htype, htimeIndex, huser, haddr,
    hdatabase, happlication, htag, hobjectType, hobjectName, hschemaName, hquery, hstate,
    hdetailIndex, Value.string.injEq, forall_eq', strVal, Value.asStr, Option.getD_some, htime,
    reduceCtorEq, false_implies, implies_true, hfixed, hobj, true_implies, true_and, and_true]
  tauto

/-! ## Every event -/

theorem events_storable_iff {number : List Char → Option Number}
    {fromSlice : List UInt8 → Option Value} (hreads : Json.ReadsJson number fromSlice)
    {inputs : ColumnInputs} (hinputs : inputs.Documented) :
    (∀ tv pid (application : Option String) (names : PortNames) remotePort ok datagram event,
      tv.sec < 253402300800 → ClosedNames (authNames application names) →
      vibeEmitAuthEvent tv pid (application.map bytes) (names.port remotePort) ok =
        some datagram → fromSlice datagram = some event →
      (Storable inputs event ↔ inputs.inet (reading (names.host.getD "")) = true ∧
        ∀ raw ∈ [names.user.getD "", names.database.getD "", application.getD ""],
          noNul (reading raw) = true)) ∧
    (∀ tv (names : SessionNames) pid stmt (objectNames : ObjectNames) (query : Option String)
      success datagram event, objectNames.Of stmt → ClosedNames (utilityNames names objectNames) →
      vibeEmitUtilityEventWithStatus tv (names.session pid) (some stmt) (query.map bytes)
        success = some datagram → fromSlice datagram = some event → ¬ Storable inputs event) ∧
    (∀ tv (names : SessionNames) pid operation query datagram event,
      ClosedNames (utilityNames names ⟨none, none⟩) →
      vibeEmitExecutorEvent tv (names.session pid) (some ⟨operation, some (bytes query)⟩) =
        some datagram → fromSlice datagram = some event → ¬ Storable inputs event) ∧
    ∀ tv commandTag schema table (oldData newData : Option Value) changedFields sensitiveMatches
      xid lsn, tv.sec < 253402300800 →
      (∀ doc ∈ [oldData.getD .null, newData.getD .null],
        doc.every isDecimal (fun _ => true) = true) →
      (Storable inputs (buildDataChangeEvent (isoMillis tv) commandTag schema table oldData
        newData changedFields sensitiveMatches xid lsn) ↔
          (∀ s ∈ [commandTag, schema, table], noNul s = true) ∧
          (∀ s ∈ xid :: lsn :: (changedFields ++ sensitiveMatches.map (·.jsonPath)),
            noNul s = true) ∧
          ∀ doc ∈ [oldData.getD .null, newData.getD .null],
            doc.every (fun _ => true) noNul = true) := by
  refine ⟨?_, ?_, ?_, ?_⟩
  · intro tv pid application names remotePort ok datagram event hclock hclosed hsent hread
    obtain rfl := eq_of_emit hsent
    rw [authMembers_eq, fromSlice_of_closed hreads
      (says_authFields tv pid application names remotePort ok) hclosed] at hread
    obtain rfl := Option.some.inj hread
    exact storable_authFields_iff hinputs hclock pid application names remotePort ok
  · intro tv names pid stmt objectNames query success datagram event hobject hclosed hsent hread
    obtain ⟨ddlTag, htag, rfl⟩ := eq_of_utility_emitted hobject hsent
    exact not_storable_query hreads hinputs (by simp [utilityFront]) hclosed
      (says_utilityFields tv names pid htag objectNames success) _ hread
  · intro tv names pid operation query datagram event hclosed hsent hread
    rw [vibeEmitExecutorEvent_of_text] at hsent
    obtain rfl := eq_of_emit hsent
    rw [executorMembers_eq tv names pid operation] at hread
    exact not_storable_query hreads hinputs (by simp [executorFront]) hclosed
      (says_executorFields tv names pid operation) _ hread
  · intro tv commandTag schema table oldData newData changedFields sensitiveMatches xid lsn hclock
    exact storable_change_iff hinputs hclock commandTag schema table oldData newData changedFields
      sensitiveMatches xid lsn

theorem plain_psqlNames : PlainNames (utilityNames psqlNames ⟨none, none⟩) := by
  simp only [PlainNames, utilityNames, psqlNames, List.forall_mem_cons, Option.getD_some]
  decide

def loginNames : PortNames := ⟨some "alice", some "vibesql", some "127.0.0.1"⟩

/-- A login and an insert fit, the creation of a table and a query do not. -/
theorem events_storable_plain :
    (∀ datagram event, vibeEmitAuthEvent newYear 4711 ((some "psql").map bytes)
        (loginNames.port (some (bytes "52100"))) true = some datagram →
      (Utf8.decode datagram).bind (Json.readText Json.readInteger) = some event →
        Storable plainInputs event) ∧
    (∀ datagram event, vibeEmitUtilityEventWithStatus newYear (psqlNames.session 4711)
        (some (.createStmt (some ⟨some (bytes "public"), bytes "users"⟩)))
        ((some "CREATE TABLE users (id integer)").map bytes) true = some datagram →
      (Utf8.decode datagram).bind (Json.readText Json.readInteger) = some event →
        ¬ Storable plainInputs event) ∧
    (∀ datagram event, vibeEmitExecutorEvent newYear (psqlNames.session 4711)
        (some ⟨.select, some (bytes "SELECT 1")⟩) = some datagram →
      (Utf8.decode datagram).bind (Json.readText Json.readInteger) = some event →
        ¬ Storable plainInputs event) ∧
    Storable plainInputs (buildDataChangeEvent (isoMillis newYear) "INSERT" "public" "users" none
      (some (.obj [("id", .number (.posInt 7))])) [] [] "731" "0/15D5A30") := by
  obtain ⟨hauth, hutility, hexecutor, hchange⟩ :=
    events_storable_iff Json.readsJson_integers plainInputs_documented
  refine ⟨?_, ?_, ?_, ?_⟩
  · intro datagram event hsent hread
    have hplain : PlainNames (authNames (some "psql") loginNames) := by
      simp only [PlainNames, authNames, loginNames, List.forall_mem_cons, Option.getD_some]
      decide
    refine (hauth newYear 4711 (some "psql") loginNames _ true datagram event (by decide)
      hplain.closed hsent hread).mpr ⟨by decide, ?_⟩
    decide
  · intro datagram event
    have hplain : PlainNames (utilityNames psqlNames ⟨some "users", some "public"⟩) := by
      simp only [PlainNames, utilityNames, psqlNames, List.forall_mem_cons, Option.getD_some]
      decide
    exact hutility newYear psqlNames 4711 _ ⟨some "users", some "public"⟩ _ true datagram event
      (fun _ => ⟨rfl, rfl⟩) hplain.closed
  · intro datagram event
    have hplain := plain_psqlNames
    exact hexecutor newYear psqlNames 4711 .select "SELECT 1" datagram event hplain.closed
  · exact (hchange newYear "INSERT" "public" "users" none _ [] [] "731" "0/15D5A30" (by decide)
      (by decide)).mpr (by decide)

/-- The event of `SELECT 1` is sent and read, and no row of it fits. -/
theorem not_events_storable :
    ¬ ∀ operation query datagram event, vibeEmitExecutorEvent newYear (psqlNames.session 4711)
        (some ⟨operation, some (bytes query)⟩) = some datagram →
      (Utf8.decode datagram).bind (Json.readText Json.readInteger) = some event →
        Storable plainInputs event := by
  intro h
  have hsent : (vibeEmitExecutorEvent newYear (psqlNames.session 4711)
      (some ⟨.select, some (bytes "SELECT 1")⟩)).isSome = true := by decide +kernel
  obtain ⟨datagram, hdatagram⟩ := Option.isSome_iff_exists.mp hsent
  have hshort : ¬ CutShort querySize "SELECT 1".toList := not_cutShort_ascii (by decide)
  obtain ⟨s, -, hescape⟩ := exists_escaped hshort
  have hprinted := hdatagram
  rw [vibeEmitExecutorEvent_of_text] at hprinted
  obtain rfl := eq_of_emit hprinted
  have hread := fromSlice_of_closed Json.readsJson_integers
    (says_executorFields newYear psqlNames 4711 .select s) plain_psqlNames.closed
  rw [← queryMembers_of_text, ← hescape, ← executorMembers_eq newYear psqlNames 4711 .select]
    at hread
  refine not_storable_query Json.readsJson_integers plainInputs_documented
    (by simp [executorFront]) plain_psqlNames.closed
    (says_executorFields newYear psqlNames 4711 .select) "SELECT 1" ?_
    (h .select "SELECT 1" _ _ hdatagram hread)
  rw [← executorMembers_eq newYear psqlNames 4711 .select]
  exact hread

end VibeAudit.Hooks
