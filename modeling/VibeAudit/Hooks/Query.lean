import Mathlib.Algebra.Order.BigOperators.Group.List
import VibeAudit.Hooks.Documents

/-!
# Statements are not lost

An event with the text of a query fits its buffer when the names are short, and
the listener reads it, with a beginning of the query in it, exactly when the
buffer for the escaped text does not end inside a character. Where it does, the
datagram is no UTF-8 and the event is dropped.
-/

namespace VibeAudit.Hooks

open Foundation Extension

/-! ## Short names -/

/-- A plain name that fits an identifier. -/
structure IsLabel (s : String) : Prop where
  plain : Plain s
  short : (bytes s).length ≤ 63

theorem isLabel_timeText (tv : Timeval) : IsLabel (timeText tv) := by
  refine ⟨plain_timeText tv, ?_⟩
  rw [← timebuf_eq, timebuf, List.length_take]
  exact Nat.min_le_left _ _

theorem isLabel_empty : IsLabel "" := ⟨by decide, by decide⟩

theorem isLabel_cmdTag (operation : CmdType) : IsLabel (cmdTag operation) := by
  cases operation <;> exact ⟨by decide, by decide⟩

theorem isLabel_objectTypeStr (objtype : ObjectType) : IsLabel (vibeObjectTypeStr objtype) := by
  cases objtype <;> exact ⟨by decide, by decide⟩

theorem isLabel_ddlTag {stmt : UtilityStmt} {ddlTag : String}
    (h : vibeNodeTagToDdl stmt = some ddlTag) : IsLabel (utilityObject ddlTag stmt).ddlTag := by
  cases stmt with
  | grantStmt isGrant =>
    cases isGrant <;> simp only [utilityObject] <;> exact ⟨by decide, by decide⟩
  | other => cases h
  | _ =>
    obtain rfl := Option.some.inj h
    simp only [utilityObject]
    exact ⟨by decide, by decide⟩

theorem isLabel_objectType {stmt : UtilityStmt} {ddlTag objectType : String}
    (h : (utilityObject ddlTag stmt).objectType = some objectType) : IsLabel objectType := by
  cases stmt with
  | dropStmt | grantStmt =>
    obtain rfl := Option.some.inj h
    exact isLabel_objectTypeStr _
  | createStmt | alterTableStmt | createRoleStmt | dropRoleStmt =>
    obtain rfl := Option.some.inj h
    exact ⟨by decide, by decide⟩
  | _ => cases h

/-- At most 63 printable ASCII characters, no quotes and no backslashes. -/
structure Printable (s : String) : Prop where
  length_le : s.length ≤ 63
  printable : ∀ c ∈ s.toList, 0x20 ≤ c.toNat ∧ c.toNat < 0x7F ∧ c ≠ '"' ∧ c ≠ '\\'

theorem Printable.isLabel {s : String} (h : Printable s) : IsLabel s := by
  constructor
  · rw [Plain, List.all_eq_true]
    intro c hc
    obtain ⟨hspace, -, hquote, hslash⟩ := h.printable c hc
    simp [Json.isPlainChar, hspace, hquote, hslash]
  · have hascii : ∀ c ∈ s.toList, c.toNat < 128 := fun c hc => by
      have := (h.printable c hc).2.1
      omega
    rw [bytes, Utf8.length_encode_ascii hascii, String.length_toList]
    exact h.length_le

/-- The names printed as they are are labels. -/
def Labelled (fs : List (String × Field)) : Prop := ∀ f ∈ fs, ∀ raw, f.2 = .text raw → IsLabel raw

theorem optional_eq_text {s : Option String} {raw : String} (h : optional s = .text raw) :
    s = some raw := by
  cases s with
  | none => cases h
  | some s =>
    cases h
    rfl

/-! ## Sizes -/

theorem length_print (m : EventMember) :
    m.print.length = (bytes m.key).length + 3 + m.text.length := by
  simp [EventMember.print, quoted]
  omega

theorem length_printMembers_le (ms : List EventMember) :
    (printMembers ms).length ≤ (ms.map fun m => m.print.length + 1).sum := by
  fun_induction printMembers ms with
  | case1 => simp
  | case2 m => simp
  | case3 m ms hne ih =>
    rw [List.map_cons, List.sum_cons, List.length_append, List.length_cons]
    omega

theorem length_key_le {key : String} (h : key ∈ eventKeys) : (bytes key).length ≤ 12 := by
  have hkeys : ∀ key ∈ eventKeys, (bytes key).length ≤ 12 := by decide
  exact hkeys key h

/-- A field that is no query and no reason is short. -/
theorem length_chars_le {f : Field} (hquery : ∀ s, f ≠ .query s) (hreason : ∀ s, f ≠ .reason s)
    (hlabel : ∀ raw, f = .text raw → IsLabel raw) : (Utf8.encode f.chars).length ≤ 65 := by
  cases f with
  | text raw =>
    have hshort := (hlabel raw rfl).short
    have htext : Utf8.encode (Field.text raw).chars = quoted (bytes raw) := by
      rw [bytes, quoted_encode, Field.chars]
    rw [htext, quoted, List.length_cons, List.length_append, List.length_singleton]
    omega
  | query s => exact absurd rfl (hquery s)
  | reason s => exact absurd rfl (hreason s)
  | int n =>
    have hascii : ∀ c ∈ (toString n).toList, c.toNat < 128 := by
      intro c hc
      rcases mem_toString hc with hdigit | rfl
      · rw [Char.isDigit_iff_toNat] at hdigit
        have hnine : '9'.toNat = 57 := rfl
        omega
      · decide
    rw [Field.chars, Utf8.length_encode_ascii hascii]
    have := length_toString n
    omega
  | bool b => cases b <;> decide
  | null | superuser => decide

theorem length_fieldMember_le {front : List (String × Field)} (h : IsFront front)
    (hlabelled : Labelled front) {f : String × Field} (hf : f ∈ front) :
    (fieldMember f).print.length ≤ 80 := by
  have hkey : (bytes f.1).length ≤ 12 :=
    length_key_le (List.mem_of_mem_take (h.keys ▸ List.mem_map_of_mem hf))
  have htext := length_chars_le (h.query f hf) (h.reason f hf) (hlabelled f hf)
  rw [length_print]
  simp only [fieldMember]
  omega

/-- With short names the buffer of an event has room for all of the buffer of the query. -/
theorem length_printEvent_lt {front : List (String × Field)} (h : IsFront front)
    (hlabelled : Labelled front) {escaped : CString} (hescaped : escaped.length < querySize)
    {detail : Field} (hdetail : detail = .null ∨ detail = .superuser) :
    (printEvent (queryMembers front escaped detail)).length < maxEventSize := by
  have hfront : ((front.map fieldMember).map fun m => m.print.length + 1).sum ≤ 13 * 81 := by
    have hlength : front.length = 13 := by
      rw [← List.length_map (f := Prod.fst), h.keys]
      rfl
    have hsum := List.sum_le_card_nsmul ((front.map fieldMember).map fun m => m.print.length + 1) 81
      (by
        intro n hn
        obtain ⟨m, hm, rfl⟩ := List.mem_map.mp hn
        obtain ⟨f, hf, rfl⟩ := List.mem_map.mp hm
        have := length_fieldMember_le h hlabelled hf
        omega)
    rw [List.length_map, List.length_map, hlength] at hsum
    simpa using hsum
  have hstate : (fieldMember ("sqlstate", .text "00000")).print.length = 18 := by decide
  have hdetailLength : (fieldMember ("detail", detail)).print.length ≤ 40 := by
    rcases hdetail with rfl | rfl <;> decide
  have hquery : (EventMember.mk "query_text" (quoted escaped)).print.length =
      escaped.length + 15 := by
    have hkey : (bytes "query_text").length = 10 := by decide
    rw [length_print, hkey, quoted, List.length_cons, List.length_append, List.length_singleton]
    omega
  have hsum := length_printMembers_le (queryMembers front escaped detail)
  simp only [queryMembers, List.map_append, List.sum_append, List.map_cons, List.map_nil,
    List.sum_cons, List.sum_nil, hquery, hstate] at hsum
  have hsize : maxEventSize = 8192 ∧ querySize = 4096 := ⟨rfl, rfl⟩
  rw [printEvent, List.length_cons, List.length_append, List.length_singleton]
  simp only [queryMembers, List.map_cons, List.map_nil]
  omega

theorem emit_printEvent {ms : List EventMember} (h : (printEvent ms).length < maxEventSize) :
    emit (printEvent ms) = some (printEvent ms) :=
  if_pos ⟨by simp [printEvent], h⟩

/-! ## Events with a query -/

/-- The front of a statement's event prints labels if its names are labels. -/
theorem isLabel_statementFront (tv : Timeval) {names : SessionNames} (pid : Int32)
    {eventType tag : String} (success : Bool) {objectType : Option String}
    {objectNames : ObjectNames} (hevent : IsLabel eventType) (htag : IsLabel tag)
    (hsession : IsLabel names.user ∧ IsLabel names.database ∧ IsLabel (names.application.getD ""))
    (htype : ∀ s, objectType = some s → IsLabel s)
    (hobject : ∀ s, objectNames.name = some s ∨ objectNames.schema = some s → IsLabel s) :
    Labelled (statementFront tv names pid eventType success tag objectType objectNames) := by
  obtain ⟨huser, hdatabase, happlication⟩ := hsession
  simp only [Labelled, statementFront, List.forall_mem_cons, Field.text.injEq, reduceCtorEq,
    false_implies, implies_true, forall_eq', true_and]
  refine ⟨hevent, isLabel_timeText tv, huser, isLabel_empty, hdatabase, happlication, htag,
    ?_, ?_, ?_, by simp⟩
  · intro raw h
    exact htype raw (optional_eq_text h)
  · intro raw h
    exact hobject raw (.inl (optional_eq_text h))
  · intro raw h
    exact hobject raw (.inr (optional_eq_text h))

theorem isLabel_utilityFront (tv : Timeval) {names : SessionNames} (pid : Int32)
    {stmt : UtilityStmt} {ddlTag : String} {objectNames : ObjectNames} (success : Bool)
    (htag : vibeNodeTagToDdl stmt = some ddlTag)
    (hsession : IsLabel names.user ∧ IsLabel names.database ∧ IsLabel (names.application.getD ""))
    (hobject : ∀ s, objectNames.name = some s ∨ objectNames.schema = some s → IsLabel s) :
    Labelled (utilityFront tv names pid (utilityObject ddlTag stmt) objectNames success) := by
  rw [utilityFront_eq]
  exact isLabel_statementFront tv pid success ⟨by decide, by decide⟩ (isLabel_ddlTag htag) hsession
    (fun s h => isLabel_objectType h) hobject

theorem isLabel_executorFront (tv : Timeval) {names : SessionNames} (pid : Int32)
    (operation : CmdType)
    (hsession : IsLabel names.user ∧ IsLabel names.database ∧ IsLabel (names.application.getD "")) :
    Labelled (executorFront tv names pid operation) := by
  rw [executorFront_eq]
  exact isLabel_statementFront tv pid true ⟨by decide, by decide⟩ (isLabel_cmdTag operation)
    hsession (by simp) (by simp)

/-- The query text that is read. -/
theorem get?_query_text (front : List (String × Field)) (s : String) (detail : Field) :
    (document (queryFields front (.query s) detail)).get? "query_text" = some (.string s) := by
  simp [document, queryFields, Json.Value.get?_obj, SortedMap.get?_cons, Field.value]

/-- The text of a query that is not cut, as it is printed. -/
theorem exists_escaped {query : String} (h : ¬ CutShort querySize query.toList) :
    ∃ s : String, s.toList <+: query.toList ∧
      vibeJsonEscape querySize (some (bytes query)) =
        Utf8.encode (s.toList.flatMap escapeChar) := by
  obtain ⟨a, b, hquery, hescape⟩ := vibeJsonEscape_of_not_cutShort (by decide) h
  refine ⟨String.ofList a, ?_, ?_⟩
  · rw [String.toList_ofList, hquery]
    exact List.prefix_append a b
  · rw [String.toList_ofList]
    exact hescape

variable {number : List Char → Option Json.Number} {fromSlice : List UInt8 → Option Json.Value}

/-- An event whose query is cut short is not read. -/
theorem fromSlice_cutShort (hreads : Json.ReadsJson number fromSlice)
    (front : List (String × Field)) {query : String} (h : CutShort querySize query.toList)
    (detail : Field) :
    fromSlice (printEvent (queryMembers front
      (vibeJsonEscape querySize (some (bytes query))) detail)) = none := by
  obtain ⟨a, c, b, k, -, hk, hcut, hescape⟩ := vibeJsonEscape_of_cutShort h
  rw [bytes, hescape]
  exact fromSlice_cut hreads front "query_text" _ c hk hcut _

theorem closed_queryFields {front : List (String × Field)} (hfront : IsFront front)
    (hclosed : ∀ f ∈ front, ∀ raw, f.2 = .text raw → Closed raw) (s : String) {detail : Field}
    (hdetail : detail = .null ∨ detail = .superuser) :
    ∀ f ∈ queryFields front (.query s) detail, f.2.IsClosed := by
  intro f hf
  simp only [queryFields, List.mem_append, List.mem_cons, List.not_mem_nil, or_false] at hf
  rcases hf with hf | rfl | rfl | rfl
  · obtain ⟨key, field⟩ := f
    cases field with
    | text raw => exact hclosed _ hf raw rfl
    | reason s' => exact absurd rfl (hfront.reason _ hf s')
    | _ => trivial
  · trivial
  · exact Plain.closed (by decide)
  · rcases hdetail with rfl | rfl <;> trivial

/-- The datagram is sent and read, and its query text is a beginning of the query. -/
def QueryKept (fromSlice : List UInt8 → Option Json.Value) (sent : Option CString)
    (query : String) : Prop :=
  ∃ datagram event text, sent = some datagram ∧ fromSlice datagram = some event ∧
    event.get? "query_text" = some (.string text) ∧ text.toList <+: query.toList

/-- In any event with a query, its text is kept exactly when no character of it crosses the end of
the buffer. -/
theorem queryKept_iff (hreads : Json.ReadsJson number fromSlice) {front : List (String × Field)}
    (hfront : IsFront front) (hlabelled : Labelled front) (query : String) {detail : Field}
    (hdetail : detail = .null ∨ detail = .superuser) :
    QueryKept fromSlice (emit (printEvent (queryMembers front
      (vibeJsonEscape querySize (some (bytes query))) detail))) query ↔
        ¬ CutShort querySize query.toList := by
  have hpos : 0 < querySize := by decide
  have hsent := emit_printEvent (length_printEvent_lt hfront hlabelled
    (escaped_vibeJsonEscape hpos (bytes query)).fits hdetail)
  rw [hsent]
  constructor
  · rintro ⟨datagram, event, text, hdatagram, hread, -⟩ hcut
    obtain rfl := Option.some.inj hdatagram
    rw [fromSlice_cutShort hreads front hcut] at hread
    cases hread
  · intro h
    obtain ⟨s, hbegins, hescape⟩ := exists_escaped h
    refine ⟨_, document (queryFields front (.query s) detail), s, rfl, ?_,
      get?_query_text front s detail, hbegins⟩
    rw [hescape, queryMembers_of_text]
    exact fromSlice_fields hreads (named_queryFields hfront _ _)
      (closed_queryFields hfront (fun f hf raw hraw => (hlabelled f hf raw hraw).plain.closed) s
        hdetail)

/-! ## Every statement -/

/-- The names of a session, printable. -/
structure SessionNames.Printable (names : SessionNames) : Prop where
  user : Hooks.Printable names.user
  database : Hooks.Printable names.database
  application : ∀ s, names.application = some s → Hooks.Printable s

theorem SessionNames.Printable.isLabel {names : SessionNames} (h : names.Printable) :
    IsLabel names.user ∧ IsLabel names.database ∧ IsLabel (names.application.getD "") := by
  refine ⟨h.user.isLabel, h.database.isLabel, ?_⟩
  cases happlication : names.application with
  | none => exact isLabel_empty
  | some s => exact (h.application s happlication).isLabel

/-- The text of a query is kept in both kinds of events exactly when no character of it crosses the
end of the buffer. -/
theorem queries_kept_iff (hreads : Json.ReadsJson number fromSlice) (tv : Timeval)
    {names : SessionNames} (hnames : names.Printable) (pid : Int32) (query : String) :
    (∀ stmt ddlTag (objectNames : ObjectNames) success, vibeNodeTagToDdl stmt = some ddlTag →
      objectNames.Of stmt →
      (∀ s, objectNames.name = some s ∨ objectNames.schema = some s → Printable s) →
        (QueryKept fromSlice (vibeEmitUtilityEventWithStatus tv (names.session pid) (some stmt)
          (some (bytes query)) success) query ↔ ¬ CutShort querySize query.toList)) ∧
    ∀ operation, QueryKept fromSlice (vibeEmitExecutorEvent tv (names.session pid)
      (some ⟨operation, some (bytes query)⟩)) query ↔ ¬ CutShort querySize query.toList := by
  constructor
  · intro stmt ddlTag objectNames success htag hobject hprintable
    have hlabelled := isLabel_utilityFront tv pid success htag hnames.isLabel
      fun s hs => (hprintable s hs).isLabel
    have hkept := queryKept_iff hreads
      (isFront_utilityFront tv names pid (utilityObject ddlTag stmt) objectNames success) hlabelled
      query (show Field.null = .null ∨ Field.null = .superuser from .inl rfl)
    rw [← utilityMembers_eq tv names pid (hobject ddlTag).1 (hobject ddlTag).2] at hkept
    rw [vibeEmitUtilityEventWithStatus_of_tag tv _ htag]
    exact hkept
  · intro operation
    have hkept := queryKept_iff hreads (isFront_executorFront tv names pid operation)
      (isLabel_executorFront tv pid operation hnames.isLabel) query
      (show Field.superuser = .null ∨ Field.superuser = .superuser from .inr rfl)
    rw [← executorMembers_eq tv names pid operation] at hkept
    rw [vibeEmitExecutorEvent_of_text]
    exact hkept

theorem printable_literal {s : String} (hlength : s.length ≤ 63)
    (h : (s.toList.all fun c =>
      0x20 ≤ c.toNat ∧ c.toNat < 0x7F ∧ c ≠ '"' ∧ c ≠ '\\') = true) :
    Printable s :=
  ⟨hlength, List.all_iff_forall_prop.mp h⟩

def psqlNames : SessionNames := ⟨"postgres", "vibesql", some "psql"⟩

theorem printable_psqlNames : psqlNames.Printable where
  user := printable_literal (by decide) (by decide)
  database := printable_literal (by decide) (by decide)
  application := by
    rintro s hs
    obtain rfl := Option.some.inj hs
    exact printable_literal (by decide) (by decide)

/-- Noon of the first of January 2026. -/
def newYear : Timeval := ⟨1767268800, 0, by decide⟩

def longQuery : String := String.ofList (List.replicate 5000 'a')

theorem not_cutShort_letters (n : Nat) :
    ¬ CutShort querySize (String.ofList (List.replicate n 'a')).toList := by
  rw [String.toList_ofList]
  exact not_cutShort_ascii (by simp)

/-- `CREATE TABLE users` is kept, and so is what fits of a long query. -/
theorem queries_kept_long :
    QueryKept (fun bytes => (Utf8.decode bytes).bind (Json.readText Json.readInteger))
      (vibeEmitUtilityEventWithStatus newYear (psqlNames.session 4711)
        (some (.createStmt (some ⟨some (bytes "public"), bytes "users"⟩)))
        (some (bytes "CREATE TABLE users (id integer)")) true) "CREATE TABLE users (id integer)" ∧
    QueryKept (fun bytes => (Utf8.decode bytes).bind (Json.readText Json.readInteger))
      (vibeEmitExecutorEvent newYear (psqlNames.session 4711)
        (some ⟨.select, some (bytes longQuery)⟩)) longQuery := by
  constructor
  · refine ((queries_kept_iff Json.readsJson_integers newYear printable_psqlNames 4711 _).1 _
      "CREATE TABLE" ⟨some "users", some "public"⟩ true rfl (fun _ => ⟨rfl, rfl⟩) ?_).mpr
      (not_cutShort_ascii (by decide))
    rintro s (hs | hs)
    · obtain rfl := Option.some.inj hs
      exact printable_literal (by decide) (by decide)
    · obtain rfl := Option.some.inj hs
      exact printable_literal (by decide) (by decide)
  · exact ((queries_kept_iff Json.readsJson_integers newYear printable_psqlNames 4711 _).2
      .select).mpr (not_cutShort_letters 5000)

/-- 4094 letters and an accented one: the buffer ends inside the last character. -/
def accentedQuery : String := String.ofList (List.replicate 4094 'a' ++ ['é'])

theorem cutShort_accentedQuery : CutShort querySize accentedQuery.toList := by
  have hletter : escapedSize 'a' = 1 := by decide
  have haccent : 'é'.utf8Size = 2 := by decide
  have hlength : escapedLength (List.replicate 4094 'a') = 4094 := by
    rw [escapedLength_replicate, hletter]
  refine ⟨List.replicate 4094 'a', 'é', [], String.toList_ofList, ?_, ?_⟩
  · rw [hlength, querySize, maxEventSize]
    omega
  · rw [hlength, haccent, querySize, maxEventSize]

/-- The event of the accented query is sent and dropped. -/
theorem not_queries_kept :
    ¬ ∀ query operation, QueryKept
      (fun bytes => (Utf8.decode bytes).bind (Json.readText Json.readInteger))
      (vibeEmitExecutorEvent newYear (psqlNames.session 4711)
        (some ⟨operation, some (bytes query)⟩)) query := by
  intro h
  have hkept := h accentedQuery .select
  have hiff := queryKept_iff Json.readsJson_integers
    (isFront_executorFront newYear psqlNames 4711 .select)
    (isLabel_executorFront newYear 4711 .select printable_psqlNames.isLabel) accentedQuery
    (show Field.superuser = .null ∨ Field.superuser = .superuser from .inr rfl)
  rw [← executorMembers_eq newYear psqlNames 4711 .select] at hiff
  rw [vibeEmitExecutorEvent_of_text] at hkept
  exact hiff.mp hkept cutShort_accentedQuery

end VibeAudit.Hooks
