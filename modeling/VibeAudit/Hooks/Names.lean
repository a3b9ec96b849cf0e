import VibeAudit.Hooks.Query

/-!
# Names in an event

The names of an event are printed between quotes as they are. A datagram that
is sent is read as the event with these names exactly when each of them is
plain: a quote or a backslash in one of them changes what is read, whatever the
others are, since no text between quotes can spell a longer one.
-/

namespace VibeAudit.Hooks

open Foundation Extension

/-- The event says what happened and names who did it: its type, its outcome and these members,
null where no name is given. -/
structure Genuine (event : Json.Value) (eventType : String) (success : Bool)
    (names : List (String × Option String)) : Prop where
  eventType : event.get? "event_type" = some (.string eventType)
  success : event.get? "success" = some (.bool success)
  names : ∀ p ∈ names, event.get? p.1 = some ((p.2.map .string).getD .null)

def PlainNames (names : List (String × Option String)) : Prop :=
  ∀ p ∈ names, ∀ s, p.2 = some s → Plain s

def authNames (application : Option String) (names : PortNames) : List (String × Option String) :=
  [("session_user", some (names.user.getD "")), ("client_addr", some (names.host.getD "")),
   ("database", some (names.database.getD "")), ("application", some (application.getD "")),
   ("object_name", none), ("schema_name", none)]

def utilityNames (names : SessionNames) (objectNames : ObjectNames) :
    List (String × Option String) :=
  [("session_user", some names.user), ("client_addr", some ""), ("database", some names.database),
   ("application", some (names.application.getD "")), ("object_name", objectNames.name),
   ("schema_name", objectNames.schema)]

/-- An event that says this: the names stand in it, and its other texts are plain. -/
structure Says (fs : List (String × Field)) (eventType : String) (success : Bool)
    (names : List (String × Option String)) : Prop where
  isEvent : IsEvent fs
  keys : fs.map Prod.fst = eventKeys
  eventType : ("event_type", .text eventType) ∈ fs ∧ Plain eventType
  success : ("success", .bool success) ∈ fs
  named : ∀ p ∈ names, (p.1, optional p.2) ∈ fs
  others : ∀ f ∈ fs, ∀ raw, f.2 = .text raw → (f.1, some raw) ∈ names ∨ Plain raw

section

variable {number : List Char → Option Json.Number} {fromSlice : List UInt8 → Option Json.Value}
  {fs : List (String × Field)} {eventType : String} {success : Bool}
  {names : List (String × Option String)}

theorem genuine_document (h : Says fs eventType success names) (hplain : PlainNames names) :
    Genuine (document fs) eventType success names := by
  refine ⟨?_, get?_document h.keys h.success, fun p hp => ?_⟩
  · rw [get?_document h.keys h.eventType.1, h.eventType.2.value_text]
  · rw [get?_document h.keys (h.named p hp)]
    cases hs : p.2 with
    | none => rfl
    | some s => exact congrArg some (hplain p hp s hs).value_text

/-- Names that stay within their quotes. -/
def ClosedNames (names : List (String × Option String)) : Prop :=
  ∀ p ∈ names, ∀ s, p.2 = some s → Closed s

theorem PlainNames.closed (h : PlainNames names) : ClosedNames names :=
  fun p hp s hs => (h p hp s hs).closed

theorem fromSlice_of_closed (hreads : Json.ReadsJson number fromSlice)
    (h : Says fs eventType success names) (hclosed : ClosedNames names) :
    fromSlice (printEvent (fs.map fieldMember)) = some (document fs) := by
  refine fromSlice_fields hreads h.isEvent.named fun f hf => ?_
  cases hfield : f.2 with
  | text raw =>
    rcases h.others f hf raw hfield with hname | hplain
    · exact hclosed _ hname raw rfl
    · exact hplain.closed
  | reason s => exact h.isEvent.reason f hf s hfield
  | _ => trivial

/-- The event is read as what was printed exactly when its names are plain. -/
theorem genuine_iff (hreads : Json.ReadsJson number fromSlice)
    (h : Says fs eventType success names) :
    (∃ event, fromSlice (printEvent (fs.map fieldMember)) = some event ∧
      Genuine event eventType success names) ↔ PlainNames names := by
  constructor
  · rintro ⟨event, hread, hgenuine⟩
    have hplain := plain_of_fromSlice hreads h.isEvent hread (by
      intro f hf raw hraw hnot
      rcases h.others f hf raw hraw with hname | hplain
      · exact hgenuine.names _ hname
      · exact absurd hplain hnot)
    intro p hp s hs
    refine hplain _ (h.named p hp) s ?_
    rw [hs]
    rfl
  · intro hplain
    exact ⟨document fs, fromSlice_of_closed hreads h hplain.closed, genuine_document h hplain⟩

end

/-! ## Authentication -/

theorem says_authFields (tv : Timeval) (pid : Int32) (application : Option String)
    (names : PortNames) (remotePort : Option CString) (ok : Bool) :
    Says (authFields tv pid application names remotePort ok)
      (if ok then "AUTH_SUCCESS" else "AUTH_FAIL") ok (authNames application names) := by
  have hothers : ∀ f ∈ authFields tv pid application names remotePort ok, ∀ raw,
      f.2 = .text raw → (f.1, some raw) ∈ authNames application names ∨ Plain raw := by
    simp only [authFields, List.forall_mem_cons, Field.text.injEq, reduceCtorEq, false_implies,
      implies_true, forall_eq', true_and, List.not_mem_nil, and_true]
    refine ⟨.inr (by cases ok <;> decide), .inr (plain_timeText tv), .inl ?_, .inl ?_, .inl ?_,
      .inl ?_, .inr (by decide), .inr (by cases ok <;> decide)⟩ <;> simp [authNames]
  exact {
    isEvent := isEvent_authFields tv pid application names remotePort ok
    keys := rfl
    eventType := ⟨by simp [authFields], by cases ok <;> decide⟩
    success := by simp [authFields]
    named := by simp [authNames, authFields, optional]
    others := hothers }

/-! ## Statements -/

/-- The front of a statement's event says its type, its outcome and its names. -/
theorem says_statementFields (tv : Timeval) (names : SessionNames) (pid : Int32)
    {eventType tag : String} (success : Bool) {objectType : Option String}
    (objectNames : ObjectNames) (hevent : Plain eventType) (htag : Plain tag)
    (htype : ∀ s, objectType = some s → Plain s) (s : String) {detail : Field}
    (hdetail : detail = .null ∨ detail = .superuser) :
    Says (queryFields (statementFront tv names pid eventType success tag objectType objectNames)
      (.query s) detail) eventType success (utilityNames names objectNames) := by
  have hfront :=
    isFront_statementFront tv names pid eventType success tag objectType objectNames
  have hlast : ∀ raw, detail ≠ .text raw := by
    rcases hdetail with rfl | rfl <;> simp
  have hothers : ∀ f ∈ queryFields (statementFront tv names pid eventType success tag objectType
      objectNames) (.query s) detail, ∀ raw, f.2 = .text raw →
      (f.1, some raw) ∈ utilityNames names objectNames ∨ Plain raw := by
    simp only [queryFields, statementFront, List.cons_append, List.nil_append,
      List.forall_mem_cons, Field.text.injEq, reduceCtorEq, hlast, false_implies, implies_true,
      forall_eq', true_and, List.not_mem_nil, and_true]
    refine ⟨.inr hevent, .inr (plain_timeText tv), .inl ?_, .inr (by decide), .inl ?_, .inl ?_,
      .inr htag, ?_, ?_, ?_, .inr (by decide)⟩
    · simp [utilityNames]
    · simp [utilityNames]
    · simp [utilityNames]
    · intro raw h
      exact .inr (htype raw (optional_eq_text h))
    · intro raw h
      exact .inl (by simp [utilityNames, optional_eq_text h])
    · intro raw h
      exact .inl (by simp [utilityNames, optional_eq_text h])
  exact {
    isEvent := isEvent_queryFields hfront s hdetail
    keys := by rw [queryFields, List.map_append, hfront.keys]; rfl
    eventType := ⟨by simp [queryFields, statementFront], hevent⟩
    success := by simp [queryFields, statementFront]
    named := by simp [utilityNames, queryFields, statementFront, optional]
    others := hothers }

theorem says_utilityFields (tv : Timeval) (names : SessionNames) (pid : Int32)
    {stmt : UtilityStmt} {ddlTag : String} (htag : vibeNodeTagToDdl stmt = some ddlTag)
    (objectNames : ObjectNames) (success : Bool) (s : String) :
    Says (queryFields (utilityFront tv names pid (utilityObject ddlTag stmt) objectNames success)
      (.query s) .null) "DDL" success (utilityNames names objectNames) := by
  rw [utilityFront_eq]
  exact says_statementFields tv names pid success objectNames (by decide)
    (isLabel_ddlTag htag).plain (fun s h => (isLabel_objectType h).plain) s (.inl rfl)

theorem says_executorFields (tv : Timeval) (names : SessionNames) (pid : Int32)
    (operation : CmdType) (s : String) :
    Says (queryFields (executorFront tv names pid operation) (.query s) .superuser) "DML" true
      (utilityNames names ⟨none, none⟩) := by
  rw [executorFront_eq]
  exact says_statementFields tv names pid true ⟨none, none⟩ (by decide)
    (isLabel_cmdTag operation).plain (by simp) s (.inr rfl)

section

variable {number : List Char → Option Json.Number} {fromSlice : List UInt8 → Option Json.Value}

theorem genuine_auth_iff (hreads : Json.ReadsJson number fromSlice) (tv : Timeval) (pid : Int32)
    (application : Option String) (names : PortNames) (remotePort : Option CString) (ok : Bool)
    {datagram : CString} (hsent : vibeEmitAuthEvent tv pid (application.map bytes)
      (names.port remotePort) ok = some datagram) :
    (∃ event, fromSlice datagram = some event ∧ Genuine event
      (if ok then "AUTH_SUCCESS" else "AUTH_FAIL") ok (authNames application names)) ↔
        PlainNames (authNames application names) := by
  obtain rfl := eq_of_emit hsent
  rw [authMembers_eq]
  exact genuine_iff hreads (says_authFields tv pid application names remotePort ok)

/-- The event of a utility statement is genuine exactly when its names stay in their quotes and its
query is not cut inside a character. -/
theorem genuine_utility_iff (hreads : Json.ReadsJson number fromSlice) (tv : Timeval)
    (names : SessionNames) (pid : Int32) {stmt : UtilityStmt} {objectNames : ObjectNames}
    (hobject : objectNames.Of stmt) (query : Option String) (success : Bool) {datagram : CString}
    (hsent : vibeEmitUtilityEventWithStatus tv (names.session pid) (some stmt) (query.map bytes)
      success = some datagram) :
    (∃ event, fromSlice datagram = some event ∧ Genuine event "DDL" success
      (utilityNames names objectNames)) ↔
        PlainNames (utilityNames names objectNames) ∧
          ¬ CutShort querySize (query.getD "").toList := by
  obtain ⟨ddlTag, htag, rfl⟩ := eq_of_utility_emitted hobject hsent
  by_cases hcut : CutShort querySize (query.getD "").toList
  · have hnone := fromSlice_cutShort hreads
      (utilityFront tv names pid (utilityObject ddlTag stmt) objectNames success) hcut .null
    rw [hnone]
    simp [hcut]
  · obtain ⟨s, -, hescape⟩ := exists_escaped hcut
    rw [hescape, queryMembers_of_text,
      genuine_iff hreads (says_utilityFields tv names pid htag objectNames success s)]
    simp [hcut]

/-- An attempt to connect has a genuine event exactly when its names stay in their quotes, and so
has a utility statement whose query is not cut inside a character. -/
theorem names_genuine_iff (hreads : Json.ReadsJson number fromSlice) :
    (∀ tv pid (application : Option String) (names : PortNames) remotePort ok datagram,
      vibeEmitAuthEvent tv pid (application.map bytes) (names.port remotePort) ok = some datagram →
        ((∃ event, fromSlice datagram = some event ∧ Genuine event
          (if ok then "AUTH_SUCCESS" else "AUTH_FAIL") ok (authNames application names)) ↔
            PlainNames (authNames application names))) ∧
    ∀ tv (names : SessionNames) pid stmt (objectNames : ObjectNames) (query : Option String)
      success datagram, objectNames.Of stmt → vibeEmitUtilityEventWithStatus tv
        (names.session pid) (some stmt) (query.map bytes) success = some datagram →
          ((∃ event, fromSlice datagram = some event ∧ Genuine event "DDL" success
            (utilityNames names objectNames)) ↔ PlainNames (utilityNames names objectNames) ∧
              ¬ CutShort querySize (query.getD "").toList) :=
  ⟨fun tv pid application names remotePort ok _ =>
    genuine_auth_iff hreads tv pid application names remotePort ok,
   fun tv names pid _ _ query success _ hobject =>
    genuine_utility_iff hreads tv names pid hobject query success⟩

end

/-- A login from the own host, and a table that `psql` creates. -/
theorem names_genuine_login :
    (∃ datagram event, vibeEmitAuthEvent newYear 4711 ((some "psql").map bytes)
      ((PortNames.mk (some "alice") (some "vibesql") (some "127.0.0.1")).port
        (some (bytes "52100"))) true = some datagram ∧
      (Utf8.decode datagram).bind (Json.readText Json.readInteger) = some event ∧
      Genuine event "AUTH_SUCCESS" true (authNames (some "psql")
        ⟨some "alice", some "vibesql", some "127.0.0.1"⟩)) ∧
    ∃ datagram event, vibeEmitUtilityEventWithStatus newYear (psqlNames.session 4711)
        (some (.createStmt (some ⟨some (bytes "public"), bytes "users"⟩)))
        ((some "CREATE TABLE users (id integer)").map bytes) true = some datagram ∧
      (Utf8.decode datagram).bind (Json.readText Json.readInteger) = some event ∧
      Genuine event "DDL" true (utilityNames psqlNames ⟨some "users", some "public"⟩) := by
  constructor
  · have hplain : PlainNames (authNames (some "psql")
        ⟨some "alice", some "vibesql", some "127.0.0.1"⟩) := by
      simp only [PlainNames, authNames, List.forall_mem_cons, Option.getD_some]
      decide
    have hsent : (vibeEmitAuthEvent newYear 4711 ((some "psql").map bytes)
        ((PortNames.mk (some "alice") (some "vibesql") (some "127.0.0.1")).port
          (some (bytes "52100"))) true).isSome = true := by decide +kernel
    obtain ⟨datagram, hdatagram⟩ := Option.isSome_iff_exists.mp hsent
    obtain ⟨event, hread, hgenuine⟩ := ((names_genuine_iff Json.readsJson_integers).1 newYear 4711
      (some "psql") ⟨some "alice", some "vibesql", some "127.0.0.1"⟩ _ true datagram
      hdatagram).mpr hplain
    exact ⟨datagram, event, hdatagram, hread, hgenuine⟩
  · have hplain : PlainNames (utilityNames psqlNames ⟨some "users", some "public"⟩) := by
      simp only [PlainNames, utilityNames, psqlNames, List.forall_mem_cons, Option.getD_some]
      decide
    have hsent : (vibeEmitUtilityEventWithStatus newYear (psqlNames.session 4711)
        (some (.createStmt (some ⟨some (bytes "public"), bytes "users"⟩)))
        ((some "CREATE TABLE users (id integer)").map bytes) true).isSome = true := by
      decide +kernel
    obtain ⟨datagram, hdatagram⟩ := Option.isSome_iff_exists.mp hsent
    obtain ⟨event, hread, hgenuine⟩ := ((names_genuine_iff Json.readsJson_integers).2 newYear
      psqlNames 4711 _ ⟨some "users", some "public"⟩ (some "CREATE TABLE users (id integer)") true
      datagram (fun _ => ⟨rfl, rfl⟩) hdatagram).mpr ⟨hplain, not_cutShort_ascii (by decide)⟩
    exact ⟨datagram, event, hdatagram, hread, hgenuine⟩

/-- A user name that ends its own text and begins another member of the same name. -/
def forgedNames : PortNames := ⟨some "mallory\",\"session_user\":\"alice", some "vibesql", none⟩

/-- A rejected login is not recorded under the name that was given. -/
theorem not_names_genuine :
    ¬ ∀ (names : PortNames) ok datagram, vibeEmitAuthEvent newYear 4711 none (names.port none) ok =
      some datagram → ∃ event,
        (Utf8.decode datagram).bind (Json.readText Json.readInteger) = some event ∧
        Genuine event (if ok then "AUTH_SUCCESS" else "AUTH_FAIL") ok (authNames none names) := by
  intro h
  have hsent : (vibeEmitAuthEvent newYear 4711 none (forgedNames.port none) false).isSome =
      true := by decide +kernel
  obtain ⟨datagram, hdatagram⟩ := Option.isSome_iff_exists.mp hsent
  have hplain := (genuine_auth_iff Json.readsJson_integers newYear 4711 none forgedNames none false
    hdatagram).mp (h forgedNames false datagram hdatagram)
  have hforged := hplain ("session_user", some "mallory\",\"session_user\":\"alice")
    (by simp [authNames, forgedNames]) _ rfl
  revert hforged
  decide

end VibeAudit.Hooks
