import VibeAudit.Extension.Audit
import VibeAudit.Hooks.Names

/-!
# From the server to what the forwarder reads

The trail of a server process as it arrives behind the socket. Where names and
queries can be printed, the datagrams read in order tell of every audited login
and statement that ended, and of nothing else.
-/

namespace VibeAudit.Hooks

open Foundation Extension

variable {σ ε : Type}

def audits (b : Backend σ) : Ended σ → Bool
  | .authentication _ _ t => (b.settings t).enabled
  | .utility call s _ _ =>
    (b.settings s).enabled && (call.utilityStmt.bind vibeNodeTagToDdl).isSome
  | .query queryDesc t => b.emitsQueries t && (queryDesc.bind QueryDesc.sourceText).isSome

/-- The names of a statement and its query, as texts. -/
structure StatementTexts where
  names : SessionNames
  pid : Int32
  objectNames : ObjectNames
  query : String

/-- The texts can be printed as they are, and the query is not cut inside a character. -/
structure StatementTexts.Printable (texts : StatementTexts) : Prop where
  names : texts.names.Printable
  object : ∀ s, texts.objectNames.name = some s ∨ texts.objectNames.schema = some s →
    Hooks.Printable s
  query : ¬ CutShort querySize texts.query.toList

/-- These are the texts of a login. -/
structure LoginTexts where
  application : Option String
  names : PortNames
  remotePort : Option CString

def LoginTexts.Of (texts : LoginTexts) (b : Backend σ) (port : Port) (t : σ) : Prop :=
  port = texts.names.port texts.remotePort ∧
    (b.session t).applicationName = texts.application.map bytes

/-- What has ended has these texts. -/
def StatementTexts.Of (texts : StatementTexts) (b : Backend σ) : Ended σ → Prop
  | .authentication .. => False
  | .utility call _ t _ => b.session t = texts.names.session texts.pid ∧
      (∀ stmt, call.utilityStmt = some stmt → texts.objectNames.Of stmt) ∧
      call.queryString = some (bytes texts.query)
  | .query queryDesc t => b.session t = texts.names.session texts.pid ∧
      texts.objectNames = ⟨none, none⟩ ∧
      ∀ desc, queryDesc = some desc → desc.sourceText = some (bytes texts.query)

def finish : Ended σ → σ
  | .authentication _ _ t | .utility _ _ t _ | .query _ t => t

/-- The event has this time. -/
structure Stamped (tv : Timeval) (event : Json.Value) : Prop where
  isObject : event.isObject = true
  time : event.get? "event_time" = some (.string (timeText tv))

/-- The event tells what has ended: what it was, its own outcome, who did it, when, and for a
statement a beginning of its text. -/
inductive Tells (b : Backend σ) : Ended σ → Json.Value → Prop where
  | authentication {port : Port} {ok : Bool} {t : σ} {texts : LoginTexts} {event : Json.Value}
    (of : texts.Of b port t)
    (genuine : Genuine event (if ok then "AUTH_SUCCESS" else "AUTH_FAIL") ok
      (authNames texts.application texts.names))
    (stamped : Stamped (b.now t) event) : Tells b (.authentication port ok t) event
  | statement {e : Ended σ} {texts : StatementTexts} {event : Json.Value} {text : String}
    (of : texts.Of b e)
    (genuine : Genuine event (match e with | .query .. => "DML" | _ => "DDL")
      (match e with | .utility _ _ _ success => success | _ => true)
      (utilityNames texts.names texts.objectNames))
    (query_text : event.get? "query_text" = some (.string text))
    (begins : text.toList <+: texts.query.toList)
    (stamped : Stamped (b.now (finish e)) event) : Tells b e event

/-- What has ended can be printed as it is. -/
inductive Legible (b : Backend σ) : Ended σ → Prop where
  | authentication {port : Port} {ok : Bool} {t : σ} (texts : LoginTexts) (of : texts.Of b port t)
    (plain : PlainNames (authNames texts.application texts.names))
    (fits : (b.authEvent port ok t).isSome = true) : Legible b (.authentication port ok t)
  | statement {e : Ended σ} (texts : StatementTexts) (of : texts.Of b e)
    (printable : texts.Printable) : Legible b e

section

variable {b : Backend σ} {number : List Char → Option Json.Number}
  {fromSlice : List UInt8 → Option Json.Value}

theorem stamped_document {fs : List (String × Field)} {eventType : String} {success : Bool}
    {names : List (String × Option String)} (h : Says fs eventType success names) {tv : Timeval}
    (htime : ("event_time", .text (timeText tv)) ∈ fs) : Stamped tv (document fs) := by
  refine ⟨rfl, ?_⟩
  rw [get?_document h.keys htime, (plain_timeText tv).value_text]

/-- A statement with these texts, as it is sent and read. -/
theorem exists_statement (hreads : Json.ReadsJson number fromSlice)
    {front : List (String × Field)} (hfront : IsFront front) (hlabelled : Labelled front)
    {detail : Field} (hdetail : detail = .null ∨ detail = .superuser) {eventType : String}
    {success : Bool} {names : List (String × Option String)} (hplain : PlainNames names)
    (hfields : ∀ s, Says (queryFields front (.query s) detail) eventType success names)
    (tv : Timeval) (htime : ("event_time", .text (timeText tv)) ∈ front)
    {query : String} (hquery : ¬ CutShort querySize query.toList) :
    ∃ datagram event text, emit (printEvent (queryMembers front
        (vibeJsonEscape querySize (some (bytes query))) detail)) = some datagram ∧
      fromSlice datagram = some event ∧ Genuine event eventType success names ∧
      event.get? "query_text" = some (.string text) ∧ text.toList <+: query.toList ∧
      Stamped tv event := by
  obtain ⟨s, hbegins, hescape⟩ := exists_escaped hquery
  have hpos : 0 < querySize := by decide
  have hfits := (escaped_vibeJsonEscape hpos (bytes query)).fits
  refine ⟨_, document (queryFields front (.query s) detail), s,
    emit_printEvent (length_printEvent_lt hfront hlabelled hfits hdetail), ?_,
    genuine_document (hfields s) hplain, get?_query_text front s detail, hbegins,
    stamped_document (hfields s) (List.mem_append_left _ htime)⟩
  rw [hescape, queryMembers_of_text]
  exact fromSlice_of_closed hreads (hfields s) hplain.closed

theorem plain_utilityNames {texts : StatementTexts} (h : texts.Printable) :
    PlainNames (utilityNames texts.names texts.objectNames) := by
  obtain ⟨huser, hdatabase, happlication⟩ := h.names.isLabel
  simp only [PlainNames, utilityNames, List.forall_mem_cons, Option.some.injEq, forall_eq']
  refine ⟨huser.plain, isLabel_empty.plain, hdatabase.plain, happlication.plain, ?_, ?_, by simp⟩
  · exact fun s hs => (h.object s (.inl hs)).isLabel.plain
  · exact fun s hs => (h.object s (.inr hs)).isLabel.plain

/-- The datagram of an audited statement is read as an event that tells of it. -/
theorem exists_utility (hreads : Json.ReadsJson number fromSlice) {texts : StatementTexts}
    {call : UtilityCall} {s t : σ} {success : Bool} (hof : texts.Of b (.utility call s t success))
    (hprintable : texts.Printable) {stmt : UtilityStmt} {ddlTag : String}
    (hstmt : call.utilityStmt = some stmt) (htag : vibeNodeTagToDdl stmt = some ddlTag) :
    ∃ datagram event, b.utilityEvent call success t = some datagram ∧
      fromSlice datagram = some event ∧ Tells b (.utility call s t success) event := by
  obtain ⟨hsession, hobject, hquery⟩ := hof
  obtain ⟨hname, hschema⟩ := hobject stmt hstmt ddlTag
  obtain ⟨datagram, event, text, hsent, hread, hgenuine, htext, hbegins, hstamped⟩ :=
    exists_statement hreads
      (isFront_utilityFront (b.now t) texts.names texts.pid (utilityObject ddlTag stmt)
        texts.objectNames success)
      (isLabel_utilityFront (b.now t) texts.pid success htag hprintable.names.isLabel
        fun s hs => (hprintable.object s hs).isLabel)
      (.inl rfl) (plain_utilityNames hprintable)
      (says_utilityFields (b.now t) texts.names texts.pid htag texts.objectNames success)
      (b.now t) (by simp [utilityFront]) hprintable.query
  refine ⟨datagram, event, ?_, hread,
    .statement ⟨hsession, hobject, hquery⟩ hgenuine htext hbegins hstamped⟩
  rw [Backend.utilityEvent, hsession, hstmt, hquery,
    vibeEmitUtilityEventWithStatus_of_tag _ _ htag, utilityMembers_eq _ _ _ hname hschema]
  exact hsent

/-- So is that of a query. -/
theorem exists_query (hreads : Json.ReadsJson number fromSlice) {texts : StatementTexts}
    {desc : QueryDesc} {t : σ} (hof : texts.Of b (.query (some desc) t))
    (hprintable : texts.Printable) :
    ∃ datagram event, b.executorEvent (some desc) t = some datagram ∧
      fromSlice datagram = some event ∧ Tells b (.query (some desc) t) event := by
  obtain ⟨hsession, hobject, hquery⟩ := hof
  have hplain := plain_utilityNames hprintable
  rw [hobject] at hplain
  obtain ⟨datagram, event, text, hsent, hread, hgenuine, htext, hbegins, hstamped⟩ :=
    exists_statement hreads
      (isFront_executorFront (b.now t) texts.names texts.pid desc.operation)
      (isLabel_executorFront (b.now t) texts.pid desc.operation hprintable.names.isLabel)
      (.inr rfl) hplain
      (says_executorFields (b.now t) texts.names texts.pid desc.operation)
      (b.now t) (by simp [executorFront]) hprintable.query
  rw [← hobject] at hgenuine
  refine ⟨datagram, event, ?_, hread,
    .statement ⟨hsession, hobject, hquery⟩ hgenuine htext hbegins hstamped⟩
  have hdesc : desc = ⟨desc.operation, some (bytes texts.query)⟩ := by
    rw [← hquery desc rfl]
  rw [Backend.executorEvent, hsession, hdesc, vibeEmitExecutorEvent_of_text, executorMembers_eq]
  exact hsent

theorem exists_login (hreads : Json.ReadsJson number fromSlice) {texts : LoginTexts} {port : Port}
    {ok : Bool} {t : σ} (hof : texts.Of b port t)
    (hplain : PlainNames (authNames texts.application texts.names))
    (hfits : (b.authEvent port ok t).isSome = true) :
    ∃ datagram event, b.authEvent port ok t = some datagram ∧
      fromSlice datagram = some event ∧ Tells b (.authentication port ok t) event := by
  obtain ⟨hport, happlication⟩ := id hof
  obtain ⟨datagram, hsent⟩ := Option.isSome_iff_exists.mp hfits
  have hfields := says_authFields (b.now t) (b.session t).pid texts.application texts.names
    texts.remotePort ok
  refine ⟨datagram, _, hsent, ?_, .authentication hof (genuine_document hfields hplain)
    (stamped_document hfields (by simp [authFields]))⟩
  rw [Backend.authEvent, hport, happlication] at hsent
  rw [eq_of_emit hsent, authMembers_eq]
  exact fromSlice_of_closed hreads hfields hplain.closed

/-- What is not audited leaves no event. -/
theorem event_of_not_audits {e : Ended σ} (h : audits b e = false) : b.event e = none := by
  cases e with
  | authentication port ok t =>
    have hdisabled : (b.settings t).enabled = false := h
    simp [Backend.event, hdisabled]
  | utility call s t success =>
    cases henabled : (b.settings s).enabled with
    | false => simp [Backend.event, henabled]
    | true =>
      have htag : call.utilityStmt.bind vibeNodeTagToDdl = none := by
        simpa [audits, henabled] using h
      simp only [Backend.event, henabled, if_true, Backend.utilityEvent,
        vibeEmitUtilityEventWithStatus, Option.bind_eq_bind]
      cases hstmt : call.utilityStmt with
      | none => rfl
      | some stmt =>
        have hstmtTag : vibeNodeTagToDdl stmt = none := by simpa [hstmt] using htag
        simp [hstmtTag]
  | query queryDesc t =>
    cases hemits : b.emitsQueries t with
    | false => simp [Backend.event, hemits]
    | true =>
      have htext : queryDesc.bind QueryDesc.sourceText = none := by
        simpa [audits, hemits] using h
      simp only [Backend.event, hemits, if_true, Backend.executorEvent, vibeEmitExecutorEvent,
        Option.bind_eq_bind]
      cases queryDesc with
      | none => rfl
      | some desc =>
        have hnone : desc.sourceText = none := htext
        simp [hnone]

/-- What is audited and legible leaves an event that is read as what it was. -/
theorem tells_of_legible (hreads : Json.ReadsJson number fromSlice) {e : Ended σ}
    (h : Legible b e) (haudits : audits b e = true) :
    ∃ datagram event, b.event e = some datagram ∧ fromSlice datagram = some event ∧
      Tells b e event := by
  cases h with
  | @authentication port ok t texts hof hplain hfits =>
    have henabled : (b.settings t).enabled = true := haudits
    simp only [Backend.event, henabled, if_true]
    exact exists_login hreads hof hplain hfits
  | @statement _ texts hof hprintable =>
    cases e with
    | authentication port ok t => exact absurd hof id
    | utility call s t success =>
      obtain ⟨henabled, htag⟩ := Bool.and_eq_true_iff.mp haudits
      obtain ⟨ddlTag, hsome⟩ := Option.isSome_iff_exists.mp htag
      obtain ⟨stmt, hstmt, htag⟩ := Option.bind_eq_some_iff.mp hsome
      simp only [Backend.event, henabled, if_true]
      exact exists_utility hreads hof hprintable hstmt htag
    | query queryDesc t =>
      obtain ⟨hemits, htext⟩ := Bool.and_eq_true_iff.mp haudits
      obtain ⟨_, hsome⟩ := Option.isSome_iff_exists.mp htext
      obtain ⟨desc, rfl, -⟩ := Option.bind_eq_some_iff.mp hsome
      simp only [Backend.event, hemits, if_true]
      exact exists_query hreads hof hprintable

end

/-- The datagrams of any work whose logins and statements are legible, read in the order in which
they were handed over, tell of every audited login and statement that ended and of nothing else,
each with its own outcome. -/
theorem trail_read_back {number : List Char → Option Json.Number}
    {fromSlice : List UInt8 → Option Json.Value} (hreads : Json.ReadsJson number fromSlice)
    (b : Backend σ) (w : Work σ ε) (s t : σ) (r : Option ε) (trail : List (Ended σ))
    (h : Exec b w s t r trail) (hlegible : ∀ e ∈ trail, audits b e = true → Legible b e) :
    ∃ handed, (w.perform b (.vibe b)).run ⟨s, []⟩ = result t handed r ∧
      List.Forall₂ (fun e datagram => ∃ event, fromSlice datagram = some event ∧ Tells b e event)
        (trail.filter (audits b)) handed := by
  refine ⟨_, h.perform_vibe [], ?_⟩
  rw [List.nil_append]
  clear h
  induction trail with
  | nil => exact .nil
  | cons e trail ih =>
    have hrest := ih fun e' he' => hlegible e' (List.mem_cons_of_mem e he')
    cases haudits : audits b e with
    | false =>
      rw [List.filterMap_cons_none (event_of_not_audits haudits),
        List.filter_cons_of_neg (by simp [haudits])]
      exact hrest
    | true =>
      obtain ⟨datagram, event, hevent, hread, htells⟩ :=
        tells_of_legible hreads (hlegible e (by simp) haudits) haudits
      rw [List.filterMap_cons_some hevent, List.filter_cons_of_pos haudits]
      exact .cons ⟨event, hread, htells⟩ hrest

/-- A server that counts its tables, audited in full. -/
def tableBackend : Backend Nat where
  settings _ := ⟨true, some (bytes "emit")⟩
  now _ := newYear
  session _ := psqlNames.session 4711
  superuser _ := true
  rollback before _ := before

def aliceLogin : LoginTexts where
  application := some "psql"
  names := ⟨some "alice", some "vibesql", some "127.0.0.1"⟩
  remotePort := some (bytes "52100")

def createUsers : UtilityCall where
  utilityStmt := some (.createStmt (some ⟨some (bytes "public"), bytes "users"⟩))
  queryString := some (bytes "CREATE TABLE users (id integer)")

def rolledBackWork : Work Nat Unit :=
  .seq (.authentication (aliceLogin.names.port aliceLogin.remotePort) true .done)
    (.seq (.attempt (.seq (.utility createUsers (.act fun n => .ok (n + 1)))
      (.act fun _ => .error ())) fun _ => .done)
    (.query (some ⟨.select, some (bytes "SELECT 1")⟩) .done .done))

def rolledBackTrail : List (Ended Nat) :=
  [.authentication (aliceLogin.names.port aliceLogin.remotePort) true 0,
   .utility createUsers 0 1 true, .query (some ⟨.select, some (bytes "SELECT 1")⟩) 0]

theorem exec_rolledBackWork : Exec tableBackend rolledBackWork 0 0 none rolledBackTrail := by
  have hact : Exec tableBackend (.act fun n => .ok (n + 1) : Work Nat Unit) 0 1 none [] := by
    apply Exec.act
    rfl
  have hraise : Exec tableBackend (.act fun _ => .error () : Work Nat Unit) 1 1 (some ()) [] := by
    apply Exec.raise
    rfl
  have hblock : Exec tableBackend (.attempt (.seq (.utility createUsers (.act fun n => .ok (n + 1)))
      (.act fun _ => .error ())) fun _ => .done : Work Nat Unit) 0 0 none
      [.utility createUsers 0 1 true] := by
    apply Exec.handle (.seq (.utility hact) hraise)
    exact .done 0
  have hquery : Exec tableBackend (.query (some ⟨.select, some (bytes "SELECT 1")⟩) .done .done :
      Work Nat Unit) 0 0 none [.query (some ⟨.select, some (bytes "SELECT 1")⟩) 0] :=
    Exec.query (.done 0) (.done 0)
  exact Exec.seq (Exec.authentication (.done 0)) (Exec.seq hblock hquery)

/-- All of this work can be printed as it is. -/
theorem legible_rolledBackTrail : ∀ e ∈ rolledBackTrail, Legible tableBackend e := by
  have hcreate : StatementTexts.Printable
      ⟨psqlNames, 4711, ⟨some "users", some "public"⟩, "CREATE TABLE users (id integer)"⟩ := by
    refine ⟨printable_psqlNames, ?_, not_cutShort_ascii (by decide)⟩
    rintro s (hs | hs)
    · obtain rfl := Option.some.inj hs
      exact printable_literal (by decide) (by decide)
    · obtain rfl := Option.some.inj hs
      exact printable_literal (by decide) (by decide)
  have hselect : StatementTexts.Printable ⟨psqlNames, 4711, ⟨none, none⟩, "SELECT 1"⟩ :=
    ⟨printable_psqlNames, by simp, not_cutShort_ascii (by decide)⟩
  simp only [rolledBackTrail, List.forall_mem_cons]
  refine ⟨.authentication aliceLogin ⟨rfl, rfl⟩ ?_ (by decide +kernel),
    .statement _ ⟨rfl, ?_, rfl⟩ hcreate, .statement _ ⟨rfl, rfl, ?_⟩ hselect, by simp⟩
  · simp only [PlainNames, authNames, aliceLogin, List.forall_mem_cons, Option.getD_some]
    decide
  · intro stmt hstmt
    obtain rfl := Option.some.inj hstmt
    exact fun _ => ⟨rfl, rfl⟩
  · intro desc hdesc
    obtain rfl := Option.some.inj hdesc
    rfl

/-- The table is gone, and its event is not. -/
theorem trail_read_back_rolled_back :
    ∃ handed, (rolledBackWork.perform tableBackend (.vibe tableBackend)).run ⟨0, []⟩ =
        result 0 handed none ∧
      List.Forall₂ (fun e datagram => ∃ event,
          (Utf8.decode datagram).bind (Json.readText Json.readInteger) = some event ∧
            Tells tableBackend e event)
        (rolledBackTrail.filter (audits tableBackend)) handed :=
  trail_read_back Json.readsJson_integers tableBackend rolledBackWork 0 0 none rolledBackTrail
    exec_rolledBackWork fun e he _ => legible_rolledBackTrail e he

end VibeAudit.Hooks
