import VibeAudit.Chain.Agreement
import VibeAudit.Foundation.Separated

/-!
# What a payload says of the fields it is made of

Producer and verifier join six fields with `|`, which nothing escapes. Of six
arbitrary texts the payload determines each exactly when none has a `|` in it.
In a stored row the second field is an instant that the database renders, so
that a `|` in the type can be mistaken only before such a text.
-/

namespace VibeAudit.Chain

open Foundation Json Extension Forwarder

/-- The six hashed fields; NULL and an absent member are read as the empty text. -/
structure HashedFields where
  eventType : String
  eventTime : String
  sessionUser : String
  database : String
  commandTag : String
  queryText : String
  deriving DecidableEq, Repr

namespace HashedFields

def payload (f : HashedFields) : String :=
  f.eventType ++ "|" ++ f.eventTime ++ "|" ++ f.sessionUser ++ "|" ++ f.database ++ "|" ++
    f.commandTag ++ "|" ++ f.queryText

def texts (f : HashedFields) : List (List Char) :=
  [f.eventType.toList, f.eventTime.toList, f.sessionUser.toList, f.database.toList,
   f.commandTag.toList, f.queryText.toList]

theorem length_texts (f : HashedFields) : f.texts.length = 6 := rfl

theorem toList_payload (f : HashedFields) : f.payload.toList = ['|'].intercalate f.texts := by
  have hmark : "|".toList = ['|'] := rfl
  simp [payload, texts, hmark, List.intercalate_cons_cons]

theorem payload_eq_iff (f g : HashedFields) :
    f.payload = g.payload ↔ ['|'].intercalate f.texts = ['|'].intercalate g.texts := by
  rw [← toList_payload, ← toList_payload, String.toList_inj]

theorem texts_injective : Function.Injective texts := by
  intro f g h
  obtain ⟨e, t, u, d, c, q⟩ := f
  obtain ⟨e', t', u', d', c', q'⟩ := g
  simpa [texts, String.toList_inj] using h

theorem exists_texts_eq {fields : List (List Char)} (h : fields.length = 6) :
    ∃ f : HashedFields, f.texts = fields := by
  obtain ⟨e, t, u, d, c, q, rfl⟩ : ∃ e t u d c q, fields = [e, t, u, d, c, q] := by
    match fields, h with
    | [e, t, u, d, c, q], _ => exact ⟨e, t, u, d, c, q, rfl⟩
  exact ⟨⟨String.ofList e, String.ofList t, String.ofList u, String.ofList d, String.ofList c,
    String.ofList q⟩, by simp [texts]⟩

/-- Six texts are the only ones with their payload exactly when none has the separator in it. -/
theorem determined_iff (f : HashedFields) :
    (∀ g : HashedFields, g ≠ f → g.payload ≠ f.payload) ↔ ∀ text ∈ f.texts, '|' ∉ text := by
  rw [← intercalate_determines_iff (by rw [length_texts]; decide)]
  constructor
  · intro h others hlen hne
    obtain ⟨g, rfl⟩ := exists_texts_eq (hlen.trans f.length_texts)
    have hgf : g ≠ f := fun heq => hne (congrArg texts heq)
    exact fun heq => h g hgf ((payload_eq_iff g f).mpr heq)
  · intro h g hne heq
    exact h g.texts rfl (fun htexts => hne (texts_injective htexts)) ((payload_eq_iff g f).mp heq)

end HashedFields

/-- The fields as `build_payload` reads them from an event. -/
def producerFields (event : Value) : HashedFields where
  eventType := textField event "event_type"
  eventTime := textField event "event_time"
  sessionUser := textField event "session_user"
  database := textField event "database"
  commandTag := textField event "command_tag"
  queryText := textField event "query_text"

/-- The fields as `verify_chain` reads them from a row; NULL where the instant is infinite. -/
def verifierFields (r : Row) : Option HashedFields :=
  (toChar r.eventTime).map fun time =>
    { eventType := r.eventType, eventTime := time, sessionUser := r.sessionUser.getD ""
      database := r.database.getD "", commandTag := r.commandTag.getD ""
      queryText := r.queryText.getD "" }

theorem buildPayload_eq (event : Value) : buildPayload event = (producerFields event).payload := rfl

theorem eventPayload_eq (r : Row) :
    eventPayload r = (verifierFields r).map HashedFields.payload := by
  unfold eventPayload verifierFields
  cases toChar r.eventTime <;> rfl

/-- Any six texts are the fields of an event. -/
theorem exists_producerFields_eq (f : HashedFields) : ∃ event, producerFields event = f := by
  refine ⟨.obj [("event_type", .string f.eventType), ("event_time", .string f.eventTime),
    ("session_user", .string f.sessionUser), ("database", .string f.database),
    ("command_tag", .string f.commandTag), ("query_text", .string f.queryText)], ?_⟩
  simp [producerFields, textField, Value.index, Value.get?_obj, SortedMap.get?_cons, Value.asStr]

/-- `build_payload` tells an event from all with other fields exactly when no field of it has
the separator in it. -/
theorem buildPayload_determines_iff (event : Value) :
    (∀ other, producerFields other ≠ producerFields event →
      buildPayload other ≠ buildPayload event) ↔
      ∀ text ∈ (producerFields event).texts, '|' ∉ text := by
  rw [← HashedFields.determined_iff]
  simp only [buildPayload_eq]
  constructor
  · intro h g hne
    obtain ⟨other, rfl⟩ := exists_producerFields_eq g
    exact h other hne
  · intro h other hne
    exact h (producerFields other) hne

/-! ## Stored rows -/

def backTexts (r : Row) : List (List Char) :=
  [r.sessionUser, r.database, r.commandTag, r.queryText].map fun text => (text.getD "").toList

/-- No field behind the instant has a separator in it, and no later piece of the type is the
text of an instant. -/
structure Unambiguous (r : Row) : Prop where
  free : ∀ text ∈ backTexts r, '|' ∉ text
  type : ∀ piece ∈ (r.eventType.toList.splitOn '|').tail, ∀ time,
    toChar time ≠ some (String.ofList piece)

theorem verifierFields_eq_some {r : Row} {time : String} (h : toChar r.eventTime = some time) :
    ∃ f, verifierFields r = some f ∧
      f.texts = r.eventType.toList :: time.toList :: backTexts r := by
  refine ⟨_, by rw [verifierFields, h]; rfl, rfl⟩

theorem separator_not_mem_time {time : Timestamptz} {text : String}
    (h : toChar time = some text) : '|' ∉ text.toList := by
  intro hmem
  rcases mem_toChar h hmem with hdigit | hmark
  · exact absurd hdigit (by decide)
  · exact absurd hmark (by decide)

/-- No row with other fields has the payload of `r`. -/
def Determined (r : Row) : Prop :=
  ∀ other : Row, (toChar other.eventTime).isSome = true →
    verifierFields other ≠ verifierFields r → eventPayload other ≠ eventPayload r

/-- Rows whose texts join to the same have the same payload, so one that is determined has the
same fields. -/
theorem Determined.texts_eq {r other : Row} (h : Determined r) {time time' : String}
    (htime : toChar r.eventTime = some time) (htime' : toChar other.eventTime = some time')
    (hjoined : ['|'].intercalate (other.eventType.toList :: time'.toList :: backTexts other) =
      ['|'].intercalate (r.eventType.toList :: time.toList :: backTexts r)) :
    other.eventType = r.eventType ∧ backTexts other = backTexts r := by
  obtain ⟨f, hf, htexts⟩ := verifierFields_eq_some htime
  obtain ⟨g, hg, hgtexts⟩ := verifierFields_eq_some htime'
  rw [← hgtexts, ← htexts, ← HashedFields.payload_eq_iff] at hjoined
  have hfields : verifierFields other = verifierFields r := by
    by_contra hne
    refine h other (by simp [htime']) hne ?_
    rw [eventPayload_eq, eventPayload_eq, hg, hf, Option.map_some, Option.map_some, hjoined]
  rw [hg, hf, Option.some.injEq] at hfields
  rw [hfields, htexts] at hgtexts
  obtain ⟨htype, hrest⟩ := List.cons.inj hgtexts
  exact ⟨(String.toList_inj.mp htype).symm, (List.cons.inj hrest).2.symm⟩

def setBack (r : Row) (u d c q : List Char) : Row :=
  { r with
    sessionUser := some (String.ofList u), database := some (String.ofList d)
    commandTag := some (String.ofList c), queryText := some (String.ofList q) }

@[simp] theorem backTexts_setBack (r : Row) (u d c q : List Char) :
    backTexts (setBack r u d c q) = [u, d, c, q] := by
  simp [backTexts, setBack]

theorem Determined.unambiguous {r : Row} (h : Determined r) {time : String}
    (htime : toChar r.eventTime = some time) : Unambiguous r := by
  constructor
  · rw [← intercalate_determines_iff (by simp [backTexts])]
    intro others hlen hne hjoined
    obtain ⟨u, d, c, q, rfl⟩ : ∃ u d c q, others = [u, d, c, q] := by
      match others, hlen with
      | [u, d, c, q], _ => exact ⟨u, d, c, q, rfl⟩
    have hother : toChar (setBack r u d c q).eventTime = some time := htime
    have hback : backTexts r ≠ [] := List.cons_ne_nil _ _
    refine hne ?_
    rw [← backTexts_setBack r u d c q]
    refine (h.texts_eq htime hother ?_).2
    rw [backTexts_setBack, List.intercalate_cons_of_ne_nil (by simp),
      List.intercalate_cons_of_ne_nil (by simp), hjoined,
      ← List.intercalate_cons_of_ne_nil hback, ← List.intercalate_cons_of_ne_nil (by simp)]
    rfl
  · intro piece hpiece instant hinstant
    obtain ⟨e', u', hne, hjoined⟩ := exists_other_marked hpiece time.toList
      (r.sessionUser.getD "").toList
      ([r.database, r.commandTag, r.queryText].map fun text => (text.getD "").toList)
    let other : Row :=
      { r with
        eventType := String.ofList e', eventTime := instant
        sessionUser := some (String.ofList u') }
    have hother : toChar other.eventTime = some (String.ofList piece) := hinstant
    have htype := (h.texts_eq htime hother (by simpa [other, backTexts] using hjoined)).1
    refine hne ?_
    rw [← htype, String.toList_ofList]

/-- A row with finite instant has its payload in common with no row of other fields exactly
when it is unambiguous. -/
theorem determined_iff_unambiguous (r : Row) (hfinite : (toChar r.eventTime).isSome = true) :
    Determined r ↔ Unambiguous r := by
  obtain ⟨time, htime⟩ := Option.isSome_iff_exists.mp hfinite
  refine ⟨fun h => h.unambiguous htime, fun hplain other hfin hne heq => hne ?_⟩
  obtain ⟨time', htime'⟩ := Option.isSome_iff_exists.mp hfin
  obtain ⟨f, hf, htexts⟩ := verifierFields_eq_some htime
  obtain ⟨g, hg, hgtexts⟩ := verifierFields_eq_some htime'
  rw [eventPayload_eq, eventPayload_eq, hg, hf, Option.map_some, Option.map_some,
    Option.some.injEq, HashedFields.payload_eq_iff, hgtexts, htexts] at heq
  have hmark : time'.toList ∉ (r.eventType.toList.splitOn '|').tail := by
    intro hmem
    exact hplain.type _ hmem other.eventTime (by rw [htime', String.ofList_toList])
  obtain ⟨htype, hinstant, hback⟩ := marked_fields_eq hplain.free (by simp [backTexts])
    (separator_not_mem_time htime) (separator_not_mem_time htime') hmark heq
  rw [hg, hf, Option.some.injEq]
  refine HashedFields.texts_injective ?_
  rw [hgtexts, htexts, htype, hinstant, hback]

end VibeAudit.Chain
