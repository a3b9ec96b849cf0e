import VibeAudit.Extension.VerifyChain
import VibeAudit.Forwarder.Writer

/-!
# Hashed events and the rows stored for them

A hashed event and its row carry the same links. They have the same payload
exactly when the event is canonical: its type is a string, and its time is a
string that `verify_chain` renders back unchanged once it is stored. For
canonical events the verifier's chain is the producer's chain.
-/

namespace VibeAudit.Chain

open Foundation Json Extension Forwarder

variable (input : TimestamptzInput)

/-- An event that can be stored at all: an object whose time, if there is one, is a string the
database reads. -/
def Readable (event : Value) : Prop :=
  event.isObject = true ∧
    ∀ v, event.get? "event_time" = some v → ∃ text time, v = .string text ∧
      input.read text = some time

/-- An event whose type and time are hashed as the stored row renders them. -/
def Canonical (event : Value) : Prop :=
  (∃ type, event.index "event_type" = .string type) ∧
    ∃ text time, event.index "event_time" = .string text ∧ input.read text = some time ∧
      toChar time = some text

variable {input}

theorem Canonical.readable {event : Value} (h : Canonical input event)
    (hobj : event.isObject = true) : Readable input event := by
  obtain ⟨-, text, time, htext, hread, -⟩ := h
  refine ⟨hobj, fun v hv => ⟨text, time, ?_, hread⟩⟩
  exact (Value.index_eq_of_get? hv).symm.trans htext

/-- The time column of a readable event, by where its text comes from. -/
theorem Readable.time_cases {event : Value} (h : Readable input event) :
    (∃ text time, event.index "event_time" = .string text ∧ input.read text = some time) ∨
      event.index "event_time" = .null := by
  cases hv : event.get? "event_time" with
  | none => exact .inr (by simp [Value.index, hv])
  | some v =>
    obtain ⟨text, time, rfl, hread⟩ := h.2 v hv
    exact .inl ⟨text, time, Value.index_eq_of_get? hv, hread⟩

theorem Readable.exists_stored {event : Value} (h : Readable input event) (id : Int) :
    ∃ row, (boundRow event).stored input id = some row := by
  rcases h.time_cases with ⟨text, time, htext, hread⟩ | hnull
  · simp [BoundRow.stored, boundRow, strVal, htext, Value.asStr, hread]
  · simp [BoundRow.stored, boundRow, strVal, hnull, Value.asStr, input.read_epoch]

/-- Hashing an event changes neither what makes it readable nor what makes it canonical. -/
theorem canonical_hashed_iff {event hashed : Value} (h : HashedFrom event hashed) :
    Canonical input hashed ↔ Canonical input event := by
  unfold Canonical
  rw [h.index_eq (by decide) (by decide), h.index_eq (by decide) (by decide)]

theorem readable_hashed {event hashed : Value} (h : HashedFrom event hashed)
    (hread : Readable input event) : Readable input hashed := by
  refine ⟨h.isObject, ?_⟩
  rw [h.get?_eq "event_time" (by decide) (by decide)]
  exact hread.2

/-- What holds of the events of a list and passes through hashing holds of the hashed ones. -/
theorem forall_hashed {P : Value → Prop} (hP : ∀ e e', HashedFrom e e' → P e → P e')
    {events out : List Value} (h : List.Forall₂ HashedFrom events out)
    (hevents : ∀ e ∈ events, P e) : ∀ e ∈ out, P e := by
  induction h with
  | nil => exact hevents
  | @cons e e' es es' he _ ih =>
    rw [List.forall_mem_cons] at hevents ⊢
    exact ⟨hP e e' he hevents.1, ih hevents.2⟩

/-- `row` is what the database stores for `event` under some id. -/
def StoredAs (input : TimestamptzInput) (event : Value) (row : Row) : Prop :=
  ∃ id, (boundRow event).stored input id = some row

theorem StoredAs.sameLinks {event : Value} {row : Row} (h : StoredAs input event row) :
    LinkView.SameLinks eventView rowView event row := by
  obtain ⟨id, hrow⟩ := h
  obtain ⟨time, -, rfl⟩ := Option.map_eq_some_iff.mp hrow
  exact ⟨rfl, rfl⟩

/-- The payload of a stored row, in terms of the event it was built from. -/
theorem StoredAs.eventPayload_eq {event : Value} {row : Row} (h : StoredAs input event row) :
    ∃ time, input.read ((event.index "event_time").asStr.getD "1970-01-01T00:00:00Z") = some time ∧
      eventPayload row = (toChar time).map fun text =>
        (event.index "event_type").asStr.getD "UNKNOWN" ++ "|" ++ text ++ "|" ++
          textField event "session_user" ++ "|" ++ textField event "database" ++ "|" ++
          textField event "command_tag" ++ "|" ++ textField event "query_text" := by
  obtain ⟨id, hrow⟩ := h
  obtain ⟨time, htime, rfl⟩ := Option.map_eq_some_iff.mp hrow
  exact ⟨time, htime, rfl⟩

theorem payload_head_ne (s t : String) : ("" ++ "|" ++ s : String) ≠ "UNKNOWN" ++ "|" ++ t := by
  intro h
  have hlist := congrArg (fun u => u.toList.head?) h
  simp at hlist

/-- Producer and verifier hash the same payload exactly for canonical events. -/
theorem StoredAs.payload_eq_iff {event : Value} {row : Row} (h : StoredAs input event row)
    (hread : Readable input event) :
    eventPayload row = some (buildPayload event) ↔ Canonical input event := by
  obtain ⟨time, htime, hpayload⟩ := h.eventPayload_eq
  rw [hpayload, Option.map_eq_some_iff]
  simp only [buildPayload, String.append_left_inj]
  constructor
  · rintro ⟨text, htext, heq⟩
    cases htype : (event.index "event_type").asStr with
    | none =>
      simp only [textField, htype, Option.getD_none] at heq
      exact absurd heq.symm (payload_head_ne _ _)
    | some type =>
      simp only [textField, htype, Option.getD_some, String.append_right_inj] at heq
      refine ⟨⟨type, Value.asStr_eq_some.mp htype⟩, ?_⟩
      rcases hread.time_cases with ⟨text', time', htext', hread'⟩ | hnull
      · simp only [htext', Value.asStr, Option.getD_some] at heq htime
        obtain rfl := Option.some.inj (hread'.symm.trans htime)
        exact ⟨text', time', htext', hread', heq ▸ htext⟩
      · -- a missing time is hashed as "" but stored as the epoch
        simp only [hnull, Value.asStr, Option.getD_none, input.read_epoch] at heq htime
        obtain rfl := Option.some.inj htime
        rw [heq] at htext
        exact absurd htext (by decide)
  · rintro ⟨⟨type, htype⟩, text, time', htext, hread', hrender⟩
    simp only [htext, Value.asStr, Option.getD_some] at htime
    obtain rfl := Option.some.inj (hread'.symm.trans htime)
    exact ⟨text, hrender, by simp [textField, htype, htext, Value.asStr]⟩

/-! ## Lists of events and their rows -/

theorem exists_storedRows {ids : List Int} {events : List Value}
    (hlen : ids.length = events.length) (hread : ∀ e ∈ events, Readable input e) :
    ∃ rows, storedRows input ids events = some rows := by
  induction events generalizing ids with
  | nil => exact ⟨[], by cases ids <;> rfl⟩
  | cons e es ih =>
    cases ids with
    | nil => cases hlen
    | cons id ids =>
      obtain ⟨row, hrow⟩ := (hread e List.mem_cons_self).exists_stored id
      obtain ⟨rest, hrest⟩ := ih (Nat.succ.inj hlen) fun e he => hread e (List.mem_cons_of_mem _ he)
      exact ⟨row :: rest, storedRows_cons_eq_some.mpr ⟨row, rest, hrow, hrest, rfl⟩⟩

/-- The rows of an INSERT are what is stored for its events, under the ids given out. -/
theorem storedRows_spec {ids : List Int} {events : List Value} {rows : Table}
    (h : storedRows input ids events = some rows) :
    List.Forall₂ (StoredAs input) events rows ∧ rows.map Row.id = ids.take events.length := by
  refine ⟨?_, storedRows_ids h⟩
  induction events generalizing ids rows with
  | nil =>
    have hnil : rows = [] := by cases ids <;> exact (Option.some.inj h).symm
    subst hnil
    exact .nil
  | cons e es ih =>
    cases ids with
    | nil => cases h
    | cons id ids =>
      obtain ⟨row, rest, hrow, hrest, rfl⟩ := storedRows_cons_eq_some.mp h
      exact .cons ⟨id, hrow⟩ (ih hrest)

theorem sameLinks_of_stored {events : List Value} {rows : Table}
    (h : List.Forall₂ (StoredAs input) events rows) :
    List.Forall₂ (LinkView.SameLinks eventView rowView) events rows :=
  h.imp fun _ _ => StoredAs.sameLinks

/-- For canonical events the rows are linked exactly when the events are. -/
theorem linked_rows_iff {events : List Value} {rows : Table}
    (h : List.Forall₂ (StoredAs input) events rows)
    (hcanon : ∀ e ∈ events, Readable input e ∧ Canonical input e) (d : Option String) :
    rowView.Linked d rows ↔ eventView.Linked d events := by
  refine LinkView.linked_congr (sameLinks_of_stored h) ?_ d
  induction h with
  | nil => exact .nil
  | @cons e row es rows hrow _ ih =>
    refine .cons (fun d => ?_) (ih fun e he => hcanon e (List.mem_cons_of_mem _ he))
    obtain ⟨hread, hc⟩ := hcanon e List.mem_cons_self
    have hpayload := (hrow.payload_eq_iff hread).mpr hc
    change computedHash d (eventPayload row) = d.map fun p => sha256Hex (p ++ buildPayload e)
    rw [hpayload]
    cases d <;> rfl

/-- The rows of canonical events are linked from the head their producer started with. -/
theorem linked_rows_of_canonical {c last : HashChain} {ids : List Int} {events out : List Value}
    {rows : Table} (hchain : c.applyAll events = some (last, out))
    (hstored : storedRows input ids out = some rows)
    (hcanon : ∀ e ∈ events, Readable input e ∧ Canonical input e) :
    rowView.Linked (some c.prevHash) rows := by
  refine (linked_rows_iff (storedRows_spec hstored).1 ?_ _).mpr
    (HashChain.applyAll_linked hchain).1
  refine forall_hashed ?_ (HashChain.applyAll_hashedFrom hchain) hcanon
  exact fun e e' h hc => ⟨readable_hashed h hc.1, (canonical_hashed_iff h).mpr hc.2⟩

end VibeAudit.Chain
