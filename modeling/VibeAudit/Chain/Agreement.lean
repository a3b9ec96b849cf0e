import VibeAudit.Chain.Stored

/-!
# Producer and verifier of the chain

The chain is built by `HashChain::apply` over the text of an event and checked
by `verify_chain` over the stored row. The two hash the same strings exactly
for canonical events; the defaults of the writer for a missing type or time and
the database's rendering of an instant are where they part.
-/

namespace VibeAudit.Chain

open Foundation Json Extension Forwarder

variable {input : TimestamptzInput}

/-- The string hashed for an event by `apply`. -/
def hashedByProducer (event : Value) : Option String :=
  (storedPrev event).map fun p => p ++ buildPayload event

/-- The string hashed for a row by `verify_chain`, once the row's `prev_hash` is accepted. -/
def hashedByVerifier (row : Row) : Option String :=
  row.prevHash.bind fun p => (eventPayload row).map fun text => p ++ text

def hashedStrings (events : List Value) (rows : Table) : List String :=
  events.filterMap hashedByProducer ++ rows.filterMap hashedByVerifier

/-- Event by event, the verifier's payload of the row is the string the producer hashed. -/
def PayloadsAgree (events : List Value) (rows : Table) : Prop :=
  List.Forall₂ (fun event row => eventPayload row = some (buildPayload event)) events rows

theorem payloadsAgree_hashed_iff {events out : List Value}
    (h : List.Forall₂ HashedFrom events out) (rows : Table) :
    PayloadsAgree out rows ↔ PayloadsAgree events rows := by
  unfold PayloadsAgree
  induction h generalizing rows with
  | nil => rfl
  | cons he _ ih =>
    cases rows with
    | nil => simp
    | cons row rows => rw [List.forall₂_cons, List.forall₂_cons, he.buildPayload_eq, ih]

theorem forall_canonical_hashed_iff {events out : List Value}
    (h : List.Forall₂ HashedFrom events out) :
    (∀ e ∈ out, Canonical input e) ↔ ∀ e ∈ events, Canonical input e := by
  induction h with
  | nil => simp
  | cons he _ ih => rw [List.forall_mem_cons, List.forall_mem_cons, canonical_hashed_iff he, ih]

theorem payloadsAgree_iff_canonical {events : List Value} {rows : Table}
    (h : List.Forall₂ (StoredAs input) events rows) (hread : ∀ e ∈ events, Readable input e) :
    PayloadsAgree events rows ↔ ∀ e ∈ events, Canonical input e := by
  unfold PayloadsAgree
  induction h with
  | nil => simp
  | @cons e row es rows hrow _ ih =>
    rw [List.forall₂_cons, List.forall_mem_cons,
      hrow.payload_eq_iff (hread e List.mem_cons_self),
      ih fun e he => hread e (List.mem_cons_of_mem _ he)]

/-- Where no two different strings hashed for one event collide, equal digests of linked
records come from equal payloads. -/
theorem payload_eq_of_digest_eq {event : Value} {row : Row} (hstored : StoredAs input event row)
    {events : List Value} {rows : Table} (hevent : event ∈ events) (hrow : row ∈ rows)
    (hcoll : CollisionFree (hashedStrings events rows)) (hprev : (storedPrev event).isSome)
    (hdigest : rowView.digest (storedPrev event) row = eventView.digest (storedPrev event) event) :
    eventPayload row = some (buildPayload event) := by
  obtain ⟨p, hp⟩ := Option.isSome_iff_exists.mp hprev
  have hrowPrev : row.prevHash = some p := hstored.sameLinks.1.trans hp
  rw [hp] at hdigest
  cases hpay : eventPayload row with
  | none =>
    simp [rowView, eventView, computedHash, hpay] at hdigest
  | some text =>
    have hsha : sha256Hex (p ++ text) = sha256Hex (p ++ buildPayload event) := by
      simpa [rowView, eventView, computedHash, hpay] using hdigest
    have hleft : p ++ text ∈ hashedStrings events rows :=
      List.mem_append_right _ (List.mem_filterMap.mpr
        ⟨row, hrow, by simp [hashedByVerifier, hrowPrev, hpay]⟩)
    have hright : p ++ buildPayload event ∈ hashedStrings events rows :=
      List.mem_append_left _ (List.mem_filterMap.mpr
        ⟨event, hevent, by simp [hashedByProducer, hp]⟩)
    have heq := hcoll _ hleft _ hright hsha
    rw [String.append_right_inj] at heq
    rw [heq]

/-- Every event of a producer's chain names the head before it. -/
theorem storedPrev_isSome_of_linked {events : List Value} {head : String}
    (h : eventView.Linked (some head) events) : ∀ e ∈ events, (storedPrev e).isSome := by
  induction events generalizing head with
  | nil => simp
  | cons e es ih =>
    obtain ⟨hprev, hhead, htail⟩ := h
    have hnext : eventView.headOf e = some (sha256Hex (head ++ buildPayload e)) := hhead
    rw [hnext] at htail
    rw [List.forall_mem_cons]
    exact ⟨Option.isSome_of_eq_some hprev, ih htail⟩

/-- Both sides of the chain accept the same records only if they hash the same payloads. -/
theorem payloadsAgree_of_linked {events : List Value} {rows : Table}
    (h : List.Forall₂ (StoredAs input) events rows) {head : String}
    (hevents : eventView.Linked (some head) events) (hrows : rowView.Linked (some head) rows)
    (hcoll : CollisionFree (hashedStrings events rows)) :
    PayloadsAgree events rows := by
  have hdigests := LinkView.digest_eq_of_linked (sameLinks_of_stored h) hevents hrows
  unfold PayloadsAgree
  rw [List.forall₂_iff_zip] at h hdigests ⊢
  refine ⟨h.1, fun {e row} hmem => ?_⟩
  obtain ⟨he, hrow⟩ := List.of_mem_zip hmem
  exact payload_eq_of_digest_eq (h.2 hmem) he hrow hcoll
    (storedPrev_isSome_of_linked hevents e he) (hdigests.2 hmem)

/-- The chain of any readable events, stored under increasing ids: payloads agree, and the
verifier accepts the table, exactly when every event is canonical. -/
theorem verifyChain_accepts_iff_canonical (input : TimestamptzInput) (events : List Value)
    (ids : List Int) (hread : ∀ e ∈ events, Readable input e) (hlen : ids.length = events.length)
    (hids : ids.Pairwise (· < ·)) :
    ∃ last out table, HashChain.new.applyAll events = some (last, out) ∧
      storedRows input ids out = some table ∧
      (PayloadsAgree events table ↔ ∀ e ∈ events, Canonical input e) ∧
      ((∀ e ∈ events, Canonical input e) →
        verifyChain table = ⟨events.length, true, none⟩) ∧
      (CollisionFree (hashedStrings out table) →
        (verifyChain table = ⟨events.length, true, none⟩ ↔
          ∀ e ∈ events, Canonical input e)) := by
  obtain ⟨last, out, hchain⟩ := HashChain.new.exists_applyAll fun e he => (hread e he).1
  have hfrom := HashChain.applyAll_hashedFrom hchain
  have hout : ∀ e ∈ out, Readable input e := forall_hashed (fun _ _ => readable_hashed) hfrom hread
  obtain ⟨table, htable⟩ := exists_storedRows (hlen.trans hfrom.length_eq) hout
  obtain ⟨hstored, hidsEq⟩ := storedRows_spec htable
  have hsorted : table.Pairwise fun a b => a.id ≤ b.id := by
    have hmap : (table.map Row.id).Pairwise (· < ·) := by
      rw [hidsEq]
      exact hids.sublist (List.take_sublist _ _)
    exact (List.pairwise_map.mp hmap).imp le_of_lt
  have horder : orderById table = table := orderById_eq_self hsorted
  have hagree := (payloadsAgree_hashed_iff hfrom table).symm.trans
    ((payloadsAgree_iff_canonical hstored hout).trans (forall_canonical_hashed_iff hfrom))
  have haccept : (∀ e ∈ events, Canonical input e) →
      verifyChain table = ⟨events.length, true, none⟩ := by
    intro hcanon
    have hlinked := linked_rows_of_canonical hchain htable fun e he => ⟨hread e he, hcanon e he⟩
    rw [verifyChain_of_linked (horder.symm ▸ hlinked), ← hstored.length_eq, ← hfrom.length_eq]
  refine ⟨last, out, table, hchain, htable, hagree, haccept, fun hcoll => ⟨fun hverdict => ?_,
    haccept⟩⟩
  have hrows : rowView.Linked (some "") table := by
    rw [← horder, ← verifyChain_valid_iff, hverdict]
  have hevents : eventView.Linked (some "") out := (HashChain.applyAll_linked hchain).1
  exact hagree.mp ((payloadsAgree_hashed_iff hfrom table).mp
    (payloadsAgree_of_linked hstored hevents hrows hcoll))

/-- The event of the repository's own test: a time with whole seconds, which the database reads
and renders with milliseconds. -/
def secondsEvent : Value := .obj
  [("event_type", .string "AUTH_SUCCESS"), ("event_time", .string "2026-01-01T00:00:00Z"),
   ("session_user", .string "admin"), ("database", .string "vibesql"),
   ("command_tag", .string "authentication"), ("query_text", .null)]

/-- The same event with the time as the emitters write it. -/
def millisEvent : Value := .obj
  [("event_type", .string "AUTH_SUCCESS"), ("event_time", .string "2026-01-01T00:00:00.000Z"),
   ("session_user", .string "admin"), ("database", .string "vibesql"),
   ("command_tag", .string "authentication"), ("query_text", .null)]

theorem millisEvent_canonical : Canonical isoInput millisEvent :=
  ⟨⟨"AUTH_SUCCESS", rfl⟩, "2026-01-01T00:00:00.000Z", .finite 1767225600000000, rfl, by decide,
    by decide⟩

theorem millisEvent_readable : Readable isoInput millisEvent :=
  millisEvent_canonical.readable rfl

theorem verifyChain_accepts_millisEvent :
    ∃ last out table, HashChain.new.applyAll [millisEvent, millisEvent] = some (last, out) ∧
      storedRows isoInput [1, 2] out = some table ∧
      PayloadsAgree [millisEvent, millisEvent] table ∧ verifyChain table = ⟨2, true, none⟩ := by
  have hcanon : ∀ e ∈ [millisEvent, millisEvent], Canonical isoInput e := by
    simpa using millisEvent_canonical
  obtain ⟨last, out, table, hchain, htable, hagree, haccept, -⟩ :=
    verifyChain_accepts_iff_canonical isoInput [millisEvent, millisEvent] [1, 2]
      (by simpa using millisEvent_readable) rfl (by decide)
  exact ⟨last, out, table, hchain, htable, hagree.mpr hcanon, haccept hcanon⟩

def chainVerdict (input : TimestamptzInput) (ids : List Int) (events : List Value) :
    Option Verdict := do
  let (_, out) ← HashChain.new.applyAll events
  let table ← storedRows input ids out
  return verifyChain table

/-- One readable event is enough for the verifier to reject what the producer chained. -/
theorem not_verifyChain_accepts_readable :
    ¬ ∀ (events : List Value) (ids : List Int), (∀ e ∈ events, Readable isoInput e) →
      ids.length = events.length → ids.Pairwise (· < ·) →
      chainVerdict isoInput ids events = some ⟨events.length, true, none⟩ := by
  intro h
  have hread : Readable isoInput secondsEvent := by
    refine ⟨rfl, fun v hv => ?_⟩
    obtain rfl : Value.string "2026-01-01T00:00:00Z" = v := Option.some.inj hv
    exact ⟨_, .finite 1767225600000000, rfl, by decide⟩
  have haccept := h [secondsEvent] [1] (by simpa using hread) rfl (List.pairwise_singleton _ _)
  have hreject : chainVerdict isoInput [1] [secondsEvent] = some ⟨1, false, some 1⟩ := by
    decide +kernel
  rw [hreject] at haccept
  exact absurd haccept (by decide)

end VibeAudit.Chain
