import VibeAudit.Chain.History
import VibeAudit.Chain.Payload

/-!
# Changes of stored columns

What `verify_chain` makes of a table whose rows keep their hashes while other
columns change. Ten columns are not hashed at all, and a change of them never
shows. A change of the hashed columns shows where it changes the payload, which
every change does exactly on tables of unambiguous rows.
-/

namespace VibeAudit.Chain

open Foundation Json Extension Forwarder

/-! ## Columns outside the payload -/

/-- A row without the columns that the payload leaves out. -/
def chainColumns (r : Row) : Row :=
  { r with
    success := false, clientAddr := none, clientPort := none, pid := none, application := none
    objectType := none, objectName := none, schemaName := none, sqlstate := none, detail := none }

/-- In id order the tables have the same rows up to columns outside the payload. -/
def ChangedOutside (t t' : Table) : Prop :=
  List.Forall₂ (fun r s => chainColumns s = chainColumns r) (orderById t) (orderById t')

theorem sameCursor_of_chainColumns_eq {r s : Row} (h : chainColumns s = chainColumns r) :
    SameCursor r s := by
  have hid := congrArg Row.id h
  have hprev := congrArg Row.prevHash h
  have hhash := congrArg Row.eventHash h
  have hpayload := congrArg eventPayload h
  exact ⟨hid, hprev, hhash, hpayload⟩

def detailRow (detail : String) : Row := { nextRow 1 "A" "" with detail := some detail }

theorem verifyChain_singleton {r : Row} (hprev : r.prevHash = some "")
    (hhash : r.eventHash = computedHash r.prevHash (eventPayload r)) :
    (verifyChain [r]).valid = true :=
  (verifyChain_valid_iff [r]).mpr ⟨hprev, hprev ▸ hhash, trivial⟩

theorem verifyChain_detailRow (detail : String) : (verifyChain [detailRow detail]).valid = true :=
  verifyChain_singleton rfl (nextRow_eventHash 1 "A" "")

theorem changedOutside_detailRow : ChangedOutside [detailRow "1"] [detailRow "2"] :=
  .cons rfl .nil

def unhashedColumns (r : Row) : Row :=
  { r with
    eventType := "", eventTime := .finite 0, sessionUser := none, database := none
    commandTag := none, queryText := none }

/-- In id order `t'` has the rows of `t` with other hashed columns: all else, the stored hashes
included, is as it was, some fields differ, and the instants are finite as in every partition. -/
structure Moved (t t' : Table) : Prop where
  unhashed_eq : List.Forall₂ (fun r s => unhashedColumns s = unhashedColumns r)
    (orderById t) (orderById t')
  finite : ∀ s ∈ t', (toChar s.eventTime).isSome = true
  fields_ne : (orderById t').map verifierFields ≠ (orderById t).map verifierFields

/-- With no collision, a row that is determined and keeps its hashes keeps its fields where the
verifier accepts the new payload. -/
theorem fields_eq_of_computedHash_eq {r s : Row} {prev payload : String}
    (hrow : HashedRow r prev payload) (hdetermined : Determined r) {hashed : List String}
    (hcoll : CollisionFree hashed) (hmem : ∀ text ∈ hashedByVerifier r, text ∈ hashed)
    (hmem' : ∀ text ∈ hashedByVerifier s, text ∈ hashed)
    (hcolumns : unhashedColumns s = unhashedColumns r)
    (hfinite : (toChar s.eventTime).isSome = true)
    (hhash : s.eventHash = computedHash s.prevHash (eventPayload s)) :
    verifierFields s = verifierFields r := by
  by_contra hne
  have hsprev := congrArg Row.prevHash hcolumns
  have hshash := congrArg Row.eventHash hcolumns
  have hprev : s.prevHash = some prev := hsprev.trans hrow.prevHash_eq
  have hstored : s.eventHash = some (sha256Hex (prev ++ payload)) :=
    hshash.trans hrow.eventHash_eq
  obtain ⟨time, htime⟩ := Option.isSome_iff_exists.mp hfinite
  obtain ⟨text, htext⟩ : ∃ text, eventPayload s = some text := by
    rw [eventPayload, htime]
    exact ⟨_, rfl⟩
  rw [hstored, hprev, htext] at hhash
  have hsame : prev ++ payload = prev ++ text := by
    refine hcoll _ (hmem _ hrow.hashedByVerifier_eq) _ (hmem' _ ?_) (Option.some.inj hhash)
    simp [hashedByVerifier, hprev, htext]
  rw [String.append_right_inj] at hsame
  refine hdetermined s hfinite hne ?_
  rw [htext, hrow.payload_eq, hsame]

/-- Every change of hashed columns is detected where all rows are determined. -/
theorem Moved.rejected {t t' : Table} (h : Moved t t') {partitions : List PartitionBounds}
    (hvalid : (verifyChain t).valid = true) (hrouted : Routed partitions t)
    (hcoll : CollisionFree (verifiedStrings t ++ verifiedStrings t'))
    (hdetermined : ∀ r ∈ t, Determined r) : (verifyChain t').valid = false := by
  by_contra haccept
  have hl := (verifyChain_valid_iff t).mp hvalid
  have hl' := (verifyChain_valid_iff t').mp (eq_true_of_ne_false haccept)
  have hsome := eventHash_isSome_of_finite hl rfl
    fun r hr => hrouted.toChar_isSome (mem_orderById.mp hr)
  refine h.fields_ne ?_
  have hpairs := List.forall₂_iff_zip.mp h.unhashed_eq
  have hfields : List.Forall₂ (fun r s => verifierFields s = verifierFields r)
      (orderById t) (orderById t') := by
    refine List.forall₂_iff_zip.mpr ⟨hpairs.1, fun {r s} hmem => ?_⟩
    obtain ⟨hr, hs⟩ := List.of_mem_zip hmem
    obtain ⟨prev, payload, hrow⟩ := exists_hashedRow hl hsome hr
    exact fields_eq_of_computedHash_eq hrow (hdetermined r (mem_orderById.mp hr)) hcoll
      (fun text htext => List.mem_append_left _ (List.mem_filterMap.mpr ⟨r, hr, htext⟩))
      (fun text htext => List.mem_append_right _ (List.mem_filterMap.mpr ⟨s, hs, htext⟩))
      (hpairs.2 hmem) (h.finite s (mem_orderById.mp hs)) (hl'.headOf_eq_digest hs)
  generalize orderById t = rows at hfields
  generalize orderById t' = rows' at hfields
  induction hfields with
  | nil => rfl
  | cons hrow _ ih => rw [List.map_cons, List.map_cons, hrow, ih]

def withHashedColumns (r other : Row) : Row :=
  { r with
    eventType := other.eventType, eventTime := other.eventTime, sessionUser := other.sessionUser
    database := other.database, commandTag := other.commandTag, queryText := other.queryText }

/-- A row of a table that shares its payload with other fields can be given these fields
unnoticed. -/
theorem exists_undetected {t : Table} {partitions : List PartitionBounds}
    (hvalid : (verifyChain t).valid = true) (hrouted : Routed partitions t)
    (hcoll : CollisionFree (verifiedStrings t)) {r other : Row} (hr : r ∈ t)
    (hfinite : (toChar other.eventTime).isSome = true)
    (hne : verifierFields other ≠ verifierFields r)
    (hpayload : eventPayload other = eventPayload r) :
    ∃ t', Moved t t' ∧ CollisionFree (verifiedStrings t ++ verifiedStrings t') ∧
      (verifyChain t').valid = true := by
  obtain ⟨front, back, hsplit⟩ := List.append_of_mem (mem_orderById.mpr hr)
  let moved := withHashedColumns r other
  have hpay : eventPayload moved = eventPayload r := hpayload
  have hfields : verifierFields moved ≠ verifierFields r := hne
  have hcursor : SameCursor r moved := ⟨rfl, rfl, rfl, hpay⟩
  have hsorted := orderById_sorted t
  rw [hsplit] at hsorted
  have horder : orderById (front ++ moved :: back) = front ++ moved :: back := by
    refine orderById_eq_self ?_
    have hids : (front ++ moved :: back).map Row.id = (front ++ r :: back).map Row.id := by
      simp [moved, withHashedColumns]
    rw [← List.pairwise_map (f := Row.id)] at hsorted ⊢
    rwa [hids]
  have hlist : ∀ {R : Row → Row → Prop}, (∀ a, R a a) → R r moved →
      List.Forall₂ R (orderById t) (orderById (front ++ moved :: back)) := by
    intro R hrefl hmoved
    rw [horder, hsplit]
    refine List.rel_append (List.forall₂_same.mpr fun a _ => hrefl a) (.cons hmoved ?_)
    exact List.forall₂_same.mpr fun a _ => hrefl a
  have hverdict := verifyChain_congr (hlist (fun _ => ⟨rfl, rfl, rfl, rfl⟩) hcursor)
  refine ⟨front ++ moved :: back, ⟨hlist (fun _ => rfl) rfl, ?_, ?_⟩, ?_, ?_⟩
  · intro s hs
    have hmem : ∀ a ∈ front ++ r :: back, (toChar a.eventTime).isSome = true :=
      fun a ha => hrouted.toChar_isSome (mem_orderById.mp (hsplit ▸ ha))
    rw [List.mem_append, List.mem_cons] at hs
    rcases hs with hs | rfl | hs
    · exact hmem s (List.mem_append_left _ hs)
    · exact hfinite
    · exact hmem s (List.mem_append_right _ (List.mem_cons_of_mem _ hs))
  · rw [horder, hsplit, List.map_append, List.map_append, List.map_cons, List.map_cons]
    intro heq
    exact hfields (List.cons.inj (List.append_cancel_left heq)).1
  · have hstrings : verifiedStrings (front ++ moved :: back) = verifiedStrings t := by
      have hhashed : hashedByVerifier moved = hashedByVerifier r := by
        rw [hashedByVerifier, hashedByVerifier, hpay]
        rfl
      rw [verifiedStrings, verifiedStrings, horder, hsplit, List.filterMap_append,
        List.filterMap_append, List.filterMap_cons, List.filterMap_cons, hhashed]
    rw [hstrings]
    intro a ha b hb
    have hmem : ∀ u ∈ verifiedStrings t ++ verifiedStrings t, u ∈ verifiedStrings t := by simp
    exact hcoll a (hmem a ha) b (hmem b hb)
  · rw [hverdict, hvalid]

/-- What the payloads determine. An event's payload determines its fields exactly when none of
them has a separator in it, and a stored row's exactly when it is unambiguous. On an accepted
table every change of hashed columns is detected exactly when all rows are unambiguous. -/
theorem moved_text_detected_iff (event : Value) (t : Table) (partitions : List PartitionBounds)
    (hvalid : (verifyChain t).valid = true) (hrouted : Routed partitions t)
    (hcoll : CollisionFree (verifiedStrings t)) :
    ((∀ other, producerFields other ≠ producerFields event →
        buildPayload other ≠ buildPayload event) ↔
      ∀ text ∈ (producerFields event).texts, '|' ∉ text) ∧
    (∀ r : Row, (toChar r.eventTime).isSome = true → (Determined r ↔ Unambiguous r)) ∧
    ((∀ t', Moved t t' → CollisionFree (verifiedStrings t ++ verifiedStrings t') →
        (verifyChain t').valid = false) ↔
      ∀ r ∈ t, Unambiguous r) := by
  have hrows : ∀ r ∈ t, Determined r ↔ Unambiguous r :=
    fun r hr => determined_iff_unambiguous r (hrouted.toChar_isSome hr)
  refine ⟨buildPayload_determines_iff event, determined_iff_unambiguous, ?_, ?_⟩
  · intro h r hr
    rw [← hrows r hr]
    intro other hfinite hne hpayload
    obtain ⟨t', hmoved, hcoll', haccept⟩ :=
      exists_undetected hvalid hrouted hcoll hr hfinite hne hpayload
    rw [h t' hmoved hcoll'] at haccept
    cases haccept
  · intro h t' hmoved hcoll'
    exact hmoved.rejected hvalid hrouted hcoll' fun r hr => (hrows r hr).mpr (h r hr)

def accountRow (user database : String) : Row :=
  hashed { nextRow 1 "A" "" with sessionUser := some user, database := some database }

theorem accountRow_eventHash (user database : String) :
    (accountRow user database).eventHash = computedHash (accountRow user database).prevHash
      (eventPayload (accountRow user database)) := hashed_eventHash _

theorem verifyChain_accountRow (user database : String) :
    (verifyChain [accountRow user database]).valid = true :=
  verifyChain_singleton rfl (accountRow_eventHash user database)

def accountEvent (user database : String) : Value :=
  .obj [("session_user", .string user), ("database", .string database)]

theorem verifiedStrings_singleton (r : Row) :
    verifiedStrings [r] = (hashedByVerifier r).toList := by
  simp [verifiedStrings, orderById, List.filterMap_cons]
  cases hashedByVerifier r <;> rfl

theorem collisionFree_singleton {r s : Row} (h : hashedByVerifier s = hashedByVerifier r) :
    CollisionFree (verifiedStrings [r] ++ verifiedStrings [s]) := by
  intro a ha b hb _
  simp only [verifiedStrings_singleton, h, List.mem_append, or_self, Option.mem_toList] at ha hb
  exact Option.mem_unique ha hb

theorem moved_text_detected_accountRow :
    ((∀ other, producerFields other ≠ producerFields (accountEvent "a" "c") →
        buildPayload other ≠ buildPayload (accountEvent "a" "c")) ↔
      ∀ text ∈ (producerFields (accountEvent "a" "c")).texts, '|' ∉ text) ∧
    (∀ r : Row, (toChar r.eventTime).isSome = true → (Determined r ↔ Unambiguous r)) ∧
    ((∀ t', Moved [accountRow "a" "c"] t' →
        CollisionFree (verifiedStrings [accountRow "a" "c"] ++ verifiedStrings t') →
        (verifyChain t').valid = false) ↔
      ∀ r ∈ [accountRow "a" "c"], Unambiguous r) :=
  moved_text_detected_iff (accountEvent "a" "c") [accountRow "a" "c"] [⟨0, 2678400000000⟩]
    (verifyChain_accountRow "a" "c") (by decide)
    fun a ha b hb => collisionFree_singleton rfl a (List.mem_append_left _ ha) b
      (List.mem_append_left _ hb)

/-- Part of a user name that becomes part of the database name is not noticed, by neither
side. -/
theorem not_moved_text_detected :
    (¬ ∀ event other : Value, producerFields other ≠ producerFields event →
      buildPayload other ≠ buildPayload event) ∧
    ¬ ∀ t t' : Table, (verifyChain t).valid = true → Moved t t' →
      CollisionFree (verifiedStrings t ++ verifiedStrings t') →
      (verifyChain t').valid = false := by
  constructor
  · intro h
    exact h (accountEvent "a|b" "c") (accountEvent "a" "b|c") (by decide) (by decide)
  · intro h
    have hpayload : eventPayload (accountRow "a" "b|c") = eventPayload (accountRow "a|b" "c") := by
      decide
    let moved := withHashedColumns (accountRow "a|b" "c") (accountRow "a" "b|c")
    have hmovedPayload : eventPayload moved = eventPayload (accountRow "a|b" "c") := hpayload
    have hmoved : Moved [accountRow "a|b" "c"] [moved] :=
      ⟨.cons rfl .nil, by simp [moved, withHashedColumns, accountRow, nextRow, hashed, toChar],
        by decide⟩
    have hstrings : hashedByVerifier moved = hashedByVerifier (accountRow "a|b" "c") := by
      rw [hashedByVerifier, hashedByVerifier, hmovedPayload]
      rfl
    have hreject := h _ _ (verifyChain_accountRow _ _) hmoved (collisionFree_singleton hstrings)
    have haccept : (verifyChain [moved]).valid = true := by
      refine verifyChain_singleton rfl ?_
      rw [hmovedPayload]
      exact accountRow_eventHash "a|b" "c"
    rw [haccept] at hreject
    cases hreject

end VibeAudit.Chain
