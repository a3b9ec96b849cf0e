import VibeAudit.Delivery.Faults
import VibeAudit.Delivery.Forwarding

/-!
# The stream as a check on the table

`verify_chain` accepts every front of a table, so it cannot see that the last
rows are gone. The last report of the stream carries the head of the whole
chain: an accepted table stores what was processed, all of it, exactly if it
ends with that head.
-/

namespace VibeAudit.Delivery

open Foundation Json Extension Forwarder Chain

def lastReported (messages : List Value) : Option String :=
  (messages.filter isReport).getLast?.bind fun m => (m.index "_event_hash").asStr

variable {g : GelfForwarder} {pid : UInt32} {input : TimestamptzInput}

/-- The last report is about the last event processed. -/
theorem Reported.lastReported_eq {processed messages : List Value}
    (h : Reported g pid processed messages) :
    lastReported messages = processed.getLast?.bind storedHash := by
  have hlast := congrArg List.getLast? h.reports
  rw [List.getLast?_map, List.getLast?_map] at hlast
  rw [lastReported]
  cases hevent : processed.getLast? with
  | none =>
    rw [hevent, Option.map_none, Option.map_eq_none_iff] at hlast
    rw [hlast]
    rfl
  | some event =>
    rw [hevent] at hlast
    obtain ⟨m, hm, hgelf⟩ := Option.map_eq_some_iff.mp hlast
    rw [hm, Option.bind_some, Option.bind_some,
      (GelfForwarder.message_of_toGelf hgelf.symm).eventHash]
    rfl

/-- A record with a hash that was computed. -/
def CarriesDigest {ρ : Type*} (V : LinkView ρ (Option String)) (r : ρ) : Prop :=
  ∃ text, V.headOf r = some (sha256Hex text)

theorem CarriesDigest.headOf_ne_empty {ρ : Type*} {V : LinkView ρ (Option String)} {r : ρ}
    (h : CarriesDigest V r) : V.headOf r ≠ some "" := by
  obtain ⟨text, htext⟩ := h
  rw [htext]
  exact fun heq => sha256Hex_ne_empty text (Option.some.inj heq)

/-- Lists end with the same hash exactly if they have the same head. -/
theorem last_eq_iff_head_eq {ρ σ : Type*} {V : LinkView ρ (Option String)}
    {W : LinkView σ (Option String)} {xs : List ρ} {ys : List σ}
    (hx : ∀ r ∈ xs, CarriesDigest V r) (hy : ∀ r ∈ ys, CarriesDigest W r) :
    xs.getLast?.bind V.headOf = ys.getLast?.bind W.headOf ↔
      V.head (some "") xs = W.head (some "") ys := by
  cases xs using List.reverseRecOn with
  | nil =>
    cases ys using List.reverseRecOn with
    | nil => simp
    | append_singleton ys s =>
      have hs := hy s (by simp)
      obtain ⟨text, htext⟩ := id hs
      simpa [LinkView.head_append, htext] using hs.headOf_ne_empty.symm
  | append_singleton xs r =>
    have hr := hx r (by simp)
    cases ys using List.reverseRecOn with
    | nil =>
      obtain ⟨text, htext⟩ := id hr
      simpa [LinkView.head_append, htext] using hr.headOf_ne_empty
    | append_singleton ys s => simp [LinkView.head_append]

/-- A row of an accepted table and a processed event with the same hash have the same hash before
them and the same payload. -/
theorem links_eq_of_reported {processed : List Value} {t : Table}
    (hl : eventView.Linked (some "") processed)
    (hcanon : ∀ event ∈ processed, Readable input event ∧ Canonical input event)
    (hdistinct : Distinct processed)
    (hcoll : CollisionFree (verifiedStrings t ++ processed.filterMap hashedByProducer))
    (hrows : ∀ r ∈ orderById t, ∃ prev payload, ChainedRow r prev payload) :
    ∀ r ∈ orderById t, ∀ e ∈ processed, rowView.headOf r = eventView.headOf e →
      rowView.prevOf r = eventView.prevOf e ∧ eventPayload r = some (buildPayload e) := by
  intro r hr e he heq
  obtain ⟨p, text, hrow⟩ := hrows r hr
  obtain ⟨r', q, hstored, hrow'⟩ := exists_chainedRow_of_event hl hcanon hdistinct he
  have hprev : storedPrev e = some q := hstored.sameLinks.1.symm.trans hrow'.prevHash_eq
  have hmem : q ++ buildPayload e ∈ processed.filterMap hashedByProducer :=
    List.mem_filterMap.mpr ⟨e, he, by rw [hashedByProducer, hprev]; rfl⟩
  obtain ⟨rfl, rfl⟩ := hrow.eq_of_eventHash_eq hrow' hcoll
    (List.mem_append_left _ (hrow.mem_verifiedStrings hr)) (List.mem_append_right _ hmem)
    (heq.trans hstored.sameLinks.2.symm)
  exact ⟨hrow.prevHash_eq.trans hprev.symm, hrow.payload_eq⟩

/-- In every run on canonical events, whatever the database does: a table that `verify_chain`
accepts stores the payloads of the processed events, all of them and in order, exactly if its last
hash is the one in the last report of the stream. So a tail that was cut off shows there. -/
theorem stream_head_decides_table (g : GelfForwarder) (pid : UInt32) (input : TimestamptzInput)
    (actions : List ForwardingAction) (s : Forwarding)
    (hrun : run (Forwarding.step g pid input) Forwarding.new actions = some s)
    (hevents : ∀ event ∈ received (loopActions actions),
      event.isObject = true ∧ Canonical input event)
    (t : Table) (partitions : List PartitionBounds) (hvalid : (verifyChain t).valid = true)
    (hrouted : Routed partitions t) (hplain : FirstTypePlain t) :
    ∃ processed, HashChain.new.applyAll (received (loopActions actions)) =
        some (s.process.processor.chain, processed) ∧
      (Distinct processed →
        CollisionFree (verifiedStrings t ++ processed.filterMap hashedByProducer) →
        (lastHash t = lastReported s.messages ↔
          (orderById t).map eventPayload = processed.map fun e => some (buildPayload e))) := by
  obtain ⟨processed, written, hreported, horder⟩ := Reported.of_run hrun
  refine ⟨processed, horder.chained, fun hdistinct hcoll => ?_⟩
  have hcanon := canonical_processed horder.chained hevents
  have hevent : eventView.Linked (some "") processed := (HashChain.applyAll_linked horder.chained).1
  have hrow := (verifyChain_valid_iff t).mp hvalid
  have hsome := eventHash_isSome_of_finite hrow rfl
    fun r hr => hrouted.toChar_isSome (mem_orderById.mp hr)
  have hrows : ∀ r ∈ orderById t, ∃ prev payload, ChainedRow r prev payload :=
    fun r hr => exists_chainedRow hvalid hsome hplain hr
  have hrowDigest : ∀ r ∈ orderById t, CarriesDigest rowView r := by
    intro r hr
    obtain ⟨prev, payload, hchained⟩ := hrows r hr
    exact ⟨_, hchained.eventHash_eq⟩
  have heventDigest : ∀ e ∈ processed, CarriesDigest eventView e := by
    intro e he
    obtain ⟨r, q, hstored, hchained⟩ := exists_chainedRow_of_event hevent hcanon hdistinct he
    exact ⟨_, hstored.sameLinks.2.symm.trans hchained.eventHash_eq⟩
  have hlast : lastHash t = lastReported s.messages ↔
      rowView.head (some "") (orderById t) = eventView.head (some "") processed := by
    rw [hreported.lastReported_eq]
    exact last_eq_iff_head_eq hrowDigest heventDigest
  rw [hlast]
  constructor
  · exact LinkView.Linked.map_key_eq hrow hevent
      (links_eq_of_reported hevent hcanon hdistinct hcoll hrows)
      (fun r hr => (hrowDigest r hr).headOf_ne_empty)
      (fun e he => (heventDigest e he).headOf_ne_empty)
  · intro heq
    rw [← List.forall₂_eq_eq_eq, List.forall₂_map_left_iff, List.forall₂_map_right_iff] at heq
    refine (LinkView.head_congr hrow hevent (heq.imp fun r e hpayload d => ?_)).symm
    cases d with
    | none => rfl
    | some d => simp [rowView, eventView, computedHash, hpayload]

def cutActions : List ForwardingAction :=
  [.loop (.receive millisEvent), .loop (.tick .executed 0), .loop (.receive millisEvent)]

theorem received_cutActions : received (loopActions cutActions) = [millisEvent, millisEvent] := rfl

theorem stream_head_decides_table_cut :
    ∃ s, run (Forwarding.step ⟨"forwarder"⟩ 7 isoInput) Forwarding.new cutActions = some s ∧
      (verifyChain s.process.table.rows).valid = true ∧
      lastHash s.process.table.rows ≠ lastReported s.messages := by
  have hend : (run (Forwarding.step ⟨"forwarder"⟩ 7 isoInput) Forwarding.new cutActions).any
      (fun (s : Forwarding) => (HashChain.new.applyAll [millisEvent, millisEvent]).any fun p =>
        decide ((verifyChain s.process.table.rows).valid = true ∧
          Routed [⟨0, 1800000000000000⟩] s.process.table.rows ∧
          (∀ r ∈ (orderById s.process.table.rows).head?, ¬ BeginsWithDigest r.eventType) ∧
          (orderById s.process.table.rows).length = 1 ∧ p.2.length = 2 ∧ Distinct p.2 ∧
          CollisionFree (verifiedStrings s.process.table.rows ++
            p.2.filterMap hashedByProducer))) = true := by
    decide +kernel
  obtain ⟨s, hs, hchain⟩ := (Option.any_eq_true _ _).mp hend
  obtain ⟨⟨last, out⟩, hout, hfacts⟩ := (Option.any_eq_true _ _).mp hchain
  obtain ⟨hvalid, hrouted, hplain, hone, htwo, hdistinct, hcoll⟩ := of_decide_eq_true hfacts
  have hevents : ∀ event ∈ received (loopActions cutActions),
      event.isObject = true ∧ Canonical isoInput event := by
    intro event hevent
    have hmillis : event = millisEvent := by simpa [received_cutActions] using hevent
    rw [hmillis]
    exact ⟨rfl, millisEvent_canonical⟩
  obtain ⟨processed, hprocessed, hiff⟩ := stream_head_decides_table ⟨"forwarder"⟩ 7 isoInput
    cutActions s hs hevents s.process.table.rows _ hvalid hrouted hplain
  rw [received_cutActions, hout] at hprocessed
  obtain rfl : out = processed := congrArg Prod.snd (Option.some.inj hprocessed)
  refine ⟨s, hs, hvalid, fun heq => ?_⟩
  have hlength := congrArg List.length ((hiff hdistinct hcoll).mp heq)
  rw [List.length_map, List.length_map, hone, htwo] at hlength
  exact absurd hlength (by decide)

end VibeAudit.Delivery
