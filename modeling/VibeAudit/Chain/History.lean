import VibeAudit.Chain.Agreement

/-!
# What an accepted table commits to

A row of an accepted table is hashed with the hash before it in front, and no
separator between the two. The first row has nothing in front, so it is told
apart from the others only by the length of a digest: its type must not begin
like one. Then the hash of the last row determines all payloads, and among the
rows of a table only its fronts are accepted.
-/

namespace VibeAudit.Chain

open Foundation Json Extension Forwarder

/-- The strings hashed by `verify_chain` on a table it accepts. -/
def verifiedStrings (t : Table) : List String := (orderById t).filterMap hashedByVerifier

/-- The text begins with 64 hexadecimal digits. -/
def BeginsWithDigest (text : String) : Prop :=
  64 ≤ text.toList.length ∧ ∀ c ∈ text.toList.take 64, c ∈ Sha256.hexDigits

def FirstTypePlain (t : Table) : Prop :=
  ∀ r ∈ (orderById t).head?, ¬ BeginsWithDigest r.eventType

def lastHash (t : Table) : Option String := (orderById t).getLast?.bind Row.eventHash

/-- A row with no NULL in what `verify_chain` reads of it, and the hash it asks for. -/
structure HashedRow (r : Row) (prev payload : String) : Prop where
  prevHash_eq : r.prevHash = some prev
  payload_eq : eventPayload r = some payload
  eventHash_eq : r.eventHash = some (sha256Hex (prev ++ payload))

theorem HashedRow.hashedByVerifier_eq {r : Row} {prev payload : String}
    (h : HashedRow r prev payload) : hashedByVerifier r = some (prev ++ payload) := by
  simp [hashedByVerifier, h.prevHash_eq, h.payload_eq]

/-! ## Rows without NULL -/

variable {rows : List Row} {h : Option String}

theorem head_none (hl : rowView.Linked none rows) : rowView.head none rows = none := by
  induction rows with
  | nil => rfl
  | cons r rows ih =>
    obtain ⟨-, hhash, htail⟩ := hl
    have hnone : rowView.headOf r = none := hhash
    rw [hnone] at htail
    rw [LinkView.head_cons, hnone, ih htail]

/-- A NULL hash leaves NULL hashes behind it, so none comes before one that is not NULL. -/
theorem eventHash_isSome_of_head (hl : rowView.Linked h rows)
    (hhead : (rowView.head h rows).isSome = true) : ∀ r ∈ rows, r.eventHash.isSome = true := by
  induction rows generalizing h with
  | nil => simp
  | cons r rows ih =>
    obtain ⟨-, -, htail⟩ := hl
    rw [LinkView.head_cons] at hhead
    rw [List.forall_mem_cons]
    refine ⟨?_, ih htail hhead⟩
    by_contra hnone
    have hr : rowView.headOf r = none := Option.not_isSome_iff_eq_none.mp hnone
    rw [hr] at htail hhead
    rw [head_none htail] at hhead
    cases hhead

/-- With finite instants no hash is NULL. -/
theorem eventHash_isSome_of_finite (hl : rowView.Linked h rows) (hh : h.isSome = true)
    (hfinite : ∀ r ∈ rows, (toChar r.eventTime).isSome = true) :
    ∀ r ∈ rows, r.eventHash.isSome = true := by
  induction rows generalizing h with
  | nil => simp
  | cons r rows ih =>
    obtain ⟨-, hhash, htail⟩ := hl
    rw [List.forall_mem_cons] at hfinite ⊢
    have hr : r.eventHash.isSome = true := by
      obtain ⟨prev, rfl⟩ := Option.isSome_iff_exists.mp hh
      obtain ⟨text, htext⟩ := Option.isSome_iff_exists.mp hfinite.1
      have hcomputed : r.eventHash = computedHash (some prev) (eventPayload r) := hhash
      simp [hcomputed, computedHash, eventPayload, htext]
    exact ⟨hr, ih htail hr hfinite.2⟩

theorem exists_hashedRow (hl : rowView.Linked h rows)
    (hsome : ∀ r ∈ rows, r.eventHash.isSome = true) {r : Row} (hr : r ∈ rows) :
    ∃ prev payload, HashedRow r prev payload := by
  have hdigest : r.eventHash = computedHash r.prevHash (eventPayload r) := hl.headOf_eq_digest hr
  have hhash := hsome r hr
  rw [hdigest] at hhash
  cases hprev : r.prevHash with
  | none => simp [computedHash, hprev] at hhash
  | some prev =>
    cases hpayload : eventPayload r with
    | none => simp [computedHash, hprev, hpayload] at hhash
    | some payload =>
      exact ⟨prev, payload, hprev, hpayload, by simp [hdigest, computedHash, hprev, hpayload]⟩

/-! ## Telling the first row apart -/

theorem not_hexDigit_separator : '|' ∉ Sha256.hexDigits := by decide

/-- A payload that begins with a digest has a type that does. -/
theorem beginsWithDigest_of_payload {r : Row} {text rest : String}
    (hpayload : eventPayload r = some (sha256Hex text ++ rest)) :
    BeginsWithDigest r.eventType := by
  obtain ⟨time, -, heq⟩ := Option.map_eq_some_iff.mp hpayload
  have hlist := congrArg String.toList heq
  have hmark : "|".toList = ['|'] := rfl
  simp only [String.toList_append, List.append_assoc, hmark, List.singleton_append] at hlist
  have hlen := length_toList_sha256Hex text
  rcases List.append_eq_append_iff.mp hlist with ⟨mid, hdigest, htail⟩ | ⟨mid, htype, -⟩
  · cases mid with
    | nil =>
      rw [List.append_nil] at hdigest
      refine ⟨by rw [← hdigest, hlen], fun c hc => ?_⟩
      exact sha256Hex_hexDigits text c (hdigest ▸ List.mem_of_mem_take hc)
    | cons c mid =>
      -- the separator after the type would be a digit of the digest
      have hsep : c = '|' := (List.cons.inj htail).1.symm
      have hmem : c ∈ (sha256Hex text).toList := by simp [hdigest]
      exact absurd (hsep ▸ sha256Hex_hexDigits text c hmem) not_hexDigit_separator
  · refine ⟨by rw [htype, List.length_append]; omega, fun c hc => ?_⟩
    rw [htype, List.take_left' hlen] at hc
    exact sha256Hex_hexDigits text c hc

/-- A hashed row of an accepted table: it names a digest, or nothing if it is the first, and
then it does not look as if it named a digest. -/
structure ChainedRow (r : Row) (prev payload : String) : Prop extends HashedRow r prev payload where
  prev_cases : (∃ text, prev = sha256Hex text) ∨ (prev = "" ∧ ¬ BeginsWithDigest r.eventType)

/-- Every row of an accepted table extends a head that was computed. -/
theorem exists_chainedRow {t : Table} (hvalid : (verifyChain t).valid = true)
    (hsome : ∀ r ∈ orderById t, r.eventHash.isSome = true) (hfirst : FirstTypePlain t) {r : Row}
    (hr : r ∈ orderById t) : ∃ prev payload, ChainedRow r prev payload := by
  have hl := (verifyChain_valid_iff t).mp hvalid
  obtain ⟨prev, payload, hrow⟩ := exists_hashedRow hl hsome hr
  refine ⟨prev, payload, hrow, ?_⟩
  cases hrows : orderById t with
  | nil => simp [hrows] at hr
  | cons first rest =>
    rw [hrows] at hl hr
    obtain ⟨hprev, -, hrest⟩ := id hl
    rcases List.mem_cons.mp hr with rfl | hmem
    · have hempty : some prev = some "" := hrow.prevHash_eq.symm.trans hprev
      exact .inr ⟨Option.some.inj hempty, hfirst r (by simp [hrows])⟩
    · -- the head before a later row is the hash of a row
      obtain ⟨s, hs, heq⟩ : ∃ s ∈ first :: rest, s.eventHash = r.prevHash := by
        rcases hrest.prevOf_mem hmem with hhead | hheads
        · exact ⟨first, List.mem_cons_self, hhead.symm⟩
        · obtain ⟨s, hs, heq⟩ := List.mem_map.mp hheads
          exact ⟨s, List.mem_cons_of_mem _ hs, heq⟩
      obtain ⟨p, text, hhashed⟩ := exists_hashedRow hl (hrows ▸ hsome) hs
      rw [hhashed.eventHash_eq, hrow.prevHash_eq] at heq
      exact .inl ⟨p ++ text, (Option.some.inj heq).symm⟩

/-- Rows with the same hash name the same hash before them and have the same payload. -/
theorem ChainedRow.eq_of_eventHash_eq {r s : Row} {p q text text' : String}
    (hr : ChainedRow r p text) (hs : ChainedRow s q text') {hashed : List String}
    (hcoll : CollisionFree hashed) (hmem : p ++ text ∈ hashed) (hmem' : q ++ text' ∈ hashed)
    (heq : r.eventHash = s.eventHash) : p = q ∧ text = text' := by
  rw [hr.eventHash_eq, hs.eventHash_eq, Option.some.injEq] at heq
  have hsame := hcoll _ hmem _ hmem' heq
  rcases hr.prev_cases with ⟨u, rfl⟩ | ⟨rfl, hplain⟩
  · rcases hs.prev_cases with ⟨v, rfl⟩ | ⟨rfl, hplain⟩
    · have hlist := congrArg String.toList hsame
      rw [String.toList_append, String.toList_append] at hlist
      obtain ⟨hfront, hback⟩ := List.append_inj hlist
        (by rw [length_toList_sha256Hex, length_toList_sha256Hex])
      exact ⟨String.toList_injective hfront, String.toList_injective hback⟩
    · rw [String.empty_append] at hsame
      exact absurd (beginsWithDigest_of_payload (hsame ▸ hs.payload_eq)) hplain
  · rcases hs.prev_cases with ⟨v, rfl⟩ | ⟨rfl, -⟩
    · rw [String.empty_append] at hsame
      exact absurd (beginsWithDigest_of_payload (hsame ▸ hr.payload_eq)) hplain
    · exact ⟨rfl, by simpa using hsame⟩

theorem ChainedRow.mem_verifiedStrings {r : Row} {prev payload : String}
    (hrow : ChainedRow r prev payload) {t : Table} (hr : r ∈ orderById t) :
    prev ++ payload ∈ verifiedStrings t :=
  List.mem_filterMap.mpr ⟨r, hr, hrow.hashedByVerifier_eq⟩

theorem ChainedRow.eventHash_ne_empty {r : Row} {prev payload : String}
    (hrow : ChainedRow r prev payload) : rowView.headOf r ≠ some "" := by
  change r.eventHash ≠ some ""
  rw [hrow.eventHash_eq]
  exact fun heq => sha256Hex_ne_empty _ (Option.some.inj heq)

/-- Rows of two such tables with the same hash have the same hash before them and the same
payload. -/
theorem links_eq_of_eventHash_eq {t t' : Table} {hashed : List String}
    (hcoll : CollisionFree hashed) (hsub : ∀ u ∈ verifiedStrings t, u ∈ hashed)
    (hsub' : ∀ u ∈ verifiedStrings t', u ∈ hashed)
    (hrows : ∀ r ∈ orderById t, ∃ prev payload, ChainedRow r prev payload)
    (hrows' : ∀ r ∈ orderById t', ∃ prev payload, ChainedRow r prev payload) :
    ∀ r ∈ orderById t, ∀ s ∈ orderById t', r.eventHash = s.eventHash →
      r.prevHash = s.prevHash ∧ eventPayload r = eventPayload s := by
  intro r hr s hs heq
  obtain ⟨p, text, hchained⟩ := hrows r hr
  obtain ⟨q, text', hchained'⟩ := hrows' s hs
  obtain ⟨rfl, rfl⟩ := hchained.eq_of_eventHash_eq hchained' hcoll
    (hsub _ (hchained.mem_verifiedStrings hr)) (hsub' _ (hchained'.mem_verifiedStrings hs)) heq
  exact ⟨hchained.prevHash_eq.trans hchained'.prevHash_eq.symm,
    hchained.payload_eq.trans hchained'.payload_eq.symm⟩

/-! ## The last hash -/

theorem head_eq_lastHash {t : Table} {d : String} (h : lastHash t = some d) :
    rowView.head (some "") (orderById t) = some d := by
  unfold lastHash at h
  rw [rowView.head_eq_getLast]
  cases hrows : orderById t using List.reverseRecOn with
  | nil => simp [hrows] at h
  | append_singleton rows r =>
    rw [hrows] at h
    have hlast : r.eventHash = some d := by simpa using h
    have hr : rowView.headOf r = some d := hlast
    simp [hr]

theorem exists_chainedRow_of_lastHash {t : Table} (hvalid : (verifyChain t).valid = true)
    {d : String} (hlast : lastHash t = some d) (hfirst : FirstTypePlain t) :
    ∀ r ∈ orderById t, ∃ prev payload, ChainedRow r prev payload := by
  intro r hr
  have hl := (verifyChain_valid_iff t).mp hvalid
  have hhead : (rowView.head (some "") (orderById t)).isSome = true := by
    rw [head_eq_lastHash hlast]
    rfl
  exact exists_chainedRow hvalid (eventHash_isSome_of_head hl hhead) hfirst hr

/-- Two accepted tables with the same last hash have as many rows as each other, and the same
payload in every place. -/
theorem payloads_eq_of_lastHash_eq (t t' : Table) (d : String)
    (hvalid : (verifyChain t).valid = true) (hvalid' : (verifyChain t').valid = true)
    (hlast : lastHash t = some d) (hlast' : lastHash t' = some d)
    (hcoll : CollisionFree (verifiedStrings t ++ verifiedStrings t'))
    (hfirst : FirstTypePlain t) (hfirst' : FirstTypePlain t') :
    t.length = t'.length ∧
      (orderById t).map eventPayload = (orderById t').map eventPayload := by
  have hrows := exists_chainedRow_of_lastHash hvalid hlast hfirst
  have hrows' := exists_chainedRow_of_lastHash hvalid' hlast' hfirst'
  have hpayloads : (orderById t).map eventPayload = (orderById t').map eventPayload := by
    refine LinkView.Linked.map_key_eq ((verifyChain_valid_iff t).mp hvalid)
      ((verifyChain_valid_iff t').mp hvalid') ?_ ?_ ?_ ?_
    · exact links_eq_of_eventHash_eq hcoll (fun u hu => List.mem_append_left _ hu)
        (fun u hu => List.mem_append_right _ hu) hrows hrows'
    · intro r hr
      obtain ⟨prev, payload, hchained⟩ := hrows r hr
      exact hchained.eventHash_ne_empty
    · intro r hr
      obtain ⟨prev, payload, hchained⟩ := hrows' r hr
      exact hchained.eventHash_ne_empty
    · rw [head_eq_lastHash hlast, head_eq_lastHash hlast']
  refine ⟨?_, hpayloads⟩
  simpa using congrArg List.length hpayloads

/-- The row with the hash that the verifier computes for it. -/
def hashed (r : Row) : Row := { r with eventHash := computedHash r.prevHash (eventPayload r) }

theorem hashed_eventHash (r : Row) :
    (hashed r).eventHash = computedHash (hashed r).prevHash (eventPayload (hashed r)) := rfl

/-- A row for after the hash `prev`, with all other columns NULL. -/
def nextRow (id : Int) (eventType prev : String) : Row := hashed
  { id := id, eventType := eventType, eventTime := .finite 0, success := true
    sessionUser := none, clientAddr := none, clientPort := none, database := none, pid := none
    application := none, commandTag := none, objectType := none, objectName := none
    schemaName := none, queryText := none, sqlstate := none, detail := none
    prevHash := some prev, eventHash := none }

theorem nextRow_eventHash (id : Int) (eventType prev : String) :
    (nextRow id eventType prev).eventHash = computedHash (nextRow id eventType prev).prevHash
      (eventPayload (nextRow id eventType prev)) := hashed_eventHash _

def firstHash : String := (nextRow 1 "A" "").eventHash.getD ""

def twoRows (id : Int) : Table := [nextRow id "A" "", nextRow (id + 1) "B" firstHash]

def secondHash : String := (nextRow 2 "B" firstHash).eventHash.getD ""

theorem orderById_twoRows (id : Int) : orderById (twoRows id) = twoRows id := by
  have hlt : id ≤ id + 1 := by omega
  exact orderById_eq_self (by simp [twoRows, nextRow, hashed, hlt])

theorem verifyChain_twoRows (id : Int) : (verifyChain (twoRows id)).valid = true := by
  rw [verifyChain_valid_iff, orderById_twoRows]
  exact ⟨rfl, nextRow_eventHash id "A" "", rfl, nextRow_eventHash (id + 1) "B" firstHash, trivial⟩

theorem lastHash_twoRows (id : Int) : lastHash (twoRows id) = some secondHash := by
  rw [lastHash, orderById_twoRows]
  rfl

theorem firstTypePlain_twoRows (id : Int) : FirstTypePlain (twoRows id) := by
  rw [FirstTypePlain, orderById_twoRows]
  simp [twoRows, nextRow, hashed, BeginsWithDigest]

theorem collisionFree_twoRows {texts : List String}
    (h : ∀ u ∈ texts, ∃ id, u ∈ verifiedStrings (twoRows id)) : CollisionFree texts := by
  have hne : sha256Hex "A|1970-01-01T00:00:00.000Z||||" ≠
      sha256Hex (firstHash ++ "B|1970-01-01T00:00:00.000Z||||") := by decide +kernel
  refine collisionFree_of_pair hne fun u hu => ?_
  obtain ⟨id, hmem⟩ := h u hu
  have htime : toChar (.finite 0) = some "1970-01-01T00:00:00.000Z" := by decide
  rw [verifiedStrings, orderById_twoRows] at hmem
  simp only [twoRows, nextRow, hashed, hashedByVerifier, eventPayload, htime, List.filterMap_cons,
    List.filterMap_nil, Option.map_some, Option.bind_some, List.mem_cons, List.not_mem_nil,
    or_false] at hmem
  rcases hmem with rfl | rfl
  · exact .inl rfl
  · exact .inr rfl

theorem payloads_eq_twoRows :
    (twoRows 1).length = (twoRows 5).length ∧
      (orderById (twoRows 1)).map eventPayload = (orderById (twoRows 5)).map eventPayload :=
  payloads_eq_of_lastHash_eq (twoRows 1) (twoRows 5) secondHash
    (verifyChain_twoRows 1) (verifyChain_twoRows 5) (lastHash_twoRows 1) (lastHash_twoRows 5)
    (collisionFree_twoRows fun _ hu => (List.mem_append.mp hu).elim (fun h => ⟨1, h⟩)
      fun h => ⟨5, h⟩)
    (firstTypePlain_twoRows 1) (firstTypePlain_twoRows 5)

/-! ## Rows taken from an accepted table -/

def content (r : Row) : Row := { r with id := 0 }

theorem linked_map_content (h : Option String) (rows : Table) :
    rowView.Linked h (rows.map content) ↔ rowView.Linked h rows :=
  rowView.linked_map (f := content) (fun _ => rfl) (fun _ => rfl) (fun _ _ => rfl) h rows

theorem links_eq_of_content_eq {r s : Row} (h : content r = content s) :
    r.prevHash = s.prevHash ∧ r.eventHash = s.eventHash := by
  have hprev := congrArg Row.prevHash h
  have hhash := congrArg Row.eventHash h
  exact ⟨hprev, hhash⟩

/-- Of the tables made of rows of an accepted table, under whatever ids, exactly its fronts are
accepted. -/
theorem drawn_accepted_iff_prefix (t t' : Table) (partitions : List PartitionBounds)
    (hvalid : (verifyChain t).valid = true) (hrouted : Routed partitions t)
    (hcoll : CollisionFree (verifiedStrings t)) (hfirst : FirstTypePlain t)
    (hdrawn : ∀ s ∈ t', ∃ r ∈ t, content r = content s) :
    (verifyChain t').valid = true ↔
      (orderById t').map content <+: (orderById t).map content := by
  have hl := (verifyChain_valid_iff t).mp hvalid
  have hsome := eventHash_isSome_of_finite hl rfl
    fun r hr => hrouted.toChar_isSome (mem_orderById.mp hr)
  have hrows : ∀ r ∈ orderById t, ∃ prev payload, ChainedRow r prev payload :=
    fun r hr => exists_chainedRow hvalid hsome hfirst hr
  have hnodup : (some "" :: (orderById t).map rowView.headOf).Nodup := by
    refine hl.nodup_heads ?_ ?_
    · intro r hr s hs heq
      exact (links_eq_of_eventHash_eq hcoll (fun u hu => hu) (fun u hu => hu) hrows hrows
        r hr s hs heq).1
    · intro r hr
      obtain ⟨prev, payload, hchained⟩ := hrows r hr
      exact hchained.eventHash_ne_empty
  rw [verifyChain_valid_iff]
  constructor
  · intro hl'
    refine hl.prefix_of_drawn hl' hnodup ?_
    intro s hs
    obtain ⟨r, hr, heq⟩ := hdrawn s (mem_orderById.mp hs)
    exact ⟨r, mem_orderById.mpr hr, heq, links_eq_of_content_eq heq⟩
  · rintro ⟨back, hback⟩
    have hfront := (linked_map_content _ _).mpr hl
    rw [← hback] at hfront
    exact (linked_map_content _ _).mp hfront.of_append_left

/-- The second row alone, under the id of the first one. -/
theorem drawn_accepted_twoRows :
    (verifyChain [nextRow 1 "B" firstHash]).valid = true ↔
      (orderById [nextRow 1 "B" firstHash]).map content <+: (orderById (twoRows 1)).map content :=
  drawn_accepted_iff_prefix (twoRows 1) [nextRow 1 "B" firstHash] [⟨0, 2678400000000⟩]
    (verifyChain_twoRows 1) (by decide) (collisionFree_twoRows fun _ hu => ⟨1, hu⟩)
    (firstTypePlain_twoRows 1) fun s hs => by
      obtain rfl := List.mem_singleton.mp hs
      exact ⟨nextRow 2 "B" firstHash, by simp [twoRows], rfl⟩

end VibeAudit.Chain
