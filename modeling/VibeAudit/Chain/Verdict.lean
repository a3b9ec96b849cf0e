import VibeAudit.Extension.VerifyChain

/-!
# The verdict of `verify_chain`

A declarative reading of the three OUT parameters: a row holds when it names the
hash of the row before it and carries the digest of that hash and its payload,
no part of it NULL. The verdict is that every row holds, or it names the first
row that does not.
-/

namespace VibeAudit.Chain

open Foundation Extension

/-- The hash that the row at a place has to name. -/
def hashBefore (rows : List Row) : Nat → Option String
  | 0 => some ""
  | i + 1 => rows[i]?.bind Row.eventHash

/-- The row at a place names the hash before it and carries its own. -/
def RowHolds (rows : List Row) (i : Nat) : Prop :=
  ∃ r prev text, rows[i]? = some r ∧ hashBefore rows i = some prev ∧ r.prevHash = some prev ∧
    eventPayload r = some text ∧ r.eventHash = some (sha256Hex (prev ++ text))

theorem hashBefore_append {rows : List Row} {i : Nat} (h : i ≤ rows.length) (new : List Row) :
    hashBefore (rows ++ new) i = hashBefore rows i := by
  cases i with
  | zero => rfl
  | succ i => rw [hashBefore, hashBefore, List.getElem?_append_left (by omega)]

theorem hashBefore_length (rows : List Row) :
    hashBefore rows rows.length = rowView.head (some "") rows := by
  induction rows using List.reverseRecOn with
  | nil => rfl
  | append_singleton rows r _ =>
    rw [rowView.head_append, List.length_append, List.length_singleton, hashBefore,
      List.getElem?_concat_length]
    rfl

/-- Whether a row holds is a matter of the rows up to it. -/
theorem rowHolds_append {rows : List Row} {i : Nat} (h : i < rows.length) (new : List Row) :
    RowHolds (rows ++ new) i ↔ RowHolds rows i := by
  rw [RowHolds, RowHolds, hashBefore_append h.le, List.getElem?_append_left h]

theorem rowHolds_concat (rows : List Row) (r : Row) :
    RowHolds (rows ++ [r]) rows.length ↔ ∃ prev text, rowView.head (some "") rows = some prev ∧
      r.prevHash = some prev ∧ eventPayload r = some text ∧
      r.eventHash = some (sha256Hex (prev ++ text)) := by
  rw [RowHolds, hashBefore_append le_rfl, hashBefore_length, List.getElem?_concat_length]
  constructor
  · rintro ⟨_, prev, text, hr, h⟩
    obtain rfl := Option.some.inj hr
    exact ⟨prev, text, h⟩
  · rintro ⟨prev, text, h⟩
    exact ⟨r, prev, text, rfl, h⟩

def FiniteTimes (rows : List Row) : Prop := ∀ r ∈ rows, ∃ micros, r.eventTime = .finite micros

theorem FiniteTimes.exists_payload {rows : List Row} (h : FiniteTimes rows) {r : Row}
    (hr : r ∈ rows) :
    ∃ text, eventPayload r = some text := by
  obtain ⟨time, htime⟩ := Option.isSome_iff_exists.mp ((toChar_isSome_iff r.eventTime).mpr (h r hr))
  exact ⟨_, by rw [eventPayload, htime, Option.map_some]⟩

/-- The head of linked rows is no NULL. -/
theorem FiniteTimes.exists_head {rows : List Row} (h : FiniteTimes rows)
    (hlinked : rowView.Linked (some "") rows) :
    ∃ prev, rowView.head (some "") rows = some prev := by
  induction rows using List.reverseRecOn with
  | nil => exact ⟨"", rfl⟩
  | append_singleton rows r ih =>
    obtain ⟨hfront, -, hhash, -⟩ := (rowView.linked_append _ _ _).mp hlinked
    obtain ⟨prev, hprev⟩ := ih (fun a ha => h a (List.mem_append_left _ ha)) hfront
    obtain ⟨text, htext⟩ := h.exists_payload (r := r) (by simp)
    have hhead : rowView.head (some "") (rows ++ [r]) =
        computedHash (rowView.head (some "") rows) (eventPayload r) := by
      rw [rowView.head_append]
      exact hhash
    exact ⟨sha256Hex (prev ++ text), by rw [hhead, hprev, htext]; rfl⟩

/-- The rows hold one by one exactly when they are linked. -/
theorem rowHolds_iff_linked {rows : List Row} (h : FiniteTimes rows) :
    (∀ i < rows.length, RowHolds rows i) ↔ rowView.Linked (some "") rows := by
  induction rows using List.reverseRecOn with
  | nil => simp
  | append_singleton rows r ih =>
    have hfront : FiniteTimes rows := fun a ha => h a (List.mem_append_left _ ha)
    obtain ⟨text, htext⟩ := h.exists_payload (r := r) (by simp)
    have hsplit : (∀ i < (rows ++ [r]).length, RowHolds (rows ++ [r]) i) ↔
        (∀ i < rows.length, RowHolds rows i) ∧ RowHolds (rows ++ [r]) rows.length := by
      rw [List.length_append, List.length_singleton, Nat.forall_lt_succ_right]
      refine and_congr_left fun _ => forall₂_congr fun i hi => ?_
      exact rowHolds_append hi [r]
    rw [hsplit, ih hfront, rowView.linked_append, rowHolds_concat]
    refine and_congr_right fun hlinked => ?_
    constructor
    · rintro ⟨prev, text', hhead, hprev, htext', hhash⟩
      refine ⟨hprev.trans hhead.symm, ?_, trivial⟩
      change r.eventHash = computedHash _ (eventPayload r)
      rw [hhash, hhead, htext']
      rfl
    · rintro ⟨hprev, hhash, -⟩
      have hprev' : r.prevHash = rowView.head (some "") rows := hprev
      have hhash' : r.eventHash = computedHash (rowView.head (some "") rows) (eventPayload r) :=
        hhash
      obtain ⟨prev, hhead⟩ := hfront.exists_head hlinked
      refine ⟨prev, text, hhead, hprev'.trans hhead, htext, ?_⟩
      rw [hhash', hhead, htext]
      rfl

/-- If a row does not hold, there is a first one. -/
theorem exists_first_fault {rows : List Row} (h : ¬ ∀ i < rows.length, RowHolds rows i) :
    ∃ front r back, rows = front ++ r :: back ∧ ¬ RowHolds rows front.length ∧
      ∀ j < front.length, RowHolds rows j := by
  classical
  have hexists : ∃ i, i < rows.length ∧ ¬ RowHolds rows i := by
    by_contra hnone
    exact h fun i hi => by_contra fun hfault => hnone ⟨i, hi, hfault⟩
  obtain ⟨hlt, hfault⟩ := Nat.find_spec hexists
  have hfirst : ∀ j < Nat.find hexists, RowHolds rows j := by
    intro j hj
    by_contra hbroken
    exact Nat.find_min hexists hj ⟨hj.trans hlt, hbroken⟩
  have hlength : (rows.take (Nat.find hexists)).length = Nat.find hexists := by
    rw [List.length_take]
    omega
  refine ⟨rows.take (Nat.find hexists), rows[Nat.find hexists], rows.drop (Nat.find hexists + 1),
    ?_, ?_, ?_⟩
  · rw [← List.drop_eq_getElem_cons hlt, List.take_append_drop]
  · rwa [hlength]
  · rwa [hlength]

/-- The verdict on a table one of whose rows does not hold. -/
theorem verifyChain_of_fault {t : Table} (htimes : FiniteTimes t)
    {front back : List Row} {r : Row} (hrows : orderById t = front ++ r :: back)
    (hfault : ¬ RowHolds (orderById t) front.length)
    (hfirst : ∀ j < front.length, RowHolds (orderById t) j) :
    verifyChain t =
      { checkedCount := front.length + 1, valid := false, firstBrokenId := some r.id } := by
  have hfinite : FiniteTimes (front ++ r :: back) := by
    rw [← hrows]
    exact fun a ha => htimes a (mem_orderById.mp ha)
  have hlinked : rowView.Linked (some "") front := by
    rw [← rowHolds_iff_linked fun a ha => hfinite a (List.mem_append_left _ ha)]
    intro j hj
    have hholds := hfirst j hj
    rwa [hrows, rowHolds_append hj] at hholds
  have hsplit : front ++ r :: back = front ++ [r] ++ back := by simp
  rw [verifyChain, hrows, verifyLoop_of_fault hlinked, Nat.zero_add]
  rintro ⟨hprev, hhash⟩
  obtain ⟨prev, hhead⟩ := FiniteTimes.exists_head
    (fun a ha => hfinite a (List.mem_append_left _ ha)) hlinked
  obtain ⟨text, htext⟩ := hfinite.exists_payload (r := r) (by simp)
  apply hfault
  rw [hrows, hsplit, rowHolds_append (by simp), rowHolds_concat]
  refine ⟨prev, text, hhead, hprev.trans hhead, htext, ?_⟩
  rw [hhash, hhead, htext]
  rfl

/-- `verify_chain` accepts a table exactly when every row holds, and otherwise names the first row
that does not; rows appended behind it change nothing. -/
theorem verifyChain_names_first_fault (t : Table) (htimes : FiniteTimes t) :
    ((verifyChain t).valid = true ↔ ∀ i < t.length, RowHolds (orderById t) i) ∧
    ((∀ i < t.length, RowHolds (orderById t) i) → verifyChain t =
      { checkedCount := t.length, valid := true, firstBrokenId := none }) ∧
    ((¬ ∀ i < t.length, RowHolds (orderById t) i) → ∃ i r, (orderById t)[i]? = some r ∧
      ¬ RowHolds (orderById t) i ∧ (∀ j < i, RowHolds (orderById t) j) ∧ verifyChain t =
        { checkedCount := i + 1, valid := false, firstBrokenId := some r.id }) ∧
    ∀ new : Table, (∀ a ∈ t, ∀ b ∈ new, a.id < b.id) → (verifyChain t).valid = false →
      verifyChain (t ++ new) = verifyChain t := by
  have hfinite : FiniteTimes (orderById t) := fun a ha => htimes a (mem_orderById.mp ha)
  rw [← orderById_length t]
  refine ⟨?_, ?_, ?_, ?_⟩
  · rw [verifyChain_valid_iff, rowHolds_iff_linked hfinite]
  · intro h
    rw [orderById_length]
    exact verifyChain_of_linked ((rowHolds_iff_linked hfinite).mp h)
  · intro h
    obtain ⟨front, r, back, hrows, hfault, hfirst⟩ := exists_first_fault h
    refine ⟨front.length, r, ?_, hfault, hfirst, verifyChain_of_fault htimes hrows hfault hfirst⟩
    rw [hrows, List.getElem?_append_right le_rfl, Nat.sub_self]
    rfl
  · intro new hlt hinvalid
    rw [verifyChain, orderById_append hlt]
    exact verifyLoop_append_of_fault hinvalid _

def orphanRow : Row where
  id := 7
  eventType := "DDL"
  eventTime := .finite 0
  success := true
  sessionUser := some "postgres"
  clientAddr := none
  clientPort := none
  database := some "vibesql"
  pid := none
  application := none
  commandTag := some "CREATE TABLE"
  objectType := none
  objectName := none
  schemaName := none
  queryText := none
  sqlstate := none
  detail := none
  prevHash := some (sha256Hex "")
  eventHash := none

theorem verifyChain_names_first_fault_orphan :
    (∃ i r, (orderById [orphanRow])[i]? = some r ∧ ¬ RowHolds (orderById [orphanRow]) i ∧
      (∀ j < i, RowHolds (orderById [orphanRow]) j) ∧ verifyChain [orphanRow] =
        { checkedCount := i + 1, valid := false, firstBrokenId := some r.id }) ∧
    verifyChain ([orphanRow] ++ [{ orphanRow with id := 8 }]) = verifyChain [orphanRow] := by
  have htimes : FiniteTimes [orphanRow] := by
    intro r hr
    obtain rfl := List.mem_singleton.mp hr
    exact ⟨0, rfl⟩
  have hinvalid : (verifyChain [orphanRow]).valid = false := by
    have hprev : orphanRow.prevHash ≠ some "" := by
      intro h
      exact sha256Hex_ne_empty "" (Option.some.inj h)
    have horder : orderById [orphanRow] = [orphanRow] := rfl
    rw [verifyChain, horder, verifyLoop, if_pos hprev]
  obtain ⟨hvalid, -, hfault, happend⟩ := verifyChain_names_first_fault [orphanRow] htimes
  refine ⟨hfault fun h => ?_, happend _ ?_ hinvalid⟩
  · rw [hvalid.mpr h] at hinvalid
    cases hinvalid
  · simp [orphanRow]

end VibeAudit.Chain
