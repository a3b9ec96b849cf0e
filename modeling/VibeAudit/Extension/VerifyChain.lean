import VibeAudit.Extension.Events
import VibeAudit.Foundation.HashLink
import VibeAudit.Foundation.Sha256

/-!
# `vibe_audit.verify_chain`

The loop of the SQL function, with NULL as `none`: `IS DISTINCT FROM` is
inequality of optional values, and concatenation with NULL is NULL. The rows it
accepts are the hash-linked ones, read through `rowView`.
-/

namespace VibeAudit.Extension

open Foundation

/-- The column `event_payload` of the cursor; NULL when the instant is infinite. -/
def eventPayload (r : Row) : Option String :=
  (toChar r.eventTime).map fun time =>
    r.eventType ++ "|" ++ time ++ "|" ++ r.sessionUser.getD "" ++ "|" ++ r.database.getD "" ++
      "|" ++ r.commandTag.getD "" ++ "|" ++ r.queryText.getD ""

/-- The OUT parameters. -/
structure Verdict where
  checkedCount : Nat
  valid : Bool
  firstBrokenId : Option Int
  deriving DecidableEq, Repr

/-- `encode(digest(prev || event_payload, 'sha256'), 'hex')`. -/
def computedHash (prev payload : Option String) : Option String :=
  prev.bind fun p => payload.map fun text => sha256Hex (p ++ text)

/-- The FOR loop from a row on, with the variables `prev` and `row_count` before it. -/
def verifyLoop (prev : Option String) (rowCount : Nat) : List Row → Verdict
  | [] => { checkedCount := rowCount, valid := true, firstBrokenId := none }
  | rec :: rows =>
    if rec.prevHash ≠ prev then
      { checkedCount := rowCount + 1, valid := false, firstBrokenId := some rec.id }
    else if rec.eventHash ≠ computedHash prev (eventPayload rec) then
      { checkedCount := rowCount + 1, valid := false, firstBrokenId := some rec.id }
    else verifyLoop rec.eventHash (rowCount + 1) rows

def verifyChain (t : Table) : Verdict := verifyLoop (some "") 0 (orderById t)

/-- How the verifier reads a stored row as a record of a hash chain. -/
def rowView : LinkView Row (Option String) where
  prevOf := Row.prevHash
  headOf := Row.eventHash
  digest prev r := computedHash prev (eventPayload r)

/-- The loop runs to the end of linked rows. -/
theorem verifyLoop_of_linked {prev : Option String} {rows : List Row}
    (h : rowView.Linked prev rows) (n : Nat) :
    verifyLoop prev n rows =
      { checkedCount := n + rows.length, valid := true, firstBrokenId := none } := by
  induction rows generalizing prev n with
  | nil => rfl
  | cons r rows ih =>
    obtain ⟨hprev, hhead, htail⟩ := h
    have hlink : r.prevHash = prev := hprev
    have hhash : r.eventHash = computedHash prev (eventPayload r) := hhead
    have hrest : rowView.Linked r.eventHash rows := htail
    rw [verifyLoop, if_neg (not_not.mpr hlink), if_neg (not_not.mpr hhash), ih hrest (n + 1)]
    simp only [List.length_cons]
    congr 1
    omega

/-- The loop stops at the first row that breaks the links of the rows before it. -/
theorem verifyLoop_of_fault {prev : Option String} {front : List Row}
    (h : rowView.Linked prev front) {rec : Row}
    (hfault : ¬ (rec.prevHash = rowView.head prev front ∧
      rec.eventHash = computedHash (rowView.head prev front) (eventPayload rec)))
    (back : List Row) (n : Nat) :
    verifyLoop prev n (front ++ rec :: back) =
      { checkedCount := n + front.length + 1, valid := false, firstBrokenId := some rec.id } := by
  induction front generalizing prev n with
  | nil =>
    rw [List.nil_append, verifyLoop]
    by_cases hprev : rec.prevHash = prev
    · have hhash : rec.eventHash ≠ computedHash prev (eventPayload rec) :=
        fun heq => hfault ⟨hprev, heq⟩
      rw [if_neg (not_not.mpr hprev), if_pos hhash]
      rfl
    · rw [if_pos hprev]
      rfl
  | cons r front ih =>
    obtain ⟨hprev, hhead, htail⟩ := h
    have hlink : r.prevHash = prev := hprev
    have hhash : r.eventHash = computedHash prev (eventPayload r) := hhead
    have hrest := ih htail hfault (n + 1)
    have hcount : n + 1 + front.length + 1 = n + (r :: front).length + 1 := by
      rw [List.length_cons]
      omega
    rw [List.cons_append, verifyLoop, if_neg (not_not.mpr hlink), if_neg (not_not.mpr hhash),
      ← hcount]
    exact hrest

/-- Rows behind a fault are not looked at. -/
theorem verifyLoop_append_of_fault {prev : Option String} {n : Nat} {rows : List Row}
    (h : (verifyLoop prev n rows).valid = false) (new : List Row) :
    verifyLoop prev n (rows ++ new) = verifyLoop prev n rows := by
  induction rows generalizing prev n with
  | nil => cases h
  | cons r rows ih =>
    rw [verifyLoop] at h
    rw [List.cons_append, verifyLoop, verifyLoop]
    split_ifs at h ⊢
    · rfl
    · rfl
    · exact ih h

/-- Two rows that `verify_chain` cannot tell apart: the cursor reads the same of them. -/
structure SameCursor (r s : Row) : Prop where
  id_eq : s.id = r.id
  prevHash_eq : s.prevHash = r.prevHash
  eventHash_eq : s.eventHash = r.eventHash
  payload_eq : eventPayload s = eventPayload r

theorem verifyLoop_congr {rows rows' : List Row} (h : List.Forall₂ SameCursor rows rows')
    (prev : Option String) (n : Nat) : verifyLoop prev n rows' = verifyLoop prev n rows := by
  induction h generalizing prev n with
  | nil => rfl
  | cons hrow _ ih =>
    rw [verifyLoop, verifyLoop, hrow.id_eq, hrow.prevHash_eq, hrow.eventHash_eq, hrow.payload_eq,
      ih]

/-- The verdict depends only on what the cursor reads, in id order. -/
theorem verifyChain_congr {t t' : Table}
    (h : List.Forall₂ SameCursor (orderById t) (orderById t')) : verifyChain t' = verifyChain t :=
  verifyLoop_congr h _ _

/-- It accepts exactly the linked ones. -/
theorem verifyLoop_valid_iff (prev : Option String) (n : Nat) (rows : List Row) :
    (verifyLoop prev n rows).valid = true ↔ rowView.Linked prev rows := by
  induction rows generalizing prev n with
  | nil => simp [verifyLoop]
  | cons r rows ih =>
    rw [verifyLoop, LinkView.linked_cons]
    split_ifs with hprev hhash
    · refine iff_of_false not_false ?_
      exact fun h => hprev h.1
    · refine iff_of_false not_false ?_
      exact fun h => hhash h.2.1
    · rw [ih]
      exact ⟨fun h => ⟨not_not.mp hprev, not_not.mp hhash, h⟩, fun h => h.2.2⟩

/-- The verifier accepts a table exactly when its rows in id order are hash-linked. -/
theorem verifyChain_valid_iff (t : Table) :
    (verifyChain t).valid = true ↔ rowView.Linked (some "") (orderById t) :=
  verifyLoop_valid_iff _ _ _

theorem verifyChain_of_linked {t : Table} (h : rowView.Linked (some "") (orderById t)) :
    verifyChain t =
      { checkedCount := t.length, valid := true, firstBrokenId := none } := by
  rw [verifyChain, verifyLoop_of_linked h, Nat.zero_add, orderById_length]

/-- The head of an accepted table that is not empty is no empty string: it is a digest,
or NULL where the instant or an earlier head is. -/
theorem head_ne_empty {rows : List Row} {h : Option String} (hl : rowView.Linked h rows)
    (hne : rows ≠ []) : rowView.head h rows ≠ some "" := by
  obtain ⟨r, hr, hhead⟩ := rowView.exists_head_eq hne h
  obtain ⟨d, hd⟩ := hl.exists_digest hr
  rw [hhead, hd]
  change computedHash d (eventPayload r) ≠ some ""
  cases d with
  | none => simp [computedHash]
  | some p =>
    cases eventPayload r with
    | none => simp [computedHash]
    | some text => simpa [computedHash] using sha256Hex_ne_empty (p ++ text)

end VibeAudit.Extension
