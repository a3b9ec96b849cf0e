import VibeAudit.Delivery.Capture

/-!
# Capture that starts again

`run` starts `run_inner` again after every error. What a poll returns has left
the slot, so a restart repeats nothing; and since an error ends the loop only
between two polls, it loses nothing that was returned. Changes are lost where
the reply of a poll does not arrive, and where no slot holds them. They are read
again where a crash of the database sets the slot back.
-/

namespace VibeAudit.Delivery

open Foundation Json Forwarder

/-- The changes that have left the slot, those it still holds, if it exists, and the capture:
whether `run_inner` has a client and is in its loop, the rows of the last poll, and what it shares
with the other tasks. -/
structure Restarting where
  behind : List SlotRow
  slot : Option (List SlotRow)
  polling : Bool
  fetched : List SlotRow
  capture : Capture

/-- How the statements in front of the loop end: one fails, the slot is created and the reply is
lost, or the loop is entered. -/
inductive StartOutcome where
  | failed
  | createdUnheard
  | entered

/-- How a poll ends: it fails, it takes `n` changes out of the slot and the reply is lost, or it
returns them. -/
inductive PollOutcome where
  | failed
  | unheard (n : Nat)
  | returned (n : Nat)

/-- Someone else commits a change or drops the slot, a crash of the database sets the slot back over
`n` changes, or the capture goes on. -/
inductive RestartAction where
  | commit (row : SlotRow)
  | dropSlot
  | rewind (n : Nat)
  | start (outcome : StartOutcome)
  | poll (outcome : PollOutcome)
  | handle (registry : SensitiveFieldRegistry) (now : String)

namespace Restarting

def new (behind : List SlotRow) (slot : Option (List SlotRow)) : Restarting where
  behind := behind
  slot := slot
  polling := false
  fetched := []
  capture := ⟨"", 0, [], true, false⟩

def waiting (s : Restarting) : List SlotRow := s.slot.getD []

def start (s : Restarting) : StartOutcome → Option Restarting
  | .failed => some s
  | .createdUnheard => if s.slot.isSome then none else some { s with slot := some [] }
  | .entered => some { s with slot := some s.waiting, polling := true }

def poll (s : Restarting) : PollOutcome → Option Restarting
  | .failed => some { s with polling := false }
  | .unheard n =>
    s.slot.map fun rows => { s with
      behind := s.behind ++ rows.take n, slot := some (rows.drop n), polling := false }
  | .returned n =>
    s.slot.map fun rows => { s with
      behind := s.behind ++ rows.take n, slot := some (rows.drop n), fetched := rows.take n }

variable (fromStr : String → Option Value)

/-- Nothing is kept of a change that is committed while there is no slot. -/
def step (s : Restarting) : RestartAction → Option Restarting
  | .commit row => some { s with slot := s.slot.map fun rows => rows ++ [row] }
  | .dropSlot => some { s with behind := [], slot := none }
  | .rewind n =>
    -- it shows at the next poll, so there are no fetched rows left
    if s.fetched.isEmpty then
      s.slot.map fun rows => { s with
        behind := s.behind.rdrop n, slot := some (s.behind.rtake n ++ rows) }
    else none
  | .start outcome => if s.polling then none else s.start outcome
  | .poll outcome => if s.polling && s.fetched.isEmpty then s.poll outcome else none
  | .handle registry now =>
    match s.fetched with
    | [] => none
    | row :: rows =>
      some { s with fetched := rows, capture := s.capture.handleRow fromStr ⟨row, registry, now⟩ }

def kept (s : Restarting) : RestartAction → List SlotRow
  | .commit row => if s.slot.isSome then [row] else []
  | _ => []

/-- The changes that leave the slot unheard. -/
def lost (s : Restarting) : RestartAction → List SlotRow
  | .dropSlot => s.waiting
  | .poll (.unheard n) => s.waiting.take n
  | _ => []

def again (s : Restarting) : RestartAction → List SlotRow
  | .rewind n => s.behind.rtake n
  | _ => []

end Restarting

/-- What became of the changes. What is sent are the events of those read. Read, fetched or in the
slot are changes that have been kept, or that were behind its position at the beginning; all that
were kept if none is lost, and no more than these, in their order, if none came again. -/
structure Accounts (fromStr : String → Option Value) (s : Restarting)
    (behind kept lost again : List SlotRow) (reads : List ReadRow) : Prop where
  sent : s.capture.sent = reads.flatMap (ReadRow.events fromStr)
  counted : s.capture.walEventCount = UInt64.ofNat s.capture.sent.length
  running : s.capture.receiver = true ∧ s.capture.returned = false
  genuine : s.behind ++ (reads.map ReadRow.row ++ s.fetched ++ s.waiting) ⊆ behind ++ kept
  covered : lost = [] → kept.Sublist (reads.map ReadRow.row ++ s.fetched ++ s.waiting)
  order : again = [] → (reads.map ReadRow.row ++ s.fetched ++ s.waiting).Sublist kept
  length_eq : (reads.map ReadRow.row ++ s.fetched ++ s.waiting).length + lost.length =
    kept.length + again.length

namespace Accounts

variable {fromStr : String → Option Value} {s t : Restarting}
  {behind kept lost again : List SlotRow} {reads : List ReadRow}

theorem new (behind : List SlotRow) (slot : Option (List SlotRow)) :
    Accounts fromStr (.new behind slot) behind (slot.getD []) [] [] [] where
  sent := rfl
  counted := rfl
  running := ⟨rfl, rfl⟩
  genuine := List.Subset.refl _
  covered _ := List.Sublist.refl _
  order _ := List.Sublist.refl _
  length_eq := rfl

/-- A row is read. -/
theorem handle (h : Accounts fromStr s behind kept lost again reads) {row : SlotRow}
    {rows : List SlotRow} (hfetched : s.fetched = row :: rows) (registry : SensitiveFieldRegistry)
    (now : String) :
    Accounts fromStr { s with
      fetched := rows
      capture := s.capture.handleRow fromStr ⟨row, registry, now⟩ } behind kept lost again
      (reads ++ [⟨row, registry, now⟩]) := by
  obtain ⟨hopen, hrunning⟩ := h.running
  have hsame : (reads ++ [(⟨row, registry, now⟩ : ReadRow)]).map ReadRow.row ++ rows =
      reads.map ReadRow.row ++ s.fetched := by
    rw [hfetched, List.map_append, List.append_assoc]
    rfl
  rw [Capture.handleRow_eq fromStr hopen hrunning]
  refine ⟨?_, ?_, ⟨hopen, hrunning⟩, ?_, ?_, ?_, ?_⟩
  · simp [h.sent]
  · simp [h.counted]
  · rw [hsame]
    exact h.genuine
  · rw [hsame]
    exact h.covered
  · rw [hsame]
    exact h.order
  · rw [hsame]
    exact h.length_eq

/-- The statements in front of the loop leave the changes where they are. -/
theorem start_spec {outcome : StartOutcome} (h : s.start outcome = some t) :
    t.capture = s.capture ∧ t.behind = s.behind ∧ t.fetched = s.fetched ∧
      t.waiting = s.waiting := by
  cases outcome with
  | failed =>
    obtain rfl := Option.some.inj h
    exact ⟨rfl, rfl, rfl, rfl⟩
  | createdUnheard =>
    simp only [Restarting.start] at h
    split_ifs at h with hslot
    obtain rfl := Option.some.inj h
    refine ⟨rfl, rfl, rfl, ?_⟩
    cases hnone : s.slot with
    | none => simp [Restarting.waiting, hnone]
    | some rows => simp [hnone] at hslot
  | entered =>
    obtain rfl := Option.some.inj h
    exact ⟨rfl, rfl, rfl, rfl⟩

/-- A step that reads no row moves changes on, adds new ones at the end, loses some or brings some
back. -/
structure Quiet (s t : Restarting) (kept lost again : List SlotRow) : Prop where
  capture : t.capture = s.capture
  genuine : t.behind ++ (t.fetched ++ t.waiting) ⊆ s.behind ++ (s.fetched ++ s.waiting) ++ kept
  covered : lost = [] → (s.fetched ++ s.waiting ++ kept).Sublist (t.fetched ++ t.waiting)
  order : again = [] → (t.fetched ++ t.waiting).Sublist (s.fetched ++ s.waiting ++ kept)
  length_eq : (t.fetched ++ t.waiting).length + lost.length =
    (s.fetched ++ s.waiting).length + kept.length + again.length

/-- The accounts go on over a step that neither reads nor records. -/
theorem quiet (h : Accounts fromStr s behind kept lost again reads)
    {kept' lost' again' : List SlotRow} (hquiet : Quiet s t kept' lost' again') :
    Accounts fromStr t behind (kept ++ kept') (lost ++ lost') (again ++ again') reads where
  sent := hquiet.capture ▸ h.sent
  counted := hquiet.capture ▸ h.counted
  running := hquiet.capture ▸ h.running
  genuine := by
    intro row hrow
    have hbefore := @h.genuine row
    have hstep := @hquiet.genuine row
    simp only [List.mem_append] at hrow hbefore hstep ⊢
    tauto
  covered := by
    intro hnone
    obtain ⟨hlost, hlost'⟩ := List.append_eq_nil_iff.mp hnone
    have hall := (hquiet.covered hlost').append_left (reads.map ReadRow.row)
    rw [← List.append_assoc, ← List.append_assoc, ← List.append_assoc] at hall
    exact ((h.covered hlost).append_right kept').trans hall
  order := by
    intro hnone
    obtain ⟨hagain, hagain'⟩ := List.append_eq_nil_iff.mp hnone
    have hall := (hquiet.order hagain').append_left (reads.map ReadRow.row)
    rw [← List.append_assoc, ← List.append_assoc, ← List.append_assoc] at hall
    exact hall.trans ((h.order hagain).append_right kept')
  length_eq := by
    have hbefore := h.length_eq
    have hstep := hquiet.length_eq
    simp only [List.length_append] at hbefore hstep ⊢
    omega

/-- What a step that reads no row does to the changes. -/
theorem quiet_step {a : RestartAction} (ha : s.step fromStr a = some t)
    (hquiet : ∀ registry now, a ≠ .handle registry now) :
    Quiet s t (s.kept a) (s.lost a) (s.again a) := by
  cases a with
  | commit row =>
    obtain rfl := Option.some.inj ha
    cases hslot : s.slot <;> constructor <;>
      simp [Restarting.kept, Restarting.lost, Restarting.again, Restarting.waiting, hslot,
        Nat.add_assoc]
  | dropSlot =>
    obtain rfl := Option.some.inj ha
    constructor <;> simp [Restarting.kept, Restarting.lost, Restarting.again, Restarting.waiting]
  | rewind n =>
    simp only [Restarting.step] at ha
    split_ifs at ha with hidle
    obtain ⟨rows, hslot, rfl⟩ := Option.map_eq_some_iff.mp ha
    have hempty : s.fetched = [] := List.isEmpty_iff.mp hidle
    have hsplit := rdrop_append_rtake n s.behind
    constructor <;> simp only [Restarting.kept, Restarting.lost, Restarting.again,
      Restarting.waiting, hslot, hempty, Option.getD_some, List.nil_append, List.append_nil]
    · rw [← List.append_assoc, hsplit]
      exact List.Subset.refl _
    · exact fun _ => List.sublist_append_right _ _
    · rintro hnone
      rw [hnone, List.nil_append]
    · simp [Nat.add_comm]
  | start outcome =>
    simp only [Restarting.step] at ha
    split_ifs at ha with hpolling
    obtain ⟨hcapture, hbehind, hfetched, hwaiting⟩ := start_spec ha
    constructor <;>
      simp [Restarting.kept, Restarting.lost, Restarting.again, hcapture, hbehind, hfetched,
        hwaiting]
  | poll outcome =>
    simp only [Restarting.step] at ha
    split_ifs at ha with hready
    have hempty : s.fetched = [] := by simp_all
    cases outcome with
    | failed =>
      obtain rfl := Option.some.inj ha
      constructor <;> simp [Restarting.kept, Restarting.lost, Restarting.again, Restarting.waiting]
    | unheard n =>
      obtain ⟨rows, hslot, rfl⟩ := Option.map_eq_some_iff.mp ha
      have hsplit := List.take_append_drop n rows
      constructor <;> simp only [Restarting.kept, Restarting.lost, Restarting.again,
        Restarting.waiting, hslot, hempty, Option.getD_some, List.nil_append, List.append_nil]
      · rw [List.append_assoc, hsplit]
        exact List.Subset.refl _
      · intro hnone
        rw [hnone, List.nil_append] at hsplit
        rw [hsplit]
      · exact fun _ => List.drop_sublist _ _
      · rw [← List.length_append, ← List.length_append, List.length_append, List.length_append]
        simp
        omega
    | returned n =>
      obtain ⟨rows, hslot, rfl⟩ := Option.map_eq_some_iff.mp ha
      have hsplit := List.take_append_drop n rows
      constructor <;> simp only [Restarting.kept, Restarting.lost, Restarting.again,
        Restarting.waiting, hslot, hempty, Option.getD_some, List.nil_append, List.append_nil,
        hsplit]
      · grind
      · exact fun _ => List.Sublist.refl _
      · exact fun _ => List.Sublist.refl _
      · rfl
  | handle registry now => exact absurd rfl (hquiet registry now)

/-- What one step preserves. -/
theorem step (h : Accounts fromStr s behind kept lost again reads) {a : RestartAction}
    (ha : s.step fromStr a = some t) :
    ∃ reads', Accounts fromStr t behind (kept ++ s.kept a) (lost ++ s.lost a) (again ++ s.again a)
      reads' := by
  cases a with
  | handle registry now =>
    simp only [Restarting.step] at ha
    split at ha
    · cases ha
    · next row rows hfetched =>
      obtain rfl := Option.some.inj ha
      have hnext := h.handle hfetched registry now
      exact ⟨_, by simpa [Restarting.kept, Restarting.lost, Restarting.again] using hnext⟩
  | _ => exact ⟨reads, h.quiet (quiet_step ha nofun)⟩

end Accounts

/-- The changes that came into the slot in a run, and those it held at its beginning. -/
def keptIn (fromStr : String → Option Value) (s : Restarting) (actions : List RestartAction) :
    List SlotRow :=
  s.waiting ++ outputs (Restarting.step fromStr) Restarting.kept s actions

def lostIn (fromStr : String → Option Value) (s : Restarting) (actions : List RestartAction) :
    List SlotRow :=
  outputs (Restarting.step fromStr) Restarting.lost s actions

def againIn (fromStr : String → Option Value) (s : Restarting) (actions : List RestartAction) :
    List SlotRow :=
  outputs (Restarting.step fromStr) Restarting.again s actions

/-- What every run preserves. -/
theorem Accounts.of_run {fromStr : String → Option Value} {behind : List SlotRow}
    {slot : Option (List SlotRow)} {actions : List RestartAction} {s : Restarting}
    (hrun : run (Restarting.step fromStr) (.new behind slot) actions = some s) :
    ∃ reads, Accounts fromStr s behind (keptIn fromStr (.new behind slot) actions)
      (lostIn fromStr (.new behind slot) actions) (againIn fromStr (.new behind slot) actions)
      reads := by
  refine run_induction (Restarting.step fromStr)
    (I := fun as u => ∃ reads, Accounts fromStr u behind (keptIn fromStr (.new behind slot) as)
      (lostIn fromStr (.new behind slot) as) (againIn fromStr (.new behind slot) as) reads)
    (C := fun _ _ _ => True) ⟨[], ?_⟩ ?_ hrun (fun _ _ _ _ _ _ => trivial)
  · simpa [keptIn, lostIn, againIn, Restarting.waiting, Restarting.new] using
      Accounts.new behind slot
  · rintro as u a t hu ⟨reads, h⟩ - hstep
    obtain ⟨reads', hnext⟩ := h.step hstep
    refine ⟨reads', ?_⟩
    rw [keptIn, lostIn, againIn, outputs_snoc _ _ hu hstep, outputs_snoc _ _ hu hstep,
      outputs_snoc _ _ hu hstep, ← List.append_assoc]
    exact hnext

/-- In every run with any errors, restarts and crashes of the database, capture sends the events of
the changes it reads, and those it reads have been in the slot. Where no reply of a poll is lost and
no slot with changes is dropped, it misses none that comes into the slot. Where the slot is not set
back over any, it reads each at most once and in order, and misses some exactly where some are
lost. -/
theorem changes_read_once (fromStr : String → Option Value) (behind : List SlotRow)
    (slot : Option (List SlotRow)) (actions : List RestartAction) (s : Restarting)
    (hrun : run (Restarting.step fromStr) (.new behind slot) actions = some s) :
    ∃ reads : List ReadRow, s.capture.sent = reads.flatMap (ReadRow.events fromStr) ∧
      s.capture.walEventCount = UInt64.ofNat s.capture.sent.length ∧
      (∀ row ∈ reads.map ReadRow.row ++ s.fetched ++ s.waiting,
        row ∈ behind ++ keptIn fromStr (.new behind slot) actions) ∧
      (lostIn fromStr (.new behind slot) actions = [] →
        (keptIn fromStr (.new behind slot) actions).Sublist
          (reads.map ReadRow.row ++ s.fetched ++ s.waiting)) ∧
      (againIn fromStr (.new behind slot) actions = [] →
        (reads.map ReadRow.row ++ s.fetched ++ s.waiting).Sublist
          (keptIn fromStr (.new behind slot) actions) ∧
        (lostIn fromStr (.new behind slot) actions = [] ↔
          reads.map ReadRow.row ++ s.fetched ++ s.waiting =
            keptIn fromStr (.new behind slot) actions)) := by
  obtain ⟨reads, h⟩ := Accounts.of_run hrun
  refine ⟨reads, h.sent, h.counted, fun row hrow => h.genuine (List.mem_append_right _ hrow),
    h.covered, fun hagain => ⟨h.order hagain, ?_⟩⟩
  have hlength := h.length_eq
  constructor
  · intro hnone
    apply (h.order hagain).eq_of_length
    simpa [hnone, hagain] using hlength
  · intro hall
    rw [hall, hagain] at hlength
    exact List.eq_nil_of_length_eq_zero (by simpa using hlength)

/-- The slot is created, a change is read, a poll fails, and the next change is read after the
restart. -/
def restartActions : List RestartAction :=
  [.start .failed, .start .entered, .commit userRow, .poll (.returned 1),
   .handle emptyRegistry "2026-01-01T00:00:00.000Z", .poll .failed, .commit userRow,
   .start .entered, .poll (.returned 1), .handle emptyRegistry "2026-01-01T00:00:06.000Z"]

theorem changes_read_once_restarted :
    ∃ s, run (Restarting.step millisEnvironment.fromStr) (.new [] none) restartActions = some s ∧
      s.capture.sent.length = 2 ∧
      ∃ reads : List ReadRow,
        s.capture.sent = reads.flatMap (ReadRow.events millisEnvironment.fromStr) ∧
        reads.map ReadRow.row ++ s.fetched ++ s.waiting = [userRow, userRow] := by
  have hend : (run (Restarting.step millisEnvironment.fromStr) (.new [] none) restartActions).any
      (fun s => s.capture.sent.length == 2) = true := by decide +kernel
  have hkept : keptIn millisEnvironment.fromStr (.new [] none) restartActions =
      [userRow, userRow] := by decide +kernel
  have hlost : lostIn millisEnvironment.fromStr (.new [] none) restartActions = [] := by
    decide +kernel
  have hagain : againIn millisEnvironment.fromStr (.new [] none) restartActions = [] := by
    decide +kernel
  obtain ⟨s, hs, hsent⟩ := (Option.any_eq_true _ _).mp hend
  obtain ⟨reads, hreads, -, -, -, hall⟩ :=
    changes_read_once millisEnvironment.fromStr [] none restartActions s hs
  exact ⟨s, hs, by simpa using hsent, reads, hreads, ((hall hagain).2.mp hlost).trans hkept⟩

end VibeAudit.Delivery
