import Mathlib.Data.List.ReduceOption
import VibeAudit.Delivery.Durability

/-!
# Changes are recorded once

As long as the slot is not set back and every reply to a committed INSERT
arrives, a change is handed out once, and no event is taken back to where it came
from. So crashes of the forwarder, failed connections and a full queue can lose a
change, but the table has no change twice, and none before an earlier one.
-/

namespace VibeAudit.Delivery

open Foundation Json Extension Forwarder

namespace Origins

/-- The positions from the table over the queue and the batch to the end of the channel. -/
def line (o : Origins) : List (Option Nat) := o.table ++ o.queue ++ o.batch ++ o.channel

/-- A call of `write_batch` whose reply arrives moves events on or drops them. -/
theorem line_flush (o : Origins) {db : DbOutcome} (hdb : db ≠ .replyLost) :
    (o.flush db).line.Sublist o.line := by
  cases db with
  | getFailed =>
    simp only [line, flush, List.append_nil]
    apply List.Sublist.append_right
    rw [List.append_assoc]
    apply List.Sublist.append_left
    exact (rtake_sublist maxRetry o.batch).trans (List.sublist_append_right _ _)
  | executeFailed =>
    simp only [line, flush, List.append_nil]
    apply List.Sublist.append_right
    rw [List.append_assoc]
    exact (rtake_sublist maxRetry (o.queue ++ o.batch)).append_left o.table
  | replyLost => exact absurd rfl hdb
  | executed =>
    simp [line, flush]

end Origins

/-- The step brings changes back: the slot is set back, or the database commits an INSERT and its
reply is lost. -/
def TracedAction.bringsBack : TracedAction → Bool
  | .work (.rewind _) => true
  | .work (.flushFull db _) | .work (.tick db _) => db == .replyLost
  | _ => false

/-- The positions increase, and they are of rows that the capture has handled. -/
structure Ordered (s : Traced) : Prop where
  fetched : s.pipeline.fetched.length ≤ s.consumed.length
  increasing : s.origins.line.reduceOption.Pairwise (· < ·)
  below : ∀ i ∈ s.origins.line.reduceOption, i < s.handled

namespace Ordered

variable {env : Environment} {s t : Traced}

theorem new : Ordered Traced.new where
  fetched := le_rfl
  increasing := .nil
  below i hi := by cases hi

/-- Dropping events, and receiving some that do not come from the slot. -/
theorem shrink (h : Ordered s) {kept : List (Option Nat)} (others : List (Option Nat))
    (hline : t.origins.line = kept ++ others) (hkept : kept.Sublist s.origins.line)
    (hothers : others.reduceOption = []) (hfetched : t.pipeline.fetched.length ≤ t.consumed.length)
    (hhandled : s.handled ≤ t.handled) : Ordered t := by
  have hsub : t.origins.line.reduceOption.Sublist s.origins.line.reduceOption := by
    rw [hline, List.reduceOption_append, hothers, List.append_nil]
    exact hkept.filterMap id
  refine ⟨hfetched, h.increasing.sublist hsub, fun i hi => ?_⟩
  exact (h.below i (hsub.subset hi)).trans_le hhandled

/-- The events of a captured row come last, and there is one at most. -/
theorem capture (h : Ordered s) {registry : SensitiveFieldRegistry} {now : String} {row : SlotRow}
    {rows : List SlotRow} (hfetched : s.pipeline.fetched = row :: rows) {channel : List Value} :
    Ordered { s with
      pipeline := { s.pipeline with fetched := rows, channel := channel }
      origins := s.trace env (.capture registry now) } := by
  have hlength := h.fetched
  rw [hfetched, List.length_cons] at hlength
  have hhandled : s.handled + 1 = s.consumed.length - rows.length := by
    rw [Traced.handled, hfetched, List.length_cons]
    omega
  rw [Traced.consumed] at hlength hhandled
  have hline : (s.trace env (.capture registry now)).line.reduceOption =
      s.origins.line.reduceOption ++
        (ReadRow.events env.fromStr ⟨row, registry, now⟩).map fun _ => s.handled := by
    simp only [Traced.trace, Traced.writes, hfetched, Origins.line, List.take_succ_cons,
      List.take_zero, List.flatMap_singleton]
    rw [← List.append_assoc, List.reduceOption_append]
    congr 1
    simp [List.reduceOption, List.filterMap_map]
  have hone : (ReadRow.events env.fromStr ⟨row, registry, now⟩).length ≤ 1 := by
    rw [ReadRow.events_eq]
    exact Option.length_toList_le
  refine ⟨by simp only [Traced.consumed]; omega, ?_, ?_⟩
  · simp only
    rw [hline, List.pairwise_append]
    refine ⟨h.increasing, ?_, ?_⟩
    · rw [List.pairwise_map]
      cases hevents : ReadRow.events env.fromStr ⟨row, registry, now⟩ with
      | nil => exact .nil
      | cons event events =>
        rw [hevents] at hone
        obtain rfl : events = [] := by simpa using hone
        exact List.pairwise_singleton _ _
    · intro i hi j hj
      obtain ⟨_, -, rfl⟩ := List.mem_map.mp hj
      exact h.below i hi
  · intro i hi
    simp only [Traced.handled, Traced.consumed]
    rw [← hhandled]
    rw [hline, List.mem_append] at hi
    rcases hi with hi | hi
    · have hbelow := h.below i hi
      omega
    · obtain ⟨_, -, rfl⟩ := List.mem_map.mp hi
      exact Nat.lt_succ_self _

/-- An arm that may write moves positions on or drops them. -/
theorem write (h : Ordered s) {a : PipelineAction} {b : Action}
    (ha : s.trace env a = s.origins ∨
      ∃ db, db ≠ .replyLost ∧ s.trace env a = s.origins.flush db) {p : Pipeline}
    (hp : s.pipeline.write env b = some p) :
    Ordered { s with pipeline := p, origins := s.trace env a } := by
  obtain ⟨q, -, rfl⟩ := Option.map_eq_some_iff.mp hp
  have hsub : (s.trace env a).line.Sublist s.origins.line := by
    rcases ha with ha | ⟨db, hdb, ha⟩
    · rw [ha]
    · rw [ha]
      exact Origins.line_flush s.origins hdb
  exact h.shrink [] (List.append_nil _).symm hsub List.reduceOption_nil h.fetched le_rfl

/-- What one step preserves. -/
theorem step (h : Ordered s) {a : TracedAction} (hback : a.bringsBack = false)
    (ha : s.step env a = some t) : Ordered t := by
  have hself := List.Sublist.refl s.origins.line
  cases a with
  | crash =>
    obtain rfl := Option.some.inj ha
    refine h.shrink [] (List.append_nil _).symm ?_ List.reduceOption_nil (Nat.zero_le _)
      (Nat.sub_le _ _)
    simp only [Traced.crash, Origins.line, List.append_nil, List.append_assoc]
    exact List.sublist_append_left _ _
  | work a =>
    obtain ⟨p, hp, rfl⟩ := Option.map_eq_some_iff.mp ha
    cases Pipeline.step_cases hp with
    | @unread bytes hread =>
      refine h.shrink [] ?_ hself rfl h.fetched le_rfl
      simp [Traced.trace, Traced.writes, hread, Origins.line]
    | @datagram bytes event hread =>
      refine h.shrink [none] ?_ hself rfl h.fetched le_rfl
      simp [Traced.trace, Traced.writes, hread, Origins.line]
    | external hown => exact h.shrink [] (List.append_nil _).symm hself rfl h.fetched le_rfl
    | rewind => cases hback
    | @poll n hfetched =>
      have hlength : (s.pipeline.slot.take n).length ≤
          (s.pipeline.returned ++ s.pipeline.slot.take n).length := by
        simp
      refine h.shrink [] (List.append_nil _).symm hself rfl hlength ?_
      simp only [Traced.handled, Traced.consumed, hfetched, List.length_append, List.length_nil]
      omega
    | capture hfetched => exact h.capture hfetched
    | receive hchannel hreceive =>
      refine h.shrink [] ?_ hself rfl h.fetched le_rfl
      have hsplit : s.origins.channel.take 1 ++ s.origins.channel.tail = s.origins.channel := by
        rw [← List.drop_one, List.take_append_drop]
      simp [Traced.trace, Traced.writes, Origins.line, hsplit]
    | flushFull hwrite | tick hwrite =>
      have hdb := bne_iff_ne.mp (congrArg not hback)
      refine h.write ?_ hwrite
      simp only [Traced.trace, Traced.writes]
      split_ifs
      · exact .inl rfl
      · exact .inr ⟨_, hdb, rfl⟩

/-- What every run preserves. -/
theorem of_run {actions : List TracedAction}
    (hrun : run (Traced.step env) Traced.new actions = some s)
    (hback : ∀ a ∈ actions, a.bringsBack = false) : Ordered s :=
  run_invariant (Traced.step env) (C := fun a => a.bringsBack = false)
    (fun _ _ _ hu ha hstep => hu.step ha hstep) new hrun hback

end Ordered

theorem Aligned.of_run {env : Environment} {s : Traced} {actions : List TracedAction}
    (hrun : run (Traced.step env) Traced.new actions = some s) : Aligned env s :=
  run_invariant (Traced.step env) (C := fun _ => True) (fun _ _ _ hu _ hstep => hu.step hstep)
    Aligned.new hrun (fun _ _ => trivial)

theorem count_reduceOption {α : Type*} [DecidableEq α] (xs : List (Option α)) (x : α) :
    xs.reduceOption.count x = xs.count (some x) := by
  induction xs with
  | nil => rfl
  | cons y ys ih =>
    cases y with
    | none => simp [ih]
    | some y => simp [List.count_cons, ih]

/-- In every run, with crashes and whatever the database does, each event in the table, the retry
queue, the batch and the channel that comes from the slot stands beside its change. As long as the
slot is not set back and no reply to a committed INSERT is lost, the changes are different ones from
the first row to the end of the channel, in the order in which the slot has returned them. -/
theorem changes_recorded_once (env : Environment) (actions : List TracedAction) (s : Traced)
    (hrun : run (Traced.step env) Traced.new actions = some s) :
    Aligned env s ∧ ((∀ a ∈ actions, a.bringsBack = false) →
      (s.origins.table ++ s.origins.queue ++ s.origins.batch ++
        s.origins.channel).reduceOption.Pairwise (· < ·) ∧
      ∀ i, some i ∈ s.origins.table → s.origins.table.count (some i) = 1 ∧ i < s.handled ∧
        Recorded env s i) := by
  have haligned := Aligned.of_run hrun
  refine ⟨haligned, fun hback => ?_⟩
  have hordered := Ordered.of_run hrun hback
  have htable : s.origins.table.Sublist s.origins.line := by
    simp only [Origins.line, List.append_assoc]
    exact List.sublist_append_left _ _
  have hhandled : ∀ i, some i ∈ s.origins.table → i < s.handled := fun i hi =>
    hordered.below i (List.reduceOption_mem_iff.mpr (htable.subset hi))
  refine ⟨hordered.increasing, fun i hi => ⟨?_, hhandled i hi, ?_⟩⟩
  · have hnodup : s.origins.table.reduceOption.Nodup :=
      (hordered.increasing.sublist (htable.filterMap id)).imp fun hlt => hlt.ne
    rw [← count_reduceOption]
    exact List.count_eq_one_of_mem hnodup (List.reduceOption_mem_iff.mpr hi)
  · exact haligned.recorded hi ((hhandled i hi).trans_le (Nat.sub_le _ _))

/-- One change is written, one is lost in a crash after its poll, and a third is written. -/
def lostActions : List TracedAction :=
  userActions.map .work ++
    [.work (.external userRow), .work (.poll 2), .crash, .work (.external userRow),
      .work (.poll 1), .work (.capture emptyRegistry "2026-01-01T00:00:02.000Z"), .work .receive,
      .work (.tick .executed 0)]

theorem changes_recorded_once_lost : ∃ s,
    run (Traced.step millisEnvironment) Traced.new lostActions = some s ∧
      s.origins.table = [some 0, some 3] ∧ Aligned millisEnvironment s ∧
      (s.origins.table ++ s.origins.queue ++ s.origins.batch ++
        s.origins.channel).reduceOption.Pairwise (· < ·) ∧
      ∀ i, some i ∈ s.origins.table → s.origins.table.count (some i) = 1 ∧ i < s.handled ∧
        Recorded millisEnvironment s i := by
  have hend : (run (Traced.step millisEnvironment) Traced.new lostActions).map
      (fun s => s.origins.table) = some [some 0, some 3] := by
    decide +kernel
  obtain ⟨s, hs, htable⟩ := Option.map_eq_some_iff.mp hend
  obtain ⟨haligned, honce⟩ := changes_recorded_once millisEnvironment lostActions s hs
  exact ⟨s, hs, htable, haligned, honce (by decide)⟩

end VibeAudit.Delivery
