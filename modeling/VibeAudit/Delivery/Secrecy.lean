import VibeAudit.Delivery.Refinement
import VibeAudit.Redaction.Secrecy

/-!
# Values that nothing downstream depends on

A change whose covered columns hold other values is the same change to the whole
pipeline: it is polled, sent, chained and stored in the same way. So the values
of covered columns are neither in the table nor in its hashes, and they do not
show in what is stored when.
-/

namespace VibeAudit.Delivery

open Foundation Json Extension Forwarder

/-- Rows of the slot at one position that every registry in `uses` lets differ. -/
structure AlikeRow (fromStr : String → Option Value) (uses : SensitiveFieldRegistry → Prop)
    (row row' : SlotRow) : Prop where
  lsn : row'.lsn = row.lsn
  xid : row'.xid = row.xid
  own : row'.isOwn = row.isOwn
  text : ∀ registry, uses registry → Redaction.SameText fromStr registry row.data row'.data

/-- The same action, with a registry in `uses`, or lines of alike rows. -/
inductive AlikeAction (fromStr : String → Option Value) (uses : SensitiveFieldRegistry → Prop) :
    PipelineAction → PipelineAction → Prop where
  | same {a : PipelineAction} (ha : ∀ registry now, a = .capture registry now → uses registry) :
    AlikeAction fromStr uses a a
  | external {row row' : SlotRow} (h : AlikeRow fromStr uses row row') :
    AlikeAction fromStr uses (.external row) (.external row')

/-- Pipelines that differ in the texts of rows not yet captured. -/
structure Alike (fromStr : String → Option Value) (uses : SensitiveFieldRegistry → Prop)
    (s s' : Pipeline) : Prop where
  slot : List.Forall₂ (AlikeRow fromStr uses) s.slot s'.slot
  returned : List.Forall₂ (AlikeRow fromStr uses) s.returned s'.returned
  fetched : List.Forall₂ (AlikeRow fromStr uses) s.fetched s'.fetched
  channel : s'.channel = s.channel
  process : s'.process = s.process

variable {env : Environment} {uses : SensitiveFieldRegistry → Prop} {s s' t : Pipeline}

theorem AlikeRow.refl (row : SlotRow) : AlikeRow env.fromStr uses row row :=
  ⟨rfl, rfl, rfl, fun _ _ => .inl rfl⟩

namespace Alike

theorem send (h : Alike env.fromStr uses s s') {events : List Value}
    (ht : s.send events = some t) :
    ∃ t', s'.send events = some t' ∧ Alike env.fromStr uses t t' := by
  simp only [Pipeline.send] at ht ⊢
  split_ifs at ht with hroom
  obtain rfl := Option.some.inj ht
  rw [h.channel, if_pos hroom]
  exact ⟨_, rfl, h.slot, h.returned, h.fetched, rfl, h.process⟩

theorem write (h : Alike env.fromStr uses s s') {a : Action} (ht : s.write env a = some t) :
    ∃ t', s'.write env a = some t' ∧ Alike env.fromStr uses t t' := by
  obtain ⟨p, hp, rfl⟩ := Option.map_eq_some_iff.mp ht
  have hwritten : s'.write env a = some { s' with
      process := p
      slot := s'.slot ++ (p.table.rows.drop s.process.table.rows.length).map env.decode } := by
    rw [Pipeline.write, h.process, hp]
    rfl
  refine ⟨_, hwritten, List.rel_append h.slot ?_, h.returned, h.fetched, h.channel, rfl⟩
  rw [List.forall₂_same]
  exact fun row _ => AlikeRow.refl row

/-- The next row to capture has the same events. -/
theorem capture (h : Alike env.fromStr uses s s') {registry : SensitiveFieldRegistry}
    (huses : uses registry) {now : String} (ht : s.step env (.capture registry now) = some t) :
    ∃ t', s'.step env (.capture registry now) = some t' ∧ Alike env.fromStr uses t t' := by
  have hfetched := h.fetched
  simp only [Pipeline.step] at ht ⊢
  cases hs : s.fetched with
  | nil => rw [hs] at ht; cases ht
  | cons row rows =>
    rw [hs] at ht hfetched
    obtain ⟨row', rows', hrow, hrows, hs'⟩ := List.forall₂_cons_left_iff.mp hfetched
    rw [hs']
    have hevents := (hrow.text registry huses).parse_eq env.fromStr now row.xid row.lsn
    simp only [hrow.xid, hrow.lsn, ← hevents]
    have hrest : Alike env.fromStr uses { s with fetched := rows } { s' with fetched := rows' } :=
      ⟨h.slot, h.returned, hrows, h.channel, h.process⟩
    exact hrest.send ht

/-- What one step preserves: the loop does the same in both, and neither is stuck alone. -/
theorem step (h : Alike env.fromStr uses s s') {a a' : PipelineAction}
    (ha : AlikeAction env.fromStr uses a a') (ht : s.step env a = some t) :
    s'.loopStep a' = s.loopStep a ∧
      ∃ t', s'.step env a' = some t' ∧ Alike env.fromStr uses t t' := by
  cases ha with
  | @external row row' hrow =>
    simp only [Pipeline.step] at ht ⊢
    rw [hrow.own]
    split_ifs at ht ⊢ with hown
    obtain rfl := Option.some.inj ht
    exact ⟨rfl, _, rfl, List.rel_append h.slot (.cons hrow .nil), h.returned, h.fetched, h.channel,
      h.process⟩
  | same ha =>
    cases a with
    | datagram bytes =>
      refine ⟨rfl, ?_⟩
      simp only [Pipeline.step] at ht ⊢
      split at ht
      · exact h.send ht
      · obtain rfl := Option.some.inj ht
        exact ⟨s', rfl, h⟩
    | external row =>
      simp only [Pipeline.step] at ht ⊢
      split_ifs at ht ⊢ with hown
      obtain rfl := Option.some.inj ht
      exact ⟨rfl, _, rfl, List.rel_append h.slot (.cons (AlikeRow.refl row) .nil), h.returned,
        h.fetched, h.channel, h.process⟩
    | rewind n =>
      simp only [Pipeline.step, List.isEmpty_iff_length_eq_zero, h.fetched.length_eq] at ht ⊢
      split_ifs at ht ⊢ with hempty
      obtain rfl := Option.some.inj ht
      exact ⟨rfl, _, rfl, List.rel_append (forall₂_rtake n h.returned) h.slot,
        forall₂_rdrop n h.returned, h.fetched, h.channel, h.process⟩
    | poll n =>
      simp only [Pipeline.step, List.isEmpty_iff_length_eq_zero, h.fetched.length_eq] at ht ⊢
      split_ifs at ht ⊢ with hempty
      obtain rfl := Option.some.inj ht
      have hpolled := List.forall₂_take n h.slot
      exact ⟨rfl, _, rfl, List.forall₂_drop n h.slot, List.rel_append h.returned hpolled, hpolled,
        h.channel, h.process⟩
    | capture registry now => exact ⟨rfl, h.capture (ha registry now rfl) ht⟩
    | receive =>
      refine ⟨by rw [Pipeline.loopStep, Pipeline.loopStep, h.channel], ?_⟩
      simp only [Pipeline.step, h.channel, h.process] at ht ⊢
      cases hs : s.channel with
      | nil => rw [hs] at ht; cases ht
      | cons event events =>
        rw [hs] at ht
        obtain ⟨p, hp, rfl⟩ := Option.map_eq_some_iff.mp ht
        simp only [hp, Option.map_some]
        exact ⟨_, rfl, h.slot, h.returned, h.fetched, rfl, rfl⟩
    | flushFull db gap => exact ⟨rfl, h.write ht⟩
    | tick db gap => exact ⟨rfl, h.write ht⟩

end Alike

/-- The values of covered columns influence nothing behind the slot: over lines that differ in such
values alone, under every registry that capture uses, the pipeline gets through exactly as far, and
the processor loop does the same with the same events, so the table, its hashes, the retry queue
and the channel are the same. -/
theorem covered_values_never_stored (env : Environment) (uses : SensitiveFieldRegistry → Prop)
    (actions actions' : List PipelineAction) (s : Pipeline)
    (h : List.Forall₂ (AlikeAction env.fromStr uses) actions actions')
    (hrun : run (Pipeline.step env) Pipeline.new actions = some s) :
    loopOf env actions' = loopOf env actions ∧
      ∃ s', run (Pipeline.step env) Pipeline.new actions' = some s' ∧
        s'.process = s.process ∧ s'.channel = s.channel := by
  have hnew : Alike env.fromStr uses Pipeline.new Pipeline.new := ⟨.nil, .nil, .nil, rfl, rfl⟩
  obtain ⟨hloop, s', hs', hsame⟩ := run_simulates (Pipeline.step env) Pipeline.loopStep
    (R := Alike env.fromStr uses) (A := AlikeAction env.fromStr uses)
    (fun _ _ _ _ _ hu ha hstep => hu.step ha hstep) h hnew hrun
  exact ⟨hloop, s', hs', hsame.process, hsame.channel⟩

def cardActions (pan : String) : List PipelineAction :=
  [.external ⟨"0/1", "7", "table public.cards: INSERT: id[integer]:1 pan[text]:'" ++ pan ++ "'"⟩,
    .poll 1, .capture Redaction.panRegistry "2026-01-01T00:00:00.000Z", .receive,
    .tick .executed 0]

def cardEnvironment : Environment := { millisEnvironment with fromStr := Redaction.readNumeral }

theorem covered_values_never_stored_cards : ∃ s s',
    run (Pipeline.step cardEnvironment) Pipeline.new (cardActions "p-7") = some s ∧
      run (Pipeline.step cardEnvironment) Pipeline.new (cardActions "p-8") = some s' ∧
      s.process.table.rows.length = 1 ∧ s'.process.table.rows = s.process.table.rows := by
  have hend : (run (Pipeline.step cardEnvironment) Pipeline.new (cardActions "p-7")).any
      (fun s => s.process.table.rows.length == 1) = true := by decide +kernel
  obtain ⟨s, hs, hrows⟩ := (Option.any_eq_true _ _).mp hend
  have hline : ∀ pan ∈ ["p-7", "p-8"], parseChangeLine
      ("table public.cards: INSERT: id[integer]:1 pan[text]:'" ++ pan ++ "'") =
        some (Redaction.cardLine pan) := by decide +kernel
  have hrow : AlikeRow cardEnvironment.fromStr (· = Redaction.panRegistry)
      ⟨"0/1", "7", "table public.cards: INSERT: id[integer]:1 pan[text]:'" ++ "p-7" ++ "'"⟩
      ⟨"0/1", "7", "table public.cards: INSERT: id[integer]:1 pan[text]:'" ++ "p-8" ++ "'"⟩ := by
    refine ⟨rfl, rfl, by decide +kernel, ?_⟩
    rintro _ rfl
    exact .inr ⟨_, _, hline "p-7" (by simp), hline "p-8" (by simp),
      Redaction.sameButCovered_cardLine "p-7" "p-8"⟩
  have halike : List.Forall₂ (AlikeAction cardEnvironment.fromStr (· = Redaction.panRegistry))
      (cardActions "p-7") (cardActions "p-8") :=
    .cons (.external hrow) (.cons (.same (by simp)) (.cons (.same (by simp))
      (.cons (.same (by simp)) (.cons (.same (by simp)) .nil))))
  obtain ⟨-, s', hs', hprocess, -⟩ := covered_values_never_stored cardEnvironment
    (· = Redaction.panRegistry) (cardActions "p-7") (cardActions "p-8") s halike hs
  exact ⟨s, s', hs, hs', by simpa using hrows, by rw [hprocess]⟩

end VibeAudit.Delivery
