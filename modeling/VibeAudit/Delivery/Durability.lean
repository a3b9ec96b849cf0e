import VibeAudit.Delivery.Capture

/-!
# Changes across crashes

The slot's confirmed position moves past every row that a poll returns, and
until an INSERT commits the forwarder has the row in memory only: fetched, on
the channel, in the batch or in the retry queue. Beside each of these stands the
position of the change that every event comes from. A change is in one of them
or in the table from the poll on, until a crash clears the memory or a call of
`write_batch` drops it. A slot that is set back keeps the positions: the rows it
has returned and those it holds are together one log.
-/

namespace VibeAudit.Delivery

open Foundation Json Extension Forwarder Chain Decoding

/-- For each event on the channel, in the batch, in the retry queue and in the table: the
position of its change among the rows of the slot, if it comes from the slot. -/
structure Origins where
  channel : List (Option Nat)
  batch : List (Option Nat)
  queue : List (Option Nat)
  table : List (Option Nat)
  deriving DecidableEq, Repr

namespace Origins

def all (o : Origins) : List (Option Nat) := o.channel ++ o.batch ++ o.queue ++ o.table

/-- What a call of `write_batch` with a batch does. -/
def flush (o : Origins) : DbOutcome → Origins
  | .getFailed => { o with batch := [], queue := o.batch.rtake maxRetry }
  | .executeFailed => { o with batch := [], queue := (o.queue ++ o.batch).rtake maxRetry }
  | .replyLost => { o with
      batch := [], queue := (o.queue ++ o.batch).rtake maxRetry
      table := o.table ++ (o.queue ++ o.batch) }
  | .executed => { o with batch := [], queue := [], table := o.table ++ (o.queue ++ o.batch) }

def dropped (o : Origins) : DbOutcome → List (Option Nat)
  | .getFailed => o.queue ++ o.batch.take (o.batch.length - maxRetry)
  | .executeFailed => (o.queue ++ o.batch).take ((o.queue ++ o.batch).length - maxRetry)
  | .replyLost | .executed => []

/-- What is not dropped is kept. -/
theorem mem_flush {o : Origins} {db : DbOutcome} {x : Option Nat}
    (h : x ∈ o.queue ∨ x ∈ o.batch) (hkept : x ∉ o.dropped db) :
    x ∈ (o.flush db).queue ∨ x ∈ (o.flush db).table := by
  have hsplit : ∀ xs : List (Option Nat), x ∈ xs → x ∉ xs.take (xs.length - maxRetry) →
      x ∈ xs.rtake maxRetry := by
    intro xs hx hfront
    rw [← List.take_append_drop (xs.length - maxRetry) xs, List.mem_append] at hx
    exact hx.resolve_left hfront
  cases db with
  | getFailed =>
    simp only [dropped, List.mem_append, not_or] at hkept
    simp only [flush]
    exact .inl (hsplit o.batch (h.resolve_left hkept.1) hkept.2)
  | executeFailed =>
    simp only [dropped] at hkept
    simp only [flush]
    exact .inl (hsplit _ (List.mem_append.mpr h) hkept)
  | replyLost | executed =>
    simp only [flush, List.mem_append]
    exact .inr (.inr h)

/-- A call keeps the positions that it does not drop. -/
theorem all_flush {o : Origins} {db : DbOutcome} {x : Option Nat} (h : x ∈ o.all)
    (hkept : x ∉ o.dropped db) : x ∈ (o.flush db).all := by
  have hchannel : (o.flush db).channel = o.channel := by cases db <;> rfl
  have htable : x ∈ o.table → x ∈ (o.flush db).table := by
    cases db with
    | replyLost | executed => exact List.mem_append_left _
    | getFailed | executeFailed => exact id
  simp only [all, List.mem_append, hchannel] at h ⊢
  rcases h with ((h | h) | h) | h
  · exact .inl (.inl (.inl h))
  · exact (mem_flush (.inr h) hkept).imp .inr id
  · exact (mem_flush (.inl h) hkept).imp .inr id
  · exact .inr (htable h)

end Origins

/-- The pipeline and where its events come from. -/
structure Traced where
  pipeline : Pipeline
  origins : Origins

inductive TracedAction where
  | work (a : PipelineAction)
  | crash

namespace Traced

def new : Traced where
  pipeline := Pipeline.new
  origins := ⟨[], [], [], []⟩

/-- The rows below the slot's confirmed position. -/
def consumed (s : Traced) : List SlotRow := s.pipeline.returned

/-- All rows that the slot has had; polls, and setting the slot back, only move the position. -/
def log (s : Traced) : List SlotRow := s.consumed ++ s.pipeline.slot

/-- How many of the consumed rows the capture has handled, by the rows it has still to handle. -/
def handled (s : Traced) : Nat := s.consumed.length - s.pipeline.fetched.length

/-- The outcome of the call of `write_batch` in a step; an arm that finds the batch empty makes
none. -/
def writes (s : Traced) : PipelineAction → Option DbOutcome
  | .flushFull db _ | .tick db _ =>
    if s.pipeline.process.processor.batch.isEmpty then none else some db
  | _ => none

/-- Where the events come from after a step: an event moves with its position. -/
def trace (env : Environment) (s : Traced) (a : PipelineAction) : Origins :=
  match s.writes a, a with
  | some db, _ => s.origins.flush db
  | none, .datagram bytes =>
    { s.origins with
      channel := s.origins.channel ++ (env.fromSlice bytes).toList.map fun _ => none }
  | none, .capture registry now =>
    { s.origins with
      channel := s.origins.channel ++ (s.pipeline.fetched.take 1).flatMap fun row =>
        (ReadRow.events env.fromStr ⟨row, registry, now⟩).map fun _ => some s.handled }
  | none, .receive =>
    { s.origins with
      channel := s.origins.channel.tail
      batch := s.origins.batch ++ s.origins.channel.take 1 }
  | none, _ => s.origins

/-- A crash leaves the slot and the table; the forwarder starts again. -/
def crash (s : Traced) : Traced where
  pipeline :=
    { Pipeline.new with
      slot := s.pipeline.slot
      returned := s.pipeline.returned
      process := { Process.new with table := s.pipeline.process.table } }
  origins := ⟨[], [], [], s.origins.table⟩

def step (env : Environment) (s : Traced) : TracedAction → Option Traced
  | .work a =>
    (s.pipeline.step env a).map fun p => { pipeline := p, origins := s.trace env a }
  | .crash => some s.crash

/-- The change at a position is in memory. -/
def Held (s : Traced) (i : Nat) : Prop :=
  (s.handled ≤ i ∧ i < s.consumed.length) ∨ some i ∈ s.origins.channel ∨ some i ∈ s.origins.batch ∨
    some i ∈ s.origins.queue

instance (s : Traced) (i : Nat) : Decidable (s.Held i) := by
  unfold Held
  infer_instance

/-- A step that loses the change at a position: a crash while it is in memory, or a call of
`write_batch` that drops it. -/
def Loses (s : Traced) (i : Nat) : TracedAction → Prop
  | .crash => s.Held i
  | .work a => ∃ db, s.writes a = some db ∧ some i ∈ s.origins.dropped db

end Traced

/-! ## Events and rows of a change -/

variable (env : Environment)

/-- An event that the line of a row gives, before or after it is chained. -/
def Tells (row : SlotRow) (e : Value) : Prop :=
  ∃ registry now event, event ∈ ReadRow.events env.fromStr ⟨row, registry, now⟩ ∧
    (e = event ∨ HashedFrom event e)

/-- The event comes from the row at its position. -/
def OfChange (log : List SlotRow) (o : Option Nat) (e : Value) : Prop :=
  ∀ i, o = some i → ∃ row, log[i]? = some row ∧ Tells env row e

/-- The row of the table stores an event that comes from the row at its position. -/
def Stores (log : List SlotRow) (o : Option Nat) (r : Row) : Prop :=
  ∃ e, OfChange env log o e ∧ StoredAs env.input e r

/-- The positions stand beside their events. -/
structure Aligned (s : Traced) : Prop where
  fetched : s.pipeline.fetched <:+ s.consumed
  channel : List.Forall₂ (OfChange env s.log) s.origins.channel s.pipeline.channel
  batch : List.Forall₂ (OfChange env s.log) s.origins.batch s.pipeline.process.processor.batch
  queue : List.Forall₂ (OfChange env s.log) s.origins.queue s.pipeline.process.writer.retryQueue
  table : List.Forall₂ (Stores env s.log) s.origins.table s.pipeline.process.table.rows

variable {env}

theorem OfChange.mono {log : List SlotRow} {o : Option Nat} {e : Value}
    (h : OfChange env log o e) (more : List SlotRow) : OfChange env (log ++ more) o e := by
  intro i hi
  obtain ⟨row, hrow, htells⟩ := h i hi
  exact ⟨row, List.getElem?_append_left (List.getElem?_eq_some_iff.mp hrow).1 ▸ hrow, htells⟩

theorem Stores.mono {log : List SlotRow} {o : Option Nat} {r : Row}
    (h : Stores env log o r) (more : List SlotRow) : Stores env (log ++ more) o r := by
  obtain ⟨e, hof, hstored⟩ := h
  exact ⟨e, hof.mono more, hstored⟩

theorem OfChange.none (log : List SlotRow) (e : Value) : OfChange env log none e := nofun

/-- Chaining an event leaves what it tells. -/
theorem OfChange.hashed {log : List SlotRow} {o : Option Nat} {e : Value} {c : HashChain}
    {applied : Applied} (h : OfChange env log o e) (happly : c.apply e = some applied) :
    OfChange env log o applied.event := by
  have hspec := (HashChain.apply_spec happly).hashed
  intro i hi
  obtain ⟨row, hrow, registry, now, event, hevent, htells⟩ := h i hi
  refine ⟨row, hrow, registry, now, event, hevent, .inr ?_⟩
  rcases htells with rfl | hmid
  · exact hspec
  · refine ⟨hspec.isObject, fun key hp he => ?_⟩
    rw [hspec.get?_eq key hp he, hmid.get?_eq key hp he]

/-! ## Positions stand beside their events -/

/-- The rows of events come from the changes of the events. -/
theorem forall₂_stores {log : List SlotRow} {os : List (Option Nat)} {es : List Value}
    {rows : Table} (hos : List.Forall₂ (OfChange env log) os es)
    (hrows : List.Forall₂ (StoredAs env.input) es rows) :
    List.Forall₂ (Stores env log) os rows := by
  induction hos generalizing rows with
  | nil =>
    cases hrows
    exact .nil
  | cons ho _ ih =>
    cases hrows with
    | cons hr hrest => exact .cons ⟨_, ho, hr⟩ (ih hrest)

namespace Aligned

variable {s : Traced}

theorem new : Aligned env Traced.new where
  fetched := List.suffix_rfl
  channel := .nil
  batch := .nil
  queue := .nil
  table := .nil

/-- New rows at the end of the slot leave the positions. -/
theorem extend (h : Aligned env s) (more : List SlotRow) :
    Aligned env { s with pipeline := { s.pipeline with slot := s.pipeline.slot ++ more } } := by
  have hlog : Traced.log { s with
      pipeline := { s.pipeline with slot := s.pipeline.slot ++ more } } = s.log ++ more :=
    (List.append_assoc _ _ _).symm
  refine ⟨h.fetched, ?_, ?_, ?_, ?_⟩ <;> rw [hlog]
  · exact h.channel.imp fun _ _ ho => ho.mono more
  · exact h.batch.imp fun _ _ ho => ho.mono more
  · exact h.queue.imp fun _ _ ho => ho.mono more
  · exact h.table.imp fun _ _ ho => ho.mono more

/-- So does moving the slot's confirmed position. -/
theorem move (h : Aligned env s) {slot returned fetched : List SlotRow}
    (hlog : returned ++ slot = s.log) (hfetched : fetched <:+ returned) :
    Aligned env { s with pipeline := { s.pipeline with
      slot := slot, returned := returned, fetched := fetched } } := by
  have hsame : Traced.log { s with pipeline := { s.pipeline with
      slot := slot, returned := returned, fetched := fetched } } = s.log := hlog
  refine ⟨hfetched, ?_, ?_, ?_, ?_⟩ <;> rw [hsame]
  · exact h.channel
  · exact h.batch
  · exact h.queue
  · exact h.table

/-- A call of `write_batch` moves events and positions alike. -/
theorem flush (h : Aligned env s) {db : DbOutcome} {gap : Nat} {p : Process}
    (hne : s.pipeline.process.processor.batch ≠ [])
    (hflush : s.pipeline.process.flush env.input db gap = some p) :
    Aligned env { s with
      pipeline := { s.pipeline with process := p }, origins := s.origins.flush db } := by
  have hflushed := flushed_of_flush hne hflush
  obtain ⟨rows, htable, hstored⟩ := hflushed.table
  have hbacklog := List.rel_append h.queue h.batch
  have hrows : List.Forall₂ (Stores env s.log) (s.origins.flush db).table p.table.rows := by
    rw [htable]
    cases db with
    | getFailed | executeFailed =>
      rw [List.forall₂_nil_left_iff.mp hstored, List.append_nil]
      exact h.table
    | replyLost | executed => exact List.rel_append h.table (forall₂_stores hbacklog hstored)
  have hqueue : List.Forall₂ (OfChange env s.log) (s.origins.flush db).queue
      p.writer.retryQueue := by
    rw [hflushed.queue]
    cases db <;> simp only [requeued, Origins.flush]
    · exact forall₂_rtake maxRetry h.batch
    · exact forall₂_rtake maxRetry hbacklog
    · exact forall₂_rtake maxRetry hbacklog
    · exact .nil
  refine ⟨h.fetched, ?_, ?_, hqueue, hrows⟩
  · cases db <;> exact h.channel
  · simp only [hflushed.batch]
    cases db <;> exact .nil

/-- What an arm that may write preserves. -/
theorem write (h : Aligned env s) {a : PipelineAction} {b : Action} {db : DbOutcome} {gap : Nat}
    (hb : b = .flushFull db gap ∨ b = .tick db gap)
    (ha : s.trace env a = if s.pipeline.process.processor.batch.isEmpty then s.origins
      else s.origins.flush db) {p : Pipeline} (hp : s.pipeline.write env b = some p) :
    Aligned env { s with pipeline := p, origins := s.trace env a } := by
  obtain ⟨q, hq, rfl⟩ := Option.map_eq_some_iff.mp hp
  rw [ha]
  rcases hb with rfl | rfl
  · simp only [Process.step] at hq
    split_ifs at hq with hfull
    have hne : s.pipeline.process.processor.batch ≠ [] := by
      intro hnil
      rw [hnil] at hfull
      exact hfull (by decide)
    rw [if_neg (by simpa using hne)]
    exact (h.flush hne hq).extend _
  · simp only [Process.step] at hq
    split_ifs at hq with hfull hempty
    · obtain rfl := Option.some.inj hq
      rw [if_pos hempty]
      exact h.extend _
    · rw [if_neg hempty]
      exact (h.flush (by simpa using hempty) hq).extend _

/-- The row that the capture handles next is the first one that is not handled. -/
theorem consumed_handled (h : Aligned env s) {row : SlotRow} {rows : List SlotRow}
    (hfetched : s.pipeline.fetched = row :: rows) : s.consumed[s.handled]? = some row := by
  obtain ⟨front, hfront⟩ := h.fetched
  have hlength : s.handled = front.length := by
    rw [Traced.handled, ← hfront, List.length_append, Nat.add_sub_cancel]
  rw [hlength, ← hfront, hfetched]
  simp

/-- What capturing a row preserves. -/
theorem capture (h : Aligned env s) {registry : SensitiveFieldRegistry} {now : String}
    {row : SlotRow} {rows : List SlotRow} (hfetched : s.pipeline.fetched = row :: rows) :
    Aligned env { s with
      pipeline := { s.pipeline with
        fetched := rows
        channel := s.pipeline.channel ++ ReadRow.events env.fromStr ⟨row, registry, now⟩ }
      origins := s.trace env (.capture registry now) } := by
  have htrace : s.trace env (.capture registry now) = { s.origins with
      channel := s.origins.channel ++
        (ReadRow.events env.fromStr ⟨row, registry, now⟩).map fun _ => some s.handled } := by
    simp [Traced.trace, Traced.writes, hfetched]
  have hof : List.Forall₂ (OfChange env s.log)
      ((ReadRow.events env.fromStr ⟨row, registry, now⟩).map fun _ => some s.handled)
      (ReadRow.events env.fromStr ⟨row, registry, now⟩) := by
    rw [List.forall₂_map_left_iff, List.forall₂_same]
    rintro event hevent i hi
    obtain rfl := Option.some.inj hi
    have hrow := h.consumed_handled hfetched
    have hlt := (List.getElem?_eq_some_iff.mp hrow).1
    exact ⟨row, (List.getElem?_append_left hlt).trans hrow, registry, now, event, hevent, .inl rfl⟩
  have hrows : rows <:+ s.consumed := (List.suffix_cons row rows).trans (hfetched ▸ h.fetched)
  rw [htrace]
  exact ⟨hrows, List.rel_append h.channel hof, h.batch, h.queue, h.table⟩

/-- What taking an event from the channel preserves. -/
theorem receive (h : Aligned env s) {event : Value} {events : List Value} {p : Process}
    (hchannel : s.pipeline.channel = event :: events)
    (hreceive : s.pipeline.process.step env.input (.receive event) = some p) :
    Aligned env { s with
      pipeline := { s.pipeline with channel := events, process := p }
      origins := s.trace env .receive } := by
  rcases Process.step_cases hreceive with ⟨e, processor, hevent, hprocessor, rfl⟩ |
    ⟨_, _, hnone, -⟩ | ⟨hnone, -⟩
  · obtain rfl := Action.receive.inj hevent
    obtain ⟨applied, happly, -, hbatch, -⟩ := Processor.receive_eq_some hprocessor
    have hof := h.channel
    rw [hchannel] at hof
    simp only [Traced.trace, Traced.writes]
    cases horigins : s.origins.channel with
    | nil => rw [horigins] at hof; cases hof
    | cons o os =>
      rw [horigins] at hof
      obtain ⟨ho, hos⟩ := List.forall₂_cons.mp hof
      refine ⟨h.fetched, hos, ?_, h.queue, h.table⟩
      simp only [hbatch]
      exact List.rel_append h.batch (.cons (ho.hashed happly) .nil)
  · cases hnone
  · cases hnone

/-- What one step preserves. -/
theorem step (h : Aligned env s) {a : TracedAction} {t : Traced} (ha : s.step env a = some t) :
    Aligned env t := by
  cases a with
  | crash =>
    obtain rfl := Option.some.inj ha
    exact ⟨List.nil_suffix, .nil, .nil, .nil, h.table⟩
  | work a =>
    obtain ⟨p, hp, rfl⟩ := Option.map_eq_some_iff.mp ha
    cases Pipeline.step_cases hp with
    | unread hread =>
      simp only [Traced.trace, Traced.writes, hread]
      simpa using h
    | @datagram bytes event hread =>
      simp only [Traced.trace, Traced.writes, hread]
      exact ⟨h.fetched, List.rel_append h.channel (.cons (OfChange.none _ event) .nil), h.batch,
        h.queue, h.table⟩
    | @external row hown => exact h.extend [row]
    | @rewind n hfetched =>
      refine h.move ?_ (hfetched ▸ List.nil_suffix)
      rw [← List.append_assoc, rdrop_append_rtake, Traced.log, Traced.consumed]
    | @poll n hfetched =>
      refine h.move ?_ (List.suffix_append _ _)
      rw [List.append_assoc, List.take_append_drop, Traced.log, Traced.consumed]
    | capture hfetched => exact h.capture hfetched
    | receive hchannel hreceive => exact h.receive hchannel hreceive
    | flushFull hwrite =>
      refine h.write (.inl rfl) ?_ hwrite
      simp only [Traced.trace, Traced.writes]
      split_ifs <;> rfl
    | tick hwrite =>
      refine h.write (.inr rfl) ?_ hwrite
      simp only [Traced.trace, Traced.writes]
      split_ifs <;> rfl

end Aligned

/-! ## Where a change is -/

def IsChange (reserved : List Char → Bool) (row : SlotRow) : Prop :=
  ∃ c : Change, c.command ≠ "TRUNCATE".toList ∧ ':' ∉ c.table.print reserved ∧
    row.data = String.ofList (c.print reserved)

/-- Such a row has an event. -/
theorem IsChange.events_ne_nil {reserved : List Char → Bool} {row : SlotRow}
    (h : IsChange reserved row) (fromStr : String → Option Value)
    (registry : SensitiveFieldRegistry) (now : String) :
    ReadRow.events fromStr ⟨row, registry, now⟩ ≠ [] := by
  obtain ⟨c, hcommand, hcolon, hdata⟩ := h
  obtain ⟨schema, table, -, hline⟩ := parseChangeLine_print reserved hcommand hcolon
  obtain ⟨event, hevent, -⟩ := exists_changeEvent fromStr registry now row.xid row.lsn
    ⟨String.ofList c.command, String.ofList schema, String.ofList table, parseColumnValues c.body⟩
    ((rowDocs_isSome_iff fromStr).mpr (command_cases hcommand))
  have hprints : Prints reserved ⟨row, registry, now⟩ (.change c) := hdata
  rw [events_change fromStr hprints, hline, Option.bind_some, hevent]
  exact List.cons_ne_nil _ _

namespace Traced

variable {s t : Traced} {i : Nat}

def Kept (s : Traced) (i : Nat) : Prop := s.Held i ∨ some i ∈ s.origins.table

theorem kept_iff : s.Kept i ↔
    (s.handled ≤ i ∧ i < s.consumed.length) ∨ some i ∈ s.origins.all := by
  simp only [Kept, Held, Origins.all, List.mem_append]
  tauto

/-- A position beside an event stays beside an event, unless a call drops it. -/
theorem mem_trace {a : PipelineAction} (hloses : ¬ s.Loses i (.work a))
    (h : some i ∈ s.origins.all) : some i ∈ (s.trace env a).all := by
  cases hwrites : s.writes a with
  | some db =>
    simp only [trace, hwrites]
    exact Origins.all_flush h fun hmem => hloses ⟨db, hwrites, hmem⟩
  | none =>
    simp only [Origins.all, List.mem_append] at h
    cases a with
    | receive =>
      have hsplit : s.origins.channel = s.origins.channel.take 1 ++ s.origins.channel.tail := by
        rw [← List.drop_one, List.take_append_drop]
      rw [hsplit, List.mem_append] at h
      simp only [trace, hwrites, Origins.all, List.mem_append]
      tauto
    | _ =>
      simp only [trace, hwrites, Origins.all, List.mem_append]
      tauto

/-- What a step does to the rows that the slot has returned and to those of the last poll. -/
inductive Moves (s p : Pipeline) : PipelineAction → Prop where
  | same {a : PipelineAction} (hreturned : p.returned = s.returned)
    (hfetched : p.fetched = s.fetched) : Moves s p a
  | rewind {n : Nat} (hfetched : s.fetched = []) (hreturned : p.returned = s.returned.rdrop n)
    (hnone : p.fetched = []) : Moves s p (.rewind n)
  | poll {n : Nat} (hfetched : s.fetched = []) (hreturned : p.returned = s.returned ++ p.fetched) :
    Moves s p (.poll n)
  | capture {registry : SensitiveFieldRegistry} {now : String} {row : SlotRow}
    (hreturned : p.returned = s.returned) (hfetched : s.fetched = row :: p.fetched) :
    Moves s p (.capture registry now)

theorem moves_step {s p : Pipeline} {a : PipelineAction} (h : s.step env a = some p) :
    Moves s p a := by
  cases Pipeline.step_cases h with
  | unread | datagram | external | receive => exact .same rfl rfl
  | rewind hfetched => exact .rewind hfetched rfl hfetched
  | poll hfetched => exact .poll hfetched rfl
  | capture hfetched => exact .capture rfl hfetched
  | flushFull hwrite | tick hwrite =>
    obtain ⟨q, -, rfl⟩ := Option.map_eq_some_iff.mp hwrite
    exact .same rfl rfl

/-- What one step that does not lose a change preserves. -/
theorem kept_step (haligned : Aligned env s) {reserved : List Char → Bool} {a : TracedAction}
    (ha : s.step env a = some t) (hloses : ¬ s.Loses i a)
    (hkept : ∀ row, s.consumed[i]? = some row → IsChange reserved row → s.Kept i) :
    ∀ row, t.consumed[i]? = some row → IsChange reserved row → t.Kept i := by
  intro row hrow hchange
  cases a with
  | crash =>
    obtain rfl := Option.some.inj ha
    exact .inr ((hkept row hrow hchange).resolve_left hloses)
  | work a =>
    obtain ⟨p, hp, rfl⟩ := Option.map_eq_some_iff.mp ha
    have hfetched := haligned.fetched.length_le
    -- where nothing is left to handle, all that is below the position has left the slot
    have hleft : s.pipeline.fetched = [] → s.consumed[i]? = some row → some i ∈ s.origins.all := by
      intro hnil hold
      have hlt := (List.getElem?_eq_some_iff.mp hold).1
      rcases kept_iff.mp (hkept row hold hchange) with ⟨hfront, -⟩ | hmem
      · simp only [handled, hnil, List.length_nil] at hfront
        omega
      · exact hmem
    rw [kept_iff]
    cases moves_step hp with
    | same hreturned hsame =>
      simp only [handled, consumed, hreturned, hsame] at hrow ⊢
      rcases kept_iff.mp (hkept row hrow hchange) with hfront | hmem
      · exact .inl hfront
      · exact .inr (mem_trace hloses hmem)
    | rewind hnil hreturned =>
      simp only [consumed, hreturned] at hrow
      have hlt := (List.getElem?_eq_some_iff.mp hrow).1
      rw [List.rdrop, List.length_take] at hlt
      rw [List.rdrop, List.getElem?_take_of_lt (by omega)] at hrow
      exact .inr (mem_trace hloses (hleft hnil hrow))
    | poll hnil hreturned =>
      have hlt := (List.getElem?_eq_some_iff.mp hrow).1
      simp only [handled, consumed, hreturned, List.length_append] at hrow hlt ⊢
      by_cases hold : i < s.pipeline.returned.length
      · rw [List.getElem?_append_left hold] at hrow
        exact .inr (mem_trace hloses (hleft hnil hrow))
      · exact .inl (by omega)
    | @capture registry now first hreturned hfirst =>
      have hlt := (List.getElem?_eq_some_iff.mp hrow).1
      simp only [handled, consumed, hreturned] at hrow hlt ⊢
      have hnext : s.handled + 1 = s.pipeline.returned.length - p.fetched.length := by
        rw [hfirst, List.length_cons] at hfetched
        rw [handled, consumed, hfirst, List.length_cons]
        rw [consumed] at hfetched
        omega
      rcases kept_iff.mp (hkept row hrow hchange) with ⟨hfront, -⟩ | hmem
      · by_cases hhead : i = s.handled
        · -- the row is captured now, and its event goes to the channel
          subst hhead
          obtain rfl := Option.some.inj ((haligned.consumed_handled hfirst).symm.trans hrow)
          have hevents := hchange.events_ne_nil env.fromStr registry now
          refine .inr ?_
          simp only [trace, writes, hfirst, Origins.all, List.mem_append]
          exact .inl (.inl (.inl (.inr (by simpa using hevents))))
        · exact .inl ⟨by omega, hlt⟩
      · exact .inr (mem_trace hloses hmem)

end Traced

/-! ## What survives -/

/-- A row of the table stores an event of the change at a position. The row has one position, so
no other change is recorded by it. -/
def Recorded (env : Environment) (s : Traced) (i : Nat) : Prop :=
  ∃ (k : Nat) (r : Row) (row : SlotRow) (e : Value),
    s.origins.table[k]? = some (some i) ∧ s.pipeline.process.table.rows[k]? = some r ∧
      s.consumed[i]? = some row ∧ Tells env row e ∧ StoredAs env.input e r

theorem Aligned.recorded {s : Traced} (h : Aligned env s) {i : Nat}
    (hi : some i ∈ s.origins.table) (hbelow : i < s.consumed.length) : Recorded env s i := by
  obtain ⟨k, hk, hki⟩ := List.getElem_of_mem hi
  have hk' : k < s.pipeline.process.table.rows.length := h.table.length_eq ▸ hk
  obtain ⟨e, hof, hstored⟩ := h.table.get hk hk'
  obtain ⟨row, hrow, htells⟩ := hof i hki
  rw [Traced.log, List.getElem?_append_left hbelow] at hrow
  refine ⟨k, _, row, e, ?_, List.getElem?_eq_getElem hk', hrow, htells, hstored⟩
  rw [List.getElem?_eq_getElem hk, hki]

def userChange : Change :=
  .insert ⟨"public".toList, "users".toList⟩
    (some [⟨"id".toList, "integer".toList, .bare "1".toList⟩])

theorem data_userRow : userRow.data = String.ofList (userChange.print fun _ => false) := by
  decide +kernel

def writtenActions : List TracedAction := userActions.map .work ++ [.crash]

def polledActions : List TracedAction :=
  [.work (.external userRow), .work (.poll 1), .crash]

end VibeAudit.Delivery
