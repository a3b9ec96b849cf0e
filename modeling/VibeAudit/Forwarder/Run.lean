import VibeAudit.Forwarder.Processor
import VibeAudit.Forwarder.Writer

/-!
# One forwarder process and its table

The processor loop with the writer it calls and the table behind it. The loop
takes one arm at a time: a value from the channel is pushed onto the batch, a
batch of 100 is flushed before anything else, and a tick flushes a batch that is
not empty. Ids come from the table's sequence, which also advances, by any
amount, for statements that fail.
-/

namespace VibeAudit.Forwarder

open Foundation Json Extension

/-- The rows in the order they were inserted, and the next value of the id sequence. Ids come
from the sequence alone, so they increase along the rows and stay below its next value. -/
structure EventsTable where
  rows : Table
  nextId : Int
  ids_lt : rows.Pairwise fun a b => a.id < b.id
  ids_lt_next : ∀ r ∈ rows, r.id < nextId

namespace EventsTable

def empty : EventsTable where
  rows := []
  nextId := 1
  ids_lt := .nil
  ids_lt_next := by simp

def givenIds (first : Int) (n : Nat) : List Int := (List.range n).map fun i : Nat => first + i

@[simp] theorem length_givenIds (first : Int) (n : Nat) : (givenIds first n).length = n := by
  simp [givenIds]

theorem pairwise_givenIds (first : Int) (n : Nat) : (givenIds first n).Pairwise (· < ·) := by
  rw [givenIds, List.pairwise_map]
  refine List.pairwise_lt_range.imp ?_
  intro i j hij
  omega

theorem mem_givenIds {first id : Int} {n : Nat} (h : id ∈ givenIds first n) :
    first ≤ id ∧ id < first + n := by
  obtain ⟨i, hi, rfl⟩ := List.mem_map.mp h
  have hlt : i < n := List.mem_range.mp hi
  omega

theorem map_id_storedRows {input : TimestamptzInput} {first : Int} {events : List Value}
    {rows : Table} (h : storedRows input (givenIds first events.length) events = some rows) :
    rows.map Row.id = givenIds first events.length := by
  rw [storedRows_ids h, List.take_of_length_le (length_givenIds first events.length).le]

/-- New rows under the ids from `first` on keep the ids increasing. -/
theorem pairwise_append {t : EventsTable} {rows : Table} {first : Int} {n : Nat}
    (hids : rows.map Row.id = givenIds first n) (hfirst : t.nextId ≤ first) :
    (t.rows ++ rows).Pairwise fun a b => a.id < b.id := by
  rw [List.pairwise_append]
  refine ⟨t.ids_lt, ?_, ?_⟩
  · have hnew := pairwise_givenIds first n
    rw [← hids] at hnew
    exact List.pairwise_map.mp hnew
  · intro a ha b hb
    have hold := t.ids_lt_next a ha
    have hgiven := mem_givenIds (hids ▸ List.mem_map_of_mem (f := Row.id) hb)
    omega

theorem lt_next_append {t : EventsTable} {rows : Table} {first : Int} {n : Nat}
    (hids : rows.map Row.id = givenIds first n) (hfirst : t.nextId ≤ first) :
    ∀ r ∈ t.rows ++ rows, r.id < first + n := by
  intro r hr
  rcases List.mem_append.mp hr with hr | hr
  · have hold := t.ids_lt_next r hr
    omega
  · exact (mem_givenIds (hids ▸ List.mem_map_of_mem (f := Row.id) hr)).2

/-- Insert the rows of the committed events after `gap` ids were given out for nothing. -/
def insert (t : EventsTable) (input : TimestamptzInput) (gap : Nat) (committed : List Value) :
    Option EventsTable :=
  match h : storedRows input (givenIds (t.nextId + gap) committed.length) committed with
  | none => none
  | some rows =>
    some {
      rows := t.rows ++ rows
      nextId := t.nextId + gap + committed.length
      ids_lt := pairwise_append (map_id_storedRows h) (Int.le_add_of_nonneg_right (by omega))
      ids_lt_next := lt_next_append (map_id_storedRows h) (Int.le_add_of_nonneg_right (by omega)) }

/-- What an insertion does: the rows of the committed events come last. -/
theorem insert_spec {t t' : EventsTable} {input : TimestamptzInput} {gap : Nat}
    {committed : List Value} (h : t.insert input gap committed = some t') :
    ∃ ids rows, storedRows input ids committed = some rows ∧ t'.rows = t.rows ++ rows := by
  unfold insert at h
  split at h
  · cases h
  · next rows hrows =>
    obtain rfl := Option.some.inj h
    exact ⟨_, rows, hrows, rfl⟩

/-- An insertion completes when the database can read the time of every event. -/
theorem insert_isSome {t : EventsTable} {input : TimestamptzInput} {gap : Nat}
    {committed : List Value} {rows : Table}
    (h : storedRows input (givenIds (t.nextId + gap) committed.length) committed = some rows) :
    (t.insert input gap committed).isSome = true := by
  unfold insert
  split
  · next hnone =>
    rw [h] at hnone
    cases hnone
  · rfl

end EventsTable

structure Process where
  processor : Processor
  writer : BatchWriter
  table : EventsTable

def batchLimit : Nat := 100

/-- The arms of the processor loop; a flush carries what the database does with it. -/
inductive Action where
  | receive (event : Value)
  | flushFull (db : DbOutcome) (gap : Nat)
  | tick (db : DbOutcome) (gap : Nat)

namespace Process

def new : Process :=
  { processor := Processor.new, writer := { retryQueue := [] }, table := EventsTable.empty }

/-- `write_batch(&batch)` and `batch.clear()`. -/
def flush (input : TimestamptzInput) (s : Process) (db : DbOutcome) (gap : Nat) :
    Option Process := do
  let result := s.writer.writeBatch s.processor.batch db
  let table ← s.table.insert input gap result.committed
  return {
    processor := { s.processor with batch := [] }
    writer := result.writer
    table := table }

def step (input : TimestamptzInput) (s : Process) : Action → Option Process
  | .receive event =>
    if s.processor.batch.length < batchLimit then
      (s.processor.receive event).map fun p => { s with processor := p }
    else none
  | .flushFull db gap =>
    if s.processor.batch.length < batchLimit then none else s.flush input db gap
  | .tick db gap =>
    if s.processor.batch.length < batchLimit then
      if s.processor.batch.isEmpty then some s else s.flush input db gap
    else none

def backlog (s : Process) : Nat := s.writer.retryQueue.length + s.processor.batch.length

/-- Steps of runs in which the backlog never exceeds the cap of the retry queue. -/
def boundedStep (input : TimestamptzInput) (s : Process) (a : Action) : Option Process :=
  (s.step input a).filter fun t => t.backlog ≤ maxRetry

end Process

/-- The events taken from the channel in a run, as they arrived. -/
def received : List Action → List Value
  | [] => []
  | .receive event :: as => event :: received as
  | _ :: as => received as

theorem received_append (as bs : List Action) :
    received (as ++ bs) = received as ++ received bs := by
  induction as with
  | nil => rfl
  | cons a as ih => cases a <;> simp [received, ih]

def Action.db : Action → Option DbOutcome
  | .receive _ => none
  | .flushFull db _ | .tick db _ => some db

namespace Process

theorem flush_spec {s t : Process} {input : TimestamptzInput} {db : DbOutcome} {gap : Nat}
    (h : s.flush input db gap = some t) :
    t.processor = { s.processor with batch := [] } ∧
      t.writer = (s.writer.writeBatch s.processor.batch db).writer ∧
      s.table.insert input gap (s.writer.writeBatch s.processor.batch db).committed =
        some t.table := by
  simp only [flush, Option.bind_eq_bind, Option.bind_eq_some_iff, Option.pure_def,
    Option.some.injEq] at h
  obtain ⟨table, htable, rfl⟩ := h
  exact ⟨rfl, rfl, htable⟩

/-- Everything one arm of the loop can do. -/
theorem step_cases {s t : Process} {input : TimestamptzInput} {a : Action}
    (h : s.step input a = some t) :
    (∃ event p, a = .receive event ∧ s.processor.receive event = some p ∧
      t = { s with processor := p }) ∨
    (∃ db gap, a.db = some db ∧ received [a] = [] ∧ s.processor.batch ≠ [] ∧
      s.flush input db gap = some t) ∨
    (received [a] = [] ∧ t = s) := by
  cases a with
  | receive event =>
    simp only [step] at h
    split_ifs at h with hlen
    obtain ⟨p, hp, rfl⟩ := Option.map_eq_some_iff.mp h
    exact .inl ⟨event, p, rfl, hp, rfl⟩
  | flushFull db gap =>
    simp only [step] at h
    split_ifs at h with hlen
    have hne : s.processor.batch ≠ [] := by
      intro hnil
      rw [hnil] at hlen
      exact hlen (by decide)
    exact .inr (.inl ⟨db, gap, rfl, rfl, hne, h⟩)
  | tick db gap =>
    simp only [step] at h
    split_ifs at h with hlen hempty
    · exact .inr (.inr ⟨rfl, (Option.some.inj h).symm⟩)
    · exact .inr (.inl ⟨db, gap, rfl, rfl, by simpa using hempty, h⟩)

theorem boundedStep_eq_some {s t : Process} {input : TimestamptzInput} {a : Action} :
    s.boundedStep input a = some t ↔ s.step input a = some t ∧ t.backlog ≤ maxRetry := by
  simp [boundedStep, Option.filter_eq_some_iff]

end Process

end VibeAudit.Forwarder
