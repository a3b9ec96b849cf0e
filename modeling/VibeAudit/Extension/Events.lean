import Mathlib.Data.List.Sort
import VibeAudit.Foundation.Calendar

/-!
# The table `vibe_audit.events`

Rows are what PostgreSQL stores. The reading of a `timestamptz` from text is the
database's own and depends on the session, so it is a parameter of everything
that inserts rows; the rendering that `verify_chain` uses is fixed by its format
and is modelled here.
-/

namespace VibeAudit.Extension

open Foundation

/-- A stored instant, in microseconds since 1970-01-01T00:00:00 UTC. -/
inductive Timestamptz where
  | finite (micros : Int)
  | infinity
  | minusInfinity
  deriving DecidableEq, Repr

/-- `to_char(t AT TIME ZONE 'UTC', 'YYYY-MM-DD"T"HH24:MI:SS.MS"Z"')`. Milliseconds are cut
off, years before 1 are printed as their number BC, and an infinite instant gives NULL. -/
def toChar : Timestamptz → Option String
  | .finite micros =>
    let date := civilFromDays (micros / 86400000000)
    let year := if date.year ≤ 0 then 1 - date.year else date.year
    let time := (micros % 86400000000).toNat
    some (zeroPad 4 year.toNat ++ "-" ++ zeroPad 2 date.month ++ "-" ++ zeroPad 2 date.day ++
      "T" ++ zeroPad 2 (time / 3600000000) ++ ":" ++ zeroPad 2 (time / 60000000 % 60) ++ ":" ++
      zeroPad 2 (time / 1000000 % 60) ++ "." ++ zeroPad 3 (time / 1000 % 1000) ++ "Z")
  | _ => none

example : toChar (.finite 1767225600123456) = some "2026-01-01T00:00:00.123Z" := by decide

theorem toChar_isSome_iff (time : Timestamptz) :
    (toChar time).isSome = true ↔ ∃ micros, time = .finite micros := by
  cases time <;> simp [toChar]

/-- A rendered instant is made of digits and the separators of ISO 8601. -/
theorem mem_toChar {time : Timestamptz} {text : String} (h : toChar time = some text) {c : Char}
    (hc : c ∈ text.toList) : c.isDigit = true ∨ c ∈ ['-', 'T', ':', '.', 'Z'] := by
  cases time with
  | infinity | minusInfinity => cases h
  | finite micros =>
    obtain rfl := Option.some.inj h
    simp only [String.toList_append, List.mem_append] at hc
    have hdigits : ∀ width n, c ∈ (zeroPad width n).toList → c.isDigit = true :=
      fun _ _ => isDigit_of_mem_zeroPad
    have hmark : ∀ mark ∈ ["-", "T", ":", ".", "Z"], c ∈ mark.toList →
        c ∈ ['-', 'T', ':', '.', 'Z'] := by
      simp +contextual
    grind

/-- PostgreSQL's input function for `timestamptz` in a session. It reads ISO 8601 text, in
particular the default that the writer binds when an event has no time. -/
structure TimestamptzInput where
  read : String → Option Timestamptz
  read_epoch : read "1970-01-01T00:00:00Z" = some (.finite 0)

/-- The two ISO 8601 spellings in UTC that the emitters and the tests use, with whole seconds
or with milliseconds. -/
def readIso (text : String) : Option Timestamptz := do
  let cs := text.toList
  let field start len := readDigits ((cs.drop start).take len)
  guard ([4, 7, 10, 13, 16].map (cs[·]?) = ['-', '-', 'T', ':', ':'].map some)
  let date : CivilDate :=
    { year := ← field 0 4, month := ← field 5 2, day := ← field 8 2 }
  let hour ← field 11 2
  let minute ← field 14 2
  let second ← field 17 2
  let millis ← if cs.drop 19 = ['Z'] then some 0 else do
    guard (cs[19]? = some '.' ∧ cs.drop 23 = ['Z'])
    field 20 3
  guard (1 ≤ date.year ∧ civilFromDays (daysFromCivil date) = date)
  guard (hour < 24 ∧ minute < 60 ∧ second < 60)
  return .finite (daysFromCivil date * 86400000000 +
    (((hour * 60 + minute) * 60 + second) * 1000 + millis) * 1000)

/-- A session that reads the ISO 8601 spellings above. -/
def isoInput : TimestamptzInput where
  read := readIso
  read_epoch := by decide

example : (readIso "2026-01-01T00:00:00.123Z").bind toChar = some "2026-01-01T00:00:00.123Z" := by
  decide

/-- The columns of `vibe_audit.events`, `inserted_at` left out. Addresses and documents are
held as the text they were given in. -/
structure Row where
  id : Int
  eventType : String
  eventTime : Timestamptz
  success : Bool
  sessionUser : Option String
  clientAddr : Option String
  clientPort : Option Int32
  database : Option String
  pid : Option Int32
  application : Option String
  commandTag : Option String
  objectType : Option String
  objectName : Option String
  schemaName : Option String
  queryText : Option String
  sqlstate : Option String
  detail : Option String
  prevHash : Option String
  eventHash : Option String
  deriving DecidableEq, Repr

abbrev Table := List Row

/-- The bounds of a partition, `FOR VALUES FROM (start) TO (stop)`, as instants in
microseconds: `ensure_partition` takes the first days of two months, which are finite. -/
structure PartitionBounds where
  start : Int
  stop : Int
  deriving DecidableEq, Repr

/-- The lower bound is inclusive, the upper one exclusive. -/
def PartitionBounds.holds (b : PartitionBounds) : Timestamptz → Bool
  | .finite micros => b.start ≤ micros && micros < b.stop
  | _ => false

/-- Every row lies in a partition. There is no default partition, so an INSERT of any other
row fails. -/
def Routed (partitions : List PartitionBounds) (t : Table) : Prop :=
  ∀ r ∈ t, ∃ b ∈ partitions, b.holds r.eventTime = true

instance (partitions : List PartitionBounds) (t : Table) : Decidable (Routed partitions t) :=
  inferInstanceAs (Decidable (∀ r ∈ t, ∃ b ∈ partitions, b.holds r.eventTime = true))

/-- Rows in partitions have finite instants. -/
theorem Routed.toChar_isSome {partitions : List PartitionBounds} {t : Table}
    (h : Routed partitions t) {r : Row} (hr : r ∈ t) : (toChar r.eventTime).isSome = true := by
  obtain ⟨b, -, hb⟩ := h r hr
  rw [toChar_isSome_iff]
  cases htime : r.eventTime with
  | finite micros => exact ⟨micros, rfl⟩
  | infinity | minusInfinity => simp [PartitionBounds.holds, htime] at hb

/-- `ORDER BY id`. -/
def orderById (t : Table) : Table := t.insertionSort fun a b => a.id ≤ b.id

theorem orderById_eq_self {t : Table} (h : t.Pairwise fun a b => a.id ≤ b.id) :
    orderById t = t := h.insertionSort_eq

@[simp] theorem orderById_length (t : Table) : (orderById t).length = t.length :=
  List.length_insertionSort _ _

theorem orderById_eq_nil {t : Table} : orderById t = [] ↔ t = [] := by
  rw [← List.length_eq_zero_iff, orderById_length, List.length_eq_zero_iff]

theorem orderedInsert_append {r : Row} {xs ys : List Row} (h : ∀ b ∈ ys, r.id ≤ b.id) :
    (xs ++ ys).orderedInsert (fun a b => a.id ≤ b.id) r =
      xs.orderedInsert (fun a b => a.id ≤ b.id) r ++ ys := by
  induction xs with
  | nil =>
    cases ys with
    | nil => rfl
    | cons b bs =>
      have hb : r.id ≤ b.id := h b List.mem_cons_self
      simp [List.orderedInsert, hb]
  | cons a as ih =>
    rw [List.cons_append, List.orderedInsert, List.orderedInsert, ih]
    split_ifs <;> rfl

theorem orderById_sorted (t : Table) : (orderById t).Pairwise fun a b => a.id ≤ b.id :=
  List.pairwise_insertionSort _ t

theorem mem_orderById {t : Table} {r : Row} : r ∈ orderById t ↔ r ∈ t :=
  (List.perm_insertionSort _ _).mem_iff

/-- Rows appended with larger ids come last in id order. -/
theorem orderById_append {t new : Table} (hlt : ∀ a ∈ t, ∀ b ∈ new, a.id < b.id) :
    orderById (t ++ new) = orderById t ++ orderById new := by
  induction t with
  | nil => rfl
  | cons a t ih =>
    have htail := ih fun b hb => hlt b (List.mem_cons_of_mem _ hb)
    calc orderById (a :: t ++ new)
        = (orderById (t ++ new)).orderedInsert (fun a b => a.id ≤ b.id) a := rfl
      _ = (orderById t ++ orderById new).orderedInsert (fun a b => a.id ≤ b.id) a := by rw [htail]
      _ = orderById (a :: t) ++ orderById new :=
        orderedInsert_append fun b hb => (hlt a List.mem_cons_self b (mem_orderById.mp hb)).le

end VibeAudit.Extension
