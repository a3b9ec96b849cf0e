import VibeAudit.Forwarder.WalCapture

/-!
# Lines of `test_decoding`

What the output plugin prints for the changes of a transaction: names after
`quote_identifier`, types after `format_type_be`, and values bare or as a quoted
literal. Which words `quote_identifier` takes for reserved is a parameter.
-/

namespace VibeAudit.Decoding

open Foundation Forwarder

/-- `null`, numbers, truth values and bit strings are printed bare, all else in quotes with the
quotes inside doubled. -/
inductive PrintedValue where
  | bare (token : List Char)
  | quoted (text : List Char)
  deriving DecidableEq, Repr

def PrintedValue.print : PrintedValue → List Char
  | .bare token => token
  | .quoted text => '\'' :: (Text.double '\'' text ++ ['\''])

/-- A column of a tuple: its name and its type as they are printed, and its value. -/
structure PrintedColumn where
  name : List Char
  type : List Char
  value : PrintedValue
  deriving DecidableEq, Repr

def PrintedColumn.head (c : PrintedColumn) : List Char := c.name ++ '[' :: (c.type ++ [']', ':'])

def PrintedColumn.print (c : PrintedColumn) : List Char := c.head ++ c.value.print

def printTuple (columns : List PrintedColumn) : List Char :=
  columns.flatMap fun c => ' ' :: c.print

/-- The columns of a change. An UPDATE prints the old key first where there is one. -/
structure Layout where
  oldKey : Option (List PrintedColumn)
  tuple : List PrintedColumn
  deriving DecidableEq, Repr

def Layout.print (l : Layout) : List Char :=
  match l.oldKey with
  | some old => " old-key:".toList ++ printTuple old ++ " new-tuple:".toList ++ printTuple l.tuple
  | none => printTuple l.tuple

def Layout.columns (l : Layout) : List PrintedColumn := l.oldKey.getD [] ++ l.tuple

/-- A name of lower-case letters, digits and underscores that does not begin with a digit. -/
def isPlain (name : List Char) : Bool :=
  (name.head?.any fun c => c.isLower || c == '_') &&
    name.all fun c => c.isLower || c.isDigit || c == '_'

/-- `quote_identifier`. -/
def quoteIdentifier (reserved : List Char → Bool) (name : List Char) : List Char :=
  if isPlain name && !reserved name then name else '"' :: (Text.double '"' name ++ ['"'])

/-- A table by its name in the catalog. -/
structure TableName where
  schema : List Char
  table : List Char
  deriving DecidableEq, Repr

/-- `quote_qualified_identifier`. -/
def TableName.print (reserved : List Char → Bool) (t : TableName) : List Char :=
  quoteIdentifier reserved t.schema ++ '.' :: quoteIdentifier reserved t.table

/-- A change of the log. A tuple is absent where the log does not hold it; a TRUNCATE names all
its tables in one line. -/
inductive Change where
  | insert (table : TableName) (tuple : Option (List PrintedColumn))
  | update (table : TableName) (oldKey tuple : Option (List PrintedColumn))
  | delete (table : TableName) (oldKey : Option (List PrintedColumn))
  | truncate (table : TableName) (others : List TableName) (restartSeqs cascade : Bool)
  deriving DecidableEq, Repr

/-- A tuple, or what stands in its place. -/
def printTupleData : Option (List PrintedColumn) → List Char
  | some columns => printTuple columns
  | none => " (no-tuple-data)".toList

def printOldKey : Option (List PrintedColumn) → List Char
  | some columns => " old-key:".toList ++ printTuple columns ++ " new-tuple:".toList
  | none => []

def printFlags (restartSeqs cascade : Bool) : List Char :=
  if restartSeqs || cascade then
    (if restartSeqs then " restart_seqs".toList else []) ++
      (if cascade then " cascade".toList else [])
  else " (no-flags)".toList

def Change.command : Change → List Char
  | .insert .. => "INSERT".toList
  | .update .. => "UPDATE".toList
  | .delete .. => "DELETE".toList
  | .truncate .. => "TRUNCATE".toList

def Change.table : Change → TableName
  | .insert table _ | .update table _ _ | .delete table _ | .truncate table _ _ _ => table

/-- What stands between `table ` and the colon. -/
def Change.target (reserved : List Char → Bool) : Change → List Char
  | .truncate table others _ _ =>
    table.print reserved ++ others.flatMap fun t => ", ".toList ++ t.print reserved
  | change => change.table.print reserved

def Change.body : Change → List Char
  | .insert _ tuple => printTupleData tuple
  | .update _ oldKey tuple => printOldKey oldKey ++ printTupleData tuple
  | .delete _ oldKey => printTupleData oldKey
  | .truncate _ _ restartSeqs cascade => printFlags restartSeqs cascade

def Change.print (reserved : List Char → Bool) (change : Change) : List Char :=
  "table ".toList ++ (change.target reserved ++ ':' :: ' ' ::
    (change.command ++ ':' :: change.body))

theorem Change.print_eq (reserved : List Char → Bool) (change : Change) :
    change.print reserved = "table ".toList ++ (change.target reserved ++ ':' :: ' ' ::
      (change.command ++ ':' :: change.body)) := rfl

def Change.layout : Change → Option Layout
  | .insert _ tuple => tuple.map fun columns => ⟨none, columns⟩
  | .update _ oldKey tuple => tuple.map fun columns => ⟨oldKey, columns⟩
  | .delete _ oldKey => oldKey.map fun columns => ⟨none, columns⟩
  | .truncate .. => none

theorem Change.body_of_layout {change : Change} {l : Layout} (h : change.layout = some l) :
    change.body = l.print ∧ change.command ≠ "TRUNCATE".toList := by
  cases change with
  | insert _ tuple =>
    obtain ⟨columns, rfl, rfl⟩ := Option.map_eq_some_iff.mp h
    exact ⟨rfl, (by decide : "INSERT".toList ≠ "TRUNCATE".toList)⟩
  | update _ oldKey tuple =>
    obtain ⟨columns, rfl, rfl⟩ := Option.map_eq_some_iff.mp h
    refine ⟨?_, (by decide : "UPDATE".toList ≠ "TRUNCATE".toList)⟩
    cases oldKey <;> rfl
  | delete _ oldKey =>
    obtain ⟨columns, rfl, rfl⟩ := Option.map_eq_some_iff.mp h
    exact ⟨rfl, (by decide : "DELETE".toList ≠ "TRUNCATE".toList)⟩
  | truncate => cases h

/-- A line of the slot. The transaction id after BEGIN and COMMIT is an option of the plugin. -/
inductive Line where
  | begin (xid : Option Nat)
  | commit (xid : Option Nat)
  | change (c : Change)
  deriving DecidableEq, Repr

def printXid (xid : Option Nat) : List Char :=
  match xid with
  | some n => ' ' :: (toString n).toList
  | none => []

def Line.print (reserved : List Char → Bool) : Line → String
  | .begin xid => String.ofList ("BEGIN".toList ++ printXid xid)
  | .commit xid => String.ofList ("COMMIT".toList ++ printXid xid)
  | .change c => String.ofList (c.print reserved)

end VibeAudit.Decoding
