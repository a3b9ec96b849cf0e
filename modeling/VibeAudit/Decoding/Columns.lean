import Mathlib.Data.Bool.AllAny
import VibeAudit.Decoding.TestDecoding

/-!
# Columns read back from a change line

The parser splits the columns at whitespace and puts quoted values together
again. That gives back every column whose type is one word without a colon, as
long as no value but the last ends in a quote: the parser takes such a value for
unfinished and reads on into the next column.
-/

namespace VibeAudit.Decoding

open Foundation Forwarder

/-! ## Quoted values -/

theorem readQuoted_of_closed {value trimmed : List Char} (h : closedValue value = some trimmed)
    (parts : List (List Char)) : readQuoted value parts = (trimmed, parts) := by
  cases parts with
  | nil => simp [readQuoted, h]
  | cons part parts => simp [readQuoted, h]

theorem readQuoted_of_open {value : List Char} (h : closedValue value = none)
    (part : List Char) (parts : List (List Char)) :
    readQuoted value (part :: parts) = readQuoted (value ++ ' ' :: part) parts := by
  simp [readQuoted, h]

theorem closedValue_double (u s : List Char) (hu : s = [] → u = []) :
    closedValue (u ++ Text.double '\'' s) = none := by
  rw [closedValue, if_neg]
  simp [Text.not_closed_double u s hu]

theorem closedValue_append_quote {u : List Char} (h : Text.endsWith '\'' u = false) :
    closedValue (u ++ ['\'']) = some u := by
  have hends : Text.endsWith '\'' (u ++ ['\'']) = true := by simp [Text.endsWith]
  simp [closedValue, hends, h]

/-- Pieces that end in no single quote are all taken in. -/
theorem readQuoted_pieces (u s : List Char) (hu : s = [] → u = []) (ms : List (List Char))
    (hms : ∀ m ∈ ms, m ≠ []) (last : List Char) (rest : List (List Char)) :
    readQuoted (u ++ Text.double '\'' s) (ms.map (Text.double '\'') ++ last :: rest) =
      readQuoted (u ++ Text.double '\'' s ++ ms.flatMap (fun m => ' ' :: Text.double '\'' m) ++
        ' ' :: last) rest := by
  induction ms generalizing u s with
  | nil =>
    rw [List.map_nil, List.nil_append, readQuoted_of_open (closedValue_double u s hu)]
    simp
  | cons m ms ih =>
    rw [List.forall_mem_cons] at hms
    have hstep := ih (u ++ Text.double '\'' s ++ [' ']) m (fun hm => absurd hm hms.1) hms.2
    rw [List.map_cons, List.cons_append, readQuoted_of_open (closedValue_double u s hu)]
    simpa using hstep

/-! ## One column -/

/-- The head of a column is one word, and it ends at the first bracket and the first colon
behind it. -/
structure OneWord (c : PrintedColumn) : Prop where
  name : ∀ x ∈ c.name, Text.isWhitespace x = false ∧ x ≠ '['
  type : ∀ x ∈ c.type, Text.isWhitespace x = false ∧ x ≠ ':'

/-- A bare value is one word that does not begin with a quote. -/
def PrintedValue.IsToken : PrintedValue → Prop
  | .bare token => (∀ x ∈ token, Text.isWhitespace x = false) ∧ token.head? ≠ some '\''
  | .quoted _ => True

def PrintedValue.isClosed : PrintedValue → Bool
  | .bare _ => true
  | .quoted text => !Text.endsWith '\'' text

def PrintedValue.parsed : PrintedValue → List Char
  | .bare token => token
  | .quoted text => Text.collapse text

def PrintedColumn.parsed (isOld : Bool) (c : PrintedColumn) : ParsedColumn where
  name := String.ofList c.name
  value := String.ofList c.value.parsed
  isOld := isOld

theorem OneWord.head_no_whitespace {c : PrintedColumn} (h : OneWord c) :
    ∀ x ∈ c.head, Text.isWhitespace x = false := by
  intro x hx
  simp only [PrintedColumn.head, List.mem_append, List.mem_cons, List.not_mem_nil, or_false] at hx
  rcases hx with hx | rfl | hx | rfl | rfl
  · exact (h.name x hx).1
  · decide
  · exact (h.type x hx).1
  · decide
  · decide

/-- The first part of a column: its value is found. -/
theorem parseParts_head {c : PrintedColumn} (h : OneWord c) (fuel : Nat) (isOld : Bool)
    (value : List Char) (parts : List (List Char)) :
    parseParts (fuel + 1) isOld ((c.head ++ value) :: parts) =
      if value.head? = some '\'' then
        { name := String.ofList c.name
          value := String.ofList (Text.undouble '\'' (readQuoted value.tail parts).1)
          isOld := isOld } :: parseParts fuel isOld (readQuoted value.tail parts).2
      else
        { name := String.ofList c.name, value := String.ofList value, isOld := isOld } ::
          parseParts fuel isOld parts := by
  have hbracket : '[' ∈ c.head ++ value := by simp [PrintedColumn.head]
  have hold : c.head ++ value ≠ "old-key:".toList := by
    intro heq
    rw [heq] at hbracket
    exact absurd hbracket (by decide)
  have hnew : c.head ++ value ≠ "new-tuple:".toList := by
    intro heq
    rw [heq] at hbracket
    exact absurd hbracket (by decide)
  have hhead : c.head ++ value = c.name ++ '[' :: ((c.type ++ [']']) ++ ':' :: value) := by
    simp [PrintedColumn.head]
  have hname : Text.cutAt '[' (c.head ++ value) =
      some (c.name, (c.type ++ [']']) ++ ':' :: value) := by
    rw [hhead]
    exact Text.cutAt_append (fun hx => (h.name _ hx).2 rfl) _
  have htype : Text.cutAt ':' ((c.type ++ [']']) ++ ':' :: value) =
      some (c.type ++ [']'], value) := by
    refine Text.cutAt_append ?_ value
    rw [List.mem_append, not_or]
    exact ⟨fun hx => (h.type _ hx).2 rfl, by decide⟩
  rw [parseParts, if_neg hold, if_neg hnew, hname]
  simp only [htype]

theorem head_ne_nil (c : PrintedColumn) : c.head ≠ [] := by simp [PrintedColumn.head]

theorem splitWhitespace_bare {c : PrintedColumn} (h : OneWord c) {token : List Char}
    (htoken : ∀ x ∈ token, Text.isWhitespace x = false) :
    Text.splitWhitespace (c.head ++ token) = [c.head ++ token] := by
  refine Text.splitWhitespace_word ?_ (by simp [head_ne_nil])
  rw [List.forall_mem_append]
  exact ⟨h.head_no_whitespace, htoken⟩

/-- The words of a column with a quoted value: the head and the opening quote join the first
piece, and the empty pieces in between are lost. -/
theorem splitWhitespace_quoted {c : PrintedColumn} (h : OneWord c) (text : List Char) :
    ∃ ts t, text.splitOnP Text.isWhitespace = ts ++ [t] ∧
      Text.splitWhitespace (c.head ++ (PrintedValue.quoted text).print) =
        match ts with
        | [] => [c.head ++ '\'' :: (Text.double '\'' t ++ ['\''])]
        | u :: us => (c.head ++ '\'' :: Text.double '\'' u) ::
            ((us.filter fun m => !m.isEmpty).map (Text.double '\'') ++
              [Text.double '\'' t ++ ['\'']]) := by
  obtain ⟨ts, t, hsplit, hdouble, -⟩ := Text.exists_pieces (q := '\'') (by decide) text
  refine ⟨ts, t, hsplit, ?_⟩
  have hword : ∀ x ∈ c.head ++ ['\''], Text.isWhitespace x = false := by
    rw [List.forall_mem_append]
    exact ⟨h.head_no_whitespace, List.forall_mem_singleton.mpr (by decide)⟩
  have hprint : c.head ++ (PrintedValue.quoted text).print =
      (c.head ++ ['\'']) ++ (Text.double '\'' text ++ ['\'']) := by
    simp [PrintedValue.print]
  rw [Text.splitWhitespace, hprint, Text.splitOnP_append_word hword, hdouble]
  cases ts with
  | nil => simp
  | cons u us =>
    have hfilter : (us.map (Text.double '\'')).filter (fun m => !m.isEmpty) =
        (us.filter fun m => !m.isEmpty).map (Text.double '\'') := by
      rw [List.filter_map]
      congr 1
      refine List.filter_congr fun m _ => ?_
      simp
    simp [hfilter]

theorem endsWith_unsplit (ts : List (List Char)) (t : List Char) :
    Text.endsWith '\'' (Text.unsplit ts t) = Text.endsWith '\'' t := by
  cases ts with
  | nil => rfl
  | cons u us =>
    cases t with
    | nil => simp [Text.unsplit, Text.endsWith]
    | cons x t => simp [Text.unsplit, Text.endsWith]

theorem endsWith_collapse (text : List Char) :
    Text.endsWith '\'' (Text.collapse text) = Text.endsWith '\'' text := by
  obtain ⟨ts, t, hsplit, -, hends, -⟩ := Text.exists_pieces (q := '\'') (by decide) text
  rw [Text.collapse_eq_unsplit hsplit, endsWith_unsplit, hends]

/-- A quoted value is put together up to its closing quote; what the parser does then depends
on how it ends. -/
theorem parseParts_quoted {c : PrintedColumn} (h : OneWord c) {text : List Char}
    (hvalue : c.value = .quoted text) (fuel : Nat) (isOld : Bool) (rest : List (List Char)) :
    parseParts (fuel + 1) isOld (Text.splitWhitespace c.print ++ rest) =
      { name := String.ofList c.name
        value := String.ofList (Text.undouble '\''
          (readQuoted (Text.double '\'' (Text.collapse text) ++ ['\'']) rest).1)
        isOld := isOld } ::
      parseParts fuel isOld
        (readQuoted (Text.double '\'' (Text.collapse text) ++ ['\'']) rest).2 := by
  obtain ⟨ts, t, hsplit, hwords⟩ := splitWhitespace_quoted h text
  rw [PrintedColumn.print, hvalue, hwords, Text.collapse_eq_unsplit hsplit,
    Text.double_unsplit (by decide)]
  cases ts with
  | nil =>
    simp only [List.singleton_append]
    rw [parseParts_head h, if_pos (by simp), List.tail_cons]
  | cons u us =>
    have hpieces := readQuoted_pieces [] u (fun _ => rfl) (us.filter fun m => !m.isEmpty)
      (by simp) (Text.double '\'' t ++ ['\'']) rest
    have hread : readQuoted (Text.double '\'' u)
        ((us.filter fun m => !m.isEmpty).map (Text.double '\'') ++
          [Text.double '\'' t ++ ['\'']] ++ rest) =
        readQuoted (Text.double '\'' u ++ (us.filter fun m => !m.isEmpty).flatMap
          (fun m => ' ' :: Text.double '\'' m) ++ ' ' :: Text.double '\'' t ++ ['\'']) rest := by
      simpa using hpieces
    simp only [List.cons_append]
    rw [parseParts_head h, if_pos (by simp), List.tail_cons, hread]

/-- A column whose value is closed is read, and the parser goes on behind it. -/
theorem parseParts_column {c : PrintedColumn} (h : OneWord c) (htoken : c.value.IsToken)
    (hclosed : c.value.isClosed = true) (fuel : Nat) (isOld : Bool) (rest : List (List Char)) :
    parseParts (fuel + 1) isOld (Text.splitWhitespace c.print ++ rest) =
      c.parsed isOld :: parseParts fuel isOld rest := by
  cases hvalue : c.value with
  | bare token =>
    rw [hvalue] at htoken
    rw [PrintedColumn.print, hvalue, PrintedValue.print, splitWhitespace_bare h htoken.1,
      List.singleton_append, parseParts_head h, if_neg htoken.2, PrintedColumn.parsed, hvalue]
    rfl
  | quoted text =>
    have hopen : Text.endsWith '\'' (Text.double '\'' (Text.collapse text)) = false := by
      have hends := Text.endsWith_append_double [] (Text.collapse text) (q := '\'') fun _ => rfl
      rw [List.nil_append, endsWith_collapse] at hends
      rw [hends]
      simpa [PrintedValue.isClosed, hvalue] using hclosed
    rw [parseParts_quoted h hvalue, readQuoted_of_closed (closedValue_append_quote hopen),
      Text.undouble_double, PrintedColumn.parsed, hvalue]
    rfl

/-! ## All columns of a layout -/

def PrintedColumn.parts (c : PrintedColumn) : List (List Char) := Text.splitWhitespace c.print

theorem OneWord.parts_ne_nil {c : PrintedColumn} (h : OneWord c) (htoken : c.value.IsToken) :
    c.parts ≠ [] := by
  obtain ⟨name, type, value⟩ := c
  cases value with
  | bare token =>
    rw [PrintedColumn.parts, PrintedColumn.print, PrintedValue.print,
      splitWhitespace_bare h htoken.1]
    exact List.cons_ne_nil _ _
  | quoted text =>
    obtain ⟨ts, t, -, hwords⟩ := splitWhitespace_quoted h text
    rw [PrintedColumn.parts, PrintedColumn.print, hwords]
    cases ts <;> simp

theorem parseParts_nil (fuel : Nat) (isOld : Bool) : parseParts fuel isOld [] = [] := by
  cases fuel <;> rfl

theorem parseParts_oldKey (fuel : Nat) (isOld : Bool) (parts : List (List Char)) :
    parseParts (fuel + 1) isOld ("old-key:".toList :: parts) = parseParts fuel true parts := by
  rw [parseParts, if_pos rfl]

theorem parseParts_newTuple (fuel : Nat) (isOld : Bool) (parts : List (List Char)) :
    parseParts (fuel + 1) isOld ("new-tuple:".toList :: parts) = parseParts fuel false parts := by
  rw [parseParts, if_neg (by decide), if_pos rfl]

/-- A column that the parser reads and goes on behind. -/
structure Readable (c : PrintedColumn) : Prop extends OneWord c where
  token : c.value.IsToken
  closed : c.value.isClosed = true

theorem length_le_length_parts {columns : List PrintedColumn}
    (h : ∀ c ∈ columns, OneWord c ∧ c.value.IsToken) :
    columns.length ≤ (columns.flatMap PrintedColumn.parts).length := by
  induction columns with
  | nil => simp
  | cons c columns ih =>
    rw [List.forall_mem_cons] at h
    have hc := List.length_pos_iff.mpr (h.1.1.parts_ne_nil h.1.2)
    have hrest := ih h.2
    rw [List.flatMap_cons, List.length_append, List.length_cons]
    omega

/-- Readable columns are read one after the other. -/
theorem parseParts_columns {columns : List PrintedColumn} (h : ∀ c ∈ columns, Readable c)
    {fuel : Nat} (hfuel : columns.length ≤ fuel) (isOld : Bool) (rest : List (List Char)) :
    parseParts fuel isOld (columns.flatMap PrintedColumn.parts ++ rest) =
      columns.map (PrintedColumn.parsed isOld) ++
        parseParts (fuel - columns.length) isOld rest := by
  induction columns generalizing fuel with
  | nil => simp
  | cons c columns ih =>
    rw [List.forall_mem_cons] at h
    obtain ⟨n, rfl⟩ : ∃ n, fuel = n + 1 := ⟨fuel - 1, by simp at hfuel; omega⟩
    have hn : columns.length ≤ n := by simpa using hfuel
    rw [List.flatMap_cons, List.append_assoc, PrintedColumn.parts,
      parseParts_column h.1.toOneWord h.1.token h.1.closed, ih h.2 hn]
    simp

def Layout.parts (l : Layout) : List (List Char) :=
  match l.oldKey with
  | some old => "old-key:".toList :: (old.flatMap PrintedColumn.parts ++
      "new-tuple:".toList :: l.tuple.flatMap PrintedColumn.parts)
  | none => l.tuple.flatMap PrintedColumn.parts

theorem printTuple_eq (columns : List PrintedColumn) :
    printTuple columns = (columns.map PrintedColumn.print).flatMap (' ' :: ·) := by
  rw [printTuple, List.flatMap_map]

theorem flatMap_parts (columns : List PrintedColumn) :
    (columns.map PrintedColumn.print).flatMap Text.splitWhitespace =
      columns.flatMap PrintedColumn.parts := List.flatMap_map _ _ _

theorem splitWhitespace_layout (l : Layout) : Text.splitWhitespace l.print = l.parts := by
  obtain ⟨oldKey, tuple⟩ := l
  have hold : Text.splitWhitespace "old-key:".toList = ["old-key:".toList] := by decide
  have hnew : Text.splitWhitespace "new-tuple:".toList = ["new-tuple:".toList] := by decide
  cases oldKey with
  | none =>
    rw [Layout.print, printTuple_eq, Text.splitWhitespace_flatMap_blank, flatMap_parts]
    rfl
  | some old =>
    have hchunks : Layout.print ⟨some old, tuple⟩ =
        (["old-key:".toList] ++ old.map PrintedColumn.print ++ ["new-tuple:".toList] ++
          tuple.map PrintedColumn.print).flatMap (' ' :: ·) := by
      simp [Layout.print, printTuple_eq]
    rw [hchunks, Text.splitWhitespace_flatMap_blank]
    simp only [List.flatMap_append, flatMap_parts, List.flatMap_singleton, hold, hnew]
    simp only [Layout.parts, List.append_assoc, List.singleton_append]
    rfl

def Layout.parsed (l : Layout) : List ParsedColumn :=
  (l.oldKey.getD []).map (PrintedColumn.parsed true) ++ l.tuple.map (PrintedColumn.parsed false)

/-- The columns of the second section, with fuel enough. -/
theorem parseParts_tuple {columns : List PrintedColumn} (h : ∀ c ∈ columns, Readable c)
    {fuel : Nat} (hfuel : columns.length ≤ fuel) (isOld : Bool) :
    parseParts fuel isOld (columns.flatMap PrintedColumn.parts) =
      columns.map (PrintedColumn.parsed isOld) := by
  have hread := parseParts_columns h hfuel isOld []
  rwa [List.append_nil, parseParts_nil, List.append_nil] at hread

/-- A layout of readable columns is read back, the runs of whitespace in its values as one blank
each. -/
theorem parseColumnValues_layout {l : Layout} (h : ∀ c ∈ l.columns, Readable c) :
    parseColumnValues l.print = l.parsed := by
  obtain ⟨oldKey, tuple⟩ := l
  have hlen : ∀ {columns : List PrintedColumn}, (∀ c ∈ columns, Readable c) →
      columns.length ≤ (columns.flatMap PrintedColumn.parts).length :=
    fun hc => length_le_length_parts fun c hmem => ⟨(hc c hmem).toOneWord, (hc c hmem).token⟩
  rw [parseColumnValues, splitWhitespace_layout]
  cases oldKey with
  | none =>
    have htuple : ∀ c ∈ tuple, Readable c := by simpa [Layout.columns] using h
    simpa [Layout.parts, Layout.parsed] using parseParts_tuple htuple (hlen htuple) false
  | some old =>
    obtain ⟨hold, htuple⟩ : (∀ c ∈ old, Readable c) ∧ ∀ c ∈ tuple, Readable c := by
      rwa [← List.forall_mem_append]
    have holdLen := hlen hold
    have htupleLen := hlen htuple
    obtain ⟨n, hn⟩ : ∃ n, (Layout.parts ⟨some old, tuple⟩).length = n + 1 + old.length + 1 ∧
        tuple.length ≤ n := by
      refine ⟨(Layout.parts ⟨some old, tuple⟩).length - old.length - 2, ?_, ?_⟩ <;>
        simp only [Layout.parts, List.length_cons, List.length_append] <;> omega
    rw [hn.1, Layout.parts, parseParts_oldKey, parseParts_columns hold (by omega),
      Nat.add_sub_cancel, parseParts_newTuple, parseParts_tuple htuple hn.2]
    rfl

/-- What is left of a value: runs of whitespace in quotes are one blank each. -/
def PrintedValue.blanked : PrintedValue → List Char
  | .bare token => token
  | .quoted text => Text.blankRuns text

def PrintedColumn.blanked (isOld : Bool) (c : PrintedColumn) : ParsedColumn where
  name := String.ofList c.name
  value := String.ofList c.value.blanked
  isOld := isOld

/-- The parser inverts the printing of one-word columns, up to runs of whitespace. -/
theorem parseColumnValues_inverts (l : Layout) (h : ∀ c ∈ l.columns, Readable c) :
    parseColumnValues l.print =
      (l.oldKey.getD []).map (PrintedColumn.blanked true) ++
        l.tuple.map (PrintedColumn.blanked false) := by
  have hblanked : ∀ isOld c, PrintedColumn.parsed isOld c = PrintedColumn.blanked isOld c := by
    intro isOld c
    obtain ⟨name, type, value⟩ := c
    cases value with
    | bare token => rfl
    | quoted text =>
      simp only [PrintedColumn.parsed, PrintedValue.parsed, Text.collapse_eq_blankRuns]
      rfl
  rw [parseColumnValues_layout h, Layout.parsed, funext (hblanked true), funext (hblanked false)]

def noteRow : Layout where
  oldKey := some [⟨"id".toList, "integer".toList, .bare "1".toList⟩]
  tuple := [⟨"note".toList, "text[]".toList, .quoted " 'a'  x[y]:z new-tuple: ".toList⟩,
    ⟨"kind".toList, "text".toList, .quoted []⟩]

theorem parseColumnValues_noteRow : parseColumnValues noteRow.print =
    [⟨"id", "1", true⟩, ⟨"note", " 'a' x[y]:z new-tuple: ", false⟩, ⟨"kind", "", false⟩] := by
  rw [parseColumnValues_inverts noteRow]
  · decide
  · intro c hc
    simp only [Layout.columns, noteRow, Option.getD_some, List.cons_append, List.nil_append,
      List.mem_cons, List.not_mem_nil, or_false] at hc
    rcases hc with rfl | rfl | rfl <;>
      refine ⟨⟨List.all_iff_forall_prop.mp (by decide), List.all_iff_forall_prop.mp (by decide)⟩,
        ?_, rfl⟩
    · exact ⟨List.all_iff_forall_prop.mp (by decide), by decide⟩
    · trivial
    · trivial

end VibeAudit.Decoding
