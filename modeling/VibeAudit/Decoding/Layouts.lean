import VibeAudit.Decoding.Scan

/-!
# Which layouts keep their columns

The parser comes to the first word of every column and reads the column from it,
if that word has a colon behind its bracket and no value runs on into the next
column. What then stands between the end of a value and the next column must
neither begin a column nor name another section. Such layouts keep their
columns. Where no word behind the first one of a column can be taken for a
column, no other layout does.
-/

namespace VibeAudit.Decoding

open Foundation Forwarder

/-- The name of a column, and whether it is of the old key. -/
def columnKey (column : ParsedColumn) : String × Bool := (column.name, column.isOld)

def PrintedColumn.key (isOld : Bool) (c : PrintedColumn) : String × Bool :=
  (String.ofList c.name, isOld)

def Layout.keys (l : Layout) : List (String × Bool) :=
  (l.oldKey.getD []).map (PrintedColumn.key true) ++ l.tuple.map (PrintedColumn.key false)

def Layout.Plain (l : Layout) : Prop :=
  ∀ c ∈ l.columns, isPlain c.name = true ∧ c.value.IsToken

/-! ## The words of a column -/

def PrintedColumn.afterName (c : PrintedColumn) : List Char :=
  '[' :: (c.type ++ ']' :: ':' :: c.value.print)

def PrintedColumn.firstWord (c : PrintedColumn) : List Char :=
  c.afterName.takeWhile fun x => !Text.isWhitespace x

def PrintedColumn.laterWords (c : PrintedColumn) : List (List Char) :=
  (Text.splitWhitespace c.afterName).tail

/-- The text behind the first colon of the first word, where the parser looks for the value. -/
def PrintedColumn.valueText (c : PrintedColumn) : Option (List Char) :=
  (Text.cutAt ':' c.firstWord.tail).map Prod.snd

/-- If a quote begins the value, one of the column's words closes it. -/
def PrintedColumn.isFinished (c : PrintedColumn) : Bool :=
  match c.valueText with
  | some ('\'' :: text) => (text :: c.laterWords).any isClosing
  | _ => true

/-- The words of the column behind its value. -/
def PrintedColumn.looseWords (c : PrintedColumn) : List (List Char) :=
  match c.valueText with
  | some ('\'' :: text) => wordsBehind text c.laterWords
  | _ => c.laterWords

/-- The section the parser is in behind a column. -/
def PrintedColumn.sectionBehind (c : PrintedColumn) (isOld : Bool) : Bool :=
  c.looseWords.foldl sectionAfter isOld

/-- The condition of the parser. A type of one word without a colon and a value that ends in no
quote meet it. -/
@[mk_iff parseable_iff]
structure Layout.Parseable (l : Layout) : Prop where
  heads : ∀ c ∈ l.columns, c.valueText.isSome = true
  values : ∀ c ∈ l.columns.dropLast, c.isFinished = true
  loose : ∀ c ∈ l.columns, ∀ w ∈ c.looseWords, opensColumn w = false
  oldSection : ∀ c ∈ (l.oldKey.getD []).dropLast, c.sectionBehind true = true
  newSection : ∀ c ∈ l.tuple.dropLast, c.sectionBehind false = false

/-- No word behind the first one of a column can be taken for a column. -/
def Layout.Unmistakable (l : Layout) : Prop :=
  ∀ c ∈ l.columns, ∀ w ∈ c.laterWords, opensColumn w = false

/-- A value that no quote begins ends with the first word. -/
theorem PrintedColumn.finished_of_bare {c : PrintedColumn} {value : List Char}
    (h : c.valueText = some value) (hbare : value.head? ≠ some '\'') :
    c.isFinished = true ∧ c.looseWords = c.laterWords := by
  rw [isFinished, looseWords, h]
  cases value <;> grind

theorem PrintedColumn.looseWords_suffix (c : PrintedColumn) : c.looseWords <:+ c.laterWords := by
  rw [looseWords]
  split
  · exact wordsBehind_suffix _ _
  · exact List.suffix_rfl

theorem splitWhitespace_afterName (c : PrintedColumn) :
    Text.splitWhitespace c.afterName = c.firstWord :: c.laterWords := by
  have hbracket : Text.isWhitespace '[' = false := by decide
  rw [PrintedColumn.laterWords, PrintedColumn.firstWord, PrintedColumn.afterName,
    Text.splitWhitespace_takeWhile hbracket, List.tail_cons]

theorem laterWords_ne_nil {c : PrintedColumn} : ∀ w ∈ c.laterWords, w ≠ [] := by
  intro w hw
  have hsplit := List.mem_of_mem_tail hw
  rw [Text.splitWhitespace, List.mem_filter] at hsplit
  simpa using hsplit.2

/-! ## Names -/

theorem isPlain_chars {name : List Char} (h : isPlain name = true) {x : Char} (hx : x ∈ name) :
    x.isLower = true ∨ x.isDigit = true ∨ x = '_' := by
  rw [isPlain, Bool.and_eq_true, List.all_eq_true] at h
  simpa [or_assoc] using h.2 x hx

theorem isWhitespace_of_word {x : Char} (h : x.isLower = true ∨ x.isDigit = true ∨ x = '_') :
    Text.isWhitespace x = false := by
  have hrange : (97 ≤ x.toNat ∧ x.toNat ≤ 122) ∨ (48 ≤ x.toNat ∧ x.toNat ≤ 57) ∨ x.toNat = 95 := by
    rcases h with h | h | rfl
    · have hletter : (decide (x.val ≥ 'a'.val) && decide (x.val ≤ 'z'.val)) = true := h
      exact .inl (by simpa [UInt32.le_iff_toNat_le] using hletter)
    · exact .inr (.inl (by simpa [Char.isDigit, UInt32.le_iff_toNat_le] using h))
    · exact .inr (.inr rfl)
  simp only [Text.isWhitespace, List.contains_eq_mem, List.mem_cons, List.not_mem_nil, or_false,
    Bool.or_eq_false_iff, Bool.and_eq_false_iff, decide_eq_false_iff_not]
  omega

/-- Plain names have none of the characters that end a part of a line. -/
theorem isPlain_ne {name : List Char} (h : isPlain name = true) {x : Char} (hx : x ∈ name) :
    Text.isWhitespace x = false ∧ x ∉ ['[', ':', '.', '"'] := by
  have hword := isPlain_chars h hx
  refine ⟨isWhitespace_of_word hword, fun hmem => ?_⟩
  have hnone : ∀ y ∈ ['[', ':', '.', '"'], ¬ (y.isLower = true ∨ y.isDigit = true ∨ y = '_') := by
    simp
  exact hnone x hmem hword

/-- A name that the parser finds as it is printed: one word, without the bracket that ends it. -/
def IsWord (name : List Char) : Prop := ∀ x ∈ name, Text.isWhitespace x = false ∧ x ≠ '['

theorem isWord_of_isPlain {name : List Char} (h : isPlain name = true) : IsWord name := by
  intro x hx
  obtain ⟨hws, hne⟩ := isPlain_ne h hx
  exact ⟨hws, fun heq => hne (by simp [heq])⟩

def Layout.Worded (l : Layout) : Prop := ∀ c ∈ l.columns, IsWord c.name

theorem Layout.Plain.worded {l : Layout} (h : l.Plain) : l.Worded :=
  fun c hc => isWord_of_isPlain (h c hc).1

/-- The name joins the first word. -/
theorem parts_eq_cons {c : PrintedColumn} (h : IsWord c.name) :
    c.parts = (c.name ++ c.firstWord) :: c.laterWords := by
  have hprint : c.print = c.name ++ c.afterName := by
    simp [PrintedColumn.print, PrintedColumn.head, PrintedColumn.afterName]
  have hbracket : Text.isWhitespace '[' = false := by decide
  rw [PrintedColumn.parts, hprint, PrintedColumn.laterWords, PrintedColumn.firstWord,
    PrintedColumn.afterName,
    Text.splitWhitespace_append_takeWhile (fun x hx => (h x hx).1) hbracket,
    Text.splitWhitespace_takeWhile hbracket, List.tail_cons]

theorem columnOfPart_firstWord {c : PrintedColumn} (h : IsWord c.name) :
    columnOfPart (c.name ++ c.firstWord) = c.valueText.map fun value => (c.name, value) := by
  have hfirst : c.firstWord = '[' :: c.firstWord.tail := by
    simp [PrintedColumn.firstWord, PrintedColumn.afterName,
      show Text.isWhitespace '[' = false by decide]
  have hcut : Text.cutAt '[' (c.name ++ c.firstWord) = some (c.name, c.firstWord.tail) := by
    rw [hfirst]
    exact Text.cutAt_append (fun hx => (h _ hx).2 rfl) _
  rw [columnOfPart, hcut, PrintedColumn.valueText, Option.map_map]
  simp only [Option.pure_def, Option.bind_eq_bind, Option.bind_some]
  cases Text.cutAt ':' c.firstWord.tail <;> rfl

theorem opensColumn_firstWord {c : PrintedColumn} (h : IsWord c.name) :
    opensColumn (c.name ++ c.firstWord) = c.valueText.isSome := by
  rw [opensColumn, columnOfPart_firstWord h, Option.isSome_map]

/-! ## One column -/

/-- A column the parser reads from its first word, with no other column among its words. -/
structure PrintedColumn.Headed (c : PrintedColumn) : Prop where
  name : IsWord c.name
  head : c.valueText.isSome = true
  loose : ∀ w ∈ c.looseWords, opensColumn w = false

/-- A finished column is read, and the parser comes to what follows it. -/
theorem keys_finished {c : PrintedColumn} (h : c.Headed) (hfinished : c.isFinished = true)
    (isOld : Bool) (rest : List (List Char)) :
    (scanParts isOld (c.parts ++ rest)).map columnKey =
      c.key isOld :: (scanParts (c.sectionBehind isOld) rest).map columnKey := by
  have hloose := scanParts_loose h.loose isOld rest
  have hcolumn := columnOfPart_firstWord h.name
  obtain ⟨value, hvalue⟩ := Option.isSome_iff_exists.mp h.head
  rw [hvalue, Option.map_some] at hcolumn
  rw [parts_eq_cons h.name, List.cons_append, PrintedColumn.sectionBehind, ← hloose]
  by_cases hquote : value.head? = some '\''
  · obtain ⟨text, rfl⟩ := List.head?_eq_some_iff.mp hquote
    have hclosing : ∃ w ∈ text :: c.laterWords, isClosing w = true := by
      simpa [PrintedColumn.isFinished, hvalue] using hfinished
    rw [scanParts_quoted hcolumn, readQuoted_closing laterWords_ne_nil hclosing,
      PrintedColumn.looseWords, hvalue]
    rfl
  · rw [scanParts_bare hcolumn hquote, (PrintedColumn.finished_of_bare hvalue hquote).2]
    rfl

/-- What may follow the last column of a section. -/
def SectionEnd (rest : List (List Char)) : Prop := rest = [] ∨ rest = ["new-tuple:".toList]

theorem scanParts_newTuple (isOld : Bool) (parts : List (List Char)) :
    scanParts isOld ("new-tuple:".toList :: parts) = scanParts false parts :=
  scanParts_skip (by decide) isOld parts

theorem scanParts_sectionEnd {rest : List (List Char)} (h : SectionEnd rest) (isOld : Bool) :
    scanParts isOld rest = [] := by
  rcases h with rfl | rfl
  · rfl
  · rw [scanParts_newTuple, scanParts_nil]

/-- A value that no word of its column closes. -/
theorem exists_unclosed {c : PrintedColumn} (h : ¬ c.isFinished = true) :
    ∃ text, c.valueText = some ('\'' :: text) ∧
      ∀ w ∈ text :: c.laterWords, isClosing w = false := by
  rw [PrintedColumn.isFinished] at h
  split at h
  case h_1 text hvalue => exact ⟨text, hvalue, by simpa using h⟩
  case h_2 => exact absurd rfl h

/-- The last column of a section is read, also where its value is not finished. -/
theorem keys_last {c : PrintedColumn} (h : c.Headed) {rest : List (List Char)}
    (hrest : SectionEnd rest) (isOld : Bool) :
    (scanParts isOld (c.parts ++ rest)).map columnKey = [c.key isOld] := by
  by_cases hfinished : c.isFinished = true
  · rw [keys_finished h hfinished, scanParts_sectionEnd hrest, List.map_nil]
  · obtain ⟨text, hvalue, hopen⟩ := exists_unclosed hfinished
    have hcolumn := columnOfPart_firstWord h.name
    rw [hvalue, Option.map_some] at hcolumn
    obtain ⟨joined, hjoined, hread⟩ := readQuoted_unclosed laterWords_ne_nil hopen rest
    have hnone : (readQuoted joined rest).2 = [] := by
      rcases hrest with rfl | rfl
      · rfl
      · exact List.suffix_nil.mp (readQuoted_takes hjoined _ [])
    rw [parts_eq_cons h.name, List.cons_append, scanParts_quoted hcolumn, hread, hnone,
      scanParts_nil]
    rfl

/-! ## The columns of a section -/

/-- The keys the parser makes of the columns of a section. -/
def sectionKeys (isOld : Bool) : List PrintedColumn → List (String × Bool)
  | [] => []
  | c :: columns => c.key isOld :: sectionKeys (c.sectionBehind isOld) columns

theorem length_sectionKeys (isOld : Bool) (columns : List PrintedColumn) :
    (sectionKeys isOld columns).length = columns.length := by
  fun_induction sectionKeys isOld columns <;> grind

/-- The section of the columns is the one they are printed in, if no loose word between two of
them names the other one. -/
theorem sectionKeys_eq_iff {isOld : Bool} {columns : List PrintedColumn} :
    sectionKeys isOld columns = columns.map (PrintedColumn.key isOld) ↔
      ∀ c ∈ columns.dropLast, c.sectionBehind isOld = isOld := by
  induction columns with
  | nil => simp [sectionKeys]
  | cons c columns ih =>
    cases columns with
    | nil => simp [sectionKeys]
    | cons d columns =>
      rw [List.dropLast_cons_cons, List.forall_mem_cons, sectionKeys, List.map_cons,
        List.cons_inj_right, ← ih]
      constructor
      · intro h
        have hbehind : c.sectionBehind isOld = isOld := congrArg Prod.snd (List.cons.inj h).1
        exact ⟨hbehind, by rwa [hbehind] at h⟩
      · rintro ⟨hbehind, h⟩
        rwa [hbehind]

theorem keys_columns {columns : List PrintedColumn} (h : ∀ c ∈ columns, c.Headed)
    (hfinished : ∀ c ∈ columns, c.isFinished = true) (isOld : Bool) (rest : List (List Char)) :
    ∃ isOld', (scanParts isOld (columns.flatMap PrintedColumn.parts ++ rest)).map columnKey =
      sectionKeys isOld columns ++ (scanParts isOld' rest).map columnKey := by
  induction columns generalizing isOld with
  | nil => exact ⟨isOld, rfl⟩
  | cons c columns ih =>
    rw [List.forall_mem_cons] at h hfinished
    obtain ⟨isOld', hrest⟩ := ih h.2 hfinished.2 (c.sectionBehind isOld)
    refine ⟨isOld', ?_⟩
    rw [List.flatMap_cons, List.append_assoc, keys_finished h.1 hfinished.1, hrest]
    rfl

/-- The columns of a section, whatever its last value ends in. -/
theorem keys_section {columns : List PrintedColumn} (h : ∀ c ∈ columns, c.Headed)
    (hfinished : ∀ c ∈ columns.dropLast, c.isFinished = true) {rest : List (List Char)}
    (hrest : SectionEnd rest) (isOld : Bool) :
    (scanParts isOld (columns.flatMap PrintedColumn.parts ++ rest)).map columnKey =
      sectionKeys isOld columns := by
  induction columns generalizing isOld with
  | nil => simp [scanParts_sectionEnd hrest, sectionKeys]
  | cons c columns ih =>
    cases columns with
    | nil => simpa [sectionKeys] using keys_last (h c List.mem_cons_self) hrest isOld
    | cons d columns =>
      rw [List.dropLast_cons_cons, List.forall_mem_cons] at hfinished
      rw [List.forall_mem_cons] at h
      rw [List.flatMap_cons, List.append_assoc, keys_finished h.1 hfinished.1,
        ih h.2 hfinished.2]
      rfl

/-! ## Layouts that are read -/

def Layout.sectionKeys (l : Layout) : List (String × Bool) :=
  Decoding.sectionKeys true (l.oldKey.getD []) ++ Decoding.sectionKeys false l.tuple

theorem parseColumnValues_eq_scanParts (l : Layout) :
    parseColumnValues l.print = scanParts false l.parts := by
  rw [parseColumnValues, splitWhitespace_layout]
  rfl

theorem scanParts_oldKey (isOld : Bool) (parts : List (List Char)) :
    scanParts isOld ("old-key:".toList :: parts) = scanParts true parts :=
  scanParts_skip (by decide) isOld parts

/-- The keys found in a layout are those of its columns, in their sections. -/
theorem Layout.keys_of_headed {l : Layout} (h : ∀ c ∈ l.columns, c.Headed)
    (hfinished : ∀ c ∈ l.columns.dropLast, c.isFinished = true) :
    (parseColumnValues l.print).map columnKey = l.sectionKeys := by
  obtain ⟨oldKey, tuple⟩ := l
  rw [parseColumnValues_eq_scanParts]
  cases oldKey with
  | none =>
    have hsection := keys_section h hfinished (.inl rfl) false
    rwa [List.append_nil] at hsection
  | some old =>
    have hcolumns : Layout.columns ⟨some old, tuple⟩ = old ++ tuple := rfl
    rw [hcolumns] at h hfinished
    rw [List.forall_mem_append] at h
    rw [Layout.parts, scanParts_oldKey]
    by_cases hnil : tuple = []
    · subst hnil
      rw [List.append_nil] at hfinished
      simpa [Layout.sectionKeys, Decoding.sectionKeys] using
        keys_section h.1 hfinished (.inr rfl) true
    · rw [List.dropLast_append_of_ne_nil hnil, List.forall_mem_append] at hfinished
      obtain ⟨isOld', hold⟩ := keys_columns h.1 hfinished.1 true
        ("new-tuple:".toList :: tuple.flatMap PrintedColumn.parts)
      have hnew := keys_section h.2 hfinished.2 (.inl rfl) false
      rw [List.append_nil] at hnew
      rw [hold, scanParts_newTuple, hnew]
      rfl

theorem Layout.sectionKeys_eq_keys_iff {l : Layout} : l.sectionKeys = l.keys ↔
    (∀ c ∈ (l.oldKey.getD []).dropLast, c.sectionBehind true = true) ∧
      ∀ c ∈ l.tuple.dropLast, c.sectionBehind false = false := by
  rw [← sectionKeys_eq_iff, ← sectionKeys_eq_iff, Layout.sectionKeys, Layout.keys]
  refine ⟨fun h => List.append_inj h ?_, fun h => by rw [h.1, h.2]⟩
  rw [length_sectionKeys, List.length_map]

theorem Layout.Parseable.headed {l : Layout} (hword : l.Worded) (h : l.Parseable) :
    ∀ c ∈ l.columns, c.Headed := fun c hc => ⟨hword c hc, h.heads c hc, h.loose c hc⟩

theorem Layout.keys_of_parseable {l : Layout} (hword : l.Worded) (h : l.Parseable) :
    (parseColumnValues l.print).map columnKey = l.keys := by
  rw [Layout.keys_of_headed (h.headed hword) h.values]
  exact Layout.sectionKeys_eq_keys_iff.mpr ⟨h.oldSection, h.newSection⟩

/-! ## Layouts that lose a column -/

/-- A column has one word at most that the parser makes a column of: its first one. -/
theorem countP_parts {c : PrintedColumn} (hname : IsWord c.name)
    (h : ∀ w ∈ c.laterWords, opensColumn w = false) :
    c.parts.countP opensColumn = if c.valueText.isSome then 1 else 0 := by
  have hlater : c.laterWords.countP opensColumn = 0 :=
    List.countP_eq_zero.mpr fun w hw => by simp [h w hw]
  rw [parts_eq_cons hname, List.countP_cons, hlater, opensColumn_firstWord hname, Nat.zero_add]

theorem countP_flatMap_parts {columns : List PrintedColumn}
    (h : ∀ c ∈ columns, IsWord c.name ∧ ∀ w ∈ c.laterWords, opensColumn w = false) :
    (columns.flatMap PrintedColumn.parts).countP opensColumn =
      columns.countP fun c => c.valueText.isSome := by
  induction columns with
  | nil => rfl
  | cons c columns ih =>
    rw [List.forall_mem_cons] at h
    rw [List.flatMap_cons, List.countP_append, List.countP_cons, countP_parts h.1.1 h.1.2, ih h.2,
      Nat.add_comm]

theorem countP_layout (l : Layout) :
    l.parts.countP opensColumn = (l.columns.flatMap PrintedColumn.parts).countP opensColumn := by
  have hold : opensColumn "old-key:".toList = false := by decide
  have hnew : opensColumn "new-tuple:".toList = false := by decide
  obtain ⟨oldKey, tuple⟩ := l
  cases oldKey with
  | none => rfl
  | some old =>
    simp only [Layout.parts, Layout.columns, Option.getD_some, List.flatMap_append,
      List.countP_append, List.countP_cons, hold, hnew, Bool.false_eq_true, if_false, Nat.add_zero]

theorem exists_neighbour {α : Type} {x : α} {xs : List α} (h : x ∈ xs.dropLast) :
    ∃ front y back, xs = front ++ x :: y :: back := by
  obtain ⟨front, rest, hsplit⟩ := List.append_of_mem h
  have hne : xs ≠ [] := by
    rintro rfl
    cases h
  obtain ⟨y, back, hback⟩ := List.exists_cons_of_ne_nil
    (List.append_ne_nil_of_right_ne_nil rest (List.cons_ne_nil (xs.getLast hne) []))
  refine ⟨front, y, back, ?_⟩
  rw [← List.dropLast_append_getLast hne, hsplit, List.append_assoc, List.cons_append, hback]

/-- Two neighbours in a list of two sections: both in the second one, or the first of them in the
first one. -/
theorem sections_of_neighbours {α : Type} {old new front back : List α} {x y : α}
    (h : old ++ new = front ++ x :: y :: back) :
    (∃ mid, front = old ++ mid ∧ new = mid ++ x :: y :: back) ∨
      ∃ mid, old = front ++ x :: mid ∧ y :: back = mid ++ new := by
  rcases List.append_eq_append_iff.mp h with hsecond | ⟨mid, rfl, hmid⟩
  · exact .inl hsecond
  · rcases List.cons_eq_append_iff.mp hmid with ⟨rfl, rfl⟩ | ⟨mid, rfl, hmid⟩
    · exact .inl ⟨[], by simp⟩
    · exact .inr ⟨mid, rfl, (List.cons.inj hmid).2⟩

/-- The words of two neighbours, with the words between them. -/
theorem Layout.parts_of_neighbours {l : Layout} {front back : List PrintedColumn}
    {c d : PrintedColumn} (h : l.columns = front ++ c :: d :: back) :
    ∃ before between after, SectionEnd between ∧
      l.parts = before ++ (c.parts ++ (between ++ (d.parts ++ after))) := by
  obtain ⟨oldKey, tuple⟩ := l
  cases oldKey with
  | none =>
    obtain rfl : tuple = front ++ c :: d :: back := h
    exact ⟨_, [], back.flatMap PrintedColumn.parts, .inl rfl, by simp [Layout.parts]; rfl⟩
  | some old =>
    have hcolumns : old ++ tuple = front ++ c :: d :: back := h
    rcases sections_of_neighbours hcolumns with ⟨mid, rfl, rfl⟩ | ⟨mid, rfl, hmid⟩
    · refine ⟨"old-key:".toList :: (old.flatMap PrintedColumn.parts ++
        "new-tuple:".toList :: mid.flatMap PrintedColumn.parts), [],
        back.flatMap PrintedColumn.parts, .inl rfl, ?_⟩
      simp [Layout.parts]
    · rcases List.cons_eq_append_iff.mp hmid with ⟨rfl, rfl⟩ | ⟨mid, rfl, rfl⟩
      · refine ⟨"old-key:".toList :: front.flatMap PrintedColumn.parts, ["new-tuple:".toList],
          back.flatMap PrintedColumn.parts, .inr rfl, ?_⟩
        simp [Layout.parts]
      · refine ⟨"old-key:".toList :: front.flatMap PrintedColumn.parts, [],
          mid.flatMap PrintedColumn.parts ++ "new-tuple:".toList ::
            tuple.flatMap PrintedColumn.parts, .inl rfl, ?_⟩
        simp [Layout.parts]

theorem Layout.length_keys (l : Layout) : l.keys.length = l.columns.length := by
  simp [Layout.keys, Layout.columns]

theorem parts_ne_nil_of_mem {l : Layout} : ∀ w ∈ l.parts, w ≠ [] := by
  intro w hw
  rw [← splitWhitespace_layout, Text.splitWhitespace, List.mem_filter] at hw
  simpa using hw.2

/-- A layout that gives as many columns as it has loses none of its first words, and no value runs
on into the next column. -/
theorem Layout.read_of_length {l : Layout} (hword : l.Worded) (hclear : l.Unmistakable)
    (hlen : (parseColumnValues l.print).length = l.columns.length) :
    (∀ c ∈ l.columns, c.Headed) ∧ ∀ c ∈ l.columns.dropLast, c.isFinished = true := by
  rw [parseColumnValues_eq_scanParts] at hlen
  have hcount := (countP_layout l).trans
    (countP_flatMap_parts fun c hc => ⟨hword c hc, hclear c hc⟩)
  have hle := List.countP_le_length (p := fun c => c.valueText.isSome) (l := l.columns)
  have hheads : ∀ c ∈ l.columns, c.valueText.isSome = true := by
    have hscan := length_scanParts_le false l.parts
    exact List.countP_eq_length.mp (by omega)
  refine ⟨fun c hc => ⟨hword c hc, hheads c hc,
    fun w hw => hclear c hc w (c.looseWords_suffix.subset hw)⟩, fun c hc => ?_⟩
  by_contra hunfinished
  obtain ⟨text, hvalue, hopen⟩ := exists_unclosed hunfinished
  obtain ⟨front, d, back, hsplit⟩ := exists_neighbour hc
  obtain ⟨before, between, after, hbetween, hparts⟩ := Layout.parts_of_neighbours hsplit
  have hcName := hword c (by simp [hsplit])
  have hdName := hword d (by simp [hsplit])
  have hfirst := columnOfPart_firstWord hcName
  rw [hvalue, Option.map_some] at hfirst
  have hnext := (opensColumn_firstWord hdName).trans (hheads d (by simp [hsplit]))
  -- the words up to the next column close the value no more than the column's own
  have hopenAll : ∀ w ∈ text :: (c.laterWords ++ between), isClosing w = false := by
    rw [← List.cons_append, List.forall_mem_append]
    refine ⟨hopen, ?_⟩
    rcases hbetween with rfl | rfl <;> decide
  have hwords : l.parts = before ++ (c.name ++ c.firstWord) ::
      ((c.laterWords ++ between) ++ (d.name ++ d.firstWord) :: (d.laterWords ++ after)) := by
    rw [hparts, parts_eq_cons hcName, parts_eq_cons hdName]
    simp
  have hne := parts_ne_nil_of_mem (l := l)
  rw [hwords] at hne hlen hcount
  have hbefore : ∀ w ∈ before, w ≠ [] := fun w hw => hne w (List.mem_append_left _ hw)
  have hown : ∀ w ∈ c.laterWords ++ between, w ≠ [] := fun w hw => hne w (by grind)
  have hlost := length_scanParts_lt hbefore hown hfirst hopenAll hnext false (d.laterWords ++ after)
  omega

/-- Where nothing can be mistaken for a column, a layout whose columns are all kept is parseable. -/
theorem Layout.parseable_of_keys {l : Layout} (hword : l.Worded) (hclear : l.Unmistakable)
    (hkeys : (parseColumnValues l.print).map columnKey = l.keys) : l.Parseable := by
  have hlen := congrArg List.length hkeys
  rw [List.length_map, Layout.length_keys] at hlen
  obtain ⟨hheaded, hvalues⟩ := Layout.read_of_length hword hclear hlen
  have hread := Layout.keys_of_headed hheaded hvalues
  obtain ⟨hold, hnew⟩ := Layout.sectionKeys_eq_keys_iff.mp (hread.symm.trans hkeys)
  exact ⟨fun c hc => (hheaded c hc).head, hvalues, fun c hc => (hheaded c hc).loose, hold, hnew⟩

/-! ## Types of one word -/

/-- A type is a single word and has no colon in it. -/
def isOneWordType (type : List Char) : Bool :=
  type.all fun x => !Text.isWhitespace x && x != ':'

theorem isOneWordType_iff {type : List Char} :
    isOneWordType type = true ↔ ∀ x ∈ type, Text.isWhitespace x = false ∧ x ≠ ':' := by
  simp [isOneWordType]

/-- The words of a column, its name left out: the head and the first piece of the value, and the
pieces behind it. -/
theorem words_of_split {c : PrintedColumn} (htype : isOneWordType c.type = true) {value : List Char}
    {words : List (List Char)}
    (h : Text.splitWhitespace ({ c with name := [] } : PrintedColumn).print =
      (({ c with name := [] } : PrintedColumn).head ++ value) :: words) :
    c.valueText = some value ∧ c.laterWords = words := by
  have hafter : ({ c with name := [] } : PrintedColumn).print = c.afterName := by
    simp [PrintedColumn.print, PrintedColumn.head, PrintedColumn.afterName]
  have hcolon : ':' ∉ c.type ++ [']'] := by
    rw [List.mem_append, not_or]
    exact ⟨fun hx => (isOneWordType_iff.mp htype _ hx).2 rfl, by decide⟩
  rw [hafter, splitWhitespace_afterName] at h
  obtain ⟨hfirst, hlater⟩ := List.cons.inj h
  have htail : c.firstWord.tail = (c.type ++ [']']) ++ ':' :: value := by
    rw [hfirst]
    simp [PrintedColumn.head]
  exact ⟨by rw [PrintedColumn.valueText, htail, Text.cutAt_append hcolon, Option.map_some], hlater⟩

theorem isClosing_double (s : List Char) : isClosing (Text.double '\'' s) = false :=
  Text.not_closed_double [] s fun _ => rfl

theorem isClosing_double_quote (s : List Char) :
    isClosing (Text.double '\'' s ++ ['\'']) = !Text.endsWith '\'' s := by
  have hends := Text.endsWith_append_double [] s (q := '\'') fun _ => rfl
  rw [List.nil_append] at hends
  simp [isClosing, Text.endsWith] at hends ⊢
  rw [hends]

/-- No word stands behind the last one of a value. -/
theorem wordsBehind_concat {value : List Char} {words : List (List Char)}
    (h : ∀ w ∈ value :: words, isClosing w = false) (last : List Char) :
    wordsBehind value (words ++ [last]) = [] := by
  rw [wordsBehind, ← List.cons_append, List.dropWhile_append_of_pos fun w hw => by simp [h w hw]]
  cases hlast : isClosing last <;> simp [hlast]

/-- A column with a type of one word is read from its first word, and has no loose words. Its
value is finished if the text does not end in a quote. -/
theorem PrintedColumn.read_of_oneWord {c : PrintedColumn} (htype : isOneWordType c.type = true)
    (htoken : c.value.IsToken) :
    c.valueText.isSome = true ∧ c.looseWords = [] ∧ c.isFinished = c.value.isClosed := by
  have hword : OneWord { c with name := [] } := ⟨by simp, isOneWordType_iff.mp htype⟩
  cases hvalue : c.value with
  | bare token =>
    rw [hvalue] at htoken
    obtain ⟨htext, hlater⟩ := words_of_split htype (by
      rw [PrintedColumn.print, hvalue]
      exact splitWhitespace_bare hword htoken.1)
    obtain ⟨hfinished, hloose⟩ := PrintedColumn.finished_of_bare htext htoken.2
    exact ⟨by rw [htext]; rfl, hloose.trans hlater, hfinished⟩
  | quoted text =>
    obtain ⟨ts, t, hsplit, hwords⟩ := splitWhitespace_quoted hword text
    have hends : Text.endsWith '\'' t = Text.endsWith '\'' text := by
      rw [← endsWith_collapse text, Text.collapse_eq_unsplit hsplit, endsWith_unsplit]
    have hprint : ({ c with name := [] } : PrintedColumn).print =
        ({ c with name := [] } : PrintedColumn).head ++ (PrintedValue.quoted text).print := by
      rw [PrintedColumn.print, hvalue]
    rw [← hprint] at hwords
    cases ts with
    | nil =>
      obtain ⟨htext, hlater⟩ := words_of_split htype hwords
      refine ⟨by rw [htext]; rfl, List.suffix_nil.mp (hlater ▸ c.looseWords_suffix), ?_⟩
      simp [PrintedColumn.isFinished, htext, hlater, isClosing_double_quote, hends,
        PrintedValue.isClosed]
    | cons u us =>
      obtain ⟨htext, hlater⟩ := words_of_split htype hwords
      have hopen : ∀ w ∈ Text.double '\'' u ::
          (us.filter fun m => !m.isEmpty).map (Text.double '\''), isClosing w = false := by
        rw [← List.map_cons, List.forall_mem_map]
        exact fun m _ => isClosing_double m
      refine ⟨by rw [htext]; rfl, ?_, ?_⟩
      · rw [PrintedColumn.looseWords, htext]
        exact hlater ▸ wordsBehind_concat hopen _
      · rw [PrintedColumn.isFinished, htext]
        simp [hlater, isClosing_double, isClosing_double_quote, hends, PrintedValue.isClosed]

theorem Layout.parseable_of_oneWord {l : Layout}
    (htypes : ∀ c ∈ l.columns, isOneWordType c.type = true)
    (htoken : ∀ c ∈ l.columns, c.value.IsToken)
    (hvalues : ∀ c ∈ l.columns.dropLast, c.value.isClosed = true) : l.Parseable := by
  have hread := fun c hc => PrintedColumn.read_of_oneWord (htypes c hc) (htoken c hc)
  refine ⟨fun c hc => (hread c hc).1, fun c hc => ?_, fun c hc => ?_, fun c hc => ?_,
    fun c hc => ?_⟩
  · rw [(hread c (List.dropLast_subset _ hc)).2.2]
    exact hvalues c hc
  · rw [(hread c hc).2.1]
    simp
  · have hmem : c ∈ l.columns := List.mem_append_left _ (List.dropLast_subset _ hc)
    rw [PrintedColumn.sectionBehind, (hread c hmem).2.1]
    rfl
  · have hmem : c ∈ l.columns := List.mem_append_right _ (List.dropLast_subset _ hc)
    rw [PrintedColumn.sectionBehind, (hread c hmem).2.1]
    rfl

/-! ## The condition -/

/-- The parser gives the columns of every parseable layout. Where no word can be taken for a
column it gives those of no other. -/
theorem columns_kept_iff_parseable (l : Layout) (hplain : l.Plain) :
    (l.Parseable → (parseColumnValues l.print).map columnKey = l.keys) ∧
      (l.Unmistakable → (parseColumnValues l.print).map columnKey = l.keys → l.Parseable) :=
  ⟨Layout.keys_of_parseable hplain.worded, Layout.parseable_of_keys hplain.worded⟩

def renamedRow : Layout where
  oldKey := some [⟨"id".toList, "integer".toList, .bare "1".toList⟩]
  tuple := [⟨"id".toList, "\"int: key\"".toList, .bare "2".toList⟩,
    ⟨"note".toList, "text".toList, .quoted "it's [new-tuple: x[y]:z".toList⟩]

theorem columns_kept_renamedRow :
    (parseColumnValues renamedRow.print).map columnKey = renamedRow.keys := by
  refine (columns_kept_iff_parseable renamedRow ?_).1 ⟨?_, ?_, ?_, ?_, ?_⟩
  · simp [Layout.Plain, Layout.columns, renamedRow, isPlain, PrintedValue.IsToken]
    decide
  all_goals decide +kernel

/-- A column of type `character varying` is dropped. -/
theorem not_columns_kept :
    ¬ ∀ l : Layout, l.Plain → (parseColumnValues l.print).map columnKey = l.keys := by
  intro h
  have hdropped := h
    ⟨none, [⟨"name".toList, "character varying".toList, .quoted "x".toList⟩]⟩
    (by simp [Layout.Plain, Layout.columns, isPlain, PrintedValue.IsToken])
  revert hdropped
  decide +kernel

end VibeAudit.Decoding
