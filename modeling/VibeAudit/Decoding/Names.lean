import VibeAudit.Decoding.Layouts

/-!
# Names of the catalog

A line names its table and its columns after `quote_identifier`; the parser
takes what is printed for the name. It finds the names of the catalog, and with
them the rows of `sensitive_fields`, exactly where nothing is quoted.
-/

namespace VibeAudit.Decoding

open Foundation Forwarder

variable (reserved : List Char → Bool)

/-! ## What the parser can return -/

theorem isWord_of_mem_splitWhitespace {s word : List Char} (h : word ∈ Text.splitWhitespace s) :
    ∀ x ∈ word, Text.isWhitespace x = false :=
  fun x hx => (Text.mem_of_mem_splitWhitespace h x hx).2

/-- The names of the columns are parts of words, up to a bracket. -/
theorem isWord_of_mem_parseParts {fuel : Nat} {isOld : Bool} {parts : List (List Char)}
    (hparts : ∀ part ∈ parts, ∀ x ∈ part, Text.isWhitespace x = false) {col : ParsedColumn}
    (h : col ∈ parseParts fuel isOld parts) : IsWord col.name.toList := by
  induction fuel generalizing isOld parts with
  | zero => simp [parseParts] at h
  | succ fuel ih =>
    cases parts with
    | nil => simp [parseParts] at h
    | cons part parts =>
      rw [List.forall_mem_cons] at hparts
      rw [parseParts] at h
      split_ifs at h with hold hnew
      · exact ih hparts.2 h
      · exact ih hparts.2 h
      · cases hname : Text.cutAt '[' part with
        | none => exact ih hparts.2 (by simpa only [hname] using h)
        | some cut =>
          obtain ⟨name, restOfCol⟩ := cut
          have hword : IsWord name := by
            obtain ⟨rfl, hbracket⟩ := Text.cutAt_eq_some hname
            exact fun x hx => ⟨hparts.1 x (List.mem_append_left _ hx),
              fun heq => hbracket (heq ▸ hx)⟩
          cases hvalue : Text.cutAt ':' restOfCol with
          | none => exact ih hparts.2 (by simpa only [hname, hvalue] using h)
          | some cut =>
            obtain ⟨type, value⟩ := cut
            simp only [hname, hvalue] at h
            split_ifs at h
            · rcases List.mem_cons.mp h with rfl | h
              · simpa using hword
              · refine ih (fun part hpart => hparts.2 part ?_) h
                exact (readQuoted_suffix value.tail parts).subset hpart
            · rcases List.mem_cons.mp h with rfl | h
              · simpa using hword
              · exact ih hparts.2 h

/-- The parts of a line end where the parser cuts it. -/
structure Cut (line : ChangeLine) : Prop where
  schema : ':' ∉ line.schema.toList ∧ '.' ∉ line.schema.toList
  table : ':' ∉ line.table.toList
  columns : ∀ col ∈ line.columns, IsWord col.name.toList

/-- The names of a parsed line are cut out of it. -/
theorem cut_of_parseChangeLine {data : String} {line : ChangeLine}
    (h : parseChangeLine data = some line) : Cut line := by
  simp only [parseChangeLine, Option.bind_eq_bind, Option.bind_eq_some_iff, Option.pure_def,
    Option.some.injEq, Prod.exists] at h
  obtain ⟨afterTable, -, fullTable, afterFirstColon, htable, command, colData, -, rfl⟩ := h
  have hcolon : ':' ∉ Text.trim fullTable :=
    fun hmem => (Text.cutAt_eq_some htable).2 (Text.mem_of_mem_trim hmem)
  have hparts : ':' ∉ ((Text.cutAt '.' (Text.trim fullTable)).getD
        ("public".toList, Text.trim fullTable)).1 ∧
      '.' ∉ ((Text.cutAt '.' (Text.trim fullTable)).getD
        ("public".toList, Text.trim fullTable)).1 ∧
      ':' ∉ ((Text.cutAt '.' (Text.trim fullTable)).getD
        ("public".toList, Text.trim fullTable)).2 := by
    cases hcut : Text.cutAt '.' (Text.trim fullTable) with
    | none => exact ⟨by simp, by simp, hcolon⟩
    | some cut =>
      obtain ⟨schema, table⟩ := cut
      obtain ⟨hfull, hdot⟩ := Text.cutAt_eq_some hcut
      rw [hfull, List.mem_append, List.mem_cons, not_or, not_or] at hcolon
      exact ⟨hcolon.1, hdot, hcolon.2.2⟩
  refine ⟨by simpa using ⟨hparts.1, hparts.2.1⟩, by simpa using hparts.2.2, fun col hcol => ?_⟩
  exact isWord_of_mem_parseParts (fun part hpart => isWord_of_mem_splitWhitespace hpart) hcol

/-! ## Quoted names -/

/-- `quote_identifier` prints the name as it is. -/
def isUnquoted (name : List Char) : Bool := isPlain name && !reserved name

theorem quoteIdentifier_of_unquoted {name : List Char} (h : isUnquoted reserved name = true) :
    quoteIdentifier reserved name = name := if_pos h

theorem length_le_double (q : Char) (s : List Char) : s.length ≤ (Text.double q s).length := by
  induction s with
  | nil => exact Nat.zero_le _
  | cons x s ih =>
    rw [Text.double_cons, List.length_append, List.length_cons]
    split_ifs <;> simp <;> omega

/-- A quoted name is longer than the name. -/
theorem length_quoteIdentifier (name : List Char) :
    name.length + (if isUnquoted reserved name then 0 else 2) ≤
      (quoteIdentifier reserved name).length := by
  have hdouble := length_le_double '"' name
  rw [quoteIdentifier, ← isUnquoted]
  split_ifs
  · omega
  · rw [List.length_cons, List.length_append, List.length_singleton]
    omega

theorem unquoted_of_length {name : List Char}
    (h : (quoteIdentifier reserved name).length ≤ name.length) :
    isUnquoted reserved name = true := by
  have hlen := length_quoteIdentifier reserved name
  split_ifs at hlen with hname
  · exact hname
  · omega

/-- Quoting adds no character but quotes. -/
theorem mem_quoteIdentifier {name : List Char} {x : Char}
    (h : x ∈ quoteIdentifier reserved name) : x ∈ name ∨ x = '"' := by
  rw [quoteIdentifier] at h
  split_ifs at h
  · exact .inl h
  · rw [List.mem_cons, List.mem_append, Text.mem_double, List.mem_singleton] at h
    tauto

theorem trim_quoteIdentifier (name : List Char) :
    Text.trim (quoteIdentifier reserved name) = quoteIdentifier reserved name := by
  have hquote : Text.isWhitespace '"' = false := by decide
  rw [quoteIdentifier]
  split_ifs with hname
  · rw [Bool.and_eq_true] at hname
    exact Text.trim_of_forall fun x hx => (isPlain_ne hname.1 hx).1
  · have htrim : Text.trim ([] ++ '"' :: (Text.double '"' name ++ ['"'])) =
        [] ++ '"' :: (Text.double '"' name ++ ['"']).rdropWhile Text.isWhitespace :=
      Text.trim_append_cons rfl hquote _
    rwa [List.rdropWhile_concat_neg _ _ _ (by simp [hquote])] at htrim

/-! ## The table -/

theorem trim_print (t : TableName) : Text.trim (t.print reserved) = t.print reserved := by
  have htable : (quoteIdentifier reserved t.table).rdropWhile Text.isWhitespace =
      quoteIdentifier reserved t.table := by
    have htrim := trim_quoteIdentifier reserved t.table
    rwa [Text.trim, Text.dropWhile_of_trim_eq htrim] at htrim
  rw [TableName.print, Text.trim_append_cons (trim_quoteIdentifier reserved t.schema) (by decide),
    htable]

theorem dot_mem_print (t : TableName) : '.' ∈ t.print reserved := by simp [TableName.print]

theorem parseColumnValues_trim (data : List Char) :
    parseColumnValues (Text.trim data) = parseColumnValues data := by
  rw [parseColumnValues, parseColumnValues, Text.splitWhitespace_trim]

/-- What the parser takes for the table of a change that is not a TRUNCATE. -/
theorem parseChangeLine_print {change : Change} (hcommand : change.command ≠ "TRUNCATE".toList)
    (hcolon : ':' ∉ change.table.print reserved) :
    ∃ schema table, Text.cutAt '.' (change.table.print reserved) = some (schema, table) ∧
      parseChangeLine (String.ofList (change.print reserved)) = some {
        commandTag := String.ofList change.command
        schema := String.ofList schema
        table := String.ofList table
        columns := parseColumnValues change.body } := by
  obtain ⟨⟨schema, table⟩, hcut⟩ :
      ∃ cut, Text.cutAt '.' (change.table.print reserved) = some cut := by
    refine Option.ne_none_iff_exists'.mp fun hnone => ?_
    exact Text.cutAt_eq_none.mp hnone (dot_mem_print reserved change.table)
  have htarget : change.target reserved = change.table.print reserved := by
    cases change with
    | truncate => exact absurd rfl hcommand
    | insert | update | delete => rfl
  have hword : ':' ∉ change.command ∧ Text.trim change.command = change.command := by
    have hletters : change.command.all (fun x => !Text.isWhitespace x && x != ':') = true := by
      cases change <;> rfl
    simp only [List.all_eq_true, Bool.and_eq_true, Bool.not_eq_true', bne_iff_ne] at hletters
    exact ⟨fun hmem => (hletters _ hmem).2 rfl, Text.trim_of_forall fun x hx => (hletters x hx).1⟩
  have hdata : (String.ofList (change.print reserved)).toList = "table ".toList ++
      (change.table.print reserved ++ ':' :: ' ' :: (change.command ++ ':' :: change.body)) := by
    rw [String.toList_ofList, Change.print_eq, htarget]
  refine ⟨schema, table, hcut, ?_⟩
  have hline := parseChangeLine_layout hdata hcolon (trim_print reserved _) hword.1 hword.2
  rw [hcut, Option.getD_some, parseColumnValues_trim] at hline
  exact hline

/-! ## Names that resolve -/

def PrintedColumn.quoted (c : PrintedColumn) : PrintedColumn :=
  { c with name := quoteIdentifier reserved c.name }

def Layout.quoted (l : Layout) : Layout where
  oldKey := l.oldKey.map fun old => old.map (PrintedColumn.quoted reserved)
  tuple := l.tuple.map (PrintedColumn.quoted reserved)

theorem Layout.columns_quoted (l : Layout) :
    (l.quoted reserved).columns = l.columns.map (PrintedColumn.quoted reserved) := by
  obtain ⟨oldKey, tuple⟩ := l
  cases oldKey <;> simp [Layout.columns, Layout.quoted]

/-- The parser returns the names of the catalog, and the registry finds the columns under
them. -/
structure Resolves (t : TableName) (l : Layout) (line : ChangeLine) : Prop where
  schema : line.schema = String.ofList t.schema
  table : line.table = String.ofList t.table
  columns : line.columns.map columnKey = l.keys
  detected : ∀ (r : SensitiveFieldRegistry) (rows : List SensitiveFieldRow), ∀ row ∈ rows,
    row.schemaName = String.ofList t.schema → row.tableName = String.ofList t.table →
    ∀ c ∈ l.columns, row.jsonPath = String.ofList c.name →
    ∀ changedFields, row.jsonPath ∈ changedFields →
      ∃ m ∈ (r.refreshCache (some rows)).detect line.schema line.table changedFields,
        m.jsonPath = row.jsonPath

/-- Quoting a name changes nothing behind it. -/
theorem Layout.parseable_quoted_iff (l : Layout) :
    (l.quoted reserved).Parseable ↔ l.Parseable := by
  obtain ⟨oldKey, tuple⟩ := l
  have hquoted : ∀ {p : PrintedColumn → Prop} (columns : List PrintedColumn),
      (∀ c, p (c.quoted reserved) ↔ p c) →
        ((∀ c ∈ columns.map (PrintedColumn.quoted reserved), p c) ↔ ∀ c ∈ columns, p c) := by
    intro p columns hp
    simp only [List.forall_mem_map, hp]
  have hcolumns := Layout.columns_quoted reserved ⟨oldKey, tuple⟩
  have hold : (Layout.quoted reserved ⟨oldKey, tuple⟩).oldKey.getD [] =
      (oldKey.getD []).map (PrintedColumn.quoted reserved) := by
    cases oldKey <;> rfl
  rw [Layout.parseable_iff, Layout.parseable_iff, hcolumns, hold, Layout.quoted,
    ← List.map_dropLast, ← List.map_dropLast, ← List.map_dropLast]
  rw [hquoted _ fun c => Iff.rfl, hquoted _ fun c => Iff.rfl, hquoted _ fun c => Iff.rfl,
    hquoted _ fun c => Iff.rfl, hquoted _ fun c => Iff.rfl]

theorem Layout.unmistakable_quoted {l : Layout} (h : l.Unmistakable) :
    (l.quoted reserved).Unmistakable := by
  rw [Layout.Unmistakable, Layout.columns_quoted, List.forall_mem_map]
  exact h

theorem Layout.names_of_keys {l : Layout} : l.keys.map Prod.fst =
    l.columns.map fun c => String.ofList c.name := by
  rw [Layout.keys, Layout.columns, List.map_append, List.map_append, List.map_map, List.map_map]
  rfl

theorem Layout.names_of_sectionKeys {l : Layout} : l.sectionKeys.map Prod.fst =
    l.columns.map fun c => String.ofList c.name := by
  have hnames : ∀ isOld columns, (Decoding.sectionKeys isOld columns).map Prod.fst =
      columns.map fun c => String.ofList c.name := by
    intro isOld columns
    fun_induction Decoding.sectionKeys isOld columns with
    | case1 => rfl
    | case2 isOld c columns ih => rw [List.map_cons, List.map_cons, ih]; rfl
  rw [Layout.sectionKeys, Layout.columns, List.map_append, List.map_append, hnames, hnames]

/-- Names that need no quotes are printed as they are. -/
theorem Layout.quoted_of_unquoted {l : Layout}
    (h : ∀ c ∈ l.columns, isUnquoted reserved c.name = true) : l.quoted reserved = l := by
  have hmap : ∀ columns : List PrintedColumn,
      (∀ c ∈ columns, isUnquoted reserved c.name = true) →
        columns.map (PrintedColumn.quoted reserved) = columns := by
    intro columns hcolumns
    have hid : ∀ c ∈ columns, PrintedColumn.quoted reserved c = c := fun c hc => by
      rw [PrintedColumn.quoted, quoteIdentifier_of_unquoted reserved (hcolumns c hc)]
    rw [List.map_congr_left hid, List.map_id']
  obtain ⟨oldKey, tuple⟩ := l
  rw [Layout.columns, List.forall_mem_append] at h
  cases oldKey with
  | none => rw [Layout.quoted, hmap tuple h.2, Option.map_none]
  | some old => rw [Layout.quoted, hmap tuple h.2, Option.map_some, hmap old h.1]

theorem isPlain_of_unquoted {name : List Char} (h : isUnquoted reserved name = true) :
    isPlain name = true := (Bool.and_eq_true _ _ ▸ h).1

/-- Names that are printed as they are resolve, where the layout is parseable. -/
theorem resolves_of_unquoted {change : Change} {l : Layout}
    (hl : change.layout = some (l.quoted reserved))
    (hschema : isUnquoted reserved change.table.schema = true)
    (htable : isUnquoted reserved change.table.table = true)
    (hnames : ∀ c ∈ l.columns, isUnquoted reserved c.name = true) (hparse : l.Parseable) :
    ∃ line, parseChangeLine (String.ofList (change.print reserved)) = some line ∧
      Resolves change.table l line := by
  obtain ⟨hbody, hcommand⟩ := Change.body_of_layout hl
  rw [Layout.quoted_of_unquoted reserved hnames] at hbody
  have hprint : change.table.print reserved = change.table.schema ++ '.' :: change.table.table := by
    rw [TableName.print, quoteIdentifier_of_unquoted reserved hschema,
      quoteIdentifier_of_unquoted reserved htable]
  have hschemaNe := fun x => isPlain_ne (isPlain_of_unquoted reserved hschema) (x := x)
  have htableNe := fun x => isPlain_ne (isPlain_of_unquoted reserved htable) (x := x)
  have hcolon : ':' ∉ change.table.print reserved := by
    rw [hprint, List.mem_append, List.mem_cons]
    rintro (hmem | heq | hmem)
    · exact (hschemaNe _ hmem).2 (by simp)
    · cases heq
    · exact (htableNe _ hmem).2 (by simp)
  obtain ⟨schema, table, hcut, hline⟩ := parseChangeLine_print reserved hcommand hcolon
  rw [hprint, Text.cutAt_append fun hmem => (hschemaNe _ hmem).2 (by simp)] at hcut
  obtain ⟨rfl, rfl⟩ := Prod.mk.inj (Option.some.inj hcut)
  have hworded : l.Worded :=
    fun c hc => isWord_of_isPlain (isPlain_of_unquoted reserved (hnames c hc))
  refine ⟨_, hline, rfl, rfl, ?_, ?_⟩
  · rw [hbody]
    exact Layout.keys_of_parseable hworded hparse
  · intro r rows row hrow hschemaName htableName c hc hpath changedFields hmem
    exact SensitiveFieldRegistry.exists_mem_detect r _ _ hrow hschemaName htableName hmem

/-- The name of a table resolves only where no part of it is quoted. -/
theorem table_unquoted_of_resolves {change : Change}
    (hcommand : change.command ≠ "TRUNCATE".toList) {line : ChangeLine}
    (hline : parseChangeLine (String.ofList (change.print reserved)) = some line)
    (hschema : line.schema = String.ofList change.table.schema)
    (htable : line.table = String.ofList change.table.table) :
    isUnquoted reserved change.table.schema = true ∧
      isUnquoted reserved change.table.table = true ∧
        line.columns = parseColumnValues change.body := by
  have hcutLine := cut_of_parseChangeLine hline
  have hcolon : ':' ∉ change.table.print reserved := by
    have hschemaNe := hcutLine.schema.1
    have htableNe := hcutLine.table
    rw [hschema, String.toList_ofList] at hschemaNe
    rw [htable, String.toList_ofList] at htableNe
    rw [TableName.print, List.mem_append, List.mem_cons]
    rintro (hmem | heq | hmem)
    · rcases mem_quoteIdentifier reserved hmem with hmem | heq
      · exact hschemaNe hmem
      · cases heq
    · cases heq
    · rcases mem_quoteIdentifier reserved hmem with hmem | heq
      · exact htableNe hmem
      · cases heq
  obtain ⟨schema, table, hcut, hline'⟩ := parseChangeLine_print reserved hcommand hcolon
  obtain rfl := Option.some.inj (hline.symm.trans hline')
  obtain rfl : schema = change.table.schema := String.ofList_injective hschema
  obtain rfl : table = change.table.table := String.ofList_injective htable
  have hlen := congrArg List.length (Text.cutAt_eq_some hcut).1
  simp only [TableName.print, List.length_append, List.length_cons] at hlen
  have hschemaLen := length_quoteIdentifier reserved change.table.schema
  have htableLen := length_quoteIdentifier reserved change.table.table
  refine ⟨unquoted_of_length reserved ?_, unquoted_of_length reserved ?_, rfl⟩ <;> omega

/-- The names of the columns resolve only where they are not quoted. -/
theorem columns_unquoted_of_keys {l : Layout}
    (hkeys : (parseColumnValues (l.quoted reserved).print).map columnKey = l.keys)
    (hclear : l.Parseable ∨ l.Unmistakable) :
    (∀ c ∈ l.columns, isUnquoted reserved c.name = true) ∧ l.Parseable := by
  have hnames := congrArg (List.map Prod.fst) hkeys
  rw [Layout.names_of_keys, List.map_map] at hnames
  have hworded : (l.quoted reserved).Worded := by
    rw [Layout.Worded, Layout.columns_quoted, List.forall_mem_map]
    intro c hc x hx
    rcases mem_quoteIdentifier reserved hx with hx | rfl
    · have hmem : String.ofList c.name ∈ (parseColumnValues (l.quoted reserved).print).map
          (Prod.fst ∘ columnKey) := by
        rw [hnames]
        exact List.mem_map_of_mem hc
      obtain ⟨col, hcol, hname⟩ := List.mem_map.mp hmem
      have hword := isWord_of_mem_parseParts (fun part => isWord_of_mem_splitWhitespace) hcol
      have hlist : col.name.toList = c.name := by
        rw [show col.name = String.ofList c.name from hname, String.toList_ofList]
      exact hword x (hlist ▸ hx)
    · decide
  have hread : (parseColumnValues (l.quoted reserved).print).map columnKey =
      (l.quoted reserved).sectionKeys := by
    rcases hclear with hparse | hclear
    · have hquoted := (Layout.parseable_quoted_iff reserved l).mpr hparse
      exact Layout.keys_of_headed (hquoted.headed hworded) hquoted.values
    · have hlen := congrArg List.length hkeys
      rw [List.length_map, Layout.length_keys, ← List.length_map (PrintedColumn.quoted reserved),
        ← Layout.columns_quoted] at hlen
      obtain ⟨hheaded, hvalues⟩ :=
        Layout.read_of_length hworded (Layout.unmistakable_quoted reserved hclear) hlen
      exact Layout.keys_of_headed hheaded hvalues
  have hsame := congrArg (List.map Prod.fst) (hread.symm.trans hkeys)
  rw [Layout.names_of_sectionKeys, Layout.names_of_keys, Layout.columns_quoted, List.map_map,
    List.map_inj_left] at hsame
  have hunquoted : ∀ c ∈ l.columns, isUnquoted reserved c.name = true := fun c hc =>
    unquoted_of_length reserved (congrArg List.length (String.ofList_injective (hsame c hc))).le
  refine ⟨hunquoted, hclear.elim id fun hclear => ?_⟩
  rw [Layout.quoted_of_unquoted reserved hunquoted] at hworded hkeys
  exact Layout.parseable_of_keys hworded hclear hkeys

/-! ## The condition -/

/-- No name of the line is printed in quotes. -/
structure Unquoted (t : TableName) (l : Layout) : Prop where
  schema : isUnquoted reserved t.schema = true
  table : isUnquoted reserved t.table = true
  columns : ∀ c ∈ l.columns, isUnquoted reserved c.name = true

/-- All names of a parseable line resolve if none is quoted. If they resolve, the table is not
quoted, and the columns are not, unless a word of the line can be taken for a column. -/
theorem names_resolve_iff_unquoted (change : Change) (l : Layout)
    (hl : change.layout = some (l.quoted reserved)) :
    (Unquoted reserved change.table l ∧ l.Parseable →
      ∃ line, parseChangeLine (String.ofList (change.print reserved)) = some line ∧
        Resolves change.table l line) ∧
    ∀ line, parseChangeLine (String.ofList (change.print reserved)) = some line →
      Resolves change.table l line →
        isUnquoted reserved change.table.schema = true ∧
        isUnquoted reserved change.table.table = true ∧
        (l.Parseable ∨ l.Unmistakable → Unquoted reserved change.table l ∧ l.Parseable) := by
  constructor
  · rintro ⟨hnames, hparse⟩
    exact resolves_of_unquoted reserved hl hnames.schema hnames.table hnames.columns hparse
  · intro line hline h
    obtain ⟨hbody, hcommand⟩ := Change.body_of_layout hl
    obtain ⟨hschema, htable, hcolumns⟩ :=
      table_unquoted_of_resolves reserved hcommand hline h.schema h.table
    refine ⟨hschema, htable, fun hclear => ?_⟩
    have hkeys := h.columns
    rw [hcolumns, hbody] at hkeys
    obtain ⟨hnames, hparse⟩ := columns_unquoted_of_keys reserved hkeys hclear
    exact ⟨⟨hschema, htable, hnames⟩, hparse⟩

def idColumn : Layout := ⟨none, [⟨"id".toList, "integer".toList, .bare "1".toList⟩]⟩

def insertInto (table : String) : Change :=
  .insert ⟨"public".toList, table.toList⟩ (some idColumn.tuple)

theorem isToken_idColumn : ∀ c ∈ idColumn.columns, c.value.IsToken := by
  simp [idColumn, Layout.columns, PrintedValue.IsToken]
  decide

theorem parseable_idColumn : idColumn.Parseable :=
  Layout.parseable_of_oneWord (by decide) isToken_idColumn (by decide)

theorem names_resolve_users :
    ∃ line, parseChangeLine (String.ofList ((insertInto "users").print fun _ => false)) =
        some line ∧
      Resolves (insertInto "users").table idColumn line := by
  refine (names_resolve_iff_unquoted _ _ _ rfl).1 ⟨⟨rfl, rfl, ?_⟩, parseable_idColumn⟩
  simp [idColumn, Layout.columns, isUnquoted, isPlain]

/-- A table with a capital letter in its name does not resolve. -/
theorem not_names_resolve :
    ¬ ∀ (reserved : List Char → Bool) (change : Change) (l : Layout),
      change.layout = some (l.quoted reserved) → (∀ c ∈ l.columns, c.value.IsToken) →
      l.Parseable → ∃ line, parseChangeLine (String.ofList (change.print reserved)) = some line ∧
        Resolves change.table l line := by
  intro h
  obtain ⟨line, hline, hresolves⟩ := h (fun _ => false) (insertInto "Users") idColumn rfl
    isToken_idColumn parseable_idColumn
  obtain ⟨-, htable, -⟩ := table_unquoted_of_resolves _ (by decide) hline hresolves.schema
    hresolves.table
  revert htable
  decide

end VibeAudit.Decoding
