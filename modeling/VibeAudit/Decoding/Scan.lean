import VibeAudit.Decoding.Columns

/-!
# The parser, word by word

What one word does to the parser of the columns: it begins a column, or it is
skipped and may name a section. A quoted value takes in all words up to the one
that closes it. Where none of a column's own words does, the value runs on into
the next column, and a column is lost.
-/

namespace VibeAudit.Decoding

open Foundation Forwarder

/-! ## Fuel -/

theorem readQuoted_suffix (value : List Char) (parts : List (List Char)) :
    (readQuoted value parts).2 <:+ parts := by
  induction parts generalizing value with
  | nil => exact List.suffix_rfl
  | cons part parts ih =>
    cases hclosed : closedValue value with
    | some trimmed => simp [readQuoted_of_closed hclosed]
    | none =>
      rw [readQuoted_of_open hclosed]
      exact (ih _).trans (List.suffix_cons part parts)

/-- As many rounds as there are words are enough. -/
theorem parseParts_fuel {n m : Nat} {parts : List (List Char)} (hn : parts.length ≤ n)
    (hm : parts.length ≤ m) (isOld : Bool) :
    parseParts n isOld parts = parseParts m isOld parts := by
  induction n generalizing m isOld parts with
  | zero =>
    obtain rfl := List.eq_nil_of_length_eq_zero (Nat.le_zero.mp hn)
    rw [parseParts_nil, parseParts_nil]
  | succ n ih =>
    cases parts with
    | nil => rw [parseParts_nil, parseParts_nil]
    | cons part parts =>
      obtain ⟨m, rfl⟩ : ∃ k, m = k + 1 := ⟨m - 1, by simp at hm; omega⟩
      have hn : parts.length ≤ n := by simpa using hn
      have hm : parts.length ≤ m := by simpa using hm
      have hrest : ∀ value isOld, parseParts n isOld (readQuoted value parts).2 =
          parseParts m isOld (readQuoted value parts).2 := fun value isOld =>
        have hlen := (readQuoted_suffix value parts).length_le
        ih (hlen.trans hn) (hlen.trans hm) isOld
      simp only [parseParts, ih hn hm, hrest]

/-- The parser, with fuel for every word. -/
def scanParts (isOld : Bool) (parts : List (List Char)) : List ParsedColumn :=
  parseParts parts.length isOld parts

theorem parseParts_eq_scanParts {fuel : Nat} {parts : List (List Char)}
    (h : parts.length ≤ fuel) (isOld : Bool) :
    parseParts fuel isOld parts = scanParts isOld parts := parseParts_fuel h le_rfl isOld

/-! ## One word -/

/-- The name and the value that the parser finds in a word. -/
def columnOfPart (part : List Char) : Option (List Char × List Char) := do
  let (name, restOfCol) ← Text.cutAt '[' part
  let (_, value) ← Text.cutAt ':' restOfCol
  return (name, value)

/-- A word that the parser makes a column of, if it comes to it. -/
def opensColumn (part : List Char) : Bool := (columnOfPart part).isSome

/-- The section the parser is in behind a word that begins no column. -/
def sectionAfter (isOld : Bool) (part : List Char) : Bool :=
  if part = "old-key:".toList then true else if part = "new-tuple:".toList then false else isOld

@[simp] theorem scanParts_nil (isOld : Bool) : scanParts isOld [] = [] := rfl

/-- A word that opens no column only sets the section. -/
theorem scanParts_skip {part : List Char} (h : opensColumn part = false) (isOld : Bool)
    (parts : List (List Char)) :
    scanParts isOld (part :: parts) = scanParts (sectionAfter isOld part) parts := by
  rw [scanParts, List.length_cons, parseParts, sectionAfter]
  split_ifs with hold hnew
  · rfl
  · rfl
  · cases hname : Text.cutAt '[' part with
    | none => rfl
    | some cut =>
      cases hvalue : Text.cutAt ':' cut.2 with
      | none => simp only [hvalue, scanParts]
      | some cut' => simp [opensColumn, columnOfPart, hname, hvalue] at h

/-- A column's word is a name, a type in brackets and a value behind a colon. -/
theorem cut_of_columnOfPart {part name value : List Char}
    (h : columnOfPart part = some (name, value)) :
    part ≠ "old-key:".toList ∧ part ≠ "new-tuple:".toList ∧ ∃ rest type,
      Text.cutAt '[' part = some (name, rest) ∧ Text.cutAt ':' rest = some (type, value) := by
  refine ⟨?_, ?_, ?_⟩
  · rintro rfl
    cases h
  · rintro rfl
    cases h
  · simp only [columnOfPart, Option.pure_def, Option.bind_eq_bind, Option.bind_eq_some_iff,
      Option.some.injEq, Prod.mk.injEq] at h
    obtain ⟨⟨name, rest⟩, hname, ⟨type, value⟩, hvalue, rfl, rfl⟩ := h
    exact ⟨rest, type, hname, hvalue⟩

theorem scanParts_bare {part name value : List Char}
    (h : columnOfPart part = some (name, value)) (hbare : value.head? ≠ some '\'') (isOld : Bool)
    (parts : List (List Char)) :
    scanParts isOld (part :: parts) =
      ⟨String.ofList name, String.ofList value, isOld⟩ :: scanParts isOld parts := by
  obtain ⟨hold, hnew, rest, type, hname, hvalue⟩ := cut_of_columnOfPart h
  rw [scanParts, List.length_cons, parseParts, if_neg hold, if_neg hnew, hname]
  simp only [hvalue, if_neg hbare, scanParts]

theorem scanParts_quoted {part name text : List Char}
    (h : columnOfPart part = some (name, '\'' :: text)) (isOld : Bool)
    (parts : List (List Char)) :
    scanParts isOld (part :: parts) =
      ⟨String.ofList name, String.ofList (Text.undouble '\'' (readQuoted text parts).1), isOld⟩ ::
        scanParts isOld (readQuoted text parts).2 := by
  obtain ⟨hold, hnew, rest, type, hname, hvalue⟩ := cut_of_columnOfPart h
  have hfuel := parseParts_eq_scanParts (readQuoted_suffix text parts).length_le isOld
  rw [scanParts, List.length_cons, parseParts, if_neg hold, if_neg hnew, hname]
  simp only [hvalue, List.head?_cons, if_true, List.tail_cons, hfuel]

/-- Words that begin no column are skipped; the section is the last one they name. -/
theorem scanParts_loose {words : List (List Char)} (h : ∀ w ∈ words, opensColumn w = false)
    (isOld : Bool) (rest : List (List Char)) :
    scanParts isOld (words ++ rest) = scanParts (words.foldl sectionAfter isOld) rest := by
  induction words generalizing isOld with
  | nil => rfl
  | cons w words ih =>
    rw [List.forall_mem_cons] at h
    rw [List.cons_append, scanParts_skip h.1, ih h.2, List.foldl_cons]

/-! ## Quoted values -/

/-- A word that ends in a quote which follows no quote. -/
def isClosing (part : List Char) : Bool :=
  Text.endsWith '\'' part && !Text.endsWith '\'' part.dropLast

theorem closedValue_eq_none {value : List Char} :
    closedValue value = none ↔ isClosing value = false := by
  rw [closedValue, isClosing]
  split <;> simp_all

/-- Only the last word of a value closes it. -/
theorem isClosing_append {part : List Char} (h : part ≠ []) (value : List Char) :
    isClosing (value ++ ' ' :: part) = isClosing part := by
  have hends : ∀ s, Text.endsWith '\'' (value ++ ' ' :: s) = Text.endsWith '\'' s := by
    intro s
    cases s <;> simp [Text.endsWith]
  have hinit : (value ++ ' ' :: part).dropLast = value ++ ' ' :: part.dropLast := by
    rw [List.dropLast_append_of_ne_nil (List.cons_ne_nil _ _), List.dropLast_cons_of_ne_nil h]
  rw [isClosing, isClosing, hinit, hends, hends]

def wordsBehind (value : List Char) (words : List (List Char)) : List (List Char) :=
  ((value :: words).dropWhile fun w => !isClosing w).tail

theorem wordsBehind_suffix (value : List Char) (words : List (List Char)) :
    wordsBehind value words <:+ words := by
  have hdrop := List.dropWhile_suffix (l := value :: words) fun w => !isClosing w
  rcases List.suffix_cons_iff.mp hdrop with heq | hsuffix
  · rw [wordsBehind, heq]
    exact List.suffix_rfl
  · exact (List.tail_suffix _).trans hsuffix

/-- A value is put together up to the first word that closes it. -/
theorem readQuoted_closing {value : List Char} {words : List (List Char)}
    (hne : ∀ w ∈ words, w ≠ []) (h : ∃ w ∈ value :: words, isClosing w = true)
    (rest : List (List Char)) :
    (readQuoted value (words ++ rest)).2 = wordsBehind value words ++ rest := by
  suffices hread : ∀ joined, isClosing joined = isClosing value →
      (readQuoted joined (words ++ rest)).2 = wordsBehind value words ++ rest from hread value rfl
  induction words generalizing value with
  | nil =>
    intro joined hjoined
    obtain ⟨w, hw, hclosing⟩ := h
    obtain rfl := List.mem_singleton.mp hw
    obtain ⟨trimmed, htrimmed⟩ := Option.ne_none_iff_exists'.mp fun hnone =>
      Bool.false_ne_true ((closedValue_eq_none.mp hnone).symm.trans (hjoined.trans hclosing))
    rw [readQuoted_of_closed htrimmed]
    simp [wordsBehind, hclosing]
  | cons w words ih =>
    intro joined hjoined
    rw [List.forall_mem_cons] at hne
    cases hclosing : isClosing value with
    | true =>
      obtain ⟨trimmed, htrimmed⟩ := Option.ne_none_iff_exists'.mp fun hnone =>
        Bool.false_ne_true ((closedValue_eq_none.mp hnone).symm.trans (hjoined.trans hclosing))
      rw [readQuoted_of_closed htrimmed]
      simp [wordsBehind, hclosing]
    | false =>
      have hlater : ∃ v ∈ w :: words, isClosing v = true := by simpa [hclosing] using h
      rw [List.cons_append, readQuoted_of_open (closedValue_eq_none.mpr (hjoined.trans hclosing)),
        ih hne.2 hlater _ (isClosing_append hne.1 joined)]
      simp [wordsBehind, hclosing]

/-- A value that no word closes goes on into the rest. -/
theorem readQuoted_unclosed {value : List Char} {words : List (List Char)}
    (hne : ∀ w ∈ words, w ≠ []) (h : ∀ w ∈ value :: words, isClosing w = false)
    (rest : List (List Char)) :
    ∃ joined, isClosing joined = false ∧
      readQuoted value (words ++ rest) = readQuoted joined rest := by
  induction words generalizing value with
  | nil => exact ⟨value, h value (List.mem_singleton_self _), rfl⟩
  | cons w words ih =>
    rw [List.forall_mem_cons] at hne h
    have hw := (isClosing_append hne.1 value).trans (h.2 w List.mem_cons_self)
    rw [List.cons_append, readQuoted_of_open (closedValue_eq_none.mpr h.1)]
    exact ih hne.2 (List.forall_mem_cons.mpr ⟨hw, fun v hv => h.2 v (List.mem_cons_of_mem _ hv)⟩)

/-- A value that is not finished takes in the next word. -/
theorem readQuoted_takes {value : List Char} (h : isClosing value = false) (part : List Char)
    (parts : List (List Char)) : (readQuoted value (part :: parts)).2 <:+ parts := by
  rw [readQuoted_of_open (closedValue_eq_none.mpr h)]
  exact readQuoted_suffix _ parts

/-! ## Counting the columns -/

/-- Every column comes from a word of its own. -/
theorem length_scanParts_le (isOld : Bool) (parts : List (List Char)) :
    (scanParts isOld parts).length ≤ parts.countP opensColumn := by
  induction hn : parts.length using Nat.strong_induction_on generalizing isOld parts with
  | _ n ih =>
    have hshort : ∀ words isOld, words <:+ parts.tail → parts ≠ [] →
        (scanParts isOld words).length ≤ words.countP opensColumn := by
      intro words isOld hsuffix hparts
      refine ih words.length ?_ isOld words rfl
      have hlen := hsuffix.length_le
      have hpos := List.length_pos_iff.mpr hparts
      rw [List.length_tail] at hlen
      omega
    clear ih hn
    cases parts with
    | nil => simp
    | cons part parts =>
      cases hcolumn : columnOfPart part with
      | none =>
        have hskip : opensColumn part = false := by simp [opensColumn, hcolumn]
        rw [scanParts_skip hskip, List.countP_cons_of_neg (by simp [hskip])]
        exact hshort parts _ List.suffix_rfl (List.cons_ne_nil _ _)
      | some cut =>
        obtain ⟨name, value⟩ := cut
        rw [List.countP_cons_of_pos (by simp [opensColumn, hcolumn])]
        by_cases hquote : value.head? = some '\''
        · obtain ⟨text, rfl⟩ := List.head?_eq_some_iff.mp hquote
          have hsuffix := readQuoted_suffix text parts
          have hlen := hshort _ isOld hsuffix (List.cons_ne_nil _ _)
          have hcount := hsuffix.sublist.countP_le (p := opensColumn)
          rw [scanParts_quoted hcolumn, List.length_cons]
          omega
        · have hlen := hshort parts isOld List.suffix_rfl (List.cons_ne_nil _ _)
          rw [scanParts_bare hcolumn hquote, List.length_cons]
          omega

/-- The parser has read the words before `rest`, and as many columns at most as they begin. It
stands between two columns, or in the middle of a quoted value. -/
def Reaches (isOld : Bool) (front rest : List (List Char)) : Prop :=
  ∃ columns isOld', columns.length ≤ front.countP opensColumn ∧
    (scanParts isOld (front ++ rest) = columns ++ scanParts isOld' rest ∨
      ∃ value, isClosing value = false ∧
        scanParts isOld (front ++ rest) = columns ++ scanParts isOld' (readQuoted value rest).2)

theorem Reaches.cons {isOld isOld' : Bool} {front front' rest : List (List Char)}
    (h : Reaches isOld' front' rest)
    (hcount : front'.countP opensColumn < front.countP opensColumn)
    (hscan : ∃ column, scanParts isOld (front ++ rest) =
      column :: scanParts isOld' (front' ++ rest)) :
    Reaches isOld front rest := by
  obtain ⟨columns, last, hlen, hrest⟩ := h
  obtain ⟨column, hscan⟩ := hscan
  refine ⟨column :: columns, last, by rw [List.length_cons]; omega, ?_⟩
  rw [hscan, List.cons_append]
  exact hrest.imp (congrArg (column :: ·)) fun ⟨value, hvalue, heq⟩ =>
    ⟨value, hvalue, congrArg (column :: ·) heq⟩

/-- Whatever the words are, the parser is somewhere behind them when it comes to `rest`. -/
theorem reaches {front : List (List Char)} (hne : ∀ w ∈ front, w ≠ []) (isOld : Bool)
    (rest : List (List Char)) : Reaches isOld front rest := by
  induction hn : front.length using Nat.strong_induction_on generalizing isOld front with
  | _ n ih =>
    cases front with
    | nil => exact ⟨[], isOld, Nat.zero_le _, .inl rfl⟩
    | cons part front =>
      rw [List.forall_mem_cons] at hne
      have hshort : ∀ words isOld, words <:+ front → Reaches isOld words rest := by
        intro words isOld hsuffix
        refine ih words.length ?_ (fun w hw => hne.2 w (hsuffix.subset hw)) isOld rfl
        rw [← hn, List.length_cons]
        exact Nat.lt_succ_of_le hsuffix.length_le
      cases hcolumn : columnOfPart part with
      | none =>
        have hskip : opensColumn part = false := by simp [opensColumn, hcolumn]
        obtain ⟨columns, last, hlen, hrest⟩ := hshort front (sectionAfter isOld part)
          List.suffix_rfl
        rw [Reaches, List.cons_append, scanParts_skip hskip,
          List.countP_cons_of_neg (by simp [hskip])]
        exact ⟨columns, last, hlen, hrest⟩
      | some cut =>
        obtain ⟨name, value⟩ := cut
        have hopens : opensColumn part = true := by simp [opensColumn, hcolumn]
        have hcount : ∀ words, words <:+ front →
            words.countP opensColumn < (part :: front).countP opensColumn := by
          intro words hsuffix
          rw [List.countP_cons_of_pos hopens]
          exact Nat.lt_succ_of_le hsuffix.sublist.countP_le
        by_cases hquote : value.head? = some '\''
        · obtain ⟨text, rfl⟩ := List.head?_eq_some_iff.mp hquote
          by_cases hclosing : ∃ w ∈ text :: front, isClosing w = true
          · have hsuffix := wordsBehind_suffix text front
            have hscan := scanParts_quoted hcolumn isOld (front ++ rest)
            rw [readQuoted_closing hne.2 hclosing] at hscan
            exact (hshort _ isOld hsuffix).cons (hcount _ hsuffix) ⟨_, hscan⟩
          · have hopen : ∀ w ∈ text :: front, isClosing w = false := by simpa using hclosing
            obtain ⟨joined, hjoined, hread⟩ := readQuoted_unclosed hne.2 hopen rest
            have hscan := scanParts_quoted hcolumn isOld (front ++ rest)
            rw [hread] at hscan
            exact ⟨[_], isOld, hcount [] List.nil_suffix, .inr ⟨joined, hjoined, hscan⟩⟩
        · exact (hshort front isOld List.suffix_rfl).cons (hcount _ List.suffix_rfl)
            ⟨_, scanParts_bare hcolumn hquote isOld (front ++ rest)⟩

/-- A quoted value that none of its words closes takes in the word behind them, and where that
one begins a column there are fewer columns than words to begin them. -/
theorem length_scanParts_lt {front words : List (List Char)} {first next : List Char}
    {name text : List Char} (hfront : ∀ w ∈ front, w ≠ []) (hwords : ∀ w ∈ words, w ≠ [])
    (hfirst : columnOfPart first = some (name, '\'' :: text))
    (hopen : ∀ w ∈ text :: words, isClosing w = false) (hnext : opensColumn next = true)
    (isOld : Bool) (back : List (List Char)) :
    (scanParts isOld (front ++ first :: (words ++ next :: back))).length <
      (front ++ first :: (words ++ next :: back)).countP opensColumn := by
  have hopens : opensColumn first = true := by simp [opensColumn, hfirst]
  have hcount : (front ++ first :: (words ++ next :: back)).countP opensColumn =
      front.countP opensColumn +
        (words.countP opensColumn + (back.countP opensColumn + 1) + 1) := by
    rw [List.countP_append, List.countP_cons_of_pos hopens, List.countP_append,
      List.countP_cons_of_pos hnext]
  obtain ⟨columns, isOld', hlen, hscan | ⟨value, hvalue, hscan⟩⟩ :=
    reaches hfront isOld (first :: (words ++ next :: back))
  · -- the value is read from its first word on, and `next` with it
    obtain ⟨joined, hjoined, hread⟩ := readQuoted_unclosed hwords hopen (next :: back)
    have hleft := (readQuoted_takes hjoined next back).sublist.countP_le (p := opensColumn)
    have hrest := length_scanParts_le isOld' (readQuoted joined (next :: back)).2
    rw [hscan, scanParts_quoted hfirst, hread, List.length_append, List.length_cons]
    omega
  · -- the first word itself is taken in by an earlier value
    have hleft := (readQuoted_takes hvalue first (words ++ next :: back)).sublist.countP_le
      (p := opensColumn)
    have hrest := length_scanParts_le isOld'
      (readQuoted value (first :: (words ++ next :: back))).2
    rw [List.countP_append, List.countP_cons_of_pos hnext] at hleft
    rw [hscan, List.length_append]
    omega

end VibeAudit.Decoding
