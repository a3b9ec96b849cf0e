import Mathlib.Data.List.DropRight

/-!
# Rust string operations on characters

The `str` operations a line parser uses, on lists of characters. Offsets of
`find` never leave these functions: a search returns the text before and after
what it found.
-/

namespace VibeAudit.Foundation.Text

/-- `char::is_whitespace`, the Unicode property `White_Space`. -/
def isWhitespace (c : Char) : Bool :=
  (0x09 ≤ c.toNat && c.toNat ≤ 0x0D) || (0x2000 ≤ c.toNat && c.toNat ≤ 0x200A) ||
    [0x20, 0x85, 0xA0, 0x1680, 0x2028, 0x2029, 0x202F, 0x205F, 0x3000].contains c.toNat

/-- `str::trim`. -/
def trim (s : List Char) : List Char := (s.dropWhile isWhitespace).rdropWhile isWhitespace

/-- `str::split_whitespace`. -/
def splitWhitespace (s : List Char) : List (List Char) :=
  (s.splitOnP isWhitespace).filter fun part => !part.isEmpty

/-- The text before and after the first `c`, as `find` and the two slices give it. -/
def cutAt (c : Char) : List Char → Option (List Char × List Char)
  | [] => none
  | x :: xs => if x = c then some ([], xs) else (cutAt c xs).map fun p => (x :: p.1, p.2)

/-- The text after `pre`, where it starts with it. -/
def stripPrefix? (pre s : List Char) : Option (List Char) :=
  if pre.isPrefixOf s then some (s.drop pre.length) else none

def endsWith (c : Char) (s : List Char) : Bool := s.getLast? == some c

/-- `str::trim_start_matches` for a pattern of two characters. -/
def trimStartPair (a b : Char) : List Char → List Char
  | x :: y :: s => if x = a ∧ y = b then trimStartPair a b s else x :: y :: s
  | s => s

/-- `str::replace` of a doubled character by a single one. -/
def undouble (c : Char) : List Char → List Char
  | x :: y :: s => if x = c ∧ y = c then c :: undouble c s else x :: undouble c (y :: s)
  | s => s

/-- Doubling of a character, as a quoted literal has it. -/
def double (c : Char) (s : List Char) : List Char :=
  s.flatMap fun x => if x = c then [c, c] else [x]

theorem endsWith_cons_of_ne_nil (q c : Char) {s : List Char} (h : s ≠ []) :
    endsWith q (c :: s) = endsWith q s := by
  obtain ⟨d, t, rfl⟩ := List.exists_cons_of_ne_nil h
  simp [endsWith]

/-- A text put together from its pieces, with one blank for each run of whitespace: empty pieces
stand inside a run, except for the first and the last one. -/
def unsplit : List (List Char) → List Char → List Char
  | [], t => t
  | u :: us, t => u ++ (us.filter fun m => !m.isEmpty).flatMap (' ' :: ·) ++ ' ' :: t

/-- The text with one blank for each run of whitespace. -/
def collapse (s : List Char) : List Char :=
  unsplit (s.splitOnP isWhitespace).dropLast ((s.splitOnP isWhitespace).getLastD [])

/-- Every maximal run of whitespace becomes one blank, which is put where the run ends. -/
def blankRuns : List Char → List Char
  | [] => []
  | c :: s =>
    if !isWhitespace c then c :: blankRuns s
    else if s.head?.any isWhitespace then blankRuns s
    else ' ' :: blankRuns s

example : blankRuns "\t it's  so ".toList = " it's so ".toList := by decide

/-- What is trimmed has no pattern left at its start. -/
theorem trimStartPair_idem (a b : Char) (s : List Char) :
    trimStartPair a b (trimStartPair a b s) = trimStartPair a b s := by
  fun_induction trimStartPair a b s with
  | case1 x y s h ih => exact ih
  | case2 x y s h => rw [trimStartPair, if_neg h]
  | case3 s h => rw [trimStartPair.eq_def]; split <;> simp_all

/-! ## Trimming and cutting a known layout -/

theorem rdropWhile_append_cons {p : Char → Bool} {c : Char} (hc : p c = false) (xs ys : List Char) :
    (xs ++ c :: ys).rdropWhile p = xs ++ c :: ys.rdropWhile p := by
  have hreverse : (xs ++ c :: ys).reverse = ys.reverse ++ c :: xs.reverse := by simp
  simp only [List.rdropWhile, hreverse, List.dropWhile_append]
  split_ifs with h
  · have hnil : ys.reverse.dropWhile p = [] := by simpa using h
    simp [hnil, hc]
  · simp

theorem rdropWhile_append_of_all {p : Char → Bool} {ys : List Char} (h : ∀ y ∈ ys, p y = true)
    (xs : List Char) : (xs ++ ys).rdropWhile p = xs.rdropWhile p := by
  have hnil : ys.reverse.dropWhile p = [] := by
    rw [List.dropWhile_eq_nil_iff]
    simpa using h
  simp [List.rdropWhile, List.dropWhile_append, hnil]

/-- Trimming starts at the end or at the start, as one likes. -/
theorem trim_rdropWhile (s : List Char) : trim (s.rdropWhile isWhitespace) = trim s := by
  have htail : ∀ c ∈ s.rtakeWhile isWhitespace, isWhitespace c = true :=
    fun c hc => List.mem_rtakeWhile_imp hc
  conv_rhs => rw [← List.rdropWhile_append_rtakeWhile (p := isWhitespace) (l := s)]
  unfold trim
  rw [List.dropWhile_append]
  split_ifs with h
  · have hfront : (s.rdropWhile isWhitespace).dropWhile isWhitespace = [] := by simpa using h
    have hback : (s.rtakeWhile isWhitespace).dropWhile isWhitespace = [] := by
      rw [List.dropWhile_eq_nil_iff]
      exact htail
    rw [hfront, hback]
  · rw [rdropWhile_append_of_all htail]

theorem trim_of_forall {s : List Char} (h : ∀ c ∈ s, isWhitespace c = false) : trim s = s := by
  have hfront : s.dropWhile isWhitespace = s := by
    cases s with
    | nil => rfl
    | cons c s => exact List.dropWhile_cons_of_neg (by simp [h c List.mem_cons_self])
  rw [trim, hfront, List.rdropWhile_eq_self_iff]
  intro hne
  simp [h _ (List.getLast_mem hne)]

theorem dropWhile_of_trim_eq {s : List Char} (h : trim s = s) : s.dropWhile isWhitespace = s := by
  refine (List.dropWhile_suffix _).eq_of_length ?_
  have hle := (List.rdropWhile_prefix isWhitespace (s.dropWhile isWhitespace)).length_le
  have hge := (List.dropWhile_suffix (l := s) isWhitespace).length_le
  have heq := congrArg List.length h
  unfold trim at heq
  omega

/-- A trimmed word in front of a character that is no space stays in front. -/
theorem dropWhile_append_cons {word : List Char} (h : trim word = word) {c : Char}
    (hc : isWhitespace c = false) (s : List Char) :
    (word ++ c :: s).dropWhile isWhitespace = word ++ c :: s := by
  rw [List.dropWhile_append, dropWhile_of_trim_eq h]
  cases word with
  | nil => simp [hc]
  | cons d word => simp

theorem trim_append_cons {word : List Char} (h : trim word = word) {c : Char}
    (hc : isWhitespace c = false) (s : List Char) :
    trim (word ++ c :: s) = word ++ c :: s.rdropWhile isWhitespace := by
  rw [trim, dropWhile_append_cons h hc, rdropWhile_append_cons hc]

/-- A text that starts with no space still does so when it is trimmed. -/
theorem trim_cons {c : Char} (hc : isWhitespace c = false) (s : List Char) :
    ∃ t, trim (c :: s) = c :: t := by
  unfold trim
  rw [List.dropWhile_cons_of_neg (by simp [hc])]
  have hbegins : (c :: s).rdropWhile isWhitespace <+: c :: s := List.rdropWhile_prefix _ _
  have hne : (c :: s).rdropWhile isWhitespace ≠ [] := by
    intro hnil
    have hall := List.rdropWhile_eq_nil_iff.mp hnil c List.mem_cons_self
    rw [hc] at hall
    cases hall
  obtain ⟨d, t, ht⟩ := List.exists_cons_of_ne_nil hne
  rw [ht] at hbegins ⊢
  obtain ⟨rfl, -⟩ := List.cons_prefix_cons.mp hbegins
  exact ⟨t, rfl⟩

theorem trim_cons_space (s : List Char) : trim (' ' :: s) = trim s := by
  rw [trim, List.dropWhile_cons_of_pos (by decide), trim]

theorem cutAt_append {c : Char} {xs : List Char} (h : c ∉ xs) (ys : List Char) :
    cutAt c (xs ++ c :: ys) = some (xs, ys) := by
  induction xs with
  | nil => simp [cutAt]
  | cons x xs ih =>
    rw [List.mem_cons, not_or] at h
    simp [cutAt, ih h.2, Ne.symm h.1]

theorem stripPrefix?_append (pre s : List Char) : stripPrefix? pre (pre ++ s) = some s := by
  simp [stripPrefix?]

/-- A cut leaves the text before the first separator and the text after it. -/
theorem cutAt_eq_some {c : Char} {s xs ys : List Char} (h : cutAt c s = some (xs, ys)) :
    s = xs ++ c :: ys ∧ c ∉ xs := by
  induction s generalizing xs with
  | nil => cases h
  | cons x s ih =>
    rw [cutAt] at h
    split_ifs at h with hx
    · obtain ⟨rfl, rfl⟩ := Prod.mk.inj (Option.some.inj h)
      simp [hx]
    · obtain ⟨⟨front, back⟩, hcut, heq⟩ := Option.map_eq_some_iff.mp h
      obtain ⟨rfl, rfl⟩ := Prod.mk.inj heq
      obtain ⟨rfl, hfront⟩ := ih hcut
      simp [hfront, Ne.symm hx]

theorem cutAt_eq_none {c : Char} {s : List Char} : cutAt c s = none ↔ c ∉ s := by
  induction s with
  | nil => simp [cutAt]
  | cons x s ih =>
    rw [cutAt, List.mem_cons, not_or]
    split_ifs with hx
    · simp [hx]
    · simp [ih, Ne.symm hx]

theorem mem_of_mem_trim {c : Char} {s : List Char} (h : c ∈ trim s) : c ∈ s :=
  (List.dropWhile_suffix _).subset ((List.rdropWhile_prefix _ _).subset h)

/-! ## Doubled characters -/

section Doubling

variable {q : Char}

@[simp] theorem double_nil : double q [] = [] := rfl

theorem double_cons (x : Char) (s : List Char) :
    double q (x :: s) = (if x = q then [q, q] else [x]) ++ double q s := rfl

@[simp] theorem double_append (s t : List Char) : double q (s ++ t) = double q s ++ double q t :=
  List.flatMap_append

theorem double_eq_nil {s : List Char} : double q s = [] ↔ s = [] := by
  cases s with
  | nil => simp
  | cons x s =>
    rw [double_cons]
    split_ifs <;> simp

@[simp] theorem isEmpty_double (s : List Char) : (double q s).isEmpty = s.isEmpty := by
  rw [Bool.eq_iff_iff, List.isEmpty_iff, List.isEmpty_iff, double_eq_nil]

theorem mem_double {c : Char} {s : List Char} : c ∈ double q s ↔ c ∈ s := by
  rw [double, List.mem_flatMap]
  grind

/-- Replacing doubled characters by single ones undoes the doubling. -/
theorem undouble_double (s : List Char) : undouble q (double q s) = s := by
  induction s with
  | nil => rfl
  | cons x s ih =>
    rw [double_cons]
    split_ifs with hx
    · simp [undouble, ih, hx]
    · cases hs : double q s with
      | nil =>
        obtain rfl := double_eq_nil.mp hs
        simp [undouble]
      | cons y t =>
        rw [hs] at ih
        simp [undouble, hx, ih]

/-- A doubled text ends with no single quote. -/
theorem not_closed_double (u s : List Char) (hu : s = [] → u = []) :
    (endsWith q (u ++ double q s) && !endsWith q (u ++ double q s).dropLast) = false := by
  cases s using List.reverseRecOn with
  | nil => simp [hu rfl, endsWith]
  | append_singleton s x =>
    rw [double_append, double_cons]
    split_ifs with hx
    · have hlast :
          u ++ (double q s ++ ([q, q] ++ double q [])) = (u ++ double q s ++ [q]) ++ [q] := by
        simp
      rw [hlast, List.dropLast_concat]
      simp [endsWith]
    · simp [endsWith, hx]

end Doubling

theorem endsWith_append_double (u s : List Char) (h : s = [] → endsWith q u = false) :
    endsWith q (u ++ double q s) = endsWith q s := by
  cases s using List.reverseRecOn with
  | nil => simpa [endsWith] using h rfl
  | append_singleton s x =>
    rw [double_append, double_cons]
    split_ifs with hx <;> simp [endsWith, hx]

/-! ## Words -/

theorem splitWhitespace_append_cons {c : Char} (hc : isWhitespace c = true) (xs ys : List Char) :
    splitWhitespace (xs ++ c :: ys) = splitWhitespace xs ++ splitWhitespace ys := by
  rw [splitWhitespace, List.splitOnP_append_cons xs ys hc, List.filter_append]
  rfl

theorem splitWhitespace_cons {c : Char} (hc : isWhitespace c = true) (s : List Char) :
    splitWhitespace (c :: s) = splitWhitespace s := splitWhitespace_append_cons hc [] s

theorem splitWhitespace_word {word : List Char} (h : ∀ c ∈ word, isWhitespace c = false)
    (hne : word ≠ []) : splitWhitespace word = [word] := by
  rw [splitWhitespace, List.splitOnP_eq_singleton h]
  simp [hne]

/-- The first word of a text that begins with one, and the words behind it. -/
theorem splitWhitespace_takeWhile {c : Char} (hc : isWhitespace c = false) (s : List Char) :
    splitWhitespace (c :: s) = (c :: s).takeWhile (fun x => !isWhitespace x) ::
      splitWhitespace ((c :: s).dropWhile fun x => !isWhitespace x) := by
  have hword : ∀ x ∈ (c :: s).takeWhile (fun x => !isWhitespace x), isWhitespace x = false :=
    fun x hx => by simpa using List.mem_takeWhile_imp hx
  have hne : (c :: s).takeWhile (fun x => !isWhitespace x) ≠ [] := by simp [hc]
  have hsplit := List.takeWhile_append_dropWhile (p := fun x => !isWhitespace x) (l := c :: s)
  conv_lhs => rw [← hsplit]
  cases hrest : (c :: s).dropWhile fun x => !isWhitespace x with
  | nil => rw [List.append_nil, splitWhitespace_word hword hne]; rfl
  | cons x rest =>
    have hx : isWhitespace x = true := by
      have hhead := List.head?_dropWhile_not (fun x => !isWhitespace x) (c :: s)
      simpa [hrest] using hhead
    rw [splitWhitespace_append_cons hx, splitWhitespace_cons hx, splitWhitespace_word hword hne,
      List.singleton_append]

theorem splitWhitespace_append_takeWhile {word : List Char}
    (hword : ∀ x ∈ word, isWhitespace x = false) {c : Char} (hc : isWhitespace c = false)
    (s : List Char) :
    splitWhitespace (word ++ c :: s) = (word ++ (c :: s).takeWhile fun x => !isWhitespace x) ::
      splitWhitespace ((c :: s).dropWhile fun x => !isWhitespace x) := by
  cases word with
  | nil => exact splitWhitespace_takeWhile hc s
  | cons d word =>
    have hall : ∀ x ∈ d :: word, (!isWhitespace x) = true := fun x hx => by simp [hword x hx]
    rw [List.cons_append, splitWhitespace_takeWhile (hword d List.mem_cons_self),
      ← List.cons_append, List.takeWhile_append_of_pos hall, List.dropWhile_append_of_pos hall]

/-- Words with a blank before each are split apart again. -/
theorem splitWhitespace_flatMap_blank (chunks : List (List Char)) :
    splitWhitespace (chunks.flatMap (' ' :: ·)) = chunks.flatMap splitWhitespace := by
  have hblank : isWhitespace ' ' = true := by decide
  induction chunks with
  | nil => rfl
  | cons chunk chunks ih =>
    rw [List.flatMap_cons, List.flatMap_cons, List.cons_append, splitWhitespace_cons hblank]
    cases chunks with
    | nil => simp
    | cons next chunks =>
      rw [← ih, List.flatMap_cons, List.cons_append, splitWhitespace_append_cons hblank,
        splitWhitespace_cons hblank]

/-- The words of a text are made of its characters, and no whitespace is among them. -/
theorem mem_of_mem_splitWhitespace {s word : List Char} (h : word ∈ splitWhitespace s) :
    ∀ c ∈ word, c ∈ s ∧ isWhitespace c = false := by
  intro c hc
  have hpiece := List.mem_of_mem_filter h
  clear h
  induction s generalizing word with
  | nil =>
    obtain rfl : word = [] := by simpa using hpiece
    cases hc
  | cons x s ih =>
    obtain ⟨t, ts, hs⟩ := List.exists_cons_of_ne_nil (List.splitOnP_ne_nil isWhitespace s)
    rw [List.splitOnP_cons_eq_if_modifyHead, hs] at hpiece
    rw [hs] at ih
    split_ifs at hpiece with hx
    · rcases List.mem_cons.mp hpiece with rfl | hmem
      · cases hc
      · exact (ih hc hmem).imp_left (List.mem_cons_of_mem _)
    · rw [List.modifyHead_cons, List.mem_cons] at hpiece
      rcases hpiece with rfl | hmem
      · rcases List.mem_cons.mp hc with rfl | hc
        · exact ⟨List.mem_cons_self, by simpa using hx⟩
        · exact (ih hc List.mem_cons_self).imp_left (List.mem_cons_of_mem _)
      · exact (ih hc (List.mem_cons_of_mem _ hmem)).imp_left (List.mem_cons_of_mem _)

theorem splitWhitespace_dropWhile (s : List Char) :
    splitWhitespace (s.dropWhile isWhitespace) = splitWhitespace s := by
  induction s with
  | nil => rfl
  | cons c s ih =>
    by_cases hc : isWhitespace c = true
    · rw [List.dropWhile_cons_of_pos hc, ih, splitWhitespace_cons hc]
    · rw [List.dropWhile_cons_of_neg hc]

theorem splitWhitespace_rdropWhile (s : List Char) :
    splitWhitespace (s.rdropWhile isWhitespace) = splitWhitespace s := by
  induction s using List.reverseRecOn with
  | nil => rfl
  | append_singleton s c ih =>
    by_cases hc : isWhitespace c = true
    · rw [List.rdropWhile_concat_pos _ _ _ hc, ih, splitWhitespace_append_cons hc]
      exact (List.append_nil _).symm
    · rw [List.rdropWhile_concat_neg _ _ _ hc]

theorem splitWhitespace_trim (s : List Char) : splitWhitespace (trim s) = splitWhitespace s := by
  rw [trim, splitWhitespace_rdropWhile, splitWhitespace_dropWhile]

/-- The pieces of a text behind a word: the word joins the first one. -/
theorem splitOnP_append_word {word : List Char} (h : ∀ c ∈ word, isWhitespace c = false)
    (s : List Char) :
    (word ++ s).splitOnP isWhitespace = (s.splitOnP isWhitespace).modifyHead (word ++ ·) := by
  induction word with
  | nil =>
    obtain ⟨t, ts, hs⟩ := List.exists_cons_of_ne_nil (List.splitOnP_ne_nil isWhitespace s)
    simp [hs]
  | cons c word ih =>
    rw [List.forall_mem_cons] at h
    obtain ⟨t, ts, hs⟩ := List.exists_cons_of_ne_nil (List.splitOnP_ne_nil isWhitespace s)
    rw [List.cons_append, List.splitOnP_cons_eq_if_modifyHead, ih h.2, hs]
    simp [h.1]

/-- The pieces of a text with a quote behind it, all quotes inside doubled: those of the text,
each doubled, and the quote at the last one. -/
theorem exists_pieces {q : Char} (hq : isWhitespace q = false) (text : List Char) :
    ∃ ts t, text.splitOnP isWhitespace = ts ++ [t] ∧
      (double q text ++ [q]).splitOnP isWhitespace = ts.map (double q) ++ [double q t ++ [q]] ∧
      endsWith q text = endsWith q t ∧ (ts = [] → t = text) := by
  induction text with
  | nil => exact ⟨[], [], rfl, List.splitOnP_eq_singleton (by simpa using hq), rfl, fun _ => rfl⟩
  | cons c text ih =>
    obtain ⟨ts, t, hsplit, hdouble, hends, hone⟩ := ih
    by_cases hc : isWhitespace c = true
    · have hne : c ≠ q := by
        rintro rfl
        rw [hc] at hq
        cases hq
      refine ⟨[] :: ts, t, ?_, ?_, ?_, fun h => by cases h⟩
      · rw [List.splitOnP_cons_eq_if_modifyHead, if_pos hc, hsplit, List.cons_append]
      · rw [double_cons, if_neg hne, List.singleton_append, List.cons_append,
          List.splitOnP_cons_eq_if_modifyHead, if_pos hc, hdouble, List.map_cons, double_nil,
          List.cons_append]
      · by_cases htext : text = []
        · subst htext
          have ht : t = [] := by
            cases ts <;> simp_all
          simp [ht, endsWith, hne]
        · rw [endsWith_cons_of_ne_nil q c htext, hends]
    · have hc' : isWhitespace c = false := by simpa using hc
      have hword : ∀ x ∈ (if c = q then [q, q] else [c]), isWhitespace x = false := by
        split_ifs <;> simp [hq, hc']
      have hfirst : (c :: text).splitOnP isWhitespace = (ts ++ [t]).modifyHead (c :: ·) := by
        rw [List.splitOnP_cons_eq_if_modifyHead, if_neg hc, hsplit]
      have hsecond : (double q (c :: text) ++ [q]).splitOnP isWhitespace =
          (ts.map (double q) ++ [double q t ++ [q]]).modifyHead
            ((if c = q then [q, q] else [c]) ++ ·) := by
        rw [double_cons, List.append_assoc, splitOnP_append_word hword, hdouble]
      cases ts with
      | nil =>
        obtain rfl := hone rfl
        refine ⟨[], c :: t, by simpa using hfirst, ?_, rfl, fun _ => rfl⟩
        rw [hsecond, double_cons]
        simp
      | cons u us =>
        refine ⟨(c :: u) :: us, t, by simpa using hfirst, ?_, ?_, fun h => by cases h⟩
        · rw [hsecond, List.map_cons, List.map_cons, double_cons]
          simp
        · rw [endsWith_cons_of_ne_nil q c ?_, hends]
          rintro rfl
          simp at hsplit

theorem collapse_eq_unsplit {text : List Char} {ts : List (List Char)} {t : List Char}
    (h : text.splitOnP isWhitespace = ts ++ [t]) : collapse text = unsplit ts t := by
  simp [collapse, h]

theorem exists_splitOnP_concat (s : List Char) :
    ∃ ts t, s.splitOnP isWhitespace = ts ++ [t] :=
  ⟨_, _, (List.dropLast_append_getLast (List.splitOnP_ne_nil isWhitespace s)).symm⟩

/-- A text begins with whitespace exactly if its first piece of several is empty. -/
theorem head_isWhitespace {s u : List Char} {us : List (List Char)}
    (h : s.splitOnP isWhitespace = u :: us) :
    s.head?.any isWhitespace = (u.isEmpty && !us.isEmpty) := by
  cases s with
  | nil =>
    rw [List.splitOnP_nil, List.cons.injEq] at h
    simp [← h.1, ← h.2]
  | cons c s =>
    have hne := List.splitOnP_ne_nil isWhitespace s
    rw [List.splitOnP_cons_eq_if_modifyHead] at h
    split_ifs at h with hc
    · obtain ⟨rfl, rfl⟩ := List.cons.inj h
      simp [hc, hne]
    · obtain ⟨v, vs, hs⟩ := List.exists_cons_of_ne_nil hne
      rw [hs, List.modifyHead_cons] at h
      obtain ⟨rfl, -⟩ := List.cons.inj h
      simpa using hc

/-- Joining the words by blanks is turning runs of whitespace into blanks. -/
theorem collapse_eq_blankRuns (s : List Char) : collapse s = blankRuns s := by
  induction s with
  | nil => rfl
  | cons c s ih =>
    obtain ⟨ts, t, hs⟩ := exists_splitOnP_concat s
    rw [collapse_eq_unsplit hs] at ih
    rw [blankRuns, ← ih]
    by_cases hc : isWhitespace c = true
    · have hsplit : (c :: s).splitOnP isWhitespace = ([] :: ts) ++ [t] := by
        rw [List.splitOnP_cons_eq_if_modifyHead, if_pos hc, hs, List.cons_append]
      rw [collapse_eq_unsplit hsplit, hc, Bool.not_true, if_neg Bool.false_ne_true]
      cases ts with
      | nil =>
        rw [head_isWhitespace hs]
        simp [unsplit]
      | cons u us =>
        rw [head_isWhitespace hs]
        cases u <;> simp [unsplit]
    · have hsplit : (c :: s).splitOnP isWhitespace = (ts ++ [t]).modifyHead (c :: ·) := by
        rw [List.splitOnP_cons_eq_if_modifyHead, if_neg hc, hs]
      cases ts with
      | nil =>
        have honly : (c :: s).splitOnP isWhitespace = [] ++ [c :: t] := by simpa using hsplit
        rw [collapse_eq_unsplit honly]
        simp [unsplit, hc]
      | cons u us =>
        have hmore : (c :: s).splitOnP isWhitespace = ((c :: u) :: us) ++ [t] := by
          simpa using hsplit
        rw [collapse_eq_unsplit hmore]
        simp [unsplit, hc]

theorem double_unsplit {q : Char} (hq : q ≠ ' ') (ts : List (List Char)) (t : List Char) :
    double q (unsplit ts t) =
      match ts with
      | [] => double q t
      | u :: us => double q u ++ (us.filter fun m => !m.isEmpty).flatMap
          (fun m => ' ' :: double q m) ++ ' ' :: double q t := by
  cases ts with
  | nil => rfl
  | cons u us =>
    have hblank : ∀ s, double q (' ' :: s) = ' ' :: double q s := by
      intro s
      rw [double_cons, if_neg hq.symm, List.singleton_append]
    have hmiddle : ∀ ms : List (List Char), double q (ms.flatMap (' ' :: ·)) =
        ms.flatMap fun m => ' ' :: double q m := by
      intro ms
      induction ms with
      | nil => rfl
      | cons m ms ih => rw [List.flatMap_cons, double_append, ih, hblank, List.flatMap_cons]
    simp only [unsplit, double_append, hblank, hmiddle]

end VibeAudit.Foundation.Text
