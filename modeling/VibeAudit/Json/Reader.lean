import VibeAudit.Foundation.Calendar
import VibeAudit.Foundation.Utf8
import VibeAudit.Json.Value

/-!
# JSON text

What a JSON reader makes of a text: tokens first, of them one value. An object
takes the last of several members of one name, values are nested up to a limit,
and what number a word denotes is a parameter. `serde_json::from_slice` is a
parameter too; `ReadsJson` says that it is such a reader.
-/

namespace VibeAudit.Json

open Foundation

/-- Marks of structure, string literals by the text between their quotes, and other words. -/
inductive Token where
  | mark (c : Char)
  | str (raw : List Char)
  | word (w : List Char)
  deriving DecidableEq, Repr

/-- Where the reader of tokens stands: between tokens, in a word, in a string literal, or behind
a backslash in one. -/
inductive LexState where
  | outside
  | word (w : List Char)
  | inside (raw : List Char)
  | escaped (raw : List Char)
  deriving DecidableEq, Repr

def isMark (c : Char) : Bool := ['\x7b', '\x7d', '[', ']', ':', ','].contains c

def isBlank (c : Char) : Bool := [' ', '\t', '\n', '\r'].contains c

def isWordChar (c : Char) : Bool := !isMark c && !isBlank c && c != '"'

def lexOutside (c : Char) : LexState × List Token :=
  if c = '"' then (.inside [], [])
  else if isMark c then (.outside, [.mark c])
  else if isBlank c then (.outside, [])
  else (.word [c], [])

def LexState.step : LexState → Char → LexState × List Token
  | .outside, c => lexOutside c
  | .word w, c =>
    if isWordChar c then (.word (w ++ [c]), [])
    else ((lexOutside c).1, .word w :: (lexOutside c).2)
  | .inside raw, c =>
    if c = '"' then (.outside, [.str raw])
    else if c = '\\' then (.escaped raw, [])
    else (.inside (raw ++ [c]), [])
  | .escaped raw, c => (.inside (raw ++ ['\\', c]), [])

/-- The state behind a text, and the tokens that end in it. -/
def LexState.run : LexState → List Char → LexState × List Token
  | st, [] => (st, [])
  | st, c :: cs => (((st.step c).1.run cs).1, (st.step c).2 ++ ((st.step c).1.run cs).2)

def LexState.finish : LexState → Option (List Token)
  | .outside => some []
  | .word w => some [.word w]
  | .inside _ | .escaped _ => none

def lex (text : List Char) : Option (List Token) :=
  (LexState.outside.run text).1.finish.map ((LexState.outside.run text).2 ++ ·)

/-! ## String literals -/

def hexDigit? (c : Char) : Option Nat :=
  if c.isDigit then some (c.toNat - 48)
  else if 'a' ≤ c ∧ c ≤ 'f' then some (c.toNat - 87)
  else if 'A' ≤ c ∧ c ≤ 'F' then some (c.toNat - 55)
  else none

def hex4 (a b c d : Char) : Option Nat := do
  return ((← hexDigit? a) * 16 + (← hexDigit? b)) * 256 + (← hexDigit? c) * 16 + (← hexDigit? d)

def shortEscape : Char → Option Nat
  | '"' => some 0x22
  | '\\' => some 0x5C
  | '/' => some 0x2F
  | 'b' => some 0x08
  | 'f' => some 0x0C
  | 'n' => some 0x0A
  | 'r' => some 0x0D
  | 't' => some 0x09
  | _ => none

/-- A character that stands for itself in a string literal. -/
def isPlainChar (c : Char) : Bool := c != '"' && c != '\\' && 0x20 ≤ c.toNat

/-- The code points and surrogates that a string literal spells. -/
def units : List Char → Option (List Nat)
  | [] => some []
  | '\\' :: 'u' :: a :: b :: c :: d :: cs =>
    (hex4 a b c d).bind fun n => (units cs).map (n :: ·)
  | '\\' :: e :: cs => (shortEscape e).bind fun n => (units cs).map (n :: ·)
  | c :: cs => if isPlainChar c then (units cs).map (c.toNat :: ·) else none

def isLeading (n : Nat) : Bool := 0xD800 ≤ n && n < 0xDC00

def isTrailing (n : Nat) : Bool := 0xDC00 ≤ n && n < 0xE000

/-- Surrogates are put together in pairs; one alone is an error. -/
def joinPairs : List Nat → Option (List Char)
  | [] => some []
  | [n] => if isLeading n || isTrailing n then none else some [Char.ofNat n]
  | n :: m :: ns =>
    if isLeading n && isTrailing m then
      (joinPairs ns).map (Char.ofNat (0x10000 + (n - 0xD800) * 0x400 + (m - 0xDC00)) :: ·)
    else if isLeading n || isTrailing n then none
    else (joinPairs (m :: ns)).map (Char.ofNat n :: ·)

def unescape (raw : List Char) : Option (List Char) := (units raw).bind joinPairs

/-! ## Values -/

section

variable (number : List Char → Option Number)

def readWord (w : List Char) : Option Value :=
  if w = "null".toList then some .null
  else if w = "true".toList then some (.bool true)
  else if w = "false".toList then some (.bool false)
  else (number w).map .number

mutual

/-- The value at the front of the tokens, and the tokens behind it. Every call takes a token, so
their number is fuel enough. -/
def parseValue : Nat → Nat → List Token → Option (Value × List Token)
  | 0, _, _ => none
  | fuel + 1, depth, tokens =>
    match tokens with
    | .word w :: rest => (readWord number w).map (·, rest)
    | .str raw :: rest => (unescape raw).map fun s => (.string (String.ofList s), rest)
    | .mark '\x7b' :: rest =>
      if depth ≤ 1 then none
      else
        match rest with
        | .mark '\x7d' :: rest => some (.object [], rest)
        | rest => parseMembers fuel (depth - 1) [] rest
    | .mark '[' :: rest =>
      if depth ≤ 1 then none
      else
        match rest with
        | .mark ']' :: rest => some (.array [], rest)
        | rest => parseElements fuel (depth - 1) [] rest
    | _ => none

def parseMembers : Nat → Nat → Map → List Token → Option (Value × List Token)
  | 0, _, _, _ => none
  | fuel + 1, depth, m, tokens =>
    match tokens with
    | .str raw :: .mark ':' :: rest =>
      (unescape raw).bind fun key =>
        (parseValue fuel depth rest).bind fun (value, rest) =>
          match rest with
          | .mark ',' :: rest =>
            parseMembers fuel depth (SortedMap.insert m (String.ofList key) value) rest
          | .mark '\x7d' :: rest =>
            some (.object (SortedMap.insert m (String.ofList key) value), rest)
          | _ => none
    | _ => none

def parseElements : Nat → Nat → List Value → List Token → Option (Value × List Token)
  | 0, _, _, _ => none
  | fuel + 1, depth, xs, tokens =>
    (parseValue fuel depth tokens).bind fun (value, rest) =>
      match rest with
      | .mark ',' :: rest => parseElements fuel depth (xs ++ [value]) rest
      | .mark ']' :: rest => some (.array (xs ++ [value]), rest)
      | _ => none

end

/-- One value with nothing behind it; the limit of the nesting is that of `serde_json`. -/
def readText (text : List Char) : Option Value :=
  (lex text).bind fun tokens =>
    (parseValue number (tokens.length + 1) 128 tokens).bind fun (value, rest) =>
      if rest.isEmpty then some value else none

end

/-- `serde_json::from_slice`: bytes that are no UTF-8 or no JSON text are refused, and decimal
integers of 32 bits are numbers. -/
structure ReadsJson (number : List Char → Option Number)
    (fromSlice : List UInt8 → Option Value) : Prop where
  read : ∀ bytes, fromSlice bytes = (Utf8.decode bytes).bind (readText number)
  int : ∀ n : Int32, number (toString n).toList =
    some (if 0 ≤ n then .posInt n.toInt64.toUInt64 else .negInt n.toInt64)

/-- A reader of integers that fit 63 bits. -/
def readInteger : List Char → Option Number
  | '-' :: digits => do
    let n ← readDigits digits
    guard (0 < n ∧ n < 2 ^ 63)
    return .negInt (Int64.ofInt (-n))
  | digits => do
    let n ← readDigits digits
    guard (digits ≠ [] ∧ n < 2 ^ 63)
    return .posInt (Int64.ofNat n).toUInt64

theorem readDigits_repr (n : Nat) : readDigits n.repr.toList = some n := by
  rw [Nat.toList_repr]
  exact readDigits_toDigits 0 n

/-- Integers below 2^63 are read as they are printed. -/
theorem readInteger_repr {n : Nat} (h : n < 2 ^ 63) :
    readInteger n.repr.toList = some (.posInt (Int64.ofNat n).toUInt64) := by
  have hdigits := readDigits_repr n
  have hne : n.repr.toList ≠ [] := by
    rw [Nat.toList_repr]
    exact Nat.toDigits_ne_nil
  unfold readInteger
  split
  · rename_i digits hsign
    rw [hsign, readDigits, if_neg (by simp [Char.isDigit])] at hdigits
    cases hdigits
  · have hguard : (guard (n.repr.toList ≠ [] ∧ n < 2 ^ 63) : Option Unit) = some () :=
      if_pos ⟨hne, h⟩
    simp only [hdigits, Option.bind_eq_bind, Option.bind_some, hguard, Option.pure_def]

theorem readInteger_sign {n : Nat} (hpos : 0 < n) (h : n < 2 ^ 63) :
    readInteger ('-' :: n.repr.toList) = some (.negInt (Int64.ofInt (-n))) := by
  have hguard : (guard (0 < n ∧ n < 2 ^ 63) : Option Unit) = some () := if_pos ⟨hpos, h⟩
  simp only [readInteger, readDigits_repr, Option.bind_eq_bind, Option.bind_some, hguard,
    Option.pure_def]

/-- The reader that knows no other numbers. -/
theorem readsJson_integers : ReadsJson readInteger fun bytes =>
    (Utf8.decode bytes).bind (readText readInteger) where
  read := fun _ => rfl
  int := by
    intro n
    have htext : toString n = n.toInt.repr := rfl
    have hlow := n.le_toInt
    have hhigh := n.toInt_lt
    have hsign : (0 ≤ n) = (0 ≤ n.toInt) := by
      rw [Int32.le_iff_toInt_le]
      rfl
    rw [htext, Int.repr_eq_if]
    simp only [hsign]
    split_ifs with hn
    · have hvalue : Int64.ofNat n.toInt.toNat = n.toInt64 := by
        rw [← Int64.toInt_inj, Int64.toInt_ofNat_of_lt (by omega), Int32.toInt_toInt64]
        omega
      rw [readInteger_repr (by omega), hvalue]
    · have hvalue : Int64.ofInt (-((-n.toInt).toNat : Int)) = n.toInt64 := by
        rw [← Int64.toInt_inj, Int64.toInt_ofInt_of_le (by omega) (by omega), Int32.toInt_toInt64]
        omega
      have hminus : "-".toList = ['-'] := rfl
      rw [String.toList_append, hminus, List.singleton_append,
        readInteger_sign (by omega) (by omega), hvalue]

example : (readText (fun _ => none) "\x7b\"a\": [null, \"x\\u00e9\"], \"a\": true\x7d".toList).map
    Value.render = some "\x7b\"a\":true\x7d" := by decide +kernel

/-! ## Tokens of a text -/

theorem LexState.run_append (st : LexState) (s t : List Char) :
    st.run (s ++ t) = (((st.run s).1.run t).1, (st.run s).2 ++ ((st.run s).1.run t).2) := by
  induction s generalizing st with
  | nil => rfl
  | cons c s ih => simp only [List.cons_append, LexState.run, ih, List.append_assoc]

def IsLiteral (raw : List Char) : Prop :=
  ∀ front, (LexState.inside front).run raw = (.inside (front ++ raw), [])

theorem isLiteral_nil : IsLiteral [] := fun front => by simp [LexState.run]

theorem IsLiteral.append {s t : List Char} (hs : IsLiteral s) (ht : IsLiteral t) :
    IsLiteral (s ++ t) := by
  intro front
  rw [LexState.run_append, hs, ht]
  simp

theorem isLiteral_singleton {c : Char} (hquote : c ≠ '"') (hslash : c ≠ '\\') :
    IsLiteral [c] := by
  intro front
  simp [LexState.run, LexState.step, hquote, hslash]

theorem isLiteral_escape (c : Char) : IsLiteral ['\\', c] := by
  intro front
  simp [LexState.run, LexState.step]

/-- A text of these tokens, where a mark follows it. -/
def Lexes (text : List Char) (tokens : List Token) : Prop :=
  ∀ c rest, isMark c = true → LexState.outside.run (text ++ c :: rest) =
    ((LexState.outside.run (c :: rest)).1, tokens ++ (LexState.outside.run (c :: rest)).2)

theorem step_mark {c : Char} (h : isMark c = true) :
    LexState.outside.step c = (.outside, [.mark c]) := by
  have hquote : c ≠ '"' := by
    rintro rfl
    revert h
    decide
  simp [LexState.step, lexOutside, h, hquote]

theorem lexes_literal {raw : List Char} (h : IsLiteral raw) :
    Lexes ('"' :: (raw ++ ['"'])) [.str raw] := by
  intro c rest hc
  have hopen : LexState.outside.step '"' = (.inside [], []) := rfl
  have hclose : (LexState.inside raw).step '"' = (.outside, [.str raw]) := by
    simp [LexState.step]
  rw [List.cons_append, LexState.run, hopen, List.append_assoc, List.singleton_append,
    LexState.run_append, h, List.nil_append, LexState.run, hclose]
  rfl

theorem run_word (w : List Char) {v : List Char} (h : v.all isWordChar = true) :
    (LexState.word w).run v = (.word (w ++ v), []) := by
  induction v generalizing w with
  | nil => simp [LexState.run]
  | cons c v ih =>
    rw [List.all_cons, Bool.and_eq_true] at h
    rw [LexState.run, LexState.step, if_pos h.1, ih _ h.2]
    simp

theorem lexes_word {w : List Char} (h : w.all isWordChar = true) (hne : w ≠ []) :
    Lexes w [.word w] := by
  obtain ⟨d, v, rfl⟩ := List.exists_cons_of_ne_nil hne
  rw [List.all_cons, Bool.and_eq_true] at h
  intro c rest hc
  have hfirst : LexState.outside.step d = (.word [d], []) := by
    have hd := h.1
    simp only [isWordChar, Bool.and_eq_true, Bool.not_eq_true', bne_iff_ne, ne_eq] at hd
    simp [LexState.step, lexOutside, hd]
  have hlast : (LexState.word (d :: v)).step c =
      ((LexState.outside.step c).1, .word (d :: v) :: (LexState.outside.step c).2) := by
    have hnot : isWordChar c = false := by simp [isWordChar, hc]
    simp [LexState.step, hnot]
  rw [List.cons_append, LexState.run, hfirst, LexState.run_append, run_word _ h.2, LexState.run,
    List.singleton_append, hlast, LexState.run]
  rfl

theorem lexes_nil : Lexes [] [] := fun _ _ _ => rfl

theorem Lexes.append_mark {s t : List Char} {a b : List Token} (hs : Lexes s a) (ht : Lexes t b)
    {c : Char} (hc : isMark c = true) : Lexes (s ++ c :: t) (a ++ .mark c :: b) := by
  intro d rest hd
  rw [List.append_assoc, List.cons_append, hs c _ hc, LexState.run, step_mark hc, ht d rest hd]
  simp

/-! ## Values of a text -/

theorem isLiteral_of_plain {s : List Char} (h : s.all isPlainChar = true) : IsLiteral s := by
  induction s with
  | nil => exact isLiteral_nil
  | cons c s ih =>
    rw [List.all_cons, Bool.and_eq_true] at h
    have hc : c ≠ '"' ∧ c ≠ '\\' := by
      have hplain := h.1
      simp only [isPlainChar, Bool.and_eq_true, bne_iff_ne, ne_eq] at hplain
      exact hplain.1
    exact (isLiteral_singleton hc.1 hc.2).append (ih h.2)

theorem units_cons_plain {c : Char} (h : isPlainChar c = true) (s : List Char) :
    units (c :: s) = (units s).map (c.toNat :: ·) := by
  have hc : c ≠ '\\' := by
    rintro rfl
    revert h
    decide
  rw [units.eq_def]
  split <;> simp_all

theorem toNat_not_surrogate (c : Char) :
    isLeading c.toNat = false ∧ isTrailing c.toNat = false := by
  have hvalid : c.toNat < 0xD800 ∨ 0xDFFF < c.toNat ∧ c.toNat < 0x110000 := c.valid
  simp only [isLeading, isTrailing, Bool.and_eq_false_iff, decide_eq_false_iff_not]
  omega

theorem joinPairs_map_toNat (s : List Char) : joinPairs (s.map Char.toNat) = some s := by
  induction s with
  | nil => rfl
  | cons c s ih =>
    have hc := toNat_not_surrogate c
    cases s with
    | nil => simp [joinPairs, hc, Char.ofNat_toNat]
    | cons d s =>
      rw [List.map_cons, List.map_cons, joinPairs, if_neg (by simp [hc]), if_neg (by simp [hc]),
        ← List.map_cons, ih]
      simp [Char.ofNat_toNat]

theorem hex4_digitChar : ∀ n : Fin 32,
    hex4 '0' '0' (Nat.digitChar (n / 16)) (Nat.digitChar (n % 16)) = some n.val := by
  decide

theorem digitChar_ne : ∀ n : Fin 16, Nat.digitChar n ≠ '"' ∧ Nat.digitChar n ≠ '\\' := by
  decide

/-- How a control character is escaped that has no letter of its own. -/
def escapeControl (n : Nat) : List Char :=
  ['\\', 'u', '0', '0', Nat.digitChar (n / 16), Nat.digitChar (n % 16)]

theorem units_escapeControl {n : Nat} (h : n < 32) (s : List Char) :
    units (escapeControl n ++ s) = (units s).map (n :: ·) := by
  have hhex := hex4_digitChar ⟨n, h⟩
  simp only at hhex
  simp only [escapeControl, List.cons_append, List.nil_append, units, hhex, Option.bind_some]

theorem isLiteral_escapeControl {n : Nat} (h : n < 32) : IsLiteral (escapeControl n) := by
  have hhigh := digitChar_ne ⟨n / 16, by omega⟩
  have hlow := digitChar_ne ⟨n % 16, Nat.mod_lt _ (by decide)⟩
  have hzero : IsLiteral ['0'] := isLiteral_singleton (by decide) (by decide)
  exact (isLiteral_escape 'u').append (hzero.append (hzero.append
    ((isLiteral_singleton hhigh.1 hhigh.2).append (isLiteral_singleton hlow.1 hlow.2))))

/-- Literals whose escapes spell their characters one by one. -/
theorem unescape_flatMap {escape : Char → List Char}
    (h : ∀ c s, units (escape c ++ s) = (units s).map (c.toNat :: ·)) (s : List Char) :
    unescape (s.flatMap escape) = some s := by
  have hunits : units (s.flatMap escape) = some (s.map Char.toNat) := by
    induction s with
    | nil => rfl
    | cons c s ih =>
      rw [List.flatMap_cons, h, ih]
      rfl
  rw [unescape, hunits, Option.bind_some, joinPairs_map_toNat]

theorem isLiteral_flatMap {escape : Char → List Char} (h : ∀ c, IsLiteral (escape c))
    (s : List Char) : IsLiteral (s.flatMap escape) := by
  induction s with
  | nil => exact isLiteral_nil
  | cons c s ih => exact (h c).append ih

theorem unescape_plain {s : List Char} (h : s.all isPlainChar = true) : unescape s = some s := by
  have hunits : units s = some (s.map Char.toNat) := by
    induction s with
    | nil => rfl
    | cons c s ih =>
      rw [List.all_cons, Bool.and_eq_true] at h
      rw [units_cons_plain h.1, ih h.2]
      rfl
  rw [unescape, hunits, Option.bind_some, joinPairs_map_toNat]

section

variable (number : List Char → Option Number)

/-- The text of a value that is nested so deep. -/
def Denotes (nesting : Nat) (text : List Char) (value : Value) : Prop :=
  ∃ tokens, Lexes text tokens ∧ ∀ fuel depth rest, tokens.length ≤ fuel → nesting < depth →
    parseValue number fuel depth (tokens ++ rest) = some (value, rest)

theorem Denotes.mono {nesting deeper : Nat} {text : List Char} {value : Value}
    (h : Denotes number nesting text value) (hle : nesting ≤ deeper) :
    Denotes number deeper text value := by
  obtain ⟨tokens, hlex, hparse⟩ := h
  exact ⟨tokens, hlex, fun fuel depth rest hfuel hdepth =>
    hparse fuel depth rest hfuel (Nat.lt_of_le_of_lt hle hdepth)⟩

theorem denotes_literal {raw s : List Char} (h : IsLiteral raw) (hs : unescape raw = some s) :
    Denotes number 0 ('"' :: (raw ++ ['"'])) (.string (String.ofList s)) := by
  refine ⟨[.str raw], lexes_literal h, fun fuel depth rest hfuel _ => ?_⟩
  obtain ⟨n, rfl⟩ : ∃ n, fuel = n + 1 := ⟨fuel - 1, by simp at hfuel; omega⟩
  simp [parseValue, hs]

theorem denotes_word {w : List Char} (h : w.all isWordChar = true) (hne : w ≠ []) {value : Value}
    (hvalue : readWord number w = some value) : Denotes number 0 w value := by
  refine ⟨[.word w], lexes_word h hne, fun fuel depth rest hfuel _ => ?_⟩
  obtain ⟨n, rfl⟩ : ∃ n, fuel = n + 1 := ⟨fuel - 1, by simp at hfuel; omega⟩
  simp [parseValue, hvalue]

/-- A member as it is printed: its name, the text of its value. -/
structure Member where
  key : List Char
  text : List Char

def Member.print (m : Member) : List Char := '"' :: (m.key ++ '"' :: ':' :: m.text)

def printMembers : List Member → List Char
  | [] => []
  | [m] => m.print
  | m :: ms => m.print ++ ',' :: printMembers ms

def printObject (ms : List Member) : List Char := '\x7b' :: (printMembers ms ++ ['\x7d'])

/-- The members read from the printed ones: their names are plain, their texts denote values. -/
structure MemberDenotes (nesting : Nat) (m : Member) (p : String × Value) : Prop where
  plain : m.key.all isPlainChar = true
  name : p.1 = String.ofList m.key
  value : Denotes number nesting m.text p.2

/-- The same for names with escapes. -/
structure MemberReads (nesting : Nat) (m : Member) (p : String × Value) : Prop where
  literal : IsLiteral m.key
  name : unescape m.key = some p.1.toList
  value : Denotes number nesting m.text p.2

variable {number}

theorem MemberDenotes.reads {nesting : Nat} {m : Member} {p : String × Value}
    (h : MemberDenotes number nesting m p) : MemberReads number nesting m p where
  literal := isLiteral_of_plain h.plain
  name := by rw [unescape_plain h.plain, h.name, String.toList_ofList]
  value := h.value

/-- The tokens of printed members, and what the members become. -/
theorem exists_tokens_members {nesting : Nat} {ms : List Member} {ps : List (String × Value)}
    (h : List.Forall₂ (MemberReads number nesting) ms ps) (hne : ms ≠ []) :
    ∃ raw tokens, Lexes (printMembers ms) (.str raw :: tokens) ∧
      ∀ fuel depth m rest, tokens.length < fuel → nesting < depth →
        parseMembers number fuel depth m (.str raw :: (tokens ++ .mark '\x7d' :: rest)) =
          some (.object (ps.foldl (fun m p => SortedMap.insert m p.1 p.2) m), rest) := by
  induction h with
  | nil => exact absurd rfl hne
  | @cons m p ms ps hm hms ih =>
    obtain ⟨key, value⟩ := p
    obtain ⟨hliteral, hname, tokens, hlex, hparse⟩ := hm
    have hcolon : isMark ':' = true := by decide
    have hcomma : isMark ',' = true := by decide
    have hprint : m.print = '"' :: (m.key ++ ['"']) ++ ':' :: m.text := by simp [Member.print]
    have hmember : Lexes m.print (.str m.key :: .mark ':' :: tokens) := by
      rw [hprint]
      exact (lexes_literal hliteral).append_mark hlex hcolon
    cases hms with
    | nil =>
      refine ⟨m.key, _, hmember, fun fuel depth m' rest hfuel hdepth => ?_⟩
      simp only [List.length_cons] at hfuel
      obtain ⟨n, rfl⟩ : ∃ n, fuel = n + 1 := ⟨fuel - 1, by omega⟩
      rw [List.cons_append, parseMembers]
      simp only [hname, Option.bind_some, String.ofList_toList,
        hparse n depth (.mark '\x7d' :: rest) (by omega) hdepth]
      rfl
    | @cons m₂ p₂ ms ps hm₂ hms =>
      obtain ⟨raw, others, hothers, hread⟩ := ih (List.cons_ne_nil _ _)
      refine ⟨m.key, .mark ':' :: tokens ++ .mark ',' :: .str raw :: others, ?_, ?_⟩
      · exact hmember.append_mark hothers hcomma
      · intro fuel depth m' rest hfuel hdepth
        simp only [List.length_cons, List.length_append, List.cons_append] at hfuel
        obtain ⟨n, rfl⟩ : ∃ n, fuel = n + 1 := ⟨fuel - 1, by omega⟩
        have hvalue := hparse n depth (.mark ',' :: .str raw :: (others ++ .mark '\x7d' :: rest))
          (by omega) hdepth
        simp only [List.cons_append, List.append_assoc]
        rw [parseMembers]
        simp only [hname, Option.bind_some, String.ofList_toList, hvalue]
        rw [hread n depth _ rest (by omega) hdepth]
        rfl

theorem parseValue_object {fuel depth : Nat} (hdepth : 1 < depth) (raw : List Char)
    (rest : List Token) :
    parseValue number (fuel + 1) depth (.mark '\x7b' :: .str raw :: rest) =
      parseMembers number fuel (depth - 1) [] (.str raw :: rest) := by
  simp [parseValue, Nat.not_le.mpr hdepth]

/-- A printed object denotes the map of its members. -/
theorem denotes_object {nesting : Nat} {ms : List Member} {ps : List (String × Value)}
    (h : List.Forall₂ (MemberReads number nesting) ms ps) (hne : ms ≠ []) :
    Denotes number (nesting + 1) (printObject ms) (.obj ps) := by
  obtain ⟨raw, tokens, hlex, hparse⟩ := exists_tokens_members h hne
  have hopen : isMark '\x7b' = true := by decide
  have hclose : isMark '\x7d' = true := by decide
  refine ⟨.mark '\x7b' :: (.str raw :: tokens ++ [.mark '\x7d']), ?_, ?_⟩
  · exact lexes_nil.append_mark (hlex.append_mark lexes_nil hclose) hopen
  · intro fuel depth rest hfuel hdepth
    simp only [List.length_cons, List.length_append, List.length_nil] at hfuel
    obtain ⟨n, rfl⟩ : ∃ n, fuel = n + 1 := ⟨fuel - 1, by omega⟩
    have hread := hparse n (depth - 1) [] rest (by omega) (by omega)
    rw [List.cons_append, List.cons_append, List.cons_append, List.append_assoc,
      parseValue_object (by omega), List.singleton_append, hread]
    rfl

/-- A word at the end of a text needs no mark behind it. -/
theorem Lexes.lex {text : List Char} {tokens : List Token} (h : Lexes text tokens) :
    lex text = some tokens := by
  have hcomma : isMark ',' = true := by decide
  have hrun := h ',' [] hcomma
  rw [LexState.run_append] at hrun
  obtain ⟨hstate, htokens⟩ := Prod.mk.inj hrun
  unfold Json.lex
  cases hst : (LexState.outside.run text).1 with
  | outside =>
    rw [hst] at htokens
    have hsame := List.append_cancel_right htokens
    simp [LexState.finish, hsame]
  | word w =>
    have hword : (LexState.word w).run [','] = (.outside, [.word w, .mark ',']) := rfl
    have hmark : LexState.outside.run [','] = (.outside, [.mark ',']) := rfl
    rw [hst, hword, hmark] at htokens
    have hsame : ((LexState.outside.run text).2 ++ [.word w]) ++ [.mark ','] =
        tokens ++ [.mark ','] := by simpa using htokens
    simp [LexState.finish, List.append_cancel_right hsame]
  | inside raw =>
    rw [hst] at hstate
    cases hstate
  | escaped raw =>
    rw [hst] at hstate
    cases hstate

theorem readText_of_denotes {nesting : Nat} {text : List Char} {value : Value}
    (h : Denotes number nesting text value) (hn : nesting < 128) :
    readText number text = some value := by
  obtain ⟨tokens, hlex, hparse⟩ := h
  have hread := hparse (tokens.length + 1) 128 [] (Nat.le_succ _) hn
  rw [List.append_nil] at hread
  simp [readText, hlex.lex, hread]

theorem readText_printObject {nesting : Nat} {ms : List Member} {ps : List (String × Value)}
    (h : List.Forall₂ (MemberDenotes number nesting) ms ps) (hne : ms ≠ []) (hn : nesting < 127) :
    readText number (printObject ms) = some (.obj ps) :=
  readText_of_denotes (denotes_object (h.imp fun _ _ hm => hm.reads) hne) (by omega)

end

end VibeAudit.Json
