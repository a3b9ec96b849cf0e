import Mathlib.Data.List.ReduceOption
import VibeAudit.Forwarder.Writer
import VibeAudit.Foundation.Text
import VibeAudit.Hooks.Names

/-!
# The columns of the table

When a bound row fits the column types of `vibe_audit.events`. The input
functions of the types are PostgreSQL's own and are parameters, with what is
documented of them; the functions at the end accept plain texts only and stand
for them on such texts.
-/

namespace VibeAudit.Hooks

open Foundation Extension Forwarder
open Json (Value Number)

/-! ## The time of an event -/

/-- A clock before the year 10000 prints a time that is read as ISO 8601, to the millisecond. -/
theorem readIso_isoMillis_eq {tv : Timeval} (h : tv.sec < 253402300800) :
    readIso (isoMillis tv) =
      some (.finite ((tv.sec : Int) * 1000000 + (tv.usec / 1000 : Nat) * 1000)) := by
  have husec := tv.usec_lt
  obtain ⟨hfirst, hlast, hmonth, hday⟩ :=
    civilFromDays_bounds (show 0 ≤ (tv.sec : Int) / 86400 by omega) (by omega)
  have hdays := daysFromCivil_civilFromDays ((tv.sec : Int) / 86400)
  have hcivil := congrArg civilFromDays hdays
  generalize hdate : civilFromDays ((tv.sec : Int) / 86400) = date at *
  -- every part of the text has its own length
  have hyearText := readDigits_zeroPad 4 date.year.toNat
  have hmonthText := readDigits_zeroPad 2 date.month
  have hdayText := readDigits_zeroPad 2 date.day
  have hhourText := readDigits_zeroPad 2 (tv.sec % 86400 / 3600)
  have hminuteText := readDigits_zeroPad 2 (tv.sec % 86400 / 60 % 60)
  have hsecondText := readDigits_zeroPad 2 (tv.sec % 86400 % 60)
  have hmillisText := readDigits_zeroPad 3 (tv.usec / 1000)
  obtain ⟨y₁, y₂, y₃, y₄, hyear⟩ := List.length_eq_four.mp
    (length_zeroPad (by decide) (show date.year.toNat < 10 ^ 4 by omega))
  obtain ⟨m₁, m₂, hm⟩ := List.length_eq_two.mp
    (length_zeroPad (by decide) (show date.month < 10 ^ 2 by omega))
  obtain ⟨d₁, d₂, hd⟩ := List.length_eq_two.mp
    (length_zeroPad (by decide) (show date.day < 10 ^ 2 by omega))
  obtain ⟨h₁, h₂, hhour⟩ := List.length_eq_two.mp
    (length_zeroPad (by decide) (show tv.sec % 86400 / 3600 < 10 ^ 2 by omega))
  obtain ⟨i₁, i₂, hminute⟩ := List.length_eq_two.mp
    (length_zeroPad (by decide) (show tv.sec % 86400 / 60 % 60 < 10 ^ 2 by omega))
  obtain ⟨s₁, s₂, hsecond⟩ := List.length_eq_two.mp
    (length_zeroPad (by decide) (show tv.sec % 86400 % 60 < 10 ^ 2 by omega))
  obtain ⟨x₁, x₂, x₃, hmillis⟩ := List.length_eq_three.mp
    (length_zeroPad (by decide) (show tv.usec / 1000 < 10 ^ 3 by omega))
  rw [hyear] at hyearText
  rw [hm] at hmonthText
  rw [hd] at hdayText
  rw [hhour] at hhourText
  rw [hminute] at hminuteText
  rw [hsecond] at hsecondText
  rw [hmillis] at hmillisText
  have htext : (isoMillis tv).toList = [y₁, y₂, y₃, y₄, '-', m₁, m₂, '-', d₁, d₂, 'T', h₁, h₂, ':',
      i₁, i₂, ':', s₁, s₂, '.', x₁, x₂, x₃, 'Z'] := by
    simp only [isoMillis, String.toList_append, hdate, hyear, hm, hd, hhour, hminute, hsecond,
      hmillis]
    rfl
  have hround : (date.year.toNat : Int) = date.year := by omega
  have hguard : ∀ {p : Prop} [Decidable p] (f : Unit → Option Timestamptz), p →
      ((guard p : Option Unit).bind f) = f () := by
    intro p _ f hp
    rw [guard, if_pos hp]
    rfl
  unfold readIso
  simp -implicitDefEqProofs only [htext, List.drop_succ_cons, List.drop_zero, List.take_succ_cons,
    List.take_zero, hyearText, hmonthText, hdayText, hhourText, hminuteText, hsecondText,
    hmillisText, hround, Option.bind_eq_bind, Option.bind_some]
  rw [hguard, if_neg, hguard, hguard, hguard]
  · rw [hdays, Option.pure_def, Option.some.injEq, Timestamptz.finite.injEq]
    push_cast
    omega
  · exact ⟨by omega, by omega, by omega⟩
  · exact ⟨hfirst, hcivil⟩
  · exact ⟨rfl, trivial⟩
  · simp
  · rfl

theorem readIso_isoMillis {tv : Timeval} (h : tv.sec < 253402300800) :
    (readIso (isoMillis tv)).isSome = true := by
  rw [readIso_isoMillis_eq h]
  rfl

/-- The database renders the time that was read as it was printed. -/
theorem toChar_isoMillis {tv : Timeval} (h : tv.sec < 253402300800) :
    toChar (.finite ((tv.sec : Int) * 1000000 + (tv.usec / 1000 : Nat) * 1000)) =
      some (isoMillis tv) := by
  have husec := tv.usec_lt
  have hfirst := (civilFromDays_bounds (show 0 ≤ (tv.sec : Int) / 86400 by omega) (by omega)).1
  have hdays : ((tv.sec : Int) * 1000000 + (tv.usec / 1000 : Nat) * 1000) / 86400000000 =
      (tv.sec : Int) / 86400 := by omega
  have htime : (((tv.sec : Int) * 1000000 + (tv.usec / 1000 : Nat) * 1000) % 86400000000).toNat =
      tv.sec % 86400 * 1000000 + tv.usec / 1000 * 1000 := by omega
  have hhour : (tv.sec % 86400 * 1000000 + tv.usec / 1000 * 1000) / 3600000000 =
      tv.sec % 86400 / 3600 := by omega
  have hminute : (tv.sec % 86400 * 1000000 + tv.usec / 1000 * 1000) / 60000000 =
      tv.sec % 86400 / 60 := by omega
  have hsecond : (tv.sec % 86400 * 1000000 + tv.usec / 1000 * 1000) / 1000000 =
      tv.sec % 86400 := by omega
  have hmillis : (tv.sec % 86400 * 1000000 + tv.usec / 1000 * 1000) / 1000 % 1000 =
      tv.usec / 1000 := by omega
  have hyear : ¬ (civilFromDays ((tv.sec : Int) / 86400)).year ≤ 0 := by omega
  simp only [toChar, isoMillis, hdays, htime, hhour, hminute, hsecond, hmillis, if_neg hyear]

theorem timeText_eq {tv : Timeval} (h : tv.sec < 253402300800) : timeText tv = isoMillis tv := by
  have husec := tv.usec_lt
  obtain ⟨hfirst, hlast, hmonth, hday⟩ :=
    civilFromDays_bounds (show 0 ≤ (tv.sec : Int) / 86400 by omega) (by omega)
  have hlength : (isoMillis tv).toList.length ≤ 63 := by
    simp only [isoMillis, String.toList_append, List.length_append]
    rw [length_zeroPad (by decide) (by omega), length_zeroPad (by decide) hmonth,
      length_zeroPad (by decide) hday, length_zeroPad (by decide) (by omega),
      length_zeroPad (by decide) (by omega), length_zeroPad (by decide) (by omega),
      length_zeroPad (by decide) (by omega)]
    decide
  rw [timeText, List.take_of_length_le hlength, String.ofList_toList]

/-! ## The columns -/

/-- PostgreSQL's input functions for the types of the columns. -/
structure ColumnInputs where
  timestamptz : TimestamptzInput
  inet : String → Bool
  jsonb : String → Bool

/-- Text is stored without NUL characters only. -/
def noNul (s : String) : Bool := s.toList.all (· != '\x00')

def texts (row : BoundRow) : List String :=
  row.eventType :: [row.sessionUser, row.database, row.application, row.commandTag,
    row.objectType, row.objectName, row.schemaName, row.queryText, row.sqlstate].reduceOption ++
      [row.prevHash, row.eventHash].reduceOption

/-- The row fits the types of its columns. The columns that are NOT NULL are never null in a bound
row. -/
def ColumnInputs.accepts (inputs : ColumnInputs) (row : BoundRow) : Bool :=
  (texts row).all noNul && (inputs.timestamptz.read row.eventTime).isSome &&
    row.clientAddr.all inputs.inet && row.detail.all inputs.jsonb

/-! ## What is documented of the input functions -/

def isDigits (cs : List Char) : Bool := !cs.isEmpty && cs.all Char.isDigit

def unsigned (cs : List Char) : List Char := if cs.head? = some '-' then cs.tail else cs

def exponentDigits : List Char → List Char
  | '-' :: cs | '+' :: cs => cs
  | cs => cs

/-- Digits without a leading zero, and a fraction. -/
def isMantissa (cs : List Char) : Bool :=
  let (int, fraction) := (Text.cutAt '.' cs).getD (cs, ['0'])
  isDigits int && (int.length == 1 || int.head? != some '0') && isDigits fraction

/-- The text of a number, as `serde_json` prints it. -/
def isDecimal : Number → Bool
  | .float text =>
    let (mantissa, exponent) := (Text.cutAt 'e' (unsigned text.toList)).getD
      (unsigned text.toList, ['0'])
    isMantissa mantissa && isDigits (exponentDigits exponent)
  | _ => true

example : isDecimal (.float "-1.5e-7") = true ∧ isDecimal (.float "1e+16") = true := by decide

/-- ISO 8601 times in UTC are read, the empty string is no address, and JSON is stored unless it
has a NUL in a string. Sizes are not considered. -/
structure ColumnInputs.Documented (inputs : ColumnInputs) : Prop where
  iso : ∀ text, (readIso text).isSome = true → (inputs.timestamptz.read text).isSome = true
  inet_empty : inputs.inet "" = false
  jsonb : ∀ v : Value, v.every isDecimal (fun _ => true) = true →
    inputs.jsonb v.render = v.every (fun _ => true) noNul

/-! ## Inputs for plain texts -/

def isInet4 (text : String) : Bool :=
  let octets := text.toList.splitOn '.'
  octets.length == 4 &&
    octets.all fun octet => !octet.isEmpty && (readDigits octet).any (· < 256)

/-- Whether a JSON text spells a NUL, behind a backslash or not. -/
def spellsNul (escaped : Bool) : List Char → Bool
  | [] => false
  | c :: cs =>
    if escaped then (c :: cs).take 5 == ['u', '0', '0', '0', '0'] || spellsNul false cs
    else spellsNul (c == '\\') cs

def plainInputs : ColumnInputs where
  timestamptz := isoInput
  inet := isInet4
  jsonb text := !spellsNul false text.toList

/-- A text that spells a NUL or not, whatever follows it. -/
def Spells (nul : Bool) (cs : List Char) : Prop :=
  ∀ rest, spellsNul false (cs ++ rest) = (nul || spellsNul false rest)

theorem Spells.append {a b : Bool} {xs ys : List Char} (hx : Spells a xs) (hy : Spells b ys) :
    Spells (a || b) (xs ++ ys) := by
  intro rest
  rw [List.append_assoc, hx, hy, Bool.or_assoc]

theorem spells_nil : Spells false [] := fun _ => rfl

theorem spells_plain {cs : List Char} (h : '\\' ∉ cs) : Spells false cs := by
  induction cs with
  | nil => exact spells_nil
  | cons c cs ih =>
    rw [List.mem_cons, not_or] at h
    obtain ⟨hc, hcs⟩ := h
    intro rest
    have hplain : (c == '\\') = false := by simpa using Ne.symm hc
    rw [List.cons_append, spellsNul, if_neg (by decide), hplain]
    exact ih hcs rest

theorem spells_escape {c : Char} (h : c ≠ 'u') : Spells false ['\\', c] := by
  intro rest
  simp [spellsNul, h]

theorem spells_control {c : Char} (h : c.toNat < 32) :
    Spells (c == '\x00') ['\\', 'u', '0', '0', Nat.digitChar (c.toNat / 16),
      Nat.digitChar (c.toNat % 16)] := by
  have hplain : ∀ n < 16, Nat.digitChar n ≠ '\\' := by decide
  have htail : Spells false ['0', '0', Nat.digitChar (c.toNat / 16),
      Nat.digitChar (c.toNat % 16)] := by
    apply spells_plain
    have hhigh := hplain (c.toNat / 16) (by omega)
    have hlow := hplain (c.toNat % 16) (by omega)
    simp [Ne.symm hhigh, Ne.symm hlow]
  have hnul : (c == '\x00') = (c.toNat / 16 == 0 && c.toNat % 16 == 0) := by
    rw [Bool.eq_iff_iff, beq_iff_eq, Bool.and_eq_true, beq_iff_eq, beq_iff_eq, ← Char.toNat_inj]
    change c.toNat = 0 ↔ _
    omega
  have hstep : ∀ cs, spellsNul false ('\\' :: 'u' :: cs) =
      (cs.take 4 == ['0', '0', '0', '0'] || spellsNul false cs) := by
    intro cs
    simp [spellsNul]
  have hdigit : ∀ n, (Nat.digitChar n == '0') = (n == 0) := by
    intro n
    rw [Bool.eq_iff_iff, beq_iff_eq, beq_iff_eq, Nat.digitChar_eq_zero]
  intro rest
  rw [List.cons_append, List.cons_append, hstep, htail rest, hnul, ← hdigit, ← hdigit]
  simp

theorem spells_escapeChar (c : Char) : Spells (c == '\x00') (Json.Value.escapeChar c) := by
  unfold Json.Value.escapeChar
  split
  · exact spells_escape (by decide)
  · exact spells_escape (by decide)
  · exact spells_escape (by decide)
  · exact spells_escape (by decide)
  · exact spells_escape (by decide)
  · split_ifs with hback hfeed hcontrol
    · subst hback
      exact spells_escape (by decide)
    · subst hfeed
      exact spells_escape (by decide)
    · exact spells_control hcontrol
    · rename_i hslash _ _ _
      have hnul : (c == '\x00') = false := by
        rw [beq_eq_false_iff_ne]
        rintro rfl
        exact hcontrol (by decide)
      rw [hnul]
      exact spells_plain (by simpa using Ne.symm hslash)

/-- A printed string spells a NUL if it has one. -/
theorem spells_quote (s : String) : Spells (!noNul s) (Json.Value.quote s).toList := by
  have hbody : ∀ cs : List Char,
      Spells (!cs.all (· != '\x00')) (cs.flatMap Json.Value.escapeChar) := by
    intro cs
    induction cs with
    | nil => exact spells_nil
    | cons c cs ih =>
      have happ := (spells_escapeChar c).append ih
      rw [List.flatMap_cons, List.all_cons, Bool.not_and]
      simpa [bne] using happ
  have hmark : Spells false "\"".toList := spells_plain (by decide)
  have hquoted := (hmark.append (hbody s.toList)).append hmark
  rw [Bool.false_or, Bool.or_false] at hquoted
  simpa [Json.Value.quote, noNul] using hquoted

theorem plain_digits {cs : List Char} (h : isDigits cs = true) : '\\' ∉ cs := by
  rw [isDigits, Bool.and_eq_true, List.all_eq_true] at h
  intro hmem
  exact absurd (h.2 _ hmem) (by decide)

theorem plain_unsigned {cs : List Char} (h : '\\' ∉ unsigned cs) : '\\' ∉ cs := by
  cases cs with
  | nil => simp
  | cons c cs =>
    by_cases hc : c = '-'
    · subst hc
      simpa [unsigned] using h
    · simpa [unsigned, hc] using h

theorem plain_exponent {cs : List Char} (h : '\\' ∉ exponentDigits cs) : '\\' ∉ cs := by
  unfold exponentDigits at h
  split at h
  · simpa using h
  · simpa using h
  · exact h

theorem plain_mantissa {cs : List Char} (h : isMantissa cs = true) : '\\' ∉ cs := by
  unfold isMantissa at h
  cases hcut : Text.cutAt '.' cs with
  | none =>
    rw [hcut] at h
    simp only [Option.getD_none, Bool.and_eq_true] at h
    exact plain_digits h.1.1
  | some parts =>
    obtain ⟨int, fraction⟩ := parts
    obtain ⟨rfl, -⟩ := Text.cutAt_eq_some hcut
    rw [hcut] at h
    simp only [Option.getD_some, Bool.and_eq_true] at h
    simp [plain_digits h.1.1, plain_digits h.2]

theorem plain_repr (n : Nat) : '\\' ∉ n.repr.toList := by
  rw [Nat.toList_repr]
  intro hmem
  exact absurd (Nat.isDigit_of_mem_toDigits (by decide) (by decide) hmem) (by decide)

/-- A printed number has no backslash. -/
theorem plain_number {n : Number} (h : isDecimal n = true) : '\\' ∉ n.text.toList := by
  cases n with
  | posInt n => exact plain_repr n.toNat
  | negInt n =>
    have htext : (Number.negInt n).text = toString n.toInt := rfl
    rw [htext]
    cases n.toInt with
    | ofNat n => exact plain_repr n
    | negSucc n =>
      have hsign : (toString (Int.negSucc n)).toList = '-' :: (n + 1).repr.toList := by
        rw [← List.singleton_append]
        exact String.toList_append
      rw [hsign]
      simpa using plain_repr (n + 1)
  | float text =>
    simp only [isDecimal] at h
    have hplain : '\\' ∉ unsigned text.toList := by
      cases hcut : Text.cutAt 'e' (unsigned text.toList) with
      | none =>
        rw [hcut] at h
        simp only [Option.getD_none, Bool.and_eq_true] at h
        exact plain_mantissa h.1
      | some parts =>
        obtain ⟨mantissa, exponent⟩ := parts
        obtain ⟨hsplit, -⟩ := Text.cutAt_eq_some hcut
        rw [hcut] at h
        simp only [Option.getD_some, Bool.and_eq_true] at h
        rw [hsplit]
        simp [plain_mantissa h.1, plain_exponent (plain_digits h.2)]
    exact plain_unsigned hplain

theorem spells_bracketed {nul : Bool} {opening body closing : String}
    (h : Spells nul body.toList) (hopening : '\\' ∉ opening.toList)
    (hclosing : '\\' ∉ closing.toList) : Spells nul (opening ++ body ++ closing).toList := by
  have happ := ((spells_plain hopening).append h).append (spells_plain hclosing)
  simpa [String.toList_append] using happ

theorem spells_joined {a b : Bool} {front mark back : String} (hfront : Spells a front.toList)
    (hmark : '\\' ∉ mark.toList) (hback : Spells b back.toList) :
    Spells (a || b) (front ++ mark ++ back).toList := by
  have happ := (hfront.append (spells_plain hmark)).append hback
  simpa [String.toList_append] using happ

mutual

/-- A rendered document spells a NUL if one of its strings has one. -/
theorem spells_render : ∀ {v : Value}, v.every isDecimal (fun _ => true) = true →
    Spells (!v.every (fun _ => true) noNul) v.render.toList
  | .null, _ => spells_plain (by decide)
  | .bool true, _ => spells_plain (by decide)
  | .bool false, _ => spells_plain (by decide)
  | .number _, h => spells_plain (plain_number h)
  | .string s, _ => spells_quote s
  | .array _, h => spells_bracketed (spells_renderElements h) (by decide) (by decide)
  | .object _, h => spells_bracketed (spells_renderMembers h) (by decide) (by decide)

theorem spells_renderElements : ∀ {xs : List Value},
    Value.everyElement isDecimal (fun _ => true) xs = true →
      Spells (!Value.everyElement (fun _ => true) noNul xs) (Value.renderElements xs).toList
  | [], _ => spells_nil
  | [x], h => by
    have hx := spells_render (v := x) (by simpa [Value.everyElement] using h)
    simpa [Value.everyElement, Value.renderElements] using hx
  | x :: y :: xs, h => by
    rw [Value.everyElement, Bool.and_eq_true] at h
    rw [Value.everyElement, Bool.not_and, Value.renderElements]
    exact spells_joined (spells_render h.1) (by decide) (spells_renderElements h.2)
    simp

theorem spells_renderMembers : ∀ {m : List (String × Value)},
    Value.everyMember isDecimal (fun _ => true) m = true →
      Spells (!Value.everyMember (fun _ => true) noNul m) (Value.renderMembers m).toList
  | [], _ => spells_nil
  | [(k, x)], h => by
    have hx := spells_render (v := x) (by simpa [Value.everyMember] using h)
    have hkx : Spells (!noNul k || !x.every (fun _ => true) noNul)
        (Value.quote k ++ ":" ++ x.render).toList := spells_joined (spells_quote k) (by decide) hx
    simpa [Value.everyMember, Value.renderMembers] using hkx
  | (k, x) :: y :: m, h => by
    simp only [Value.everyMember.eq_2, Bool.and_eq_true] at h
    rw [Value.everyMember, Bool.not_and, Bool.not_and, Value.renderMembers]
    exact spells_joined (spells_joined (spells_quote k) (by decide) (spells_render h.1.2))
      (by decide) (spells_renderMembers (by simpa [Value.everyMember] using h.2))
    simp

end

theorem plainInputs_documented : plainInputs.Documented where
  iso _ h := h
  inet_empty := by decide
  jsonb v h := by
    have hspells := spells_render h []
    rw [List.append_nil] at hspells
    simp [plainInputs, hspells, spellsNul]

end VibeAudit.Hooks
