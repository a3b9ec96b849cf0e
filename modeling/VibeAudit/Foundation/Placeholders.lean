import Mathlib.Data.List.TakeWhile

/-!
# Numbered placeholders of a text

A statement with parameters names them `$1`, `$2`, …, and its text is built by
appending pieces. `placeholders` reads the numbers back, piece by piece: a
piece that does not start with a digit leaves the number before it alone.
-/

namespace VibeAudit.Foundation

/-- The numbers `n` of the placeholders `$n` of a text, in the order they stand. -/
def placeholders : List Char → List Nat
  | [] => []
  | c :: s =>
    let digits := s.takeWhile Char.isDigit
    if c = '$' ∧ digits ≠ [] then Nat.ofDigitChars 10 digits 0 :: placeholders s
    else placeholders s

/-- A text that cannot prolong a number before it. -/
def EndsNumber (s : List Char) : Prop := ∀ c ∈ s.head?, c.isDigit = false

theorem endsNumber_nil : EndsNumber [] := by simp [EndsNumber]

theorem endsNumber_cons (c : Char) (s : List Char) : EndsNumber (c :: s) ↔ c.isDigit = false := by
  simp [EndsNumber]

theorem EndsNumber.append {s t : List Char} (hs : EndsNumber s) (ht : EndsNumber t) :
    EndsNumber (s ++ t) := by
  cases s with
  | nil => exact ht
  | cons c s => exact hs

theorem EndsNumber.takeWhile_append (s : List Char) {t : List Char} (ht : EndsNumber t) :
    (s ++ t).takeWhile Char.isDigit = s.takeWhile Char.isDigit := by
  induction s with
  | nil =>
    cases t with
    | nil => rfl
    | cons c t => simp [(endsNumber_cons c t).mp ht]
  | cons c s ih => rw [List.cons_append, List.takeWhile_cons, List.takeWhile_cons, ih]

/-- The placeholders of a text are those of its pieces. -/
theorem placeholders_append (s : List Char) {t : List Char} (ht : EndsNumber t) :
    placeholders (s ++ t) = placeholders s ++ placeholders t := by
  induction s with
  | nil => rfl
  | cons c s ih =>
    rw [List.cons_append, placeholders, placeholders, ht.takeWhile_append, ih]
    split_ifs <;> rfl

theorem placeholders_eq_nil {s : List Char} (h : '$' ∉ s) : placeholders s = [] := by
  induction s with
  | nil => rfl
  | cons c s ih =>
    obtain ⟨hc, hs⟩ := not_or.mp (mt List.mem_cons.mpr h)
    rw [placeholders, if_neg fun hdollar => hc hdollar.1.symm, ih hs]

theorem placeholders_number (n : Nat) : placeholders ('$' :: Nat.toDigits 10 n) = [n] := by
  have hdigit : ∀ c ∈ Nat.toDigits 10 n, c.isDigit = true :=
    fun c hc => Nat.isDigit_of_mem_toDigits (by decide) (by decide) hc
  have hdollar : '$' ∉ Nat.toDigits 10 n := fun hmem => absurd (hdigit _ hmem) (by decide)
  have hall : (Nat.toDigits 10 n).takeWhile Char.isDigit = Nat.toDigits 10 n :=
    List.takeWhile_eq_self_iff.mpr hdigit
  rw [placeholders, hall, if_pos ⟨rfl, Nat.toDigits_ne_nil⟩, placeholders_eq_nil hdollar,
    Nat.ofDigitChars_ten_toDigits]

theorem EndsNumber.intercalate {sep : List Char} (hsep : EndsNumber sep)
    {parts : List (List Char)} (h : ∀ part ∈ parts, EndsNumber part) :
    EndsNumber (sep.intercalate parts) := by
  induction parts with
  | nil => exact endsNumber_nil
  | cons part parts ih =>
    obtain ⟨hpart, hrest⟩ := List.forall_mem_cons.mp h
    by_cases hnil : parts = []
    · simpa [hnil] using hpart
    · rw [List.intercalate_cons_of_ne_nil hnil, List.append_assoc]
      exact hpart.append (hsep.append (ih hrest))

/-- A separator between the pieces adds no placeholder. -/
theorem placeholders_intercalate {sep : List Char} (hdollar : '$' ∉ sep) (hsep : EndsNumber sep)
    {parts : List (List Char)} (h : ∀ part ∈ parts, EndsNumber part) :
    placeholders (sep.intercalate parts) = parts.flatMap placeholders := by
  induction parts with
  | nil => rfl
  | cons part parts ih =>
    obtain ⟨hpart, hrest⟩ := List.forall_mem_cons.mp h
    have hend := hsep.intercalate hrest
    by_cases hnil : parts = []
    · simp [hnil]
    · rw [List.intercalate_cons_of_ne_nil hnil, List.append_assoc,
        placeholders_append part (hsep.append hend), placeholders_append sep hend,
        placeholders_eq_nil hdollar, ih hrest, List.flatMap_cons, List.nil_append]

/-- In a concatenation of pieces of one length, entry `j` of piece `i` has a fixed place. -/
theorem getElem?_flatMap_of_length {α β : Type*} {f : α → List β} {k : Nat}
    (hf : ∀ a, (f a).length = k) (l : List α) (i : Nat) {j : Nat} (hj : j < k) :
    (l.flatMap f)[k * i + j]? = (l[i]?).bind fun a => (f a)[j]? := by
  induction l generalizing i with
  | nil => simp
  | cons a l ih =>
    cases i with
    | zero => simp [List.getElem?_append_left, hf, hj]
    | succ i =>
      have hplace : k * (i + 1) + j = (f a).length + (k * i + j) := by
        rw [hf a, Nat.mul_succ]
        omega
      rw [List.flatMap_cons, hplace, List.getElem?_append_right (Nat.le_add_right _ _),
        Nat.add_sub_cancel_left, ih i, List.getElem?_cons_succ]

end VibeAudit.Foundation
