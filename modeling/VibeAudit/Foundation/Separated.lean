import Mathlib.Data.List.Induction

/-!
# Fields joined by a separator

Fields joined with `List.intercalate` and read back with `List.splitOn`. The
joined list determines a given number of fields exactly when none of them
contains the separator: a separator inside a field can be taken for one between
two fields.
-/

namespace VibeAudit.Foundation

variable {α : Type*} {sep : α}

section Splitting

variable [DecidableEq α]

/-- Splitting joined fields splits every field. -/
theorem splitOn_intercalate_eq_flatMap {fields : List (List α)} (hne : fields ≠ []) :
    ([sep].intercalate fields).splitOn sep = fields.flatMap (List.splitOn sep) := by
  induction fields with
  | nil => exact absurd rfl hne
  | cons f fs ih =>
    cases fs with
    | nil => simp
    | cons g gs =>
      have hrest := ih (List.cons_ne_nil g gs)
      rw [List.intercalate_cons_cons, List.append_assoc, List.singleton_append,
        List.splitOn_append_cons_self, hrest]
      rfl

theorem length_splitOn_pos (sep : α) (f : List α) : 0 < (f.splitOn sep).length :=
  List.length_pos_iff.mpr (List.splitOn_ne_nil sep f)

/-- A field is a single piece exactly when it has no separator. -/
theorem length_splitOn_eq_one_iff (f : List α) : (f.splitOn sep).length = 1 ↔ sep ∉ f := by
  constructor
  · intro hone hmem
    obtain ⟨xs, ys, rfl⟩ := List.append_of_mem hmem
    rw [List.splitOn_append_cons_self, List.length_append] at hone
    have hxs := length_splitOn_pos sep xs
    have hys := length_splitOn_pos sep ys
    omega
  · intro hmem
    rw [List.splitOn_eq_singleton hmem, List.length_singleton]

theorem length_le_length_flatMap_splitOn (sep : α) (fields : List (List α)) :
    fields.length ≤ (fields.flatMap (List.splitOn sep)).length := by
  induction fields with
  | nil => simp
  | cons f fs ih =>
    have hf := length_splitOn_pos sep f
    rw [List.flatMap_cons, List.length_append, List.length_cons]
    omega

/-- As many pieces as fields means that every field is one piece. -/
theorem not_mem_of_length_flatMap_splitOn {fields : List (List α)}
    (h : (fields.flatMap (List.splitOn sep)).length = fields.length) : ∀ f ∈ fields, sep ∉ f := by
  induction fields with
  | nil => simp
  | cons f fs ih =>
    have hf := length_splitOn_pos sep f
    have hfs := length_le_length_flatMap_splitOn sep fs
    rw [List.flatMap_cons, List.length_append, List.length_cons] at h
    rw [List.forall_mem_cons]
    exact ⟨(length_splitOn_eq_one_iff f).mp (by omega), ih (by omega)⟩

theorem flatMap_splitOn_eq_self {fields : List (List α)} (h : ∀ f ∈ fields, sep ∉ f) :
    fields.flatMap (List.splitOn sep) = fields := by
  induction fields with
  | nil => rfl
  | cons f fs ih =>
    rw [List.forall_mem_cons] at h
    rw [List.flatMap_cons, List.splitOn_eq_singleton h.1, ih h.2, List.singleton_append]

/-- Fields without the separator are the only ones of their number that join to the same. -/
theorem fields_eq_of_intercalate_eq {fields others : List (List α)}
    (hfree : ∀ f ∈ fields, sep ∉ f) (hlen : others.length = fields.length)
    (h : [sep].intercalate others = [sep].intercalate fields) : others = fields := by
  by_cases hne : fields = []
  · subst hne
    exact List.length_eq_zero_iff.mp hlen
  · have hne' : others ≠ [] := by
      rintro rfl
      exact hne (List.length_eq_zero_iff.mp hlen.symm)
    have hsplit := congrArg (List.splitOn sep) h
    rw [List.splitOn_intercalate sep hfree hne, splitOn_intercalate_eq_flatMap hne'] at hsplit
    have hpieces : (others.flatMap (List.splitOn sep)).length = others.length := by
      rw [hsplit, hlen]
    rw [← hsplit, flatMap_splitOn_eq_self (not_mem_of_length_flatMap_splitOn hpieces)]

end Splitting

/-! ## Moving a separator -/

/-- Only the joined text of two neighbours counts. -/
theorem intercalate_congr_pair (front back : List (List α)) {p q p' q' : List α}
    (h : p' ++ sep :: q' = p ++ sep :: q) :
    [sep].intercalate (front ++ p' :: q' :: back) =
      [sep].intercalate (front ++ p :: q :: back) := by
  induction front with
  | nil =>
    cases back with
    | nil => simpa [List.intercalate_cons_cons] using h
    | cons r back =>
      have hbase := congrArg (· ++ sep :: [sep].intercalate (r :: back)) h
      simpa [List.intercalate_cons_cons] using hbase
  | cons f front ih =>
    have hne : ∀ a b : List α, front ++ a :: b :: back ≠ [] := by simp
    rw [List.cons_append, List.cons_append, List.intercalate_cons_of_ne_nil (hne p' q'),
      List.intercalate_cons_of_ne_nil (hne p q), ih]

/-- A separator inside one of two neighbours can trade places with the one between them. -/
theorem exists_other_pair {p q : List α} (h : sep ∈ p ∨ sep ∈ q) :
    ∃ p' q', p' ++ sep :: q' = p ++ sep :: q ∧ p' ≠ p := by
  rcases h with h | h
  · obtain ⟨x, y, rfl⟩ := List.append_of_mem h
    exact ⟨x, y ++ sep :: q, by simp, by simp⟩
  · obtain ⟨x, y, rfl⟩ := List.append_of_mem h
    exact ⟨p ++ sep :: x, y, by simp, by simp⟩

theorem intercalate_append {xs ys : List (List α)} (hxs : xs ≠ []) (hys : ys ≠ []) :
    [sep].intercalate (xs ++ ys) = [sep].intercalate xs ++ sep :: [sep].intercalate ys := by
  induction xs with
  | nil => exact absurd rfl hxs
  | cons f xs ih =>
    cases xs with
    | nil => simp [List.intercalate_cons_of_ne_nil hys]
    | cons g xs =>
      have hne : g :: xs ++ ys ≠ [] := by simp
      rw [List.cons_append, List.intercalate_cons_of_ne_nil hne, ih (List.cons_ne_nil g xs),
        List.intercalate_cons_cons]
      simp

/-- A field of at least two stands next to another one. -/
theorem exists_neighbours {fields : List (List α)} (hlen : 2 ≤ fields.length) {f : List α}
    (hf : f ∈ fields) :
    ∃ front p q back, fields = front ++ p :: q :: back ∧ (f = p ∨ f = q) := by
  obtain ⟨xs, ys, rfl⟩ := List.append_of_mem hf
  cases ys with
  | cons g ys => exact ⟨xs, f, g, ys, rfl, .inl rfl⟩
  | nil =>
    cases xs using List.reverseRecOn with
    | nil => simp at hlen
    | append_singleton xs g => exact ⟨xs, g, f, [], by simp, .inr rfl⟩

/-- A joined list determines its fields, their number given, exactly when no field has the
separator in it. -/
theorem intercalate_determines_iff [DecidableEq α] {fields : List (List α)}
    (hlen : 2 ≤ fields.length) :
    (∀ others : List (List α), others.length = fields.length → others ≠ fields →
      [sep].intercalate others ≠ [sep].intercalate fields) ↔ ∀ f ∈ fields, sep ∉ f := by
  constructor
  · intro h f hf hmem
    obtain ⟨front, p, q, back, rfl, hpq⟩ := exists_neighbours hlen hf
    have hpair : sep ∈ p ∨ sep ∈ q := by
      rcases hpq with rfl | rfl
      · exact .inl hmem
      · exact .inr hmem
    obtain ⟨p', q', hsame, hne⟩ := exists_other_pair hpair
    refine h (front ++ p' :: q' :: back) (by simp) ?_ (intercalate_congr_pair front back hsame)
    intro heq
    exact hne (List.cons.inj (List.append_cancel_left heq)).1
  · intro hfree others hlen' hne heq
    exact hne (fields_eq_of_intercalate_eq hfree hlen' heq)

/-! ## Fields behind a recognisable one

Of some fields the second is known to be of a kind, and the first is arbitrary.
The joined list can be read in another way only where a later piece of the first
field is of that kind too, or where a field behind the second has a separator.
-/

section Marked

/-- Two lists with a mark each, equal as a whole: where the mark of one is in no later place of
the front of the other, and does not stand too far behind, they are equal part by part. -/
theorem parts_eq_of_mark {front front' back back' : List α} {t t' : α} (hfront : front' ≠ [])
    (hback : back.length ≤ back'.length) (hmark : t' ∉ front.tail)
    (h : front' ++ t' :: back' = front ++ t :: back) : front' = front ∧ t' = t ∧ back' = back := by
  rcases List.append_eq_append_iff.mp h with ⟨mid, rfl, hmid⟩ | ⟨mid, rfl, hmid⟩
  · cases mid with
    | nil =>
      obtain ⟨rfl, rfl⟩ := List.cons.inj hmid
      simp
    | cons a mid =>
      obtain ⟨rfl, -⟩ := List.cons.inj hmid
      obtain ⟨b, bs, rfl⟩ := List.exists_cons_of_ne_nil hfront
      simp at hmark
  · cases mid with
    | nil =>
      obtain ⟨rfl, rfl⟩ := List.cons.inj hmid
      simp
    | cons a mid =>
      have hcount := congrArg List.length hmid
      simp only [List.length_append, List.length_cons] at hcount
      omega

variable [DecidableEq α] {e e' t t' : List α} {fields others : List (List α)}

/-- A marked field divides a joined text in one way. -/
theorem marked_fields_eq (hfree : ∀ f ∈ fields, sep ∉ f) (hlen : others.length = fields.length)
    (ht : sep ∉ t) (ht' : sep ∉ t') (hmark : t' ∉ (e.splitOn sep).tail)
    (h : [sep].intercalate (e' :: t' :: others) = [sep].intercalate (e :: t :: fields)) :
    e' = e ∧ t' = t ∧ others = fields := by
  have hsplit := congrArg (List.splitOn sep) h
  have hfields := flatMap_splitOn_eq_self hfree
  rw [splitOn_intercalate_eq_flatMap (List.cons_ne_nil _ _),
    splitOn_intercalate_eq_flatMap (List.cons_ne_nil _ _), List.flatMap_cons, List.flatMap_cons,
    List.flatMap_cons, List.flatMap_cons, List.splitOn_eq_singleton ht,
    List.splitOn_eq_singleton ht', hfields, List.singleton_append, List.singleton_append] at hsplit
  have hcount := length_le_length_flatMap_splitOn sep others
  obtain ⟨hfirst, rfl, hrest⟩ := parts_eq_of_mark (List.splitOn_ne_nil sep e')
    (by omega) hmark hsplit
  have hpieces : (others.flatMap (List.splitOn sep)).length = others.length := by
    rw [hrest, hlen]
  have hothers := flatMap_splitOn_eq_self (not_mem_of_length_flatMap_splitOn hpieces)
  refine ⟨?_, rfl, hothers.symm.trans hrest⟩
  calc e' = [sep].intercalate (e'.splitOn sep) := (List.intercalate_splitOn sep).symm
    _ = [sep].intercalate (e.splitOn sep) := by rw [hfirst]
    _ = e := List.intercalate_splitOn sep

/-- A later piece of the first field can be taken for the second field. -/
theorem exists_other_marked {piece : List α} (h : piece ∈ (e.splitOn sep).tail)
    (t f : List α) (fields : List (List α)) :
    ∃ e' f', e' ≠ e ∧ [sep].intercalate (e' :: piece :: f' :: fields) =
      [sep].intercalate (e :: t :: f :: fields) := by
  obtain ⟨first, tail, htail⟩ := List.exists_cons_of_ne_nil (List.splitOn_ne_nil sep e)
  rw [htail, List.tail_cons] at h
  obtain ⟨xs, ys, rfl⟩ := List.append_of_mem h
  have he : e = [sep].intercalate (first :: xs) ++ sep :: [sep].intercalate (piece :: ys) := by
    rw [← intercalate_append (List.cons_ne_nil _ _) (List.cons_ne_nil _ _), List.cons_append,
      ← htail, List.intercalate_splitOn]
  refine ⟨[sep].intercalate (first :: xs), [sep].intercalate (ys ++ [t, f]), ?_, ?_⟩
  · rw [he]
    simp
  · have hmiddle : piece ++ sep :: [sep].intercalate (ys ++ [t, f]) =
        [sep].intercalate (piece :: ys) ++ sep :: (t ++ sep :: f) := by
      have hleft : [sep].intercalate ([piece] ++ (ys ++ [t, f])) =
          [sep].intercalate [piece] ++ sep :: [sep].intercalate (ys ++ [t, f]) :=
        intercalate_append (List.cons_ne_nil _ _) (by simp)
      have hright : [sep].intercalate (piece :: ys ++ [t, f]) =
          [sep].intercalate (piece :: ys) ++ sep :: [sep].intercalate [t, f] :=
        intercalate_append (List.cons_ne_nil _ _) (List.cons_ne_nil _ _)
      simpa [List.intercalate_cons_cons] using hleft.symm.trans hright
    rw [he]
    cases fields with
    | nil => simpa [List.intercalate_cons_cons] using hmiddle
    | cons g fields =>
      have hback := congrArg (· ++ sep :: [sep].intercalate (g :: fields)) hmiddle
      simpa [List.intercalate_cons_cons] using hback

end Marked

end VibeAudit.Foundation
