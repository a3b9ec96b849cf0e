import Mathlib.Data.List.DropRight
import Mathlib.Data.List.Forall2

/-!
# A bounded first-in first-out queue that sheds its oldest entry

`pushBounded cap` appends one entry and drops the front entry first when the
queue is full. Pushing a list one by one keeps exactly the last `cap` entries,
`List.rtake cap`, whatever point of the list the cap is hit at. Lists that are
related entry by entry are cut alike.
-/

namespace VibeAudit.Foundation

variable {α : Type*}

/-- Append `x`, dropping the oldest entry first when the queue is full. -/
def pushBounded (cap : Nat) (q : List α) (x : α) : List α :=
  if cap ≤ q.length then q.tail ++ [x] else q ++ [x]

def pushAll (cap : Nat) (q xs : List α) : List α := xs.foldl (pushBounded cap) q

theorem rdrop_append_rtake (n : Nat) (l : List α) : l.rdrop n ++ l.rtake n = l :=
  List.take_append_drop _ _

theorem rtake_eq_drop (n : Nat) (l : List α) : l.rtake n = l.drop (l.length - n) := rfl

@[simp] theorem rtake_of_length_le {n : Nat} {l : List α} (h : l.length ≤ n) :
    l.rtake n = l := by
  rw [rtake_eq_drop, Nat.sub_eq_zero_of_le h, List.drop_zero]

@[simp] theorem length_rtake (n : Nat) (l : List α) : (l.rtake n).length = min n l.length := by
  rw [rtake_eq_drop, List.length_drop]
  omega

/-- The newest `n` entries of a list forget its front exactly when the back has `n` entries. -/
theorem rtake_append_eq_iff {n : Nat} {xs ys : List α} (hn : ys ≠ []) :
    ys.rtake n = (xs ++ ys).rtake n ↔ xs = [] ∨ n ≤ ys.length := by
  constructor
  · intro h
    have hlen := congrArg List.length h
    simp only [length_rtake, List.length_append] at hlen
    have hys : 0 < ys.length := List.length_pos_iff.mpr hn
    by_cases hxs : xs = []
    · exact .inl hxs
    · have hxs' : 0 < xs.length := List.length_pos_iff.mpr hxs
      exact .inr (by omega)
  · rintro (rfl | h)
    · rfl
    · rw [rtake_eq_drop, rtake_eq_drop, List.length_append, List.drop_append]
      have hfront : xs.drop (xs.length + ys.length - n) = [] :=
        List.drop_eq_nil_of_le (by omega)
      rw [hfront, List.nil_append]
      congr 1
      omega

/-- Everything in the second list is related to something in the first. -/
theorem exists_of_forall₂ {β : Type*} {R : α → β → Prop} {xs : List α} {ys : List β}
    (h : List.Forall₂ R xs ys) {y : β} (hy : y ∈ ys) : ∃ x ∈ xs, R x y := by
  induction h with
  | nil => cases hy
  | cons hrel _ ih =>
    rcases List.mem_cons.mp hy with rfl | hy
    · exact ⟨_, List.mem_cons_self, hrel⟩
    · obtain ⟨x, hx, hrel⟩ := ih hy
      exact ⟨x, List.mem_cons_of_mem _ hx, hrel⟩

/-- Both ends of related lists are related. -/
theorem forall₂_rtake {β : Type*} {R : α → β → Prop} {xs : List α} {ys : List β} (n : Nat)
    (h : List.Forall₂ R xs ys) : List.Forall₂ R (xs.rtake n) (ys.rtake n) := by
  rw [rtake_eq_drop, rtake_eq_drop, h.length_eq]
  exact List.forall₂_drop _ h

theorem forall₂_rdrop {β : Type*} {R : α → β → Prop} {xs : List α} {ys : List β} (n : Nat)
    (h : List.Forall₂ R xs ys) : List.Forall₂ R (xs.rdrop n) (ys.rdrop n) := by
  rw [List.rdrop, List.rdrop, h.length_eq]
  exact List.forall₂_take _ h

/-- The last entries of a list stand in their order. -/
theorem rtake_sublist (n : Nat) (l : List α) : (l.rtake n).Sublist l := by
  rw [rtake_eq_drop]
  exact List.drop_sublist _ _

theorem rtake_min_length (n : Nat) (l : List α) :
    l.rtake (min n l.length) = l.rtake n := by
  rw [rtake_eq_drop, rtake_eq_drop]
  congr 1
  omega

/-- One push on a queue of last entries is the last entries of one list more. -/
theorem pushBounded_rtake {cap : Nat} (hcap : 0 < cap) (l : List α) (x : α) :
    pushBounded cap (l.rtake cap) x = (l ++ [x]).rtake cap := by
  unfold pushBounded
  split_ifs with h
  · have hlen : cap ≤ l.length := by rw [length_rtake] at h; omega
    rw [rtake_eq_drop, rtake_eq_drop, List.tail_drop, List.drop_append_of_le_length]
    · simp only [List.length_append, List.length_singleton]
      congr 2
      omega
    · simp; omega
  · have hlen : l.length < cap := by rw [length_rtake] at h; omega
    rw [rtake_of_length_le hlen.le, rtake_of_length_le (by simp; omega)]

/-- Pushing a list keeps the last `cap` entries of the queue and the list together. -/
theorem pushAll_eq_rtake {cap : Nat} (hcap : 0 < cap) {q : List α} (hq : q.length ≤ cap)
    (xs : List α) : pushAll cap q xs = (q ++ xs).rtake cap := by
  suffices h : ∀ l : List α, pushAll cap (l.rtake cap) xs = (l ++ xs).rtake cap by
    simpa [rtake_of_length_le hq] using h q
  induction xs with
  | nil => simp [pushAll]
  | cons x xs ih =>
    intro l
    calc pushAll cap (l.rtake cap) (x :: xs)
        = pushAll cap ((l ++ [x]).rtake cap) xs := by
          rw [← pushBounded_rtake hcap l x]; rfl
      _ = (l ++ x :: xs).rtake cap := by rw [ih (l ++ [x]), List.append_assoc]; rfl

end VibeAudit.Foundation
