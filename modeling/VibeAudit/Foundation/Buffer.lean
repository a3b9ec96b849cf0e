import Mathlib.Data.List.Basic

/-!
# Checked writes to a buffer

A buffer is a list of fixed length, and a write outside of it is `none`. A
program that fills a buffer from the front keeps it in the form `front ++ back`
with the next place at `front.length`; the lemmas say what a write there does.
-/

namespace VibeAudit.Foundation.Buffer

variable {α : Type*}

/-- Write one entry, if the place exists. -/
def store (buffer : List α) (i : Nat) (x : α) : Option (List α) :=
  if i < buffer.length then some (buffer.set i x) else none

def storeAll (buffer : List α) (i : Nat) : List α → Option (List α)
  | [] => some buffer
  | x :: xs => (store buffer i x).bind fun buffer => storeAll buffer (i + 1) xs

theorem store_append (front : List α) (y x : α) (back : List α) :
    store (front ++ y :: back) front.length x = some (front ++ x :: back) := by
  simp [store]

/-- What fits is written behind the front, over as much of the back. -/
theorem storeAll_append {xs back : List α} (h : xs.length ≤ back.length) (front : List α) :
    storeAll (front ++ back) front.length xs = some (front ++ xs ++ back.drop xs.length) := by
  induction xs generalizing front back with
  | nil => simp [storeAll]
  | cons x xs ih =>
    cases back with
    | nil => simp at h
    | cons y back =>
      have hfront : front ++ x :: back = (front ++ [x]) ++ back := by simp
      have hnext := ih (Nat.le_of_succ_le_succ h) (front ++ [x])
      rw [List.length_append, List.length_singleton] at hnext
      rw [storeAll, store_append, Option.bind_some, hfront, hnext]
      simp

end VibeAudit.Foundation.Buffer
