import Mathlib.Data.List.Forall2
import Mathlib.Data.String.Basic

/-!
# Finite maps as sorted association lists

An ordered map is a list of bindings, kept in increasing key order by `insert`.
Lookup laws hold for every list of bindings; `Sorted` is needed only where two
maps are compared, since sorted lists with the same lookups are equal.
-/

namespace VibeAudit.Foundation

/-- Bindings of an ordered map, in iteration order. -/
abbrev SortedMap (κ β : Type*) := List (κ × β)

namespace SortedMap

variable {κ β : Type*} [LinearOrder κ]

def get? : SortedMap κ β → κ → Option β
  | [], _ => none
  | (k', v) :: m, k => if k = k' then some v else get? m k

/-- Bind `k` to `v`, replacing an earlier binding of `k`. -/
def insert : SortedMap κ β → κ → β → SortedMap κ β
  | [], k, v => [(k, v)]
  | (k', v') :: m, k, v =>
    if k = k' then (k, v) :: m
    else if k < k' then (k, v) :: (k', v') :: m
    else (k', v') :: insert m k v

def keys (m : SortedMap κ β) : List κ := m.map Prod.fst

def containsKey (m : SortedMap κ β) (k : κ) : Bool := (get? m k).isSome

/-- Insert the bindings of a list from left to right; a later one wins. -/
def ofList (l : List (κ × β)) : SortedMap κ β :=
  l.foldl (fun m p => insert m p.1 p.2) []

/-- Keys strictly increase along the list, so no key is bound twice. -/
def Sorted (m : SortedMap κ β) : Prop := m.Pairwise fun p q => p.1 < q.1

@[simp] theorem get?_nil (k : κ) : get? ([] : SortedMap κ β) k = none := rfl

theorem get?_cons (k' k : κ) (v : β) (m : SortedMap κ β) :
    get? ((k', v) :: m) k = if k = k' then some v else get? m k := rfl

@[simp] theorem get?_insert_self (m : SortedMap κ β) (k : κ) (v : β) :
    get? (insert m k v) k = some v := by
  induction m with
  | nil => simp [insert, get?_cons]
  | cons p m ih =>
    obtain ⟨k', v'⟩ := p
    rw [insert]
    split_ifs with he hl
    · simp [get?_cons]
    · simp [get?_cons]
    · simpa [get?_cons, he] using ih

/-- Inserting leaves the other keys. -/
theorem get?_insert_of_ne (m : SortedMap κ β) {k j : κ} (v : β) (h : j ≠ k) :
    get? (insert m k v) j = get? m j := by
  induction m with
  | nil => simp [insert, get?_cons, h]
  | cons p m ih =>
    obtain ⟨k', v'⟩ := p
    rw [insert]
    split_ifs with he hl
    · subst he
      simp [get?_cons, h]
    · simp [get?_cons, h]
    · simp [get?_cons, ih]

theorem get?_insert (m : SortedMap κ β) (k j : κ) (v : β) :
    get? (insert m k v) j = if j = k then some v else get? m j := by
  split_ifs with h
  · subst h
    exact get?_insert_self m j v
  · exact get?_insert_of_ne m v h

theorem mem_keys_iff (m : SortedMap κ β) (k : κ) : k ∈ keys m ↔ (get? m k).isSome := by
  induction m with
  | nil => simp [keys]
  | cons p m ih =>
    obtain ⟨k', v'⟩ := p
    by_cases he : k = k'
    · simp [keys, get?_cons, he]
    · simpa [keys, get?_cons, he] using ih

/-- Bindings of different keys are found, in whatever order they stand. -/
theorem get?_of_nodup {m : SortedMap κ β} (hm : (keys m).Nodup) {k : κ} {v : β} (h : (k, v) ∈ m) :
    get? m k = some v := by
  induction m with
  | nil => cases h
  | cons p m ih =>
    obtain ⟨k', v'⟩ := p
    obtain ⟨hfirst, hrest⟩ := List.nodup_cons.mp hm
    rw [get?_cons]
    rcases List.mem_cons.mp h with heq | hmem
    · obtain ⟨rfl, rfl⟩ := Prod.mk.inj heq
      exact if_pos rfl
    · have hne : k ≠ k' := by
        rintro rfl
        exact hfirst (List.mem_map.mpr ⟨(k, v), hmem, rfl⟩)
      rw [if_neg hne, ih hrest hmem]

theorem nodup_keys {m : SortedMap κ β} (hm : Sorted m) : (keys m).Nodup :=
  List.pairwise_map.mpr (hm.imp fun hlt => hlt.ne)

/-- A binding of a map with increasing keys is what its key looks up. -/
theorem get?_of_mem {m : SortedMap κ β} (hm : Sorted m) {k : κ} {v : β} (h : (k, v) ∈ m) :
    get? m k = some v :=
  get?_of_nodup (nodup_keys hm) h

theorem mem_of_get? {m : SortedMap κ β} {k : κ} {v : β} (h : get? m k = some v) :
    (k, v) ∈ m := by
  induction m with
  | nil => cases h
  | cons p m ih =>
    obtain ⟨k', v'⟩ := p
    rw [get?_cons] at h
    split_ifs at h with he
    · obtain rfl := Option.some.inj h
      simp [he]
    · exact List.mem_cons_of_mem _ (ih h)

theorem mem_insert {m : SortedMap κ β} {k : κ} {v : β} {p : κ × β}
    (h : p ∈ insert m k v) : p = (k, v) ∨ p ∈ m := by
  induction m with
  | nil => simpa [insert] using h
  | cons q m ih =>
    obtain ⟨k', v'⟩ := q
    rw [insert] at h
    split_ifs at h with he hl
    · rcases List.mem_cons.mp h with rfl | h
      · exact .inl rfl
      · exact .inr (List.mem_cons_of_mem _ h)
    · rcases List.mem_cons.mp h with rfl | h
      · exact .inl rfl
      · exact .inr h
    · rcases List.mem_cons.mp h with rfl | h
      · exact .inr List.mem_cons_self
      · exact (ih h).imp_right (List.mem_cons_of_mem _)

/-- Inserting keeps the order of the keys. -/
theorem sorted_insert {m : SortedMap κ β} (hm : Sorted m) (k : κ) (v : β) :
    Sorted (insert m k v) := by
  induction m with
  | nil => exact List.pairwise_singleton _ _
  | cons p m ih =>
    obtain ⟨k', v'⟩ := p
    obtain ⟨hlt, htail⟩ := List.pairwise_cons.mp hm
    rw [insert]
    split_ifs with he hl
    · subst he
      exact List.pairwise_cons.mpr ⟨hlt, htail⟩
    · refine List.pairwise_cons.mpr ⟨?_, hm⟩
      intro q hq
      rcases List.mem_cons.mp hq with rfl | hq
      · exact hl
      · exact hl.trans (hlt q hq)
    · refine List.pairwise_cons.mpr ⟨?_, ih htail⟩
      intro q hq
      rcases mem_insert hq with rfl | hq
      · exact lt_of_le_of_ne (not_lt.mp hl) (Ne.symm he)
      · exact hlt q hq

theorem get?_append (m n : SortedMap κ β) (k : κ) :
    get? (m ++ n) k = (get? m k).or (get? n k) := by
  induction m with
  | nil => simp
  | cons p m ih =>
    obtain ⟨k', v⟩ := p
    rw [List.cons_append, get?_cons, get?_cons, ih]
    split_ifs <;> simp

theorem get?_foldl_insert (l : List (κ × β)) (m : SortedMap κ β) (k : κ) :
    get? (l.foldl (fun m p => insert m p.1 p.2) m) k =
      (get? l.reverse k).or (get? m k) := by
  induction l generalizing m with
  | nil => simp
  | cons p l ih =>
    obtain ⟨k', v⟩ := p
    rw [List.foldl_cons, ih, List.reverse_cons, get?_append, get?_insert, get?_cons, get?_nil]
    split_ifs <;> cases get? l.reverse k <;> simp

/-- In a map built from a list the last binding of a key decides. -/
theorem get?_ofList (l : List (κ × β)) (k : κ) :
    get? (ofList l) k = get? l.reverse k := by
  simp [ofList, get?_foldl_insert]

theorem sorted_ofList (l : List (κ × β)) : Sorted (ofList l) := by
  suffices h : ∀ (l : List (κ × β)) (m : SortedMap κ β), Sorted m →
      Sorted (l.foldl (fun m p => insert m p.1 p.2) m) from h l [] List.Pairwise.nil
  intro l
  induction l with
  | nil => intro m hm; exact hm
  | cons p l ih => intro m hm; exact ih _ (sorted_insert hm p.1 p.2)

/-- A list of different keys and the map built from it have the same bindings. -/
theorem mem_ofList {l : List (κ × β)} (h : (l.map Prod.fst).Nodup) {p : κ × β} :
    p ∈ ofList l ↔ p ∈ l := by
  obtain ⟨k, v⟩ := p
  have hreverse : (keys l.reverse).Nodup := by
    rw [keys, List.map_reverse]
    exact List.pairwise_reverse.mpr (h.imp Ne.symm)
  constructor
  · intro hmem
    have hget := get?_of_mem (sorted_ofList l) hmem
    rw [get?_ofList] at hget
    exact List.mem_reverse.mp (mem_of_get? hget)
  · intro hmem
    have hget := get?_of_nodup hreverse (List.mem_reverse.mpr hmem)
    rw [← get?_ofList] at hget
    exact mem_of_get? hget

/-- A key below all others is not bound. -/
theorem get?_eq_none_of_lt {m : SortedMap κ β} {k : κ} (h : ∀ p ∈ m, k < p.1) :
    get? m k = none := by
  by_contra hsome
  obtain ⟨v, hv⟩ := Option.ne_none_iff_exists'.mp hsome
  exact lt_irrefl k (h _ (mem_of_get? hv))

/-- Two maps with increasing keys correspond binding by binding exactly when their lookups do. -/
theorem forall₂_iff_rel {R : β → β → Prop} {m n : SortedMap κ β} (hm : Sorted m) (hn : Sorted n) :
    List.Forall₂ (fun p q => p.1 = q.1 ∧ R p.2 q.2) m n ↔
      ∀ k, Option.Rel R (get? m k) (get? n k) := by
  induction m generalizing n with
  | nil =>
    cases n with
    | nil => simp
    | cons q n =>
      obtain ⟨l, y⟩ := q
      refine iff_of_false (by simp) fun h => ?_
      have hfirst := h l
      rw [get?_cons, if_pos rfl] at hfirst
      cases hfirst
  | cons p m ih =>
    obtain ⟨k, x⟩ := p
    obtain ⟨hk, hmTail⟩ := List.pairwise_cons.mp hm
    cases n with
    | nil =>
      refine iff_of_false (by simp) fun h => ?_
      have hfirst := h k
      rw [get?_cons, if_pos rfl] at hfirst
      cases hfirst
    | cons q n =>
      obtain ⟨l, y⟩ := q
      obtain ⟨hl, hnTail⟩ := List.pairwise_cons.mp hn
      rw [List.forall₂_cons, ih hmTail hnTail]
      constructor
      · rintro ⟨⟨rfl, hxy⟩, htail⟩ j
        rw [get?_cons, get?_cons]
        split_ifs
        · exact .some hxy
        · exact htail j
      · intro h
        -- neither first key can be missing on the other side
        have hkl : k = l := by
          rcases lt_trichotomy k l with hlt | heq | hlt
          · have hnone : get? ((l, y) :: n) k = none :=
              get?_eq_none_of_lt (List.forall_mem_cons.mpr ⟨hlt, fun r hr => hlt.trans (hl r hr)⟩)
            have hfirst := h k
            rw [hnone, get?_cons, if_pos rfl] at hfirst
            cases hfirst
          · exact heq
          · have hnone : get? ((k, x) :: m) l = none :=
              get?_eq_none_of_lt (List.forall_mem_cons.mpr ⟨hlt, fun r hr => hlt.trans (hk r hr)⟩)
            have hfirst := h l
            rw [hnone, get?_cons, if_pos rfl] at hfirst
            cases hfirst
        subst hkl
        refine ⟨⟨rfl, by simpa [get?_cons] using h k⟩, fun j => ?_⟩
        by_cases hj : j = k
        · rw [hj, get?_eq_none_of_lt hk, get?_eq_none_of_lt hl]
          exact .none
        · simpa [get?_cons, hj] using h j

/-- Maps with increasing keys and the same lookups are equal. -/
theorem ext {m n : SortedMap κ β} (hm : Sorted m) (hn : Sorted n)
    (h : ∀ k, get? m k = get? n k) : m = n := by
  have hsame : ∀ k, Option.Rel Eq (get? m k) (get? n k) := by
    intro k
    rw [h k]
    cases get? n k with
    | none => exact .none
    | some v => exact .some rfl
  have hpairs := (forall₂_iff_rel hm hn).mpr hsame
  exact List.forall₂_eq_eq_eq ▸ hpairs.imp fun p q hpq => Prod.ext hpq.1 hpq.2

/-- Building a map from one that is built already gives it back. -/
theorem ofList_of_sorted {m : SortedMap κ β} (hm : Sorted m) : ofList m = m := by
  apply ext (sorted_ofList m) hm
  intro k
  rw [get?_ofList]
  cases h : get? m k with
  | some v =>
    have hreverse : (keys m.reverse).Nodup := by
      rw [keys, List.map_reverse]
      exact List.pairwise_reverse.mpr ((nodup_keys hm).imp Ne.symm)
    exact get?_of_nodup hreverse (List.mem_reverse.mpr (mem_of_get? h))
  | none =>
    by_contra hsome
    obtain ⟨v, hv⟩ := Option.ne_none_iff_exists'.mp hsome
    rw [get?_of_mem hm (List.mem_reverse.mp (mem_of_get? hv))] at h
    cases h

/-- A binding that is replaced leaves the keys as they are. -/
theorem keys_insert {m : SortedMap κ β} (hm : Sorted m) {k : κ} (v : β)
    (h : containsKey m k = true) : keys (insert m k v) = keys m := by
  induction m with
  | nil => simp [containsKey] at h
  | cons p m ih =>
    obtain ⟨k', v'⟩ := p
    obtain ⟨hk', htail⟩ := List.pairwise_cons.mp hm
    rw [insert]
    split_ifs with he hl
    · rw [he]
      rfl
    · have hnone : get? ((k', v') :: m) k = none :=
        get?_eq_none_of_lt (List.forall_mem_cons.mpr ⟨hl, fun r hr => hl.trans (hk' r hr)⟩)
      simp [containsKey, hnone] at h
    · have hrest : containsKey m k = true := by simpa [containsKey, get?_cons, he] using h
      exact congrArg (k' :: ·) (ih htail hrest)

end SortedMap

end VibeAudit.Foundation
