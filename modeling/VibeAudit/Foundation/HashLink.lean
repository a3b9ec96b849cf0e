import Mathlib.Data.List.Infix
import Mathlib.Data.List.Nodup

/-!
# Hash-linked lists

A record names the head it extends (`prevOf`) and carries its own head
(`headOf`). A list of records is `Linked` from a head `h` when each record
extends the head before it and its own head is the digest of that head and the
record. The digest is an arbitrary function, so the results hold for every
hash and for every way of laying out a record before hashing.
-/

namespace VibeAudit.Foundation

/-- What a hash chain over records `ρ` with heads `δ` reads from a record. -/
structure LinkView (ρ δ : Type*) where
  prevOf : ρ → δ
  headOf : ρ → δ
  digest : δ → ρ → δ

namespace LinkView

variable {ρ σ δ : Type*} (V : LinkView ρ δ)

/-- Every record extends the head before it and carries the digest as its head. -/
def Linked : δ → List ρ → Prop
  | _, [] => True
  | h, r :: rs => V.prevOf r = h ∧ V.headOf r = V.digest h r ∧ Linked (V.headOf r) rs

/-- The head after the records of a list, starting from `h`. -/
def head : δ → List ρ → δ
  | h, [] => h
  | _, r :: rs => head (V.headOf r) rs

@[simp] theorem linked_nil (h : δ) : V.Linked h [] := trivial

theorem linked_cons (h : δ) (r : ρ) (rs : List ρ) :
    V.Linked h (r :: rs) ↔
      V.prevOf r = h ∧ V.headOf r = V.digest h r ∧ V.Linked (V.headOf r) rs := Iff.rfl

@[simp] theorem head_nil (h : δ) : V.head h [] = h := rfl

@[simp] theorem head_cons (h : δ) (r : ρ) (rs : List ρ) :
    V.head h (r :: rs) = V.head (V.headOf r) rs := rfl

theorem head_append (h : δ) (xs ys : List ρ) :
    V.head h (xs ++ ys) = V.head (V.head h xs) ys := by
  induction xs generalizing h with
  | nil => rfl
  | cons r rs ih => exact ih (V.headOf r)

/-- A list is linked exactly when its front is, and its back is from the front's head. -/
theorem linked_append (h : δ) (xs ys : List ρ) :
    V.Linked h (xs ++ ys) ↔ V.Linked h xs ∧ V.Linked (V.head h xs) ys := by
  induction xs generalizing h with
  | nil => simp
  | cons r rs ih => simp [linked_cons, ih, and_assoc]

/-- Cutting off a tail keeps a list linked. -/
theorem Linked.of_append_left {V : LinkView ρ δ} {h : δ} {xs ys : List ρ}
    (hl : V.Linked h (xs ++ ys)) :
    V.Linked h xs := ((V.linked_append h xs ys).mp hl).1

/-- The first record after a linked list extends that list's head. -/
theorem Linked.prevOf_of_append {V : LinkView ρ δ} {h : δ} {xs ys : List ρ} {r : ρ}
    (hl : V.Linked h (xs ++ r :: ys)) : V.prevOf r = V.head h xs :=
  ((V.linked_append h xs (r :: ys)).mp hl).2.1

/-- The head of a nonempty list is the head of its last record. -/
theorem exists_head_eq {xs : List ρ} (hne : xs ≠ []) (h : δ) :
    ∃ r ∈ xs, V.head h xs = V.headOf r := by
  refine ⟨xs.getLast hne, List.getLast_mem hne, ?_⟩
  conv_lhs => rw [← List.dropLast_append_getLast hne, head_append]
  rfl

theorem Linked.exists_digest {V : LinkView ρ δ} {h : δ} {xs : List ρ} (hl : V.Linked h xs)
    {r : ρ} (hr : r ∈ xs) :
    ∃ d, V.headOf r = V.digest d r := by
  induction xs generalizing h with
  | nil => cases hr
  | cons q qs ih =>
    obtain ⟨-, hhead, htail⟩ := hl
    rcases List.mem_cons.mp hr with rfl | hr
    · exact ⟨h, hhead⟩
    · exact ih htail hr

/-- The heads the records extend are `h` and the records' own heads, one place later. -/
theorem Linked.map_prevOf {V : LinkView ρ δ} {h : δ} {xs : List ρ} (hl : V.Linked h xs) :
    xs.map V.prevOf = (h :: xs.map V.headOf).dropLast := by
  induction xs generalizing h with
  | nil => rfl
  | cons r rs ih =>
    obtain ⟨hprev, -, htail⟩ := hl
    rw [List.map_cons, List.map_cons, List.dropLast_cons_of_ne_nil (List.cons_ne_nil _ _), hprev,
      ih htail]

theorem head_eq_getLast (h : δ) (xs : List ρ) :
    V.head h xs = (h :: xs.map V.headOf).getLast (List.cons_ne_nil _ _) := by
  induction xs generalizing h with
  | nil => rfl
  | cons r rs ih => rw [head_cons, ih, List.map_cons, List.getLast_cons (List.cons_ne_nil _ _)]

/-- Every record carries the digest of what it names as the head before it. -/
theorem Linked.headOf_eq_digest {V : LinkView ρ δ} {h : δ} {xs : List ρ} (hl : V.Linked h xs)
    {r : ρ} (hr : r ∈ xs) : V.headOf r = V.digest (V.prevOf r) r := by
  induction xs generalizing h with
  | nil => cases hr
  | cons q qs ih =>
    obtain ⟨hprev, hhead, htail⟩ := hl
    rcases List.mem_cons.mp hr with rfl | hr
    · rw [hprev, hhead]
    · exact ih htail hr

/-- A record extends the head the list starts from, or the head of another record. -/
theorem Linked.prevOf_mem {V : LinkView ρ δ} {h : δ} {xs : List ρ} (hl : V.Linked h xs)
    {r : ρ} (hr : r ∈ xs) : V.prevOf r = h ∨ V.prevOf r ∈ xs.map V.headOf := by
  have hmem : V.prevOf r ∈ (h :: xs.map V.headOf).dropLast := by
    rw [← hl.map_prevOf]
    exact List.mem_map_of_mem hr
  exact List.mem_cons.mp (List.mem_of_mem_dropLast hmem)

/-- Linking sees of a record only its links and its digests. -/
theorem linked_map {f : ρ → ρ} (hprev : ∀ r, V.prevOf (f r) = V.prevOf r)
    (hhead : ∀ r, V.headOf (f r) = V.headOf r) (hdigest : ∀ d r, V.digest d (f r) = V.digest d r)
    (h : δ) (xs : List ρ) : V.Linked h (xs.map f) ↔ V.Linked h xs := by
  induction xs generalizing h with
  | nil => rfl
  | cons r rs ih => rw [List.map_cons, linked_cons, linked_cons, hprev, hhead, hdigest, ih]

/-! ## What a head commits to

Where the head of a record determines the head before it, and no record has the
head that the list starts from, heads never repeat and the last head determines
the list.
-/

section Commit

variable {V} {h : δ} {xs ys : List ρ}

/-- Heads along a linked list do not repeat, and none is the head the list starts from. -/
theorem Linked.nodup_heads (hl : V.Linked h xs)
    (hinj : ∀ r ∈ xs, ∀ s ∈ xs, V.headOf r = V.headOf s → V.prevOf r = V.prevOf s)
    (hstart : ∀ r ∈ xs, V.headOf r ≠ h) : (h :: xs.map V.headOf).Nodup := by
  induction xs using List.reverseRecOn with
  | nil => simp
  | append_singleton xs r ih =>
    have hfront := ih hl.of_append_left
      (fun a ha b hb => hinj a (List.mem_append_left _ ha) b (List.mem_append_left _ hb))
      (fun a ha => hstart a (List.mem_append_left _ ha))
    rw [List.map_append, List.map_singleton, ← List.cons_append, List.nodup_append]
    refine ⟨hfront, List.nodup_singleton _, ?_⟩
    rintro d hd _ hr rfl
    obtain rfl := List.mem_singleton.mp hr
    rcases List.mem_cons.mp hd with heq | hmem
    · exact hstart r (by simp) heq
    · -- a repeated head would make the last head before `r` occur twice
      obtain ⟨s, hs, heq⟩ := List.mem_map.mp hmem
      have hprev := hinj s (List.mem_append_left _ hs) r (by simp) heq
      rw [hl.prevOf_of_append] at hprev
      have hbefore : V.prevOf s ∈ (h :: xs.map V.headOf).dropLast := by
        rw [← hl.of_append_left.map_prevOf]
        exact List.mem_map_of_mem hs
      have hlast : V.head h xs = (h :: xs.map V.headOf).getLast (List.cons_ne_nil _ _) :=
        V.head_eq_getLast h xs
      have hsplit := List.dropLast_append_getLast (List.cons_ne_nil h (xs.map V.headOf))
      rw [← hsplit, List.nodup_append] at hfront
      exact hfront.2.2 _ hbefore _ (List.mem_singleton_self _) (hprev.trans hlast)

variable {W : LinkView σ δ} {zs : List σ} {κ : Type*} {key : ρ → κ} {keyOf : σ → κ}

/-- One head is the head of one list of keys only, whatever the lengths and however the records
are laid out. -/
theorem Linked.map_key_eq (hx : V.Linked h xs) (hy : W.Linked h zs)
    (hinj : ∀ r ∈ xs, ∀ s ∈ zs, V.headOf r = W.headOf s →
      V.prevOf r = W.prevOf s ∧ key r = keyOf s)
    (hxs : ∀ r ∈ xs, V.headOf r ≠ h) (hys : ∀ s ∈ zs, W.headOf s ≠ h)
    (heq : V.head h xs = W.head h zs) : xs.map key = zs.map keyOf := by
  induction xs using List.reverseRecOn generalizing zs with
  | nil =>
    cases zs using List.reverseRecOn with
    | nil => rfl
    | append_singleton zs s =>
      rw [head_append] at heq
      exact absurd heq.symm (hys s (by simp))
  | append_singleton xs r ih =>
    cases zs using List.reverseRecOn with
    | nil =>
      rw [head_append] at heq
      exact absurd heq (hxs r (by simp))
    | append_singleton zs s =>
      have hlast : V.headOf r = W.headOf s := by simpa [head_append] using heq
      obtain ⟨hprev, hkey⟩ := hinj r (by simp) s (by simp) hlast
      rw [hx.prevOf_of_append, hy.prevOf_of_append] at hprev
      have hfront := ih hx.of_append_left hy.of_append_left
        (fun a ha b hb => hinj a (List.mem_append_left _ ha) b (List.mem_append_left _ hb))
        (fun a ha => hxs a (List.mem_append_left _ ha))
        (fun b hb => hys b (List.mem_append_left _ hb)) hprev
      simp [hfront, hkey]

/-- A linked list drawn from the records of another one is a front of it: a head that does
not repeat has one successor. -/
theorem Linked.prefix_of_drawn (hx : V.Linked h xs) (hy : V.Linked h ys)
    (hnodup : (h :: xs.map V.headOf).Nodup)
    (hdrawn : ∀ s ∈ ys, ∃ r ∈ xs, key r = key s ∧ V.prevOf r = V.prevOf s ∧
      V.headOf r = V.headOf s) : ys.map key <+: xs.map key := by
  induction xs generalizing h ys with
  | nil =>
    have hnil : ys = [] := by
      rw [List.eq_nil_iff_forall_not_mem]
      intro s hs
      obtain ⟨r, hr, -⟩ := hdrawn s hs
      cases hr
    simp [hnil]
  | cons r rs ih =>
    obtain ⟨hrprev, -, hrest⟩ := hx
    rw [List.nodup_cons] at hnodup
    have hheads : ∀ a ∈ r :: rs, V.headOf a ≠ h :=
      fun a ha heq => hnodup.1 (heq ▸ List.mem_map_of_mem ha)
    cases ys with
    | nil => simp
    | cons s ss =>
      obtain ⟨hsprev, -, hsrest⟩ := hy
      -- of the records of `xs` only the first extends `h`
      have hfirst : ∀ a ∈ rs, V.prevOf a ≠ h := by
        intro a ha heq
        rcases hrest.prevOf_mem ha with hhead | hmem
        · exact hheads r List.mem_cons_self (hhead.symm.trans heq)
        · obtain ⟨b, hb, hbeq⟩ := List.mem_map.mp hmem
          exact hheads b (List.mem_cons_of_mem _ hb) (hbeq.trans heq)
      obtain ⟨a, ha, hkey, hprev, hhead⟩ := hdrawn s List.mem_cons_self
      obtain rfl : a = r := by
        rcases List.mem_cons.mp ha with heq | hmem
        · exact heq
        · exact absurd (hprev.trans hsprev) (hfirst a hmem)
      have hback : ∀ b ∈ ss, V.prevOf b ≠ h := by
        intro b hb heq
        have hdrawnHead : ∀ c ∈ s :: ss, V.headOf c ≠ h := by
          intro c hc hch
          obtain ⟨d, hd, -, -, hdh⟩ := hdrawn c hc
          exact hheads d hd (hdh.trans hch)
        rcases hsrest.prevOf_mem hb with hsh | hmem
        · exact hdrawnHead s List.mem_cons_self (hsh.symm.trans heq)
        · obtain ⟨c, hc, hceq⟩ := List.mem_map.mp hmem
          exact hdrawnHead c (List.mem_cons_of_mem _ hc) (hceq.trans heq)
      rw [List.map_cons, List.map_cons, hkey, List.cons_prefix_cons]
      refine ⟨rfl, ih hrest (hhead ▸ hsrest) hnodup.2 ?_⟩
      intro b hb
      obtain ⟨c, hc, hck, hcp, hch⟩ := hdrawn b (List.mem_cons_of_mem _ hb)
      rcases List.mem_cons.mp hc with rfl | hmem
      · exact absurd (hcp.symm.trans hrprev) (hback b hb)
      · exact ⟨c, hmem, hck, hcp, hch⟩

end Commit

section Compare

variable {V} {W : LinkView σ δ}

/-- Two records name the same head before them and carry the same head. -/
def SameLinks (V : LinkView ρ δ) (W : LinkView σ δ) (r : ρ) (s : σ) : Prop :=
  W.prevOf s = V.prevOf r ∧ W.headOf s = V.headOf r

/-- Linking carries over between records with the same links and the same digests. -/
theorem linked_congr {xs : List ρ} {ys : List σ} (h : List.Forall₂ (SameLinks V W) xs ys)
    (hdigest : List.Forall₂ (fun r s => ∀ d, W.digest d s = V.digest d r) xs ys) (d : δ) :
    W.Linked d ys ↔ V.Linked d xs := by
  induction h generalizing d with
  | nil => simp
  | cons hr _ ih =>
    obtain ⟨hd, hds⟩ := List.forall₂_cons.mp hdigest
    rw [linked_cons, linked_cons, hr.1, hr.2, hd, ih hds]

/-- Where two lists with the same links are both linked, their digests agree. -/
theorem digest_eq_of_linked {xs : List ρ} {ys : List σ}
    (h : List.Forall₂ (SameLinks V W) xs ys) {d : δ} (hx : V.Linked d xs) (hy : W.Linked d ys) :
    List.Forall₂ (fun r s => W.digest (V.prevOf r) s = V.digest (V.prevOf r) r) xs ys := by
  induction h generalizing d with
  | nil => exact .nil
  | cons hr _ ih =>
    obtain ⟨hxp, hxd, hxt⟩ := hx
    obtain ⟨hyp, hyd, hyt⟩ := hy
    refine .cons ?_ (ih hxt (hr.2 ▸ hyt))
    rw [hxp, ← hyd, ← hxd, hr.2]

/-- Linked lists with the same digests have the same head. -/
theorem head_congr {xs : List ρ} {ys : List σ} {h : δ} (hx : V.Linked h xs) (hy : W.Linked h ys)
    (hdigest : List.Forall₂ (fun r s => ∀ d, W.digest d s = V.digest d r) xs ys) :
    W.head h ys = V.head h xs := by
  induction hdigest generalizing h with
  | nil => rfl
  | cons hd _ ih =>
    obtain ⟨-, hxd, hxt⟩ := hx
    obtain ⟨-, hyd, hyt⟩ := hy
    have hhead := hyd.trans ((hd h).trans hxd.symm)
    rw [head_cons, head_cons, hhead]
    exact ih hxt (hhead ▸ hyt)

end Compare

end LinkView

end VibeAudit.Foundation
