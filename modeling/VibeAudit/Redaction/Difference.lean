import Mathlib.Data.List.Nodup
import VibeAudit.Forwarder.Sensitive

/-!
# `diff_fields` as the difference of two maps

The first loop of `diff_fields` walks the new document and the second one the
old document. Together they name every member in which the two differ, and each
of them once, so the order of the two documents only permutes the names.
-/

namespace VibeAudit.Redaction

open Foundation Json Forwarder

/-! ## Equal members -/

theorem sameMember_comm (a b : Option Value) : sameMember a b = sameMember b a := by
  cases a <;> cases b <;> simp [sameMember, Value.eqv_comm]

theorem sameMember_iff_rel (a b : Option Value) :
    sameMember a b = true ↔ Option.Rel (fun v w => v.eqv w = true) a b := by
  cases a <;> cases b <;> simp [sameMember]

/-- Two objects are equal when they agree member by member. -/
theorem eqv_object_iff {m n : Map} (hm : SortedMap.Sorted m) (hn : SortedMap.Sorted n) :
    (Value.object m).eqv (.object n) = true ↔
      ∀ key, sameMember (SortedMap.get? m key) (SortedMap.get? n key) = true := by
  simp only [sameMember_iff_rel]
  rw [Value.eqv, Value.eqvMembers_iff]
  exact SortedMap.forall₂_iff_rel (R := fun v w => v.eqv w = true) hm hn

/-! ## The names that are listed -/

/-- The two loops name different members, and neither names one twice. -/
theorem nodup_diffFields {m n : Map} (hm : SortedMap.Sorted m) (hn : SortedMap.Sorted n) :
    (diffFields (.object m) (.object n)).Nodup := by
  rw [diffFields, List.nodup_append']
  refine ⟨?_, (SortedMap.nodup_keys hm).filter _, ?_⟩
  · exact (SortedMap.nodup_keys hn).sublist (List.filter_sublist.map Prod.fst)
  · intro key hnew hold
    obtain ⟨p, hp, rfl⟩ := List.mem_map.mp hnew
    have hbound : (SortedMap.get? n p.1).isSome = true :=
      (SortedMap.mem_keys_iff n p.1).mp (List.mem_map_of_mem (List.mem_of_mem_filter hp))
    have habsent := (List.mem_filter.mp hold).2
    simp [SortedMap.containsKey, hbound] at habsent

/-- A name is listed once if its members differ, and otherwise not at all. -/
theorem count_diffFields {m n : Map} (hm : SortedMap.Sorted m) (hn : SortedMap.Sorted n)
    (key : String) :
    (diffFields (.object m) (.object n)).count key =
      if sameMember (SortedMap.get? m key) (SortedMap.get? n key) then 0 else 1 := by
  simp only [(nodup_diffFields hm hn).count, mem_diffFields_iff hn]
  cases sameMember (SortedMap.get? m key) (SortedMap.get? n key) <;> rfl

theorem diffFields_eq_nil_iff {m n : Map} (hm : SortedMap.Sorted m) (hn : SortedMap.Sorted n) :
    diffFields (.object m) (.object n) = [] ↔ (Value.object m).eqv (.object n) = true := by
  rw [eqv_object_iff hm hn, List.eq_nil_iff_forall_not_mem]
  simp only [mem_diffFields_iff hn, Bool.not_eq_false]

theorem diffFields_perm {m n : Map} (hm : SortedMap.Sorted m) (hn : SortedMap.Sorted n) :
    (diffFields (.object n) (.object m)).Perm (diffFields (.object m) (.object n)) := by
  apply (List.perm_ext_iff_of_nodup (nodup_diffFields hn hm) (nodup_diffFields hm hn)).mpr
  intro key
  rw [mem_diffFields_iff hm, mem_diffFields_iff hn, sameMember_comm]

/-- Only a member of one of the documents can differ. -/
theorem mem_allFields_of_mem_diffFields {m n : Map} (hn : SortedMap.Sorted n) {key : String}
    (h : key ∈ diffFields (.object m) (.object n)) :
    key ∈ allFields (.object m) ++ allFields (.object n) := by
  rw [mem_diffFields_iff hn] at h
  rw [List.mem_append, mem_allFields_iff, mem_allFields_iff, Value.get?_object, Value.get?_object]
  cases hold : SortedMap.get? m key with
  | some v => exact .inl rfl
  | none =>
    rw [hold] at h
    exact .inr ((sameMember_none_left _).mp h)

/-- `diff_fields` lists each name whose members differ exactly once and no other name. So it is
empty for equal documents only, it lists the same names for the documents in the other order,
and every name is one of `all_fields` of a document. -/
theorem diffFields_exact {old new : Map} (hold : SortedMap.Sorted old)
    (hnew : SortedMap.Sorted new) :
    (∀ key, (diffFields (.object old) (.object new)).count key =
        if sameMember (SortedMap.get? old key) (SortedMap.get? new key) then 0 else 1) ∧
      (diffFields (.object old) (.object new) = [] ↔
        (Value.object old).eqv (.object new) = true) ∧
      (diffFields (.object new) (.object old)).Perm (diffFields (.object old) (.object new)) ∧
      ∀ key ∈ diffFields (.object old) (.object new),
        key ∈ allFields (.object old) ++ allFields (.object new) :=
  ⟨count_diffFields hold hnew, diffFields_eq_nil_iff hold hnew, diffFields_perm hold hnew,
    fun _ => mem_allFields_of_mem_diffFields hnew⟩

/-- A null member that disappears is a difference. -/
theorem diffFields_exact_null :
    (diffFields (.object [("a", .null), ("b", .bool true)]) (.object [("b", .bool true)])).count
        "a" = 1 ∧
      (diffFields (.object [("b", .bool true)])
        (.object [("a", .null), ("b", .bool true)])).Perm
        (diffFields (.object [("a", .null), ("b", .bool true)])
          (.object [("b", .bool true)])) := by
  have hold : SortedMap.Sorted [("a", Value.null), ("b", .bool true)] := by
    unfold SortedMap.Sorted
    decide
  have hnew : SortedMap.Sorted [("b", Value.bool true)] := List.pairwise_singleton _ _
  obtain ⟨hcount, -, hperm, -⟩ := diffFields_exact hold hnew
  exact ⟨hcount "a", hperm⟩

end VibeAudit.Redaction
