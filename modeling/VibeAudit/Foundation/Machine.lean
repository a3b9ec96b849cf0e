import Mathlib.Data.List.Induction

/-!
# Runs of a partial step function

A machine is a function `step : σ → α → Option σ`; `none` says the action is
not enabled or that the component stops. `run` performs a list of actions.
Invariants are proved for one step and lifted to runs here, with the actions
performed so far available to the invariant.
-/

namespace VibeAudit.Foundation

variable {σ α : Type*} (step : σ → α → Option σ)

def run : σ → List α → Option σ
  | s, [] => some s
  | s, a :: as => (step s a).bind fun t => run t as

@[simp] theorem run_nil (s : σ) : run step s [] = some s := rfl

theorem run_cons (s : σ) (a : α) (as : List α) :
    run step s (a :: as) = (step s a).bind fun t => run step t as := rfl

theorem run_append (s : σ) (as bs : List α) :
    run step s (as ++ bs) = (run step s as).bind fun t => run step t bs := by
  induction as generalizing s with
  | nil => rfl
  | cons a as ih =>
    rw [List.cons_append, run_cons, run_cons, Option.bind_assoc]
    congr 1
    funext t
    exact ih t

theorem run_snoc (s : σ) (as : List α) (a : α) :
    run step s (as ++ [a]) = (run step s as).bind fun t => step t a := by
  rw [run_append]
  congr 1
  funext t
  simp [run_cons]

theorem run_snoc_eq_some {s t : σ} {as : List α} {a : α} :
    run step s (as ++ [a]) = some t ↔
      ∃ u, run step s as = some u ∧ step u a = some t := by
  rw [run_snoc, Option.bind_eq_some_iff]

/-- The induction rule for runs: `I` may speak of the actions performed so far, and the
side condition `C` on each performed action of the state it is performed in is available. -/
theorem run_induction {I : List α → σ → Prop} {C : List α → σ → α → Prop} {s₀ : σ}
    (h₀ : I [] s₀)
    (hstep : ∀ as s a t, run step s₀ as = some s → I as s → C as s a → step s a = some t →
      I (as ++ [a]) t)
    {as : List α} {s : σ} (hrun : run step s₀ as = some s)
    (hC : ∀ pre a post u, as = pre ++ a :: post → run step s₀ pre = some u → C pre u a) :
    I as s := by
  induction as using List.reverseRecOn generalizing s with
  | nil =>
    obtain rfl := Option.some.inj hrun
    exact h₀
  | append_singleton as a ih =>
    obtain ⟨u, hu, hs⟩ := (run_snoc_eq_some step).mp hrun
    refine hstep as u a s hu (ih hu ?_) (hC as a [] u rfl hu) hs
    intro pre b post w hpre hw
    exact hC pre b (post ++ [a]) w (by simp [hpre]) hw

/-- An invariant of one step, under a condition on the action, is one of a run. -/
theorem run_invariant {I : σ → Prop} {C : α → Prop}
    (hstep : ∀ s a t, I s → C a → step s a = some t → I t) {as : List α} {s t : σ} (hs : I s)
    (hrun : run step s as = some t) (hC : ∀ a ∈ as, C a) : I t := by
  refine run_induction step (I := fun _ u => I u) (C := fun _ _ a => C a) hs ?_ hrun ?_
  · intro _ u a v _ hu ha hv
    exact hstep u a v hu ha hv
  · rintro pre a post u rfl _
    exact hC a (by simp)

/-! ## Two machines -/

section

variable {τ β : Type*} {step} {step' : τ → β → Option τ} {R : σ → τ → Prop}

/-- Two runs over related actions: what a pair of related steps preserves, the runs do. -/
theorem run_related {A : α → β → Prop}
    (hstep : ∀ s s' a a' t t', R s s' → A a a' → step s a = some t → step' s' a' = some t' →
      R t t')
    {as : List α} {as' : List β} (has : List.Forall₂ A as as') {s t : σ} {s' t' : τ}
    (hs : R s s') (hrun : run step s as = some t) (hrun' : run step' s' as' = some t') :
    R t t' := by
  induction has generalizing s s' with
  | nil =>
    obtain rfl := Option.some.inj hrun
    obtain rfl := Option.some.inj hrun'
    exact hs
  | cons ha _ ih =>
    obtain ⟨u, hu, hrest⟩ := Option.bind_eq_some_iff.mp hrun
    obtain ⟨u', hu', hrest'⟩ := Option.bind_eq_some_iff.mp hrun'
    exact ih (hstep _ _ _ _ _ _ hs ha hu hu') hrest hrest'

end

/-! ## Outputs and refinement -/

section

variable {ω : Type*} (out : σ → α → List ω)

/-- What the steps of a run put out, one after the other. -/
def outputs : σ → List α → List ω
  | _, [] => []
  | s, a :: as => out s a ++ ((step s a).map fun t => outputs t as).getD []

@[simp] theorem outputs_nil (s : σ) : outputs step out s [] = [] := rfl

theorem outputs_cons {s t : σ} {a : α} (h : step s a = some t) (as : List α) :
    outputs step out s (a :: as) = out s a ++ outputs step out t as := by
  simp [outputs, h]

theorem outputs_append {s t : σ} {as : List α} (h : run step s as = some t) (bs : List α) :
    outputs step out s (as ++ bs) = outputs step out s as ++ outputs step out t bs := by
  induction as generalizing s with
  | nil =>
    obtain rfl := Option.some.inj h
    rfl
  | cons a as ih =>
    obtain ⟨u, hu, hrest⟩ := Option.bind_eq_some_iff.mp h
    rw [List.cons_append, outputs_cons step out hu, outputs_cons step out hu, ih hrest,
      List.append_assoc]

theorem outputs_snoc {s t u : σ} {as : List α} {a : α} (h : run step s as = some t)
    (ha : step t a = some u) :
    outputs step out s (as ++ [a]) = outputs step out s as ++ out t a := by
  rw [outputs_append step out h, outputs_cons step out ha, outputs_nil, List.append_nil]

/-- What is put out is put out by a step. -/
theorem exists_of_mem_outputs {x : ω} {s : σ} {as : List α} (h : x ∈ outputs step out s as) :
    ∃ a ∈ as, ∃ t, x ∈ out t a := by
  induction as generalizing s with
  | nil => cases h
  | cons a as ih =>
    rcases List.mem_append.mp h with h | h
    · exact ⟨a, by simp, s, h⟩
    · cases hstep : step s a with
      | none => simp [hstep] at h
      | some t =>
        obtain ⟨b, hb, u, hu⟩ := ih (by simpa [hstep] using h)
        exact ⟨b, List.mem_cons_of_mem a hb, u, hu⟩

/-- A machine refines another under a mapping of its states: where every step is what the other
machine does with the actions put out, every run is a run of the other. -/
theorem run_refines {τ β : Type*} {step' : τ → β → Option τ} (f : σ → τ) (out : σ → α → List β)
    (hstep : ∀ s a t, step s a = some t → run step' (f s) (out s a) = some (f t)) {as : List α}
    {s t : σ} (hrun : run step s as = some t) :
    run step' (f s) (outputs step out s as) = some (f t) := by
  induction as generalizing s with
  | nil =>
    obtain rfl := Option.some.inj hrun
    rfl
  | cons a as ih =>
    obtain ⟨u, hu, hrest⟩ := Option.bind_eq_some_iff.mp hrun
    rw [outputs_cons step out hu, run_append, hstep s a u hu]
    exact ih hrest

/-- A machine simulates another under a relation of their states: related actions put out the same,
and where one machine gets through, the other does too. -/
theorem run_simulates {τ β : Type*} {step' : τ → β → Option τ} {out' : τ → β → List ω}
    {R : σ → τ → Prop} {A : α → β → Prop}
    (hstep : ∀ s s' a a' t, R s s' → A a a' → step s a = some t →
      out' s' a' = out s a ∧ ∃ t', step' s' a' = some t' ∧ R t t')
    {as : List α} {as' : List β} (has : List.Forall₂ A as as') {s t : σ} {s' : τ} (hs : R s s')
    (hrun : run step s as = some t) :
    outputs step' out' s' as' = outputs step out s as ∧
      ∃ t', run step' s' as' = some t' ∧ R t t' := by
  induction has generalizing s s' with
  | nil =>
    obtain rfl := Option.some.inj hrun
    exact ⟨rfl, s', rfl, hs⟩
  | cons ha _ ih =>
    obtain ⟨u, hu, hrest⟩ := Option.bind_eq_some_iff.mp hrun
    obtain ⟨hout, u', hu', hsame⟩ := hstep _ _ _ _ _ hs ha hu
    obtain ⟨houts, t', ht', hend⟩ := ih hsame hrest
    refine ⟨?_, t', by rw [run_cons, hu', Option.bind_some, ht'], hend⟩
    rw [outputs_cons step out hu, outputs_cons step' out' hu', hout, houts]

end

end VibeAudit.Foundation
