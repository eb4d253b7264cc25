import Mathlib.Tactic.Common

/-! Runs of steps each of which may fail. -/
namespace OptionRuns

/-- What every step of a run keeps, the run keeps. -/
theorem foldlM_invariant {σ ε : Type*} {f : σ → ε → Option σ} {P : σ → Prop} {es : List ε}
    (hstep : ∀ e ∈ es, ∀ s s', P s → f s e = some s' → P s') {s s' : σ} (h : P s)
    (hrun : es.foldlM f s = some s') : P s' := by
  induction es generalizing s with
  | nil =>
    cases hrun
    exact h
  | cons e es ih =>
    obtain ⟨s₁, h₁, hrun⟩ := Option.bind_eq_some_iff.mp hrun
    refine ih (fun e he => hstep e (List.mem_cons_of_mem _ he)) ?_ hrun
    exact hstep e List.mem_cons_self s s₁ h h₁

end OptionRuns
