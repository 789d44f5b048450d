import Mathlib.Data.List.Basic

namespace LocalStorage.Lib

/-! Runs of a labelled transition system in which every step, seen from the state it
starts in, satisfies a guard. -/

section
variable {σ ε : Type} (T : ε → σ → σ → Prop) (P : σ → ε → Prop)

inductive Run : σ → List ε → σ → Prop where
  | nil (s : σ) : Run s [] s
  | snoc {s t u : σ} {es : List ε} {e : ε} :
      Run s es t → P t e → T e t u → Run s (es ++ [e]) u

variable {T P}

/-- What every step of the run preserves holds at its end. -/
theorem Run.invariant {I : σ → Prop} {s t : σ} {es : List ε} (h : Run T P s es t) (hs : I s)
    (step : ∀ e ∈ es, ∀ u v, I u → P u e → T e u v → I v) : I t := by
  induction h with
  | nil => exact hs
  | snoc _ hp ht ih =>
    refine step _ (by simp) _ _ (ih fun e he => step e ?_) hp ht
    exact List.mem_append_left _ he

theorem Run.append {s t u : σ} {es es' : List ε} (h : Run T P s es t) (h' : Run T P t es' u) :
    Run T P s (es ++ es') u := by
  induction h' with
  | nil => rwa [List.append_nil]
  | snoc _ hp ht ih =>
    rw [← List.append_assoc]
    exact .snoc ih hp ht

/-- What every guarded step does can be read into the steps of the run. -/
theorem Run.annotate {T' : ε → σ → σ → Prop} {s t : σ} {es : List ε} (h : Run T P s es t)
    (step : ∀ e u v, P u e → T e u v → T' e u v) : Run T' P s es t := by
  induction h with
  | nil => exact .nil s
  | snoc _ hp ht ih => exact .snoc ih hp (step _ _ _ hp ht)

/-- The steps under other labels, in a system that has them too. -/
theorem Run.map {φ : Type} {T' : φ → σ → σ → Prop} {P' : σ → φ → Prop} {s t : σ} {es : List ε}
    (g : ε → φ) (h : Run T P s es t) (hp : ∀ u e, P u e → P' u (g e))
    (step : ∀ e u v, T e u v → T' (g e) u v) : Run T' P' s (es.map g) t := by
  induction h with
  | nil => exact .nil s
  | snoc _ hpe ht ih =>
    rw [List.map_append]
    exact .snoc ih (hp _ _ hpe) (step _ _ _ ht)

/-- Forward simulation: when every guarded step is matched from every related state, the run is
one of the other system, label by label. -/
theorem Run.simulate {τ : Type} {T' : ε → τ → τ → Prop} {Rel : σ → τ → Prop} {s t : σ} {s' : τ}
    {es : List ε} (h : Run T P s es t) (hs : Rel s s')
    (step : ∀ e u v u', P u e → T e u v → Rel u u' → ∃ v', T' e u' v' ∧ Rel v v') :
    ∃ t', Run T' (fun _ _ => True) s' es t' ∧ Rel t t' := by
  induction h with
  | nil => exact ⟨s', .nil s', hs⟩
  | snoc _ hp ht ih =>
    obtain ⟨u', hrun, hrel⟩ := ih
    obtain ⟨v', hstep, hrel'⟩ := step _ _ _ u' hp ht hrel
    exact ⟨v', .snoc hrun trivial hstep, hrel'⟩

end

end LocalStorage.Lib
