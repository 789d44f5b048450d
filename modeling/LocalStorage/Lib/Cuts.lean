import LocalStorage.Lib.Program

namespace LocalStorage.Lib.Prog

/-! # Programs stopped half-way -/

section
variable {A : Type} {R : A → Type} {E α C σ : Type} {exec : C → (a : A) → σ → R a × σ}

variable (exec) in
/-- `p` started in `s` can be in `t` when it is stopped: before a step, or at its end. -/
def Cut : Prog A R E α → σ → σ → Prop
  | ret _, s, t => t = s
  | fail _, s, t => t = s
  | act a k, s, t => t = s ∨ ∃ c, (k (exec c a s).1).Cut (exec c a s).2 t

variable (exec) in
/-- Where `p` is after at most `n` steps of one choice each. -/
def after : List C → Prog A R E α → σ → σ
  | [], _, s => s
  | _, ret _, s => s
  | _, fail _, s => s
  | c :: cs, act a k, s => (k (exec c a s).1).after cs (exec c a s).2

theorem cut_after (cs : List C) (p : Prog A R E α) (s : σ) : p.Cut exec s (p.after exec cs s) := by
  induction cs generalizing p s with
  | nil =>
    cases p with
    | ret a => rfl
    | fail e => rfl
    | act a k => exact .inl rfl
  | cons c cs ih =>
    cases p with
    | ret a => rfl
    | fail e => rfl
    | act a k => exact .inr ⟨c, ih _ _⟩

variable {Rel : σ → σ → Prop}

/-- Where every action has a way to leave the state as it is, up to `Rel`, a program can come
to its end without getting anywhere. -/
theorem stalls (refl : ∀ s, Rel s s) (trans : ∀ s t u, Rel s t → Rel t u → Rel s u)
    (stall : ∀ a s, ∃ c, Rel s (exec c a s).2) (p : Prog A R E α) (s : σ) :
    ∃ x u, p.Runs exec s x u ∧ Rel s u := by
  induction p generalizing s with
  | ret a => exact ⟨.ok a, s, ⟨rfl, rfl⟩, refl s⟩
  | fail e => exact ⟨.error e, s, ⟨rfl, rfl⟩, refl s⟩
  | act a k ih =>
    obtain ⟨c, hc⟩ := stall a s
    obtain ⟨x, u, hrun, hrel⟩ := ih (exec c a s).1 (exec c a s).2
    exact ⟨x, u, ⟨c, hrun⟩, trans _ _ _ hc hrel⟩

/-- A program that is stopped leaves what some complete run leaves, up to `Rel`: the steps it
did not come to are the stalled ones. -/
theorem Cut.completes (refl : ∀ s, Rel s s) (trans : ∀ s t u, Rel s t → Rel t u → Rel s u)
    (stall : ∀ a s, ∃ c, Rel s (exec c a s).2) {p : Prog A R E α} {s t : σ} (h : p.Cut exec s t) :
    ∃ x u, p.Runs exec s x u ∧ Rel t u := by
  induction p generalizing s with
  | ret a =>
    obtain rfl := h
    exact ⟨.ok a, t, ⟨rfl, rfl⟩, refl t⟩
  | fail e =>
    obtain rfl := h
    exact ⟨.error e, t, ⟨rfl, rfl⟩, refl t⟩
  | act a k ih =>
    cases h with
    | inl hstart =>
      obtain rfl := hstart
      exact stalls refl trans stall _ _
    | inr hlater =>
      obtain ⟨c, hc⟩ := hlater
      obtain ⟨x, u, hrun, hrel⟩ := ih _ hc
      exact ⟨x, u, ⟨c, hrun⟩, hrel⟩

end

end LocalStorage.Lib.Prog
