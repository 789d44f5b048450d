import LocalStorage.Lib.Program

namespace LocalStorage.Lib

/-! # Programs inside larger services, and what their steps cost -/

namespace Prog
variable {A A' : Type} {R : A → Type} {R' : A' → Type} {E α β : Type} {f : A → A'}
  {back : ∀ a, R' (f a) → R a}

/-- The same program with its steps taken as steps of a larger service. -/
def relay (f : A → A') (back : ∀ a, R' (f a) → R a) : Prog A R E α → Prog A' R' E α
  | ret a => ret a
  | fail e => fail e
  | act a k => act (f a) fun r => (k (back a r)).relay f back

@[simp] theorem relay_ret (a : α) :
    ((ret a : Prog A R E α).relay f back : Prog A' R' E α) = ret a := rfl

@[simp] theorem relay_fail (e : E) :
    ((fail e : Prog A R E α).relay f back : Prog A' R' E α) = fail e := rfl

@[simp] theorem relay_act (a : A) (k : R a → Prog A R E α) :
    (act a k).relay f back = act (f a) fun r => (k (back a r)).relay f back := rfl

@[simp] theorem relay_ofExcept (x : Except E α) :
    ((ofExcept x : Prog A R E α).relay f back : Prog A' R' E α) = ofExcept x := by
  cases x <;> rfl

@[simp] theorem relay_bind (p : Prog A R E α) (g : α → Prog A R E β) :
    (p.bind g).relay f back = (p.relay f back).bind fun a => (g a).relay f back := by
  induction p with
  | ret a => rfl
  | fail e => rfl
  | act a k ih => simp only [act_bind, relay_act, ih]

theorem uses_relay {P' : A' → Prop} (h : ∀ a, P' (f a)) (p : Prog A R E α) :
    (p.relay f back).Uses P' := by
  induction p with
  | ret a => trivial
  | fail e => trivial
  | act a k ih => exact ⟨h a, fun r => ih _⟩

/-- A run is one of the larger service, when that answers alike. -/
theorem Runs.relay {C C' σ : Type} {exec : C → (a : A) → σ → R a × σ}
    {exec' : C' → (a : A') → σ → R' a × σ} {p : Prog A R E α} {s t : σ} {x : Except E α}
    (h : p.Runs exec s x t)
    (hstep : ∀ c a s, ∃ c', (back a (exec' c' (f a) s).1, (exec' c' (f a) s).2) = exec c a s) :
    (p.relay f back).Runs exec' s x t := by
  induction p generalizing s with
  | ret a => exact h
  | fail e => exact h
  | act a k ih =>
    obtain ⟨c, hc⟩ := h
    obtain ⟨c', hsame⟩ := hstep c a s
    rw [← hsame] at hc
    exact ⟨c', ih _ hc⟩

section Cost
variable {C σ : Type} (exec : C → (a : A) → σ → R a × σ) (cost : (a : A) → R a → Nat)

/-- The semantics that adds up what the steps cost. -/
def metered (c : C) (a : A) (s : σ × Nat) : R a × (σ × Nat) :=
  ((exec c a s.1).1, (exec c a s.1).2, s.2 + cost a (exec c a s.1).1)

variable {exec cost}

theorem Runs.metered {p : Prog A R E α} {s t : σ} {x : Except E α} (h : p.Runs exec s x t) (n : Nat) :
    ∃ m, p.Runs (metered exec cost) (s, n) x (t, m) := by
  induction p generalizing s n with
  | ret a =>
    obtain ⟨rfl, rfl⟩ := h
    exact ⟨n, rfl, rfl⟩
  | fail e =>
    obtain ⟨rfl, rfl⟩ := h
    exact ⟨n, rfl, rfl⟩
  | act a k ih =>
    obtain ⟨c, hc⟩ := h
    obtain ⟨m, hm⟩ := ih _ hc (n + cost a (exec c a s).1)
    exact ⟨m, c, hm⟩

end Cost

end Prog

end LocalStorage.Lib
