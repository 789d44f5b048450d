import LocalStorage.Lib.Panics
import LocalStorage.Lib.Relay
import LocalStorage.Lib.Runs

namespace LocalStorage.Lib

/-! # A pool of running programs

Programs arrive at any time and take their steps in any order. -/

namespace Prog
variable {A : Type} {R : A → Type} {E E' α β : Type}

/-- A program whose result nobody waits for. -/
def discard : Prog A R E α → Prog A R Unit Unit
  | ret _ => ret ()
  | fail _ => fail ()
  | act a k => act a (fun r => (k r).discard)

theorem discard_mapError (f : E → E') (p : Prog A R E α) : (p.mapError f).discard = p.discard := by
  induction p with
  | ret a => rfl
  | fail e => rfl
  | act a k ih => simp only [mapError, discard, ih]

theorem discard_lifted (p : Prog A R E α) : p.lifted.discard = p.discard := discard_mapError Stop.error p

theorem Uses.discard {P : A → Prop} {p : Prog A R E α} (hp : p.Uses P) : p.discard.Uses P := by
  induction p with
  | ret a => trivial
  | fail e => trivial
  | act a k ih => exact ⟨hp.1, fun r => ih r (hp.2 r)⟩

/-! ## Promises -/

/-- As long as every answer is one of `Heard`, every action is one of `Asked`. -/
def Honours (Heard : (a : A) → R a → Prop) (Asked : A → Prop) : Prog A R E α → Prop
  | ret _ => True
  | fail _ => True
  | act a k => Asked a ∧ ∀ r, Heard a r → (k r).Honours Heard Asked

variable {Heard : (a : A) → R a → Prop} {Asked : A → Prop}

@[simp] theorem honours_ret (a : α) : (ret a : Prog A R E α).Honours Heard Asked := trivial

@[simp] theorem honours_fail (e : E) : (fail e : Prog A R E α).Honours Heard Asked := trivial

@[simp] theorem honours_ofExcept (x : Except E α) :
    (ofExcept x : Prog A R E α).Honours Heard Asked := by
  cases x <;> trivial

@[simp] theorem honours_unwrap (x : Option α) :
    (unwrap x : Prog A R (Stop E) α).Honours Heard Asked := by
  cases x <;> trivial

theorem Honours.bind {p : Prog A R E α} {f : α → Prog A R E β} (hp : p.Honours Heard Asked)
    (hf : ∀ a, (f a).Honours Heard Asked) : (p.bind f).Honours Heard Asked := by
  induction p with
  | ret a => exact hf a
  | fail e => trivial
  | act a k ih => exact ⟨hp.1, fun r hr => ih r (hp.2 r hr)⟩

/-- Whatever the answers are, what it returns is one of `Q`. -/
def Yields (Q : α → Prop) : Prog A R E α → Prop
  | ret a => Q a
  | fail _ => True
  | act _ k => ∀ r, (k r).Yields Q

theorem Yields.bind {P : α → Prop} {Q : β → Prop} {p : Prog A R E α} {f : α → Prog A R E β}
    (hp : p.Yields P) (hf : ∀ a, P a → (f a).Yields Q) : (p.bind f).Yields Q := by
  induction p with
  | ret a => exact hf a hp
  | fail e => trivial
  | act a k ih => exact fun r => ih r (hp r)

theorem yields_ofExcept {Q : α → Prop} {x : Except E α} (h : ∀ a, x = .ok a → Q a) :
    (ofExcept x : Prog A R E α).Yields Q := by
  cases x with
  | ok a => exact h a rfl
  | error e => trivial

/-- The second part has to promise only for what the first returns. -/
theorem Honours.bind_of {Q : α → Prop} {p : Prog A R E α} {f : α → Prog A R E β}
    (hp : p.Honours Heard Asked) (hq : p.Yields Q) (hf : ∀ a, Q a → (f a).Honours Heard Asked) :
    (p.bind f).Honours Heard Asked := by
  induction p with
  | ret a => exact hf a hq
  | fail e => trivial
  | act a k ih => exact ⟨hp.1, fun r hr => ih r (hp.2 r hr) (hq r)⟩

theorem Honours.mapError {f : E → E'} {p : Prog A R E α} (hp : p.Honours Heard Asked) :
    (p.mapError f).Honours Heard Asked := by
  induction p with
  | ret a => trivial
  | fail e => trivial
  | act a k ih => exact ⟨hp.1, fun r hr => ih r (hp.2 r hr)⟩

theorem Honours.attempt {p : Prog A R E α} (hp : p.Honours Heard Asked) :
    p.attempt.Honours Heard Asked := by
  induction p with
  | ret a => trivial
  | fail e => trivial
  | act a k ih => exact ⟨hp.1, fun r hr => ih r (hp.2 r hr)⟩

theorem Honours.discard {p : Prog A R E α} (hp : p.Honours Heard Asked) :
    p.discard.Honours Heard Asked := by
  induction p with
  | ret a => trivial
  | fail e => trivial
  | act a k ih => exact ⟨hp.1, fun r hr => ih r (hp.2 r hr)⟩

/-- What a program promises, it promises as a part of a larger service, which asks and answers
in its own words. -/
theorem Honours.relay {A' : Type} {R' : A' → Type} {f : A → A'} {back : ∀ a, R' (f a) → R a}
    {Heard' : (a : A') → R' a → Prop} {Asked' : A' → Prop} {p : Prog A R E α}
    (hp : p.Honours Heard Asked) (hask : ∀ a, Asked a → Asked' (f a))
    (hhear : ∀ a r, Heard' (f a) r → Heard a (back a r)) :
    (p.relay f back).Honours Heard' Asked' := by
  induction p with
  | ret a => trivial
  | fail e => trivial
  | act a k ih => exact ⟨hask a hp.1, fun r hr => ih _ (hp.2 _ (hhear a r hr))⟩

theorem Uses.honours {P : A → Prop} {p : Prog A R E α} (hp : p.Uses P) (h : ∀ a, P a → Asked a) :
    p.Honours Heard Asked := by
  induction p with
  | ret a => trivial
  | fail e => trivial
  | act a k ih => exact ⟨h a hp.1, fun r _ => ih r (hp.2 r)⟩

/-- Where every action may be taken, nothing has to be promised. -/
theorem honours_of_free (h : ∀ a, Asked a) (p : Prog A R E α) : p.Honours Heard Asked := by
  induction p with
  | ret a => trivial
  | fail e => trivial
  | act a k ih => exact ⟨h a, fun r _ => ih r⟩

end Prog

/-! ## The pool -/

section
variable {A : Type} {R : A → Type} {C ε σ : Type}

abbrev Task (A : Type) (R : A → Type) : Type := Prog A R Unit Unit

inductive PoolEvent (A : Type) (R : A → Type) (ε : Type) where
  | arrive (p : Task A R)
  /-- The program at this place takes a step. -/
  | act (i : Nat)
  /-- The state changes by itself. -/
  | environment (e : ε)

abbrev Pool (A : Type) (R : A → Type) (σ : Type) : Type := List (Task A R) × σ

variable (exec : C → (a : A) → σ → R a × σ) (env : ε → σ → σ → Prop)

def PoolEvent.Transition : PoolEvent A R ε → Pool A R σ → Pool A R σ → Prop
  | arrive p, s, t => t = (s.1 ++ [p], s.2)
  | act i, s, t => ∃ a k c, s.1[i]? = some (.act a k) ∧
      t = (s.1.set i (k (exec c a s.2).1), (exec c a s.2).2)
  | environment e, s, t => t.1 = s.1 ∧ env e s.2 t.2

abbrev PoolRun (P : Pool A R σ → PoolEvent A R ε → Prop) :=
  Run (PoolEvent.Transition exec env) P

variable {exec env}

/-- What holds of the state and, of another kind, of every program in the pool, when every
arrival, every step and the environment keep both. -/
theorem Run.pool {P : Pool A R σ → PoolEvent A R ε → Prop} {I : σ → Prop} {Fit : Task A R → Prop}
    {s t : Pool A R σ} {es : List (PoolEvent A R ε)} (h : PoolRun exec env P s es t) (hs : I s.2)
    (hfit : ∀ p ∈ s.1, Fit p) (arrive : ∀ s p, P s (.arrive p) → Fit p)
    (act : ∀ s i a k c, P s (.act i) → s.1[i]? = some (.act a k) → Fit (.act a k) → I s.2 →
      I (exec c a s.2).2 ∧ Fit (k (exec c a s.2).1))
    (environment : ∀ e u v, env e u v → I u → I v) : I t.2 ∧ ∀ p ∈ t.1, Fit p := by
  refine h.invariant (I := fun s => I s.2 ∧ ∀ p ∈ s.1, Fit p) ⟨hs, hfit⟩ ?_
  intro e _ u v hu hp ht
  obtain ⟨hi, hall⟩ := hu
  cases e with
  | arrive p =>
    obtain rfl : v = (u.1 ++ [p], u.2) := ht
    refine ⟨hi, fun q hq => ?_⟩
    obtain hq | hq := List.mem_append.mp hq
    · exact hall q hq
    · exact List.mem_singleton.mp hq ▸ arrive u p hp
  | act i =>
    obtain ⟨a, k, c, hget, rfl⟩ := ht
    have hcurrent : Fit (.act a k) := hall _ (List.mem_of_getElem? hget)
    obtain ⟨hi', hnext⟩ := act u i a k c hp hget hcurrent hi
    refine ⟨hi', fun q hq => ?_⟩
    obtain hq | rfl := List.mem_or_eq_of_mem_set hq
    · exact hall q hq
    · exact hnext
  | environment e =>
    obtain ⟨hsame, hchange⟩ : v.1 = u.1 ∧ env e u.2 v.2 := ht
    exact ⟨environment e _ _ hchange hi, fun q hq => hall q (hsame ▸ hq)⟩

/-- The steps of one program on its own are a run of the pool. -/
theorem Prog.Runs.pooled {E α : Type} {P : Pool A R σ → PoolEvent A R ε → Prop}
    {p : Prog A R E α} {s t : σ} {x : Except E α} (h : p.Runs exec s x t)
    (hp : ∀ s i, P s (.act i)) :
    ∃ es ps, PoolRun exec env P ([p.discard], s) es (ps, t) := by
  induction p generalizing s with
  | ret a => exact ⟨[], [.ret ()], h.2 ▸ .nil _⟩
  | fail e => exact ⟨[], [.fail ()], h.2 ▸ .nil _⟩
  | act a k ih =>
    obtain ⟨c, hc⟩ := h
    obtain ⟨es, ps, hrun⟩ := ih _ hc
    have hstep : PoolEvent.Transition exec env (.act 0) ([(Prog.act a k).discard], s)
        ([(k (exec c a s).1).discard], (exec c a s).2) :=
      ⟨a, fun r => (k r).discard, c, rfl, rfl⟩
    exact ⟨_, ps, (Run.snoc (.nil _) (hp _ 0) hstep).append hrun⟩

end

end LocalStorage.Lib
