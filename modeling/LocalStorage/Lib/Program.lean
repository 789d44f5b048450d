import Mathlib.Logic.Function.Basic
import Mathlib.Data.List.Basic

namespace LocalStorage.Lib

/-- A sequential computation over a shared state. Each `act` is one atomic step
whose answer has the type `R a`; `fail` ends the computation early. -/
inductive Prog (A : Type) (R : A → Type) (E α : Type) where
  | ret (a : α)
  | fail (e : E)
  | act (a : A) (k : R a → Prog A R E α)

namespace Prog

variable {A : Type} {R : A → Type} {E α β γ : Type}

def bind : Prog A R E α → (α → Prog A R E β) → Prog A R E β
  | ret a, f => f a
  | fail e, _ => fail e
  | act a k, f => act a (fun r => (k r).bind f)

instance : Monad (Prog A R E) where
  pure := ret
  bind := bind

/-- Run `p` and hand its failure to the continuation instead of stopping. -/
def attempt : Prog A R E α → Prog A R E (Except E α)
  | ret a => ret (.ok a)
  | fail e => ret (.error e)
  | act a k => act a (fun r => (k r).attempt)

/-- Errors are translated on the way out. -/
def mapError {E' : Type} (f : E → E') : Prog A R E α → Prog A R E' α
  | ret a => ret a
  | fail e => fail (f e)
  | act a k => act a (fun r => (k r).mapError f)

def ofExcept : Except E α → Prog A R E α
  | .ok a => ret a
  | .error e => fail e

@[simp] theorem ofExcept_ok (a : α) : (ofExcept (.ok a) : Prog A R E α) = ret a := rfl
@[simp] theorem ofExcept_error (e : E) : (ofExcept (.error e) : Prog A R E α) = fail e := rfl
@[simp] theorem attempt_ret (a : α) : (ret a : Prog A R E α).attempt = ret (.ok a) := rfl
@[simp] theorem attempt_fail (e : E) : (fail e : Prog A R E α).attempt = ret (.error e) := rfl

def call (a : A) : Prog A R E (R a) := act a ret

@[simp] theorem pure_eq (a : α) : (pure a : Prog A R E α) = ret a := rfl
@[simp] theorem bind_eq (p : Prog A R E α) (f : α → Prog A R E β) : (p >>= f) = p.bind f := rfl
@[simp] theorem ret_bind (a : α) (f : α → Prog A R E β) : (ret a).bind f = f a := rfl
@[simp] theorem fail_bind (e : E) (f : α → Prog A R E β) :
    (fail e : Prog A R E α).bind f = fail e := rfl
@[simp] theorem act_bind (a : A) (k : R a → Prog A R E α) (f : α → Prog A R E β) :
    (act a k).bind f = act a (fun r => (k r).bind f) := rfl
@[simp] theorem call_bind (a : A) (f : R a → Prog A R E β) :
    (call a).bind f = act a f := rfl

theorem bind_assoc (p : Prog A R E α) (f : α → Prog A R E β) (g : β → Prog A R E γ) :
    (p.bind f).bind g = p.bind (fun a => (f a).bind g) := by
  induction p with
  | ret a => rfl
  | fail e => rfl
  | act a k ih => simp only [act_bind, ih]

/-! ## Running alone -/

section Semantics
variable {C σ : Type} (exec : C → (a : A) → σ → R a × σ)

/-- One run in which the environment makes the same choice at every step. -/
def eval (c : C) : Prog A R E α → σ → Except E α × σ
  | ret a, s => (.ok a, s)
  | fail e, s => (.error e, s)
  | act a k, s => (k (exec c a s).1).eval c (exec c a s).2

/-- `p` started in `s` can end with `x` in `t`; the environment chooses afresh
at every step. -/
def Runs : Prog A R E α → σ → Except E α → σ → Prop
  | ret a, s, x, t => x = .ok a ∧ t = s
  | fail e, s, x, t => x = .error e ∧ t = s
  | act a k, s, x, t => ∃ c, (k (exec c a s).1).Runs (exec c a s).2 x t

/-- Every action of every run of `p` from `s` satisfies `P` in the state it is taken in. -/
def Throughout (P : A → σ → Prop) : Prog A R E α → σ → Prop
  | ret _, _ => True
  | fail _, _ => True
  | act a k, s => P a s ∧ ∀ c, (k (exec c a s).1).Throughout P (exec c a s).2

/-- A run on which every answer is `Good`. -/
def RunsWith (Good : (a : A) → R a → Prop) : Prog A R E α → σ → Except E α → σ → Prop
  | ret a, s, x, t => x = .ok a ∧ t = s
  | fail e, s, x, t => x = .error e ∧ t = s
  | act a k, s, x, t =>
    ∃ c, Good a (exec c a s).1 ∧ (k (exec c a s).1).RunsWith Good (exec c a s).2 x t

variable {exec}

@[simp] theorem runs_ret {a : α} {s t : σ} {x : Except E α} :
    (ret a : Prog A R E α).Runs exec s x t ↔ x = .ok a ∧ t = s := Iff.rfl

@[simp] theorem runs_fail {e : E} {s t : σ} {x : Except E α} :
    (fail e : Prog A R E α).Runs exec s x t ↔ x = .error e ∧ t = s := Iff.rfl

theorem runs_act {a : A} {k : R a → Prog A R E α} {s t : σ} {x : Except E α} :
    (act a k).Runs exec s x t ↔ ∃ c, (k (exec c a s).1).Runs exec (exec c a s).2 x t := Iff.rfl

@[simp] theorem runs_ofExcept {y : Except E α} {s t : σ} {x : Except E α} :
    (ofExcept y : Prog A R E α).Runs exec s x t ↔ x = y ∧ t = s := by
  cases y <;> rfl

/-- A sequence ends where its second part ends, or where its first part failed. -/
theorem runs_bind {p : Prog A R E α} {f : α → Prog A R E β} {s u : σ} {x : Except E β} :
    (p.bind f).Runs exec s x u ↔
      (∃ e, p.Runs exec s (.error e) u ∧ x = .error e) ∨
      ∃ a t, p.Runs exec s (.ok a) t ∧ (f a).Runs exec t x u := by
  induction p generalizing s with
  | ret a => simp [and_assoc]
  | fail e => simp [and_comm]
  | act a k ih =>
    simp only [act_bind, runs_act, ih]
    constructor
    · rintro ⟨c, ⟨e, he, rfl⟩ | ⟨b, t, hb, ht⟩⟩
      · exact .inl ⟨e, ⟨c, he⟩, rfl⟩
      · exact .inr ⟨b, t, ⟨c, hb⟩, ht⟩
    · rintro (⟨e, ⟨c, he⟩, rfl⟩ | ⟨b, t, ⟨c, hb⟩, ht⟩)
      · exact ⟨c, .inl ⟨e, he, rfl⟩⟩
      · exact ⟨c, .inr ⟨b, t, hb, ht⟩⟩

/-- A sequence succeeds only through the success of both parts. -/
theorem runs_bind_ok {p : Prog A R E α} {f : α → Prog A R E β} {s u : σ} {b : β} :
    (p.bind f).Runs exec s (.ok b) u ↔
      ∃ a t, p.Runs exec s (.ok a) t ∧ (f a).Runs exec t (.ok b) u := by
  simp [runs_bind]

theorem runs_attempt {p : Prog A R E α} {s t : σ} {x : Except E (Except E α)} :
    p.attempt.Runs exec s x t ↔ ∃ y, x = .ok y ∧ p.Runs exec s y t := by
  induction p generalizing s with
  | ret a => simp [attempt, and_comm]
  | fail e => simp [attempt, and_comm]
  | act a k ih =>
    simp only [attempt, runs_act, ih]
    exact ⟨fun ⟨c, y, hx, hy⟩ => ⟨y, hx, c, hy⟩, fun ⟨y, hx, c, hy⟩ => ⟨c, y, hx, hy⟩⟩

theorem runs_mapError {E' : Type} {f : E → E'} {p : Prog A R E α} {s t : σ} {x : Except E' α} :
    (p.mapError f).Runs exec s x t ↔ ∃ y, x = y.mapError f ∧ p.Runs exec s y t := by
  induction p generalizing s with
  | ret a => simp [mapError, Except.mapError, and_comm]
  | fail e => simp [mapError, Except.mapError, and_comm]
  | act a k ih =>
    simp only [mapError, runs_act, ih]
    exact ⟨fun ⟨c, y, hx, hy⟩ => ⟨y, hx, c, hy⟩, fun ⟨y, hx, c, hy⟩ => ⟨c, y, hx, hy⟩⟩

/-- What succeeds under translated errors succeeds without. -/
theorem runs_mapError_ok {E' : Type} {f : E → E'} {p : Prog A R E α} {s t : σ} {a : α} :
    (p.mapError f).Runs exec s (.ok a) t ↔ p.Runs exec s (.ok a) t := by
  rw [runs_mapError]
  constructor
  · intro ⟨y, hy, hr⟩
    cases y with
    | ok b =>
      obtain rfl : a = b := by simpa [Except.mapError] using hy
      exact hr
    | error e => simp [Except.mapError] at hy
  · intro hr
    exact ⟨.ok a, rfl, hr⟩

section Good
variable {Good : (a : A) → R a → Prop}

theorem RunsWith.runs {p : Prog A R E α} {s t : σ} {x : Except E α}
    (h : p.RunsWith exec Good s x t) : p.Runs exec s x t := by
  induction p generalizing s with
  | ret a => exact h
  | fail e => exact h
  | act a k ih =>
    obtain ⟨c, -, hc⟩ := h
    exact ⟨c, ih _ hc⟩

@[simp] theorem runsWith_ret {a : α} {s t : σ} {x : Except E α} :
    (ret a : Prog A R E α).RunsWith exec Good s x t ↔ x = .ok a ∧ t = s := Iff.rfl

@[simp] theorem runsWith_fail {e : E} {s t : σ} {x : Except E α} :
    (fail e : Prog A R E α).RunsWith exec Good s x t ↔ x = .error e ∧ t = s := Iff.rfl

theorem runsWith_act {a : A} {k : R a → Prog A R E α} {s t : σ} {x : Except E α} :
    (act a k).RunsWith exec Good s x t ↔
      ∃ c, Good a (exec c a s).1 ∧ (k (exec c a s).1).RunsWith exec Good (exec c a s).2 x t := Iff.rfl

@[simp] theorem runsWith_ofExcept {y : Except E α} {s t : σ} {x : Except E α} :
    (ofExcept y : Prog A R E α).RunsWith exec Good s x t ↔ x = y ∧ t = s := by
  cases y <;> rfl

theorem runsWith_bind {p : Prog A R E α} {f : α → Prog A R E β} {s u : σ} {x : Except E β} :
    (p.bind f).RunsWith exec Good s x u ↔
      (∃ e, p.RunsWith exec Good s (.error e) u ∧ x = .error e) ∨
      ∃ a t, p.RunsWith exec Good s (.ok a) t ∧ (f a).RunsWith exec Good t x u := by
  induction p generalizing s with
  | ret a => simp [and_assoc]
  | fail e => simp [and_comm]
  | act a k ih =>
    simp only [act_bind, runsWith_act, ih]
    constructor
    · rintro ⟨c, hgood, ⟨e, he, rfl⟩ | ⟨b, t, hb, ht⟩⟩
      · exact .inl ⟨e, ⟨c, hgood, he⟩, rfl⟩
      · exact .inr ⟨b, t, ⟨c, hgood, hb⟩, ht⟩
    · rintro (⟨e, ⟨c, hgood, he⟩, rfl⟩ | ⟨b, t, ⟨c, hgood, hb⟩, ht⟩)
      · exact ⟨c, hgood, .inl ⟨e, he, rfl⟩⟩
      · exact ⟨c, hgood, .inr ⟨b, t, hb, ht⟩⟩

theorem runsWith_attempt {p : Prog A R E α} {s t : σ} {x : Except E (Except E α)} :
    p.attempt.RunsWith exec Good s x t ↔ ∃ y, x = .ok y ∧ p.RunsWith exec Good s y t := by
  induction p generalizing s with
  | ret a => simp [attempt, and_comm]
  | fail e => simp [attempt, and_comm]
  | act a k ih =>
    simp only [attempt, runsWith_act, ih]
    exact ⟨fun ⟨c, hgood, y, hx, hy⟩ => ⟨y, hx, c, hgood, hy⟩,
      fun ⟨y, hx, c, hgood, hy⟩ => ⟨c, hgood, y, hx, hy⟩⟩

/-- A sequence succeeds only through the success of both parts. -/
theorem runsWith_bind_ok {p : Prog A R E α} {f : α → Prog A R E β} {s u : σ} {b : β} :
    (p.bind f).RunsWith exec Good s (.ok b) u ↔
      ∃ a t, p.RunsWith exec Good s (.ok a) t ∧ (f a).RunsWith exec Good t (.ok b) u := by
  simp [runsWith_bind]

theorem RunsWith.mapError {E' : Type} {f : E → E'} {p : Prog A R E α} {s t : σ} {x : Except E α}
    (h : p.RunsWith exec Good s x t) : (p.mapError f).RunsWith exec Good s (x.mapError f) t := by
  induction p generalizing s with
  | ret a =>
    obtain ⟨rfl, rfl⟩ := h
    exact ⟨rfl, rfl⟩
  | fail e =>
    obtain ⟨rfl, rfl⟩ := h
    exact ⟨rfl, rfl⟩
  | act a k ih =>
    obtain ⟨c, hgood, hc⟩ := h
    exact ⟨c, hgood, ih _ hc⟩

/-- What succeeds under translated errors succeeds without. -/
theorem runsWith_mapError_ok {E' : Type} {f : E → E'} {p : Prog A R E α} {s t : σ} {a : α} :
    (p.mapError f).RunsWith exec Good s (.ok a) t ↔ p.RunsWith exec Good s (.ok a) t := by
  induction p generalizing s with
  | ret b => simp [mapError]
  | fail e => simp [mapError]
  | act b k ih => simp only [mapError, runsWith_act, ih]

variable (exec Good) in
/-- Whether the run with one choice at every step has good answers only. -/
def clean [∀ a r, Decidable (Good a r)] (c : C) : Prog A R E α → σ → Bool
  | ret _, _ => true
  | fail _, _ => true
  | act a k, s => decide (Good a (exec c a s).1) && (k (exec c a s).1).clean c (exec c a s).2

theorem runsWith_of_clean [∀ a r, Decidable (Good a r)] {c : C} {p : Prog A R E α} {s : σ}
    (h : p.clean exec Good c s = true) :
    p.RunsWith exec Good s (p.eval exec c s).1 (p.eval exec c s).2 := by
  induction p generalizing s with
  | ret a => exact ⟨rfl, rfl⟩
  | fail e => exact ⟨rfl, rfl⟩
  | act a k ih =>
    simp only [clean, Bool.and_eq_true, decide_eq_true_eq] at h
    exact ⟨c, h.1, ih _ h.2⟩

end Good

theorem eval_runs (c : C) (p : Prog A R E α) (s : σ) :
    p.Runs exec s (p.eval exec c s).1 (p.eval exec c s).2 := by
  induction p generalizing s with
  | ret a => exact ⟨rfl, rfl⟩
  | fail e => exact ⟨rfl, rfl⟩
  | act a k ih => exact ⟨c, ih _ _⟩

theorem eval_ok_runs {c : C} {p : Prog A R E α} {s : σ} {q : α → Bool}
    (h : (p.eval exec c s).1.toOption.any q = true) : ∃ a t, p.Runs exec s (.ok a) t ∧ q a = true := by
  have hruns : p.Runs exec s (p.eval exec c s).1 (p.eval exec c s).2 := eval_runs c p s
  cases hx : (p.eval exec c s).1 with
  | error e => simp [hx, Except.toOption] at h
  | ok a =>
    rw [hx] at hruns
    exact ⟨a, _, hruns, by simpa [hx, Except.toOption] using h⟩

/-- A run is a run under every semantics that offers the same answers. -/
theorem Runs.embed {C' : Type} {exec' : C' → (a : A) → σ → R a × σ}
    (hsub : ∀ c' a s, ∃ c, exec c a s = exec' c' a s) {p : Prog A R E α} {s t : σ} {x : Except E α}
    (h : p.Runs exec' s x t) : p.Runs exec s x t := by
  induction p generalizing s with
  | ret a => exact h
  | fail e => exact h
  | act a k ih =>
    obtain ⟨c', hc'⟩ := h
    obtain ⟨c, hc⟩ := hsub c' a s
    exact ⟨c, by rw [hc]; exact ih _ hc'⟩

theorem eval_congr {C' : Type} {exec' : C' → (a : A) → σ → R a × σ} {c : C} {c' : C'}
    (h : ∀ a s, exec' c' a s = exec c a s) (p : Prog A R E α) (s : σ) :
    p.eval exec' c' s = p.eval exec c s := by
  induction p generalizing s with
  | ret a => rfl
  | fail e => rfl
  | act a k ih => simp only [eval, h, ih]

theorem eval_bind (c : C) (p : Prog A R E α) (f : α → Prog A R E β) (s : σ) :
    (p.bind f).eval exec c s =
      match p.eval exec c s with
      | (.ok a, t) => (f a).eval exec c t
      | (.error e, t) => (.error e, t) := by
  induction p generalizing s with
  | ret a => rfl
  | fail e => rfl
  | act a k ih => exact ih _ _

theorem eval_attempt (c : C) (p : Prog A R E α) (s : σ) :
    p.attempt.eval exec c s = (.ok (p.eval exec c s).1, (p.eval exec c s).2) := by
  induction p generalizing s with
  | ret a => rfl
  | fail e => rfl
  | act a k ih => exact ih _ _

@[simp] theorem throughout_ret {P : A → σ → Prop} {a : α} {s : σ} :
    (ret a : Prog A R E α).Throughout exec P s := trivial

@[simp] theorem throughout_fail {P : A → σ → Prop} {e : E} {s : σ} :
    (fail e : Prog A R E α).Throughout exec P s := trivial

theorem throughout_act {P : A → σ → Prop} {a : A} {k : R a → Prog A R E α} {s : σ} :
    (act a k).Throughout exec P s ↔
      P a s ∧ ∀ c, (k (exec c a s).1).Throughout exec P (exec c a s).2 := Iff.rfl

@[simp] theorem throughout_ofExcept {P : A → σ → Prop} {y : Except E α} {s : σ} :
    (ofExcept y : Prog A R E α).Throughout exec P s := by
  cases y <;> trivial

theorem Throughout.mono {P Q : A → σ → Prop} {p : Prog A R E α} {s : σ}
    (h : p.Throughout exec P s) (hpq : ∀ a t, P a t → Q a t) : p.Throughout exec Q s := by
  induction p generalizing s with
  | ret a => trivial
  | fail e => trivial
  | act a k ih => exact ⟨hpq a s h.1, fun c => ih _ (h.2 c)⟩

theorem throughout_bind {P : A → σ → Prop} {p : Prog A R E α} {f : α → Prog A R E β} {s : σ} :
    (p.bind f).Throughout exec P s ↔
      p.Throughout exec P s ∧ ∀ a t, p.Runs exec s (.ok a) t → (f a).Throughout exec P t := by
  induction p generalizing s with
  | ret a => simp
  | fail e => simp
  | act a k ih =>
    simp only [act_bind, throughout_act, runs_act, ih]
    constructor
    · rintro ⟨ha, hk⟩
      exact ⟨⟨ha, fun c => (hk c).1⟩, fun x t ⟨c, hx⟩ => (hk c).2 x t hx⟩
    · rintro ⟨⟨ha, hk⟩, hf⟩
      exact ⟨ha, fun c => ⟨hk c, fun x t hx => hf x t ⟨c, hx⟩⟩⟩

theorem throughout_attempt {P : A → σ → Prop} {p : Prog A R E α} {s : σ} :
    p.attempt.Throughout exec P s ↔ p.Throughout exec P s := by
  induction p generalizing s with
  | ret a => simp [attempt]
  | fail e => simp [attempt]
  | act a k ih => simp only [attempt, throughout_act, ih]

/-! ## Postconditions -/

variable (exec) in
/-- Every run of `p` from `s` ends with a result and a state that satisfy `Q`. -/
def Ensures (p : Prog A R E α) (Q : Except E α → σ → Prop) (s : σ) : Prop :=
  ∀ x t, p.Runs exec s x t → Q x t

@[simp] theorem ensures_ret {a : α} {Q : Except E α → σ → Prop} {s : σ} :
    (ret a).Ensures exec Q s ↔ Q (.ok a) s := by
  simp [Ensures]

@[simp] theorem ensures_fail {e : E} {Q : Except E α → σ → Prop} {s : σ} :
    (fail e).Ensures exec Q s ↔ Q (.error e) s := by
  simp [Ensures]

theorem ensures_act {a : A} {k : R a → Prog A R E α} {Q : Except E α → σ → Prop} {s : σ} :
    (act a k).Ensures exec Q s ↔ ∀ c, (k (exec c a s).1).Ensures exec Q (exec c a s).2 := by
  constructor
  · intro h c x t hx
    exact h x t ⟨c, hx⟩
  · rintro h x t ⟨c, hx⟩
    exact h c x t hx

theorem ensures_bind {p : Prog A R E α} {f : α → Prog A R E β} {Q : Except E β → σ → Prop} {s : σ} :
    (p.bind f).Ensures exec Q s ↔
      p.Ensures exec (fun x t => match x with
        | .ok a => (f a).Ensures exec Q t
        | .error e => Q (.error e) t) s := by
  constructor
  · intro h x t hx
    cases x with
    | ok a => exact fun y u hy => h y u (runs_bind.mpr (.inr ⟨a, t, hx, hy⟩))
    | error e => exact h _ t (runs_bind.mpr (.inl ⟨e, hx, rfl⟩))
  · intro h y u hy
    rcases runs_bind.mp hy with ⟨e, he, rfl⟩ | ⟨a, t, ha, hf⟩
    · exact h _ u he
    · exact h _ t ha y u hf

theorem ensures_attempt {p : Prog A R E α} {Q : Except E (Except E α) → σ → Prop} {s : σ} :
    p.attempt.Ensures exec Q s ↔ p.Ensures exec (fun x t => Q (.ok x) t) s := by
  constructor
  · intro h x t hx
    exact h _ t (runs_attempt.mpr ⟨x, rfl, hx⟩)
  · intro h y t hy
    obtain ⟨x, rfl, hx⟩ := runs_attempt.mp hy
    exact h x t hx

/-- The rule of consequence. -/
theorem Ensures.mono {p : Prog A R E α} {P Q : Except E α → σ → Prop} {s : σ}
    (h : p.Ensures exec P s) (hpq : ∀ x t, P x t → Q x t) : p.Ensures exec Q s :=
  fun x t hx => hpq x t (h x t hx)

end Semantics

/-! ## Programs that use only some actions -/

/-- Every action of `p`, under whatever answers, satisfies `P`. -/
def Uses (P : A → Prop) : Prog A R E α → Prop
  | ret _ => True
  | fail _ => True
  | act a k => P a ∧ ∀ r, (k r).Uses P

@[simp] theorem uses_ret {P : A → Prop} (a : α) : (ret a : Prog A R E α).Uses P := trivial
@[simp] theorem uses_fail {P : A → Prop} (e : E) : (fail e : Prog A R E α).Uses P := trivial
@[simp] theorem uses_act {P : A → Prop} {a : A} {k : R a → Prog A R E α} :
    (act a k).Uses P ↔ P a ∧ ∀ r, (k r).Uses P := Iff.rfl

@[simp] theorem uses_ofExcept {P : A → Prop} (x : Except E α) :
    (ofExcept x : Prog A R E α).Uses P := by
  cases x <;> trivial

theorem Uses.bind {P : A → Prop} {p : Prog A R E α} {f : α → Prog A R E β}
    (hp : p.Uses P) (hf : ∀ a, (f a).Uses P) : (p.bind f).Uses P := by
  induction p with
  | ret a => exact hf a
  | fail e => trivial
  | act a k ih => exact ⟨hp.1, fun r => ih r (hp.2 r)⟩

theorem Uses.attempt {P : A → Prop} {p : Prog A R E α} (hp : p.Uses P) : p.attempt.Uses P := by
  induction p with
  | ret a => trivial
  | fail e => trivial
  | act a k ih => exact ⟨hp.1, fun r => ih r (hp.2 r)⟩

theorem Uses.mapError {E' : Type} {P : A → Prop} {f : E → E'} {p : Prog A R E α} (hp : p.Uses P) :
    (p.mapError f).Uses P := by
  induction p with
  | ret a => trivial
  | fail e => trivial
  | act a k ih => exact ⟨hp.1, fun r => ih r (hp.2 r)⟩

theorem Uses.mono {P Q : A → Prop} {p : Prog A R E α} (hp : p.Uses P) (h : ∀ a, P a → Q a) :
    p.Uses Q := by
  induction p with
  | ret a => trivial
  | fail e => trivial
  | act a k ih => exact ⟨h a hp.1, fun r => ih r (hp.2 r)⟩

section Frames
variable {C σ : Type} {exec : C → (a : A) → σ → R a × σ}

/-- A preorder on states that every used action respects relates the ends of a run. -/
theorem Runs.frame {P : A → Prop} {Rel : σ → σ → Prop} (refl : ∀ s, Rel s s)
    (trans : ∀ s t u, Rel s t → Rel t u → Rel s u)
    (step : ∀ c a s, P a → Rel s (exec c a s).2)
    {p : Prog A R E α} (hp : p.Uses P) {s t : σ} {x : Except E α}
    (h : p.Runs exec s x t) : Rel s t := by
  induction p generalizing s with
  | ret a => exact h.2 ▸ refl s
  | fail e => exact h.2 ▸ refl s
  | act a k ih =>
    obtain ⟨c, hc⟩ := h
    exact trans _ _ _ (step c a s hp.1) (ih _ (hp.2 _) hc)

/-- Actions whose answers are all good give good runs. -/
theorem Runs.runsWith {P : A → Prop} {Good : (a : A) → R a → Prop} (hgood : ∀ a r, P a → Good a r)
    {p : Prog A R E α} (hp : p.Uses P) {s t : σ} {x : Except E α} (h : p.Runs exec s x t) :
    p.RunsWith exec Good s x t := by
  induction p generalizing s with
  | ret a => exact h
  | fail e => exact h
  | act a k ih =>
    obtain ⟨c, hc⟩ := h
    exact ⟨c, hgood a _ hp.1, ih _ (hp.2 _) hc⟩

/-- Answers only have to be good where they are asked for. -/
theorem RunsWith.imp {P : A → Prop} {Good Good' : (a : A) → R a → Prop}
    (himp : ∀ a r, P a → Good a r → Good' a r) {p : Prog A R E α} (hp : p.Uses P) {s t : σ}
    {x : Except E α} (h : p.RunsWith exec Good s x t) : p.RunsWith exec Good' s x t := by
  induction p generalizing s with
  | ret a => exact h
  | fail e => exact h
  | act a k ih =>
    obtain ⟨c, hgood, hc⟩ := h
    exact ⟨c, himp a _ hp.1 hgood, ih _ (hp.2 _) hc⟩

/-- What every used action keeps, a run keeps. -/
theorem Runs.keeps {P : A → Prop} {I : σ → Prop} (step : ∀ c a s, P a → I s → I (exec c a s).2)
    {p : Prog A R E α} (hp : p.Uses P) {s t : σ} {x : Except E α} (h : p.Runs exec s x t)
    (hs : I s) : I t := by
  induction p generalizing s with
  | ret a => exact h.2 ▸ hs
  | fail e => exact h.2 ▸ hs
  | act a k ih =>
    obtain ⟨c, hc⟩ := h
    exact ih _ (hp.2 _) hc (step c a s hp.1 hs)

/-- An invariant of every action is an invariant of every run. -/
theorem Runs.invariant {I : σ → Prop} (step : ∀ c a s, I s → I (exec c a s).2)
    {p : Prog A R E α} {s t : σ} {x : Except E α} (h : p.Runs exec s x t) (hs : I s) : I t := by
  induction p generalizing s with
  | ret a => exact h.2 ▸ hs
  | fail e => exact h.2 ▸ hs
  | act a k ih =>
    obtain ⟨c, hc⟩ := h
    exact ih _ hc (step c a s hs)

/-- Two states that no used action tells apart give the same runs. -/
theorem Runs.simulate {P : A → Prop} {Rel : σ → σ → Prop}
    (step : ∀ c a s s', P a → Rel s s' →
      (exec c a s').1 = (exec c a s).1 ∧ Rel (exec c a s).2 (exec c a s').2)
    {p : Prog A R E α} (hp : p.Uses P) {s s' t : σ} {x : Except E α} (h : p.Runs exec s x t)
    (hs : Rel s s') : ∃ t', p.Runs exec s' x t' ∧ Rel t t' := by
  induction p generalizing s s' with
  | ret a => exact ⟨s', ⟨h.1, rfl⟩, h.2 ▸ hs⟩
  | fail e => exact ⟨s', ⟨h.1, rfl⟩, h.2 ▸ hs⟩
  | act a k ih =>
    obtain ⟨c, hc⟩ := h
    obtain ⟨hsame, hrel⟩ := step c a s s' hp.1 hs
    obtain ⟨t', ht', hrel'⟩ := ih _ (hp.2 _) hc hrel
    exact ⟨t', ⟨c, by rwa [hsame]⟩, hrel'⟩

theorem Uses.throughout {P : A → Prop} {Q : A → σ → Prop} {p : Prog A R E α} (hp : p.Uses P)
    (h : ∀ a s, P a → Q a s) (s : σ) : p.Throughout exec Q s := by
  induction p generalizing s with
  | ret a => trivial
  | fail e => trivial
  | act a k ih => exact ⟨h a s hp.1, fun c => ih _ (hp.2 _) _⟩

end Frames

/-! ## Programs that keep a relation between their ends -/

section Relating
variable {C σ : Type} {exec : C → (a : A) → σ → R a × σ} {Rel : σ → σ → Prop}

variable (exec Rel) in
/-- Wherever `p` starts and however it ends, the two states are related. -/
def Relates (p : Prog A R E α) : Prop := ∀ s, p.Ensures exec (fun _ t => Rel s t) s

theorem Relates.of_uses {P : A → Prop} (refl : ∀ s, Rel s s)
    (trans : ∀ s t u, Rel s t → Rel t u → Rel s u) (step : ∀ c a s, P a → Rel s (exec c a s).2)
    {p : Prog A R E α} (hp : p.Uses P) : p.Relates exec Rel :=
  fun _ _ _ h => h.frame refl trans step hp

theorem Relates.bind (trans : ∀ s t u, Rel s t → Rel t u → Rel s u) {p : Prog A R E α}
    {f : α → Prog A R E β} (hp : p.Relates exec Rel) (hf : ∀ a, (f a).Relates exec Rel) :
    (p.bind f).Relates exec Rel := by
  intro s
  rw [ensures_bind]
  refine (hp s).mono fun x t hx => ?_
  cases x with
  | error e => exact hx
  | ok a => exact (hf a t).mono fun _ u hu => trans s t u hx hu

theorem Relates.attempt {p : Prog A R E α} (hp : p.Relates exec Rel) :
    p.attempt.Relates exec Rel := by
  intro s
  rw [ensures_attempt]
  exact hp s

end Relating

end Prog

end LocalStorage.Lib
