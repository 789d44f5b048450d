import LocalStorage.Lib.Program
import Mathlib.Algebra.Group.Nat.Defs

namespace LocalStorage.Lib

/-! # Arithmetic that must not wrap, and programs that panic where it would -/

namespace Checked

/-- Subtraction of unsigned numbers. -/
def sub (a b : Nat) : Option Nat := if b ≤ a then some (a - b) else none

/-- Addition of unsigned numbers of 64 bits. -/
def add (a b : Nat) : Option Nat := if a + b < 2 ^ 64 then some (a + b) else none

/-- `xs[start..=stop]`. -/
def slice {α : Type} (xs : List α) (start stop : Nat) : Option (List α) :=
  if start ≤ stop + 1 ∧ stop < xs.length then some ((xs.drop start).take (stop + 1 - start)) else none

theorem sub_of_le {a b : Nat} (h : b ≤ a) : sub a b = some (a - b) := if_pos h

theorem add_of_lt {a b : Nat} (h : a + b < 2 ^ 64) : add a b = some (a + b) := if_pos h

theorem slice_of_bounds {α : Type} {xs : List α} {start stop : Nat} (hle : start ≤ stop + 1)
    (hlt : stop < xs.length) : slice xs start stop = some ((xs.drop start).take (stop + 1 - start)) :=
  if_pos ⟨hle, hlt⟩

end Checked

/-- How a computation ends that has no result. -/
inductive Stop (E : Type) where
  | panic
  | error (e : E)
deriving DecidableEq, Repr

namespace Prog
variable {A : Type} {R : A → Type} {E α β : Type}

/-- A program that does not panic among those that may. -/
def lifted (p : Prog A R E α) : Prog A R (Stop E) α := p.mapError .error

/-- A missing value is a panic. -/
def unwrap : Option α → Prog A R (Stop E) α
  | some a => ret a
  | none => fail .panic

/-- Errors are handed on as results; a panic is not caught. -/
def catchErrors : Prog A R (Stop E) α → Prog A R (Stop E) (Except E α)
  | ret a => ret (.ok a)
  | fail (.error e) => ret (.error e)
  | fail .panic => fail .panic
  | act a k => act a (fun r => (k r).catchErrors)

@[simp] theorem lifted_ret (a : α) : (ret a : Prog A R E α).lifted = ret a := rfl

@[simp] theorem lifted_fail (e : E) : (fail e : Prog A R E α).lifted = fail (.error e) := rfl

@[simp] theorem unwrap_some (a : α) : (unwrap (some a) : Prog A R (Stop E) α) = ret a := rfl

section Semantics
variable {C σ : Type} {exec : C → (a : A) → σ → R a × σ}

theorem runs_lifted {p : Prog A R E α} {s t : σ} {x : Except (Stop E) α} :
    p.lifted.Runs exec s x t ↔ ∃ y, x = y.mapError .error ∧ p.Runs exec s y t := runs_mapError

/-- Only the result is put into another form at the end. -/
theorem runs_bind_ret {p : Prog A R E α} {f : α → β} {s t : σ} {x : Except E β} :
    (p.bind fun a => ret (f a)).Runs exec s x t ↔ ∃ y, x = y.map f ∧ p.Runs exec s y t := by
  rw [runs_bind]
  constructor
  · rintro (⟨e, he, rfl⟩ | ⟨a, u, ha, rfl, rfl⟩)
    · exact ⟨.error e, rfl, he⟩
    · exact ⟨.ok a, rfl, ha⟩
  · rintro ⟨y, rfl, hy⟩
    cases y with
    | error e => exact .inl ⟨e, hy, rfl⟩
    | ok a => exact .inr ⟨a, t, hy, rfl, rfl⟩

end Semantics

theorem lifted_bind (p : Prog A R E α) (f : α → Prog A R E β) :
    (p.bind f).lifted = p.lifted.bind (fun a => (f a).lifted) := by
  induction p with
  | ret a => rfl
  | fail e => rfl
  | act a k ih =>
    simp only [lifted] at ih
    simp only [lifted, act_bind, mapError, ih]

theorem lifted_attempt (p : Prog A R E α) : p.attempt.lifted = p.lifted.catchErrors := by
  induction p with
  | ret a => rfl
  | fail e => rfl
  | act a k ih =>
    simp only [lifted] at ih
    simp only [lifted, attempt, mapError, catchErrors, ih]

end Prog

end LocalStorage.Lib
