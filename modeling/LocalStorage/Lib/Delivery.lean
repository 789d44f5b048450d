import LocalStorage.Lib.Program

namespace LocalStorage.Lib.Prog

variable {A : Type} {R : A → Type} {E α β C σ : Type} {exec : C → (a : A) → σ → R a × σ}
  {Good : (a : A) → R a → Prop} {L : σ → Prop} {p : Prog A R E α} {f : α → Prog A R E β} {s t : σ}

/-! # Runs that end in time

`L` says that it is not too late yet: once it fails it does not hold again. -/

variable (exec Good L) in
/-- Some run on good answers ends in time, and every such run that does ends in `Q`. -/
def Delivers (p : Prog A R E α) (Q : Except E α → σ → Prop) (s : σ) : Prop :=
  (∃ x t, p.RunsWith exec Good s x t ∧ L t) ∧ ∀ x t, p.RunsWith exec Good s x t → L t → Q x t

variable {P Q : Except E α → σ → Prop}

theorem Delivers.mono (h : p.Delivers exec Good L P s) (hpq : ∀ x t, L t → P x t → Q x t) :
    p.Delivers exec Good L Q s :=
  ⟨h.1, fun x t hrun ht => hpq x t ht (h.2 x t hrun ht)⟩

/-- A run that ends in both ways. -/
theorem Delivers.both (hp : p.Delivers exec Good L P s) (hq : p.Delivers exec Good L Q s) :
    ∃ x t, P x t ∧ Q x t := by
  obtain ⟨x, t, hrun, ht⟩ := hp.1
  exact ⟨x, t, hp.2 x t hrun ht, hq.2 x t hrun ht⟩

theorem delivers_ret {a : α} (hs : L s) (hq : Q (.ok a) s) : (ret a).Delivers exec Good L Q s := by
  refine ⟨⟨.ok a, s, ⟨rfl, rfl⟩, hs⟩, fun x t hrun _ => ?_⟩
  obtain ⟨rfl, rfl⟩ := hrun
  exact hq

theorem delivers_fail {e : E} (hs : L s) (hq : Q (.error e) s) :
    (fail e).Delivers exec Good L Q s := by
  refine ⟨⟨.error e, s, ⟨rfl, rfl⟩, hs⟩, fun x t hrun _ => ?_⟩
  obtain ⟨rfl, rfl⟩ := hrun
  exact hq

theorem delivers_ofExcept {y : Except E α} (hs : L s) (hq : Q y s) :
    (ofExcept y).Delivers exec Good L Q s := by
  cases y with
  | ok a => exact delivers_ret hs hq
  | error e => exact delivers_fail hs hq

/-- Programs with the same runs. -/
theorem delivers_congr {p' : Prog A R E α} {s' : σ}
    (h : ∀ x t, p.RunsWith exec Good s x t ↔ p'.RunsWith exec Good s' x t) :
    p.Delivers exec Good L Q s ↔ p'.Delivers exec Good L Q s' := by
  simp only [Delivers, h]

theorem Delivers.attempt {Q : Except E (Except E α) → σ → Prop}
    (h : p.Delivers exec Good L (fun x t => Q (.ok x) t) s) :
    p.attempt.Delivers exec Good L Q s := by
  obtain ⟨⟨x, t, hrun, ht⟩, hall⟩ := h
  refine ⟨⟨.ok x, t, runsWith_attempt.mpr ⟨x, rfl, hrun⟩, ht⟩, fun y u hy hu => ?_⟩
  obtain ⟨x, rfl, hrun⟩ := runsWith_attempt.mp hy
  exact hall x u hrun hu

section Late
variable (late : ∀ c a s, L (exec c a s).2 → L s)
include late

theorem RunsWith.in_time {x : Except E α} (h : p.RunsWith exec Good s x t) (ht : L t) : L s := by
  induction p generalizing s with
  | ret a =>
    obtain ⟨-, rfl⟩ := h
    exact ht
  | fail e =>
    obtain ⟨-, rfl⟩ := h
    exact ht
  | act a k ih =>
    obtain ⟨c, -, hc⟩ := h
    exact late c a s (ih _ hc)

theorem Delivers.bind {Q : Except E β → σ → Prop} (hp : p.Delivers exec Good L P s)
    (hok : ∀ a t, L t → P (.ok a) t → (f a).Delivers exec Good L Q t)
    (herr : ∀ e t, L t → P (.error e) t → Q (.error e) t) :
    (p.bind f).Delivers exec Good L Q s := by
  constructor
  · obtain ⟨x, t, hrun, ht⟩ := hp.1
    have hx := hp.2 x t hrun ht
    cases x with
    | error e => exact ⟨.error e, t, runsWith_bind.mpr (.inl ⟨e, hrun, rfl⟩), ht⟩
    | ok a =>
      obtain ⟨y, u, hrest, hu⟩ := (hok a t ht hx).1
      exact ⟨y, u, runsWith_bind.mpr (.inr ⟨a, t, hrun, hrest⟩), hu⟩
  · intro y u hrun hu
    obtain ⟨e, herror, rfl⟩ | ⟨a, t, hfirst, hrest⟩ := runsWith_bind.mp hrun
    · exact herr e u hu (hp.2 _ u herror hu)
    · have ht := hrest.in_time late hu
      exact (hok a t ht (hp.2 _ t hfirst ht)).2 y u hrest hu

end Late

end LocalStorage.Lib.Prog
