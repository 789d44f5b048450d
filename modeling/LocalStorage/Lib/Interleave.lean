import LocalStorage.Lib.Program
import Mathlib.Data.List.Induction

namespace LocalStorage.Lib

/-! # Several programs over one state -/

section Trails
variable {A : Type} {R : A → Type} {E C σ α β : Type}

/-- An action with the answer it got. -/
abbrev Taken {A : Type} (R : A → Type) : Type := (a : A) × R a

variable (exec : C → (a : A) → σ → R a × σ)

/-- Taking the step can lead from `s` to `t`. -/
def Takes (s : σ) (st : Taken R) (t : σ) : Prop := ∃ c, exec c st.1 s = (st.2, t)

def Steps : σ → List (Taken R) → σ → Prop
  | s, [], t => t = s
  | s, st :: l, t => ∃ u, Takes exec s st u ∧ Steps u l t

variable {exec}

theorem steps_append {s t : σ} {l l' : List (Taken R)} :
    Steps exec s (l ++ l') t ↔ ∃ u, Steps exec s l u ∧ Steps exec u l' t := by
  induction l generalizing s with
  | nil => simp [Steps]
  | cons st l ih =>
    simp only [List.cons_append, Steps, ih]
    constructor
    · rintro ⟨u, hu, v, hv, ht⟩
      exact ⟨v, ⟨u, hu, hv⟩, ht⟩
    · rintro ⟨v, ⟨u, hu, hv⟩, ht⟩
      exact ⟨u, hu, v, hv, ht⟩

/-- What none of the steps changes is the same at both ends. -/
theorem Steps.keep {O : Type} (obs : σ → O) {s t : σ} {l : List (Taken R)} (h : Steps exec s l t)
    (hk : ∀ st ∈ l, ∀ u v, Takes exec u st v → obs v = obs u) : obs t = obs s := by
  induction l generalizing s with
  | nil => exact congrArg obs h
  | cons st l ih =>
    obtain ⟨u, hu, ht⟩ := h
    have hrest := ih ht (fun st' hm => hk st' (List.mem_cons_of_mem _ hm))
    exact hrest.trans (hk st List.mem_cons_self s u hu)

/-- A step of the run is taken between two of its states. -/
theorem Steps.of_mem {s t : σ} {l : List (Taken R)} (h : Steps exec s l t) {st : Taken R}
    (hst : st ∈ l) : ∃ l₁ l₂ u v, l = l₁ ++ st :: l₂ ∧ Steps exec s l₁ u ∧ Takes exec u st v ∧
      Steps exec v l₂ t := by
  obtain ⟨l₁, l₂, rfl⟩ := List.append_of_mem hst
  obtain ⟨u, hu, v, hv, ht⟩ := steps_append.mp h
  exact ⟨l₁, l₂, u, v, rfl, hu, hv, ht⟩

theorem Steps.invariant {I : σ → Prop} {s t : σ} {l : List (Taken R)} (h : Steps exec s l t)
    (hs : I s) (hk : ∀ st ∈ l, ∀ u v, Takes exec u st v → I u → I v) : I t := by
  induction l generalizing s with
  | nil => exact h ▸ hs
  | cons st l ih =>
    obtain ⟨u, hu, ht⟩ := h
    have hi := hk st List.mem_cons_self s u hu hs
    exact ih ht hi (fun st' hm => hk st' (List.mem_cons_of_mem _ hm))

/-- The only step of its kind. -/
structure Sole (kind : A → Bool) (st : Taken R) (l : List (Taken R)) : Prop where
  mem : st ∈ l
  only : ∀ st' ∈ l, kind st'.1 = true → st' = st

/-! ## What a program asks and hears -/

/-- The semantics that answers freely and writes the dialogue down. -/
def record (c : (a : A) → R a) (a : A) (past : List (Taken R)) : R a × List (Taken R) :=
  (c a, past ++ [⟨a, c a⟩])

theorem Prog.ensures_record {a : A} {k : R a → Prog A R E α}
    {Q : Except E α → List (Taken R) → Prop} {past : List (Taken R)}
    (h : ∀ r, (k r).Ensures record Q (past ++ [⟨a, r⟩])) :
    (Prog.act a k).Ensures record Q past :=
  Prog.ensures_act.mpr fun c => h (c a)

theorem Prog.throughout_record {a : A} {k : R a → Prog A R E α} {P : A → List (Taken R) → Prop}
    {past : List (Taken R)} (ha : P a past)
    (h : ∀ r, (k r).Throughout record P (past ++ [⟨a, r⟩])) :
    (Prog.act a k).Throughout record P past :=
  Prog.throughout_act.mpr ⟨ha, fun c => h (c a)⟩

/-- A dialogue only grows, by actions the program uses. -/
theorem Prog.Uses.recorded {P : A → Prop} {p : Prog A R E α} (hp : p.Uses P)
    (past : List (Taken R)) :
    p.Ensures record (fun _ t => ∃ l, t = past ++ l ∧ ∀ st ∈ l, P st.1) past := by
  induction p generalizing past with
  | ret a => exact Prog.ensures_ret.mpr ⟨[], by simp⟩
  | fail e => exact Prog.ensures_fail.mpr ⟨[], by simp⟩
  | act a k ih =>
    refine Prog.ensures_record fun r => (ih r (hp.2 r) _).mono ?_
    rintro x t ⟨l, rfl, hl⟩
    refine ⟨⟨a, r⟩ :: l, by simp, ?_⟩
    intro st hst
    rcases List.mem_cons.mp hst with rfl | hst
    · exact hp.1
    · exact hl st hst

theorem Prog.Runs.used {P : A → Prop} {p : Prog A R E α} {x : Except E α} {l : List (Taken R)}
    (h : p.Runs record [] x l) (hp : p.Uses P) : ∀ st ∈ l, P st.1 := by
  obtain ⟨l', rfl, hl⟩ := hp.recorded [] x l h
  exact hl

/-- What holds of every action at its moment, read off the finished dialogue. -/
theorem Prog.Throughout.recorded {P : A → List (Taken R) → Prop} {p : Prog A R E α}
    {past : List (Taken R)} (hp : p.Throughout record P past) :
    p.Ensures record (fun _ t => ∃ l, t = past ++ l ∧
      ∀ l₁ st l₂, l = l₁ ++ st :: l₂ → P st.1 (past ++ l₁)) past := by
  induction p generalizing past with
  | ret a => exact Prog.ensures_ret.mpr ⟨[], by simp⟩
  | fail e => exact Prog.ensures_fail.mpr ⟨[], by simp⟩
  | act a k ih =>
    refine Prog.ensures_act.mpr fun c => (ih _ (hp.2 c)).mono ?_
    rintro x t ⟨l, rfl, hl⟩
    refine ⟨⟨a, c a⟩ :: l, by simp [record], ?_⟩
    intro l₁ st l₂ hsplit
    cases l₁ with
    | nil =>
      simp only [List.nil_append, List.cons.injEq] at hsplit
      rw [← hsplit.1, List.append_nil]
      exact hp.1
    | cons st' l₁ =>
      simp only [List.cons_append, List.cons.injEq] at hsplit
      rw [← hsplit.1]
      simpa [record] using hl l₁ st l₂ hsplit.2

theorem Prog.Runs.at {P : A → List (Taken R) → Prop} {p : Prog A R E α} {x : Except E α}
    {l l₁ l₂ : List (Taken R)} {st : Taken R} (h : p.Runs record [] x l)
    (hp : p.Throughout record P []) (hsplit : l = l₁ ++ st :: l₂) : P st.1 l₁ := by
  obtain ⟨l', rfl, hl⟩ := hp.recorded x l h
  exact hl l₁ st l₂ hsplit

/-- What the past keeps through every used action holds of it throughout. -/
theorem Prog.Uses.throughout_record {P : A → Prop} {I : List (Taken R) → Prop} {p : Prog A R E α}
    {past : List (Taken R)} (hp : p.Uses P) (hpast : I past)
    (hkeep : ∀ past a r, P a → I past → I (past ++ [⟨a, r⟩])) :
    p.Throughout record (fun a past => P a ∧ I past) past := by
  induction p generalizing past with
  | ret a => trivial
  | fail e => trivial
  | act a k ih =>
    refine Prog.throughout_record ⟨hp.1, hpast⟩ fun r => ?_
    exact ih r (hp.2 r) (hkeep past a r hp.1 hpast)

/-- A run takes the steps its program asks for. -/
theorem Prog.Runs.traced [∀ a, Nonempty (R a)] {p : Prog A R E α} {s t : σ} {x : Except E α}
    (h : p.Runs exec s x t) (past : List (Taken R)) :
    ∃ l, Steps exec s l t ∧ p.Runs record past x (past ++ l) := by
  induction p generalizing s past with
  | ret a =>
    obtain ⟨rfl, rfl⟩ := h
    exact ⟨[], rfl, rfl, by simp⟩
  | fail e =>
    obtain ⟨rfl, rfl⟩ := h
    exact ⟨[], rfl, rfl, by simp⟩
  | act a k ih =>
    obtain ⟨c, hc⟩ := h
    obtain ⟨l, hl, hrec⟩ := ih _ hc (past ++ [⟨a, (exec c a s).1⟩])
    refine ⟨⟨a, (exec c a s).1⟩ :: l, ⟨_, ⟨c, rfl⟩, hl⟩, ?_⟩
    classical
    refine ⟨Function.update (fun a => Classical.choice inferInstance) a (exec c a s).1, ?_⟩
    simpa [record] using hrec

end Trails

section Threads
variable {A : Type} {R : A → Type} {E C σ ι : Type} {α : ι → Type}

/-! ## The order of steps -/

/-- Whose step of a kind came last. -/
def lastAt (kind : Taken R → Bool) (tr : List (ι × Taken R)) : Option ι :=
  (tr.reverse.find? (fun e => kind e.2)).map Prod.fst

/-- A list holds none of a kind, or has a last one. -/
theorem exists_last {β : Type} (p : β → Bool) (l : List β) :
    (∀ e ∈ l, p e = false) ∨
      ∃ l₁ e l₂, l = l₁ ++ e :: l₂ ∧ p e = true ∧ ∀ e' ∈ l₂, p e' = false := by
  induction l with
  | nil => simp
  | cons e l ih =>
    rcases ih with hnone | ⟨l₁, e', l₂, rfl, he', hl₂⟩
    · cases he : p e with
      | true => exact .inr ⟨[], e, l, rfl, he, hnone⟩
      | false => exact .inl (by simpa [he] using hnone)
    · exact .inr ⟨e :: l₁, e', l₂, rfl, he', hl₂⟩

theorem lastAt_eq_some {kind : Taken R → Bool} {i : ι} {tr : List (ι × Taken R)}
    (h : lastAt kind tr = some i) :
    ∃ t₁ st t₂, tr = t₁ ++ (i, st) :: t₂ ∧ kind st = true ∧ ∀ e ∈ t₂, kind e.2 = false := by
  simp only [lastAt, Option.map_eq_some_iff] at h
  obtain ⟨⟨j, st⟩, hfind, rfl⟩ := h
  obtain ⟨hst, l₁, l₂, hrev, hnone⟩ := List.find?_eq_some_iff_append.mp hfind
  refine ⟨l₂.reverse, st, l₁.reverse, ?_, hst, ?_⟩
  · have := congrArg List.reverse hrev
    simpa using this
  · intro e he
    simpa using hnone e (List.mem_reverse.mp he)

theorem lastAt_isSome {kind : Taken R → Bool} {e : ι × Taken R}
    {tr : List (ι × Taken R)} (he : e ∈ tr) (hk : kind e.2 = true) : (lastAt kind tr).isSome = true := by
  simp only [lastAt, Option.isSome_map, List.find?_isSome, List.mem_reverse]
  exact ⟨e, he, hk⟩

/-- Some step with `p` comes before some step with `q`. -/
def before {β : Type} (p q : β → Bool) : List β → Bool
  | [] => false
  | x :: l => (p x && l.any q) || before p q l

theorem before_of_split {β : Type} {p q : β → Bool} {l₁ l₂ : List β} {x y : β} (hp : p x = true)
    (hy : y ∈ l₂) (hq : q y = true) : before p q (l₁ ++ x :: l₂) = true := by
  induction l₁ with
  | nil =>
    have hany : l₂.any q = true := List.any_eq_true.mpr ⟨y, hy, hq⟩
    simp [before, hp, hany]
  | cons z l₁ ih => simp [before, ih]

theorem split_of_before {β : Type} {p q : β → Bool} {l : List β} (h : before p q l = true) :
    ∃ l₁ x l₂ y, l = l₁ ++ x :: l₂ ∧ p x = true ∧ y ∈ l₂ ∧ q y = true := by
  induction l with
  | nil => simp [before] at h
  | cons z l ih =>
    simp only [before, Bool.or_eq_true, Bool.and_eq_true, List.any_eq_true] at h
    rcases h with ⟨hz, y, hy, hq⟩ | h
    · exact ⟨[], z, l, y, rfl, hz, hy, hq⟩
    · obtain ⟨l₁, x, l₂, y, rfl, hx, hy, hq⟩ := ih h
      exact ⟨z :: l₁, x, l₂, y, rfl, hx, hy, hq⟩

/-- A list has one place for the only element of a kind. -/
theorem split_unique {β : Type} {p : β → Bool} {l₁ l₂ m₁ m₂ : List β} {x y : β}
    (h : l₁ ++ x :: l₂ = m₁ ++ y :: m₂) (hx : p x = true) (h₁ : ∀ z ∈ m₁, p z = false)
    (h₂ : ∀ z ∈ m₂, p z = false) : l₁ = m₁ ∧ x = y ∧ l₂ = m₂ := by
  rcases List.append_eq_append_iff.mp h with ⟨m, rfl, hm⟩ | ⟨m, rfl, hm⟩
  · cases m with
    | nil => simpa using hm
    | cons z m =>
      simp only [List.cons_append, List.cons.injEq] at hm
      have hz := h₁ z (by simp)
      simp [← hm.1, hx] at hz
  · cases m with
    | nil => simpa [eq_comm] using hm
    | cons z m =>
      simp only [List.cons_append, List.cons.injEq] at hm
      have hz := h₂ x (by simp [hm.2])
      simp [hx] at hz

/-- What comes before the only `q` is what stands to its left. -/
theorem before_sole_iff {β : Type} {p q : β → Bool} {l₁ l₂ : List β} {x : β}
    (h₁ : ∀ y ∈ l₁, q y = false) (h₂ : ∀ y ∈ l₂, q y = false) (hp : p x = false) (hq : q x = true) :
    before p q (l₁ ++ x :: l₂) = true ↔ ∃ y ∈ l₁, p y = true := by
  induction l₁ with
  | nil =>
    have hnone : before p q l₂ = false := by
      by_contra hsome
      obtain ⟨m₁, z, m₂, y, rfl, -, hy, hqy⟩ := split_of_before (by simpa using hsome)
      simp [h₂ y (by simp [hy])] at hqy
    simp [before, hp, hnone]
  | cons y l₁ ih =>
    have hrest := ih fun z hz => h₁ z (List.mem_cons_of_mem _ hz)
    have hany : (l₁ ++ x :: l₂).any q = true := List.any_eq_true.mpr ⟨x, by simp, hq⟩
    simp [before, hany, hrest]

/-- Where the only `p` comes after every `q`, none comes before. -/
theorem not_before_of_split {β : Type} {p q : β → Bool} {l₁ l₂ : List β} {x : β}
    (h₁ : ∀ y ∈ l₁, p y = false) (h₂ : ∀ y ∈ l₂, p y = false) (hq : ∀ y ∈ l₂, q y = false) :
    before p q (l₁ ++ x :: l₂) = false := by
  have hnone : ∀ l : List β, (∀ y ∈ l, p y = false) → before p q l = false := by
    intro l hl
    induction l with
    | nil => rfl
    | cons y l ih =>
      simp [before, hl y List.mem_cons_self, ih fun y hy => hl y (List.mem_cons_of_mem _ hy)]
  induction l₁ with
  | nil =>
    have hany : l₂.any q = false := by simpa using hq
    simp [before, hany, hnone l₂ h₂]
  | cons y l₁ ih =>
    have hrest := ih fun z hz => h₁ z (List.mem_cons_of_mem _ hz)
    simp [before, h₁ y List.mem_cons_self, hrest]

/-- Where no `p` comes before a `q`, every other `q` stands to the left of a `p`. -/
theorem mem_left_of_not_before {β : Type} {p q : β → Bool} {l₁ l₂ : List β} {x y : β}
    (h : before p q (l₁ ++ x :: l₂) = false) (hp : p x = true) (hy : y ∈ l₁ ++ x :: l₂)
    (hq : q y = true) (hne : y ≠ x) : y ∈ l₁ := by
  rcases List.mem_append.mp hy with hy | hy
  · exact hy
  · rcases List.mem_cons.mp hy with hy | hy
    · exact absurd hy hne
    · simp [before_of_split hp hy hq] at h

/-- A prefix without a step ends before it. -/
theorem prefix_of_not_mem {β : Type} {l p l₁ l₂ : List β} {x : β} (hp : p <+: l)
    (hl : l = l₁ ++ x :: l₂) (hx : x ∉ p) : p <+: l₁ := by
  obtain ⟨s, rfl⟩ := hp
  rcases List.append_eq_append_iff.mp hl with ⟨m, rfl, -⟩ | ⟨m, rfl, hm⟩
  · exact List.prefix_append p m
  · cases m with
    | nil => simp
    | cons y m =>
      simp only [List.cons_append, List.cons.injEq] at hm
      simp [hm.1] at hx

/-- What one step establishes and every step after it keeps holds from then on. -/
theorem Steps.established {exec : C → (a : A) → σ → R a × σ} {I : σ → Prop} {e : ι × Taken R}
    {s t : σ} {tr : List (ι × Taken R)} (h : Steps exec s (tr.map Prod.snd) t) (he : e ∈ tr)
    (hest : ∀ u v, Takes exec u e.2 v → I v)
    (hkeep : ∀ t₁ e' t₂, tr = t₁ ++ e' :: t₂ → e ∈ t₁ → ∀ u v, Takes exec u e'.2 v → I u → I v) :
    I t := by
  induction tr using List.reverseRecOn generalizing t with
  | nil => simp at he
  | append_singleton tr e' ih =>
    rw [List.map_append] at h
    obtain ⟨u, hu, v, hv, rfl⟩ := steps_append.mp h
    by_cases hmem : e ∈ tr
    · refine hkeep tr e' [] rfl hmem u t hv (ih hu hmem ?_)
      rintro t₁ e'' t₂ rfl
      exact hkeep t₁ e'' (t₂ ++ [e']) (by simp)
    · have heq : e = e' := by simpa [hmem] using he
      exact hest u t (heq ▸ hv)

/-- The states a run passes at one of its steps. -/
theorem Steps.at_split {exec : C → (a : A) → σ → R a × σ} {s t : σ} {t₁ t₂ : List (ι × Taken R)}
    {e : ι × Taken R} (h : Steps exec s ((t₁ ++ e :: t₂).map Prod.snd) t) :
    ∃ u v, Steps exec s (t₁.map Prod.snd) u ∧ Takes exec u e.2 v ∧
      Steps exec v (t₂.map Prod.snd) t := by
  rw [List.map_append, List.map_cons] at h
  obtain ⟨u, hu, v, hv, ht⟩ := steps_append.mp h
  exact ⟨u, v, hu, hv, ht⟩

/-- The states a run passes at one of its steps, and what later steps leave of it. -/
theorem Steps.after {exec : C → (a : A) → σ → R a × σ} {O : Type} (obs : σ → O) {s t : σ}
    {t₁ t₂ : List (ι × Taken R)} {e : ι × Taken R}
    (h : Steps exec s ((t₁ ++ e :: t₂).map Prod.snd) t)
    (hkeep : ∀ e' ∈ t₂, ∀ u v, Takes exec u e'.2 v → obs v = obs u) :
    ∃ u v, Steps exec s (t₁.map Prod.snd) u ∧ Takes exec u e.2 v ∧ obs t = obs v := by
  obtain ⟨u, v, hu, hv, ht⟩ := h.at_split
  refine ⟨u, v, hu, hv, ht.keep obs ?_⟩
  intro st hst
  obtain ⟨e', he', rfl⟩ := List.mem_map.mp hst
  exact hkeep e' he'

/-! ## The steps of one thread -/

/-- The steps of one thread, in order. -/
def project [DecidableEq ι] (i : ι) (tr : List (ι × Taken R)) : List (Taken R) :=
  tr.filterMap (fun e => if e.1 = i then some e.2 else none)

section
variable [DecidableEq ι]

@[simp] theorem project_nil (i : ι) : project i ([] : List (ι × Taken R)) = [] := rfl

theorem project_append (i : ι) (tr tr' : List (ι × Taken R)) :
    project i (tr ++ tr') = project i tr ++ project i tr' := List.filterMap_append

theorem project_cons_self (i : ι) (st : Taken R) (tr : List (ι × Taken R)) :
    project i ((i, st) :: tr) = st :: project i tr := by
  simp [project]

theorem project_cons_ne {i j : ι} (h : j ≠ i) (st : Taken R) (tr : List (ι × Taken R)) :
    project i ((j, st) :: tr) = project i tr := by
  simp [project, h]

theorem mem_project {i : ι} {st : Taken R} {tr : List (ι × Taken R)} :
    st ∈ project i tr ↔ (i, st) ∈ tr := by
  simp only [project, List.mem_filterMap]
  constructor
  · rintro ⟨⟨j, st'⟩, hm, he⟩
    split at he
    · rename_i hj
      simp only [Option.some.injEq] at he
      exact hj ▸ he ▸ hm
    · simp at he
  · intro hm
    exact ⟨(i, st), hm, by simp⟩

/-- A place in one thread's steps is a place in the whole trace. -/
theorem project_split {i : ι} {st : Taken R} {l₁ l₂ : List (Taken R)} {tr : List (ι × Taken R)}
    (h : project i tr = l₁ ++ st :: l₂) :
    ∃ t₁ t₂, tr = t₁ ++ (i, st) :: t₂ ∧ project i t₁ = l₁ ∧ project i t₂ = l₂ := by
  induction tr generalizing l₁ with
  | nil => simp at h
  | cons e tr ih =>
    obtain ⟨j, st'⟩ := e
    by_cases hj : j = i
    · subst hj
      rw [project_cons_self] at h
      cases l₁ with
      | nil =>
        simp only [List.nil_append, List.cons.injEq] at h
        obtain ⟨rfl, h⟩ := h
        exact ⟨[], tr, rfl, rfl, h⟩
      | cons y l₁ =>
        simp only [List.cons_append, List.cons.injEq] at h
        obtain ⟨rfl, h⟩ := h
        obtain ⟨t₁, t₂, rfl, h₁, h₂⟩ := ih h
        exact ⟨(j, st') :: t₁, t₂, rfl, by rw [project_cons_self, h₁], h₂⟩
    · rw [project_cons_ne hj] at h
      obtain ⟨t₁, t₂, rfl, h₁, h₂⟩ := ih h
      exact ⟨(j, st') :: t₁, t₂, rfl, by rw [project_cons_ne hj, h₁], h₂⟩

end

/-! ## Interleavings -/

variable (exec : C → (a : A) → σ → R a × σ)

/-- The programs `ps` take their steps in any order; the trace says who took which. -/
inductive Interleaving [DecidableEq ι] : (∀ i, Prog A R E (α i)) → σ → List (ι × Taken R) →
    (∀ i, Except E (α i)) → σ → Prop where
  | done {ps : ∀ i, Prog A R E (α i)} {s : σ} {x : ∀ i, Except E (α i)}
      (hx : ∀ i, ps i = Prog.ofExcept (x i)) : Interleaving ps s [] x s
  | step {ps : ∀ i, Prog A R E (α i)} {s t : σ} {tr : List (ι × Taken R)}
      {x : ∀ i, Except E (α i)} {i : ι} {a : A} {k : R a → Prog A R E (α i)} (c : C)
      (hi : ps i = .act a k)
      (rest : Interleaving (Function.update ps i (k (exec c a s).1)) (exec c a s).2 tr x t) :
      Interleaving ps s ((i, ⟨a, (exec c a s).1⟩) :: tr) x t

variable {exec} [DecidableEq ι] {ps : ∀ i, Prog A R E (α i)} {s t : σ} {tr : List (ι × Taken R)}
  {x : ∀ i, Except E (α i)}

theorem Interleaving.steps (h : Interleaving exec ps s tr x t) :
    Steps exec s (tr.map Prod.snd) t := by
  induction h with
  | done => rfl
  | step c _ _ ih => exact ⟨_, ⟨c, rfl⟩, ih⟩

/-- Each thread asks and hears what its own program allows. -/
theorem Interleaving.runs [∀ a, Nonempty (R a)] (h : Interleaving exec ps s tr x t) (i : ι)
    (past : List (Taken R)) : (ps i).Runs record past (x i) (past ++ project i tr) := by
  induction h generalizing past with
  | done hx =>
    rw [hx i]
    simp
  | @step ps s t tr x j a k c hj rest ih =>
    by_cases hij : j = i
    · subst hij
      have hk := ih (past ++ [⟨a, (exec c a s).1⟩])
      rw [Function.update_self] at hk
      rw [hj, project_cons_self, Prog.runs_act]
      classical
      refine ⟨Function.update (fun a => Classical.choice inferInstance) a (exec c a s).1, ?_⟩
      simpa [record] using hk
    · have hk := ih past
      rw [Function.update_of_ne (Ne.symm hij)] at hk
      rwa [project_cons_ne hij]

theorem Interleaving.thread [∀ a, Nonempty (R a)] (h : Interleaving exec ps s tr x t) (i : ι) :
    (ps i).Runs record [] (x i) (project i tr) := by
  simpa using h.runs i []

/-- When a thread takes the last step of a kind and takes only one, what only that kind
changes is at the end as the step leaves it. -/
theorem Interleaving.last_sole (h : Interleaving exec ps s tr x t) {kind : A → Bool} {O : Type}
    (obs : σ → O) {i : ι} {st : Taken R} (hlast : lastAt (fun st => kind st.1) tr = some i)
    (hsole : Sole kind st (project i tr))
    (hframe : ∀ e ∈ tr, kind e.2.1 = false → ∀ u v, Takes exec u e.2 v → obs v = obs u) :
    kind st.1 = true ∧ ∃ u v, Takes exec u st v ∧ obs t = obs v := by
  obtain ⟨t₁, st', t₂, rfl, hk, ht₂⟩ := lastAt_eq_some hlast
  obtain rfl := hsole.only st' (mem_project.mpr (by simp)) hk
  obtain ⟨u, v, -, hv, hobs⟩ := h.steps.after obs fun e he => hframe e (by simp [he]) (ht₂ e he)
  exact ⟨hk, u, v, hv, hobs⟩

/-! ## What is reached on the way -/

variable (exec) in
/-- The programs are at `qs` over the state `t` after some of their steps. -/
inductive Reaches (ps : ∀ i, Prog A R E (α i)) (s : σ) : (∀ i, Prog A R E (α i)) → σ → Prop where
  | start : Reaches ps s ps s
  | step {qs : ∀ i, Prog A R E (α i)} {t : σ} {i : ι} {a : A} {k : R a → Prog A R E (α i)} (c : C)
      (h : Reaches ps s qs t) (hi : qs i = .act a k) :
      Reaches ps s (Function.update qs i (k (exec c a t).1)) (exec c a t).2

/-- What holds at first and through every step holds at every moment. -/
theorem Reaches.invariant {I : (∀ i, Prog A R E (α i)) → σ → Prop} {qs : ∀ i, Prog A R E (α i)}
    (h : Reaches exec ps s qs t) (hs : I ps s)
    (hstep : ∀ qs t i a k c, I qs t → qs i = .act a k →
      I (Function.update qs i (k (exec c a t).1)) (exec c a t).2) : I qs t := by
  induction h with
  | start => exact hs
  | step c _ hi ih => exact hstep _ _ _ _ _ c ih hi

/-- A first step comes before all that is reached after it. -/
theorem Reaches.cons {qs : ∀ i, Prog A R E (α i)} {i : ι} {a : A} {k : R a → Prog A R E (α i)}
    (c : C) (hi : ps i = .act a k)
    (h : Reaches exec (Function.update ps i (k (exec c a s).1)) (exec c a s).2 qs t) :
    Reaches exec ps s qs t := by
  induction h with
  | start => exact .step c .start hi
  | step c' _ hj ih => exact .step c' ih hj

/-! ## Following a schedule -/

/-- The result of a program with nothing left to do. -/
def Prog.result {α : Type} : Prog A R E α → Option (Except E α)
  | .ret a => some (.ok a)
  | .fail e => some (.error e)
  | .act _ _ => none

theorem Prog.result_eq_some {α : Type} {p : Prog A R E α} {x : Except E α}
    (h : p.result = some x) : p = Prog.ofExcept x := by
  cases p with
  | ret a => cases h; rfl
  | fail e => cases h; rfl
  | act a k => simp [result] at h

/-- Step the threads in the order of a schedule; turns of a finished thread pass. -/
def weave (exec : C → (a : A) → σ → R a × σ) (c : C) :
    List ι → (∀ i, Prog A R E (α i)) → σ → List (ι × Taken R) × (∀ i, Prog A R E (α i)) × σ
  | [], ps, s => ([], ps, s)
  | i :: schedule, ps, s =>
    match ps i with
    | .act a k =>
      let w := weave exec c schedule (Function.update ps i (k (exec c a s).1)) (exec c a s).2
      ((i, ⟨a, (exec c a s).1⟩) :: w.1, w.2)
    | .ret _ | .fail _ => weave exec c schedule ps s

theorem weave_interleaving (c : C) (schedule : List ι)
    (h : ∀ i, ((weave exec c schedule ps s).2.1 i).result = some (x i)) :
    Interleaving exec ps s (weave exec c schedule ps s).1 x (weave exec c schedule ps s).2.2 := by
  induction schedule generalizing ps s with
  | nil => exact .done fun i => Prog.result_eq_some (h i)
  | cons i schedule ih =>
    unfold weave at h ⊢
    split
    · rename_i a k hi
      simp only [hi] at h
      exact .step c hi (ih h)
    · rename_i a hi
      simp only [hi] at h
      exact ih h
    · rename_i e hi
      simp only [hi] at h
      exact ih h

theorem weave_steps (c : C) (schedule : List ι) :
    Steps exec s ((weave exec c schedule ps s).1.map Prod.snd) (weave exec c schedule ps s).2.2 := by
  induction schedule generalizing ps s with
  | nil => rfl
  | cons i schedule ih =>
    unfold weave
    split
    · exact ⟨_, ⟨c, rfl⟩, ih⟩
    · exact ih
    · exact ih

theorem weave_reaches (c : C) (schedule : List ι) :
    Reaches exec ps s (weave exec c schedule ps s).2.1 (weave exec c schedule ps s).2.2 := by
  induction schedule generalizing ps s with
  | nil => exact .start
  | cons i schedule ih =>
    unfold weave
    split
    · rename_i a k hi
      exact .cons c hi ih
    · exact ih
    · exact ih

/-- A schedule can be followed in two parts. -/
theorem weave_append (c : C) (schedule schedule' : List ι) :
    weave exec c (schedule ++ schedule') ps s =
      ((weave exec c schedule ps s).1 ++ (weave exec c schedule' (weave exec c schedule ps s).2.1
          (weave exec c schedule ps s).2.2).1,
        (weave exec c schedule' (weave exec c schedule ps s).2.1
          (weave exec c schedule ps s).2.2).2) := by
  induction schedule generalizing ps s with
  | nil => rfl
  | cons i schedule ih =>
    cases hi : ps i with
    | act a k => simp only [List.cons_append, weave, hi, ih]
    | ret a => simp only [List.cons_append, weave, hi, ih]
    | fail e => simp only [List.cons_append, weave, hi, ih]

theorem weave_finished (c : C) (schedule : List ι)
    (h : ∀ i, ((weave exec c schedule ps s).2.1 i).result.isSome = true) :
    ∃ x : ∀ i, Except E (α i), Interleaving exec ps s (weave exec c schedule ps s).1 x
      (weave exec c schedule ps s).2.2 := by
  choose x hx using fun i => Option.isSome_iff_exists.mp (h i)
  exact ⟨x, weave_interleaving c schedule hx⟩

theorem weave_ok (c : C) (schedule : List ι)
    (h : ∀ i, ((weave exec c schedule ps s).2.1 i).result.any (·.isOk) = true) :
    ∃ y : ∀ i, α i, Interleaving exec ps s (weave exec c schedule ps s).1 (fun i => .ok (y i))
      (weave exec c schedule ps s).2.2 := by
  have hok : ∀ i, ∃ y, ((weave exec c schedule ps s).2.1 i).result = some (.ok y) := by
    intro i
    obtain ⟨x, hx, hxok⟩ := (Option.any_eq_true _ _).mp (h i)
    cases x with
    | ok y => exact ⟨y, hx⟩
    | error e => simp [Except.isOk, Except.toBool] at hxok
  choose y hy using hok
  exact ⟨y, weave_interleaving c schedule hy⟩

end Threads

end LocalStorage.Lib
