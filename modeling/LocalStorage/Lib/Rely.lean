import LocalStorage.Lib.Permits

namespace LocalStorage.Lib

/-! # Programs that rely on one another

What a program promises of the state it leaves can depend on what the others do between its
steps. A contract says what it takes to start, what it relies on between two of its steps, and
what it guarantees of each step it takes. -/

structure Contract (σ : Type) where
  Init : σ → Prop
  Rely : σ → σ → Prop
  Guar : σ → σ → Prop
  refl : ∀ s, Rely s s
  trans : ∀ {s t u}, Rely s t → Rely t u → Rely s u
  stable : ∀ {s t}, Rely s t → Init s → Init t

namespace Prog
variable {A : Type} {R : A → Type} {E E' C σ α β : Type}

section
variable (exec : C → (a : A) → σ → R a × σ) (K : Contract σ)

/-- Started in `s`, every step keeps the guarantee as long as the others keep what is relied on,
and where the program ends, and from then on, `Q` holds. -/
def Assures (Q : Except E α → σ → Prop) : Prog A R E α → σ → Prop
  | ret a, s => ∀ t, K.Rely s t → Q (.ok a) t
  | fail e, s => ∀ t, K.Rely s t → Q (.error e) t
  | act a k, s => ∀ t, K.Rely s t → ∀ c,
    K.Guar t (exec c a t).2 ∧ (k (exec c a t).1).Assures Q (exec c a t).2

end

variable {exec : C → (a : A) → σ → R a × σ} {K : Contract σ} {s t : σ}

theorem Assures.rely {Q : Except E α → σ → Prop} {p : Prog A R E α} (h : p.Assures exec K Q s)
    (ht : K.Rely s t) : p.Assures exec K Q t := by
  cases p with
  | ret a => exact fun u hu => h u (K.trans ht hu)
  | fail e => exact fun u hu => h u (K.trans ht hu)
  | act a k => exact fun u hu => h u (K.trans ht hu)

/-- The rule of consequence. -/
theorem Assures.mono {Q Q' : Except E α → σ → Prop} {p : Prog A R E α} (h : p.Assures exec K Q s)
    (hq : ∀ x t, Q x t → Q' x t) : p.Assures exec K Q' s := by
  induction p generalizing s with
  | ret a => exact fun t ht => hq _ t (h t ht)
  | fail e => exact fun t ht => hq _ t (h t ht)
  | act a k ih => exact fun t ht c => ⟨(h t ht c).1, ih _ (h t ht c).2⟩

theorem Assures.bind {Q : Except E β → σ → Prop} {p : Prog A R E α} {f : α → Prog A R E β}
    (h : p.Assures exec K (fun x t => match x with
      | .ok a => (f a).Assures exec K Q t
      | .error e => Q (.error e) t) s) : (p.bind f).Assures exec K Q s := by
  induction p generalizing s with
  | ret a => exact h s (K.refl s)
  | fail e => exact h
  | act a k ih => exact fun t ht c => ⟨(h t ht c).1, ih _ (h t ht c).2⟩

theorem Assures.attempt {Q : Except E (Except E α) → σ → Prop} {p : Prog A R E α}
    (h : p.Assures exec K (fun x => Q (.ok x)) s) : p.attempt.Assures exec K Q s := by
  induction p generalizing s with
  | ret a => exact h
  | fail e => exact h
  | act a k ih => exact fun t ht c => ⟨(h t ht c).1, ih _ (h t ht c).2⟩

theorem Assures.mapError {Q : Except E' α → σ → Prop} {f : E → E'} {p : Prog A R E α}
    (h : p.Assures exec K (fun x => Q (x.mapError f)) s) : (p.mapError f).Assures exec K Q s := by
  induction p generalizing s with
  | ret a => exact h
  | fail e => exact h
  | act a k ih => exact fun t ht c => ⟨(h t ht c).1, ih _ (h t ht c).2⟩

/-- Of a program whose result nobody waits for, what matters is whether it succeeded. -/
theorem Assures.discard {Q : Except E α → σ → Prop} {Q' : Except Unit Unit → σ → Prop}
    {p : Prog A R E α} (h : p.Assures exec K Q s) (hok : ∀ a t, Q (.ok a) t → Q' (.ok ()) t)
    (herror : ∀ e t, Q (.error e) t → Q' (.error ()) t) : p.discard.Assures exec K Q' s := by
  induction p generalizing s with
  | ret a => exact fun t ht => hok a t (h t ht)
  | fail e => exact fun t ht => herror e t (h t ht)
  | act a k ih => exact fun t ht c => ⟨(h t ht c).1, ih _ (h t ht c).2⟩

/-- A part of a larger service assures there what it does alone. -/
theorem Assures.relay {A' C' : Type} {R' : A' → Type} {exec' : C' → (a : A') → σ → R' a × σ}
    {f : A → A'} {back : ∀ a, R' (f a) → R a} {Q : Except E α → σ → Prop} {p : Prog A R E α}
    (h : p.Assures exec K Q s)
    (hstep : ∀ c' a s, ∃ c, (back a (exec' c' (f a) s).1, (exec' c' (f a) s).2) = exec c a s) :
    (p.relay f back).Assures exec' K Q s := by
  induction p generalizing s with
  | ret a => exact h
  | fail e => exact h
  | act a k ih =>
    intro t ht c'
    obtain ⟨c, hc⟩ := hstep c' a t
    have hk := h t ht c
    rw [← hc] at hk
    exact ⟨hk.1, ih _ hk.2⟩

/-- What a program promises whoever answers it is a guarantee, where the promised actions keep
it and an invariant gives the answers that are counted on. -/
theorem Honours.assures {Heard : (a : A) → R a → Prop} {Asked : A → Prop} {I : σ → Prop}
    {p : Prog A R E α} (hp : p.Honours Heard Asked)
    (hstep : ∀ c a s, I s → Asked a → K.Guar s (exec c a s).2 ∧ I (exec c a s).2)
    (hheard : ∀ c a s, I s → Heard a (exec c a s).1) (hrely : ∀ s t, K.Rely s t → I s → I t)
    (hs : I s) : p.Assures exec K (fun _ => I) s := by
  induction p generalizing s with
  | ret a => exact fun t ht => hrely s t ht hs
  | fail e => exact fun t ht => hrely s t ht hs
  | act a k ih =>
    intro t ht c
    have hi := hrely s t ht hs
    obtain ⟨hguar, hi'⟩ := hstep c a t hi hp.1
    exact ⟨hguar, ih _ (hp.2 _ (hheard c a t hi)) hi'⟩

theorem Uses.assures {P : A → Prop} {I : σ → Prop} {p : Prog A R E α} (hp : p.Uses P)
    (hstep : ∀ c a s, I s → P a → K.Guar s (exec c a s).2 ∧ I (exec c a s).2)
    (hrely : ∀ s t, K.Rely s t → I s → I t) (hs : I s) : p.Assures exec K (fun _ => I) s := by
  have hany : p.Honours (fun _ _ => True) P := hp.honours fun _ h => h
  exact hany.assures hstep (fun _ _ _ _ => trivial) hrely hs

/-! ## What holds where a program succeeds -/

def OnSuccess (P : α → σ → Prop) (x : Except E α) (t : σ) : Prop := ∀ a, x = .ok a → P a t

theorem assures_ofExcept {P : α → σ → Prop} {x : Except E α}
    (h : ∀ a, x = .ok a → ∀ t, K.Rely s t → P a t) :
    (ofExcept x).Assures exec K (OnSuccess P) s := by
  cases x with
  | ok a =>
    rintro t ht _ ⟨⟩
    exact h a rfl t ht
  | error e =>
    rintro t ht _ ⟨⟩

theorem Assures.bind_ok {P : β → σ → Prop} {p : Prog A R E α} {f : α → Prog A R E β}
    (h : p.Assures exec K (OnSuccess fun a => (f a).Assures exec K (OnSuccess P)) s) :
    (p.bind f).Assures exec K (OnSuccess P) s := by
  refine Assures.bind (h.mono fun x t hx => ?_)
  cases x with
  | ok a => exact hx a rfl
  | error e => rintro _ ⟨⟩

theorem mapError_eq_ok {f : E → E'} {x : Except E α} {a : α} :
    x.mapError f = .ok a ↔ x = .ok a := by
  cases x <;> simp [Except.mapError]

theorem Assures.mapError_ok {P : α → σ → Prop} {f : E → E'} {p : Prog A R E α}
    (h : p.Assures exec K (OnSuccess P) s) : (p.mapError f).Assures exec K (OnSuccess P) s :=
  Assures.mapError (h.mono fun _ _ hx a ha => hx a (mapError_eq_ok.mp ha))

theorem Assures.discard_ok {P : σ → Prop} {p : Prog A R E α}
    (h : p.Assures exec K (OnSuccess fun _ => P) s) :
    p.discard.Assures exec K (OnSuccess fun _ => P) s :=
  h.discard (fun a _ hx _ _ => hx a rfl) fun _ _ _ _ he => by cases he

end Prog

/-! ## Side by side -/

section
variable {L A : Type} {R : A → Type} {C ε σ : Type}

/-- Every running program assures what its place is there for, and what is still to come can
start. -/
structure Assured (exec : C → (a : A) → σ → R a × σ) (K : Nat → Contract σ)
    (Q : Nat → Except Unit Unit → σ → Prop) (s : Gated L A R σ) : Prop where
  running : ∀ (i : Nat) (l : L) (held : Bool) (p : Task A R),
    s.slots[i]? = some (.running l held p) → p.Assures exec (K i) (Q i) s.state
  coming : ∀ i, s.slots.length ≤ i → (K i).Init s.state

/-- The contracts fit together: what one program guarantees, every other one relies on. -/
structure Compatible (env : ε → σ → σ → Prop) (K : Nat → Contract σ) : Prop where
  others : ∀ {i j s t}, i ≠ j → (K i).Guar s t → (K j).Rely s t
  environment : ∀ {e i s t}, env e s t → (K i).Rely s t

/-- The program at this place takes no step any more. -/
def Idle (i : Nat) (s : Gated L A R σ) : Prop :=
  i < s.slots.length ∧ ∀ (l : L) (held : Bool) (a : A) (k : R a → Task A R),
    s.slots[i]? ≠ some (.running l held (.act a k))

variable {exec : C → (a : A) → σ → R a × σ} {env : ε → σ → σ → Prop} {limited : L → Bool}
  {task : L → Task A R} {K : Nat → Contract σ} {Q : Nat → Except Unit Unit → σ → Prop}
  {P : Gated L A R σ → GateEvent L A R ε → Prop} {s t : Gated L A R σ}
  {e : GateEvent L A R ε} {es : List (GateEvent L A R ε)} {i : Nat}

/-- A program that is there keeps its place and its label. -/
theorem slots_kept (ht : GateEvent.Transition exec env limited e s t) {slot : Slot L A R}
    (hget : s.slots[i]? = some slot) : ∃ slot', t.slots[i]? = some slot' ∧ slot'.label = slot.label := by
  have hlt : i < s.slots.length := (List.getElem?_eq_some_iff.mp hget).1
  have hset : ∀ (j : Nat) (l : L) (held : Bool) (p : Task A R) (new : Slot L A R),
      s.slots[j]? = some (.running l held p) → new.label = l →
      ∃ slot', (s.slots.set j new)[i]? = some slot' ∧ slot'.label = slot.label := by
    intro j l held p new hj hnew
    rw [List.getElem?_set]
    by_cases hij : j = i
    · subst hij
      obtain rfl : Slot.running l held p = slot := Option.some.inj (hj.symm.trans hget)
      exact ⟨new, by simp [hlt], hnew⟩
    · exact ⟨slot, by rw [if_neg hij, hget], rfl⟩
  cases e with
  | arrive l p =>
    obtain rfl := ht
    exact ⟨slot, by rw [List.getElem?_append_left hlt, hget], rfl⟩
  | act j =>
    obtain ⟨l, held, a, k, c, hj, rfl⟩ := ht
    exact hset j l held _ _ hj rfl
  | leave j =>
    obtain ⟨l, held, p, hj, rfl⟩ := ht
    exact hset j l held p _ hj rfl
  | environment e =>
    obtain ⟨-, hslots, -⟩ := ht
    exact ⟨slot, by rw [hslots, hget], rfl⟩

theorem GateRun.slots_kept (hrun : GateRun exec env limited P s es t) {slot : Slot L A R}
    (hget : s.slots[i]? = some slot) : ∃ slot', t.slots[i]? = some slot' ∧ slot'.label = slot.label := by
  refine hrun.invariant (I := fun u => ∃ slot', u.slots[i]? = some slot' ∧
    slot'.label = slot.label) ⟨slot, hget, rfl⟩ ?_
  rintro e _ u v ⟨slot', hu, hlabel⟩ _ ht
  obtain ⟨slot'', hv, hlabel'⟩ := Lib.slots_kept ht hu
  exact ⟨slot'', hv, hlabel'.trans hlabel⟩

/-- One step. What does not act at a place is relied on there. -/
theorem Assured.step (hs : Assured exec K Q s) (hK : Compatible env K)
    (ht : GateEvent.Transition exec env limited e s t)
    (harrive : ∀ l p, e = .arrive l p → ∀ u, (K s.slots.length).Init u →
      p.Assures exec (K s.slots.length) (Q s.slots.length) u) :
    Assured exec K Q t ∧ ∀ i, e ≠ .act i → (K i).Rely s.state t.state := by
  cases e with
  | arrive l p =>
    obtain rfl := ht
    refine ⟨⟨fun i m held q hget => ?_, fun i hi => ?_⟩, fun i _ => (K i).refl _⟩
    · obtain ⟨hold, -⟩ | ⟨rfl, hnew⟩ := getElem?_concat rfl hget
      · exact hs.running i m held q hold
      · obtain rfl := accept_running hnew
        exact harrive l q rfl s.state (hs.coming _ (Nat.le_refl _))
    · exact hs.coming i (by simp at hi; omega)
  | act j =>
    obtain ⟨l, held, a, k, c, hget, rfl⟩ := ht
    have hlt : j < s.slots.length := (List.getElem?_eq_some_iff.mp hget).1
    obtain ⟨hguar, hrest⟩ := hs.running j l held _ hget s.state ((K j).refl _) c
    have hothers : ∀ i, i ≠ j → (K i).Rely s.state (exec c a s.state).2 :=
      fun i hi => hK.others (Ne.symm hi) hguar
    refine ⟨⟨fun i m b q hi => ?_, fun i hi => ?_⟩, fun i hi => hothers i ?_⟩
    · rw [List.getElem?_set] at hi
      by_cases hij : j = i
      · subst hij
        simp only [if_true, hlt, Option.some.injEq, Slot.running.injEq] at hi
        obtain ⟨-, -, rfl⟩ := hi
        exact hrest
      · rw [if_neg hij] at hi
        exact (hs.running i m b q hi).rely (hothers i (Ne.symm hij))
    · have hle : s.slots.length ≤ i := by simpa using hi
      exact (K i).stable (hothers i (by omega)) (hs.coming i hle)
    · rintro rfl
      exact hi rfl
  | leave j =>
    obtain ⟨l, held, p, hget, rfl⟩ := ht
    refine ⟨⟨fun i m b q hi => ?_, fun i hi => ?_⟩, fun i _ => (K i).refl _⟩
    · rw [List.getElem?_set] at hi
      split at hi
      · split at hi <;> simp at hi
      · exact hs.running i m b q hi
    · exact hs.coming i (by simpa using hi)
  | environment e =>
    obtain ⟨-, hslots, henv⟩ := ht
    refine ⟨⟨fun i m b q hi => ?_, fun i hi => ?_⟩, fun i _ => hK.environment henv⟩
    · exact (hs.running i m b q (hslots ▸ hi)).rely (hK.environment henv)
    · exact (K i).stable (hK.environment henv) (hs.coming i (hslots ▸ hi))

theorem accept_label (l : L) (free : Nat) (p : Task A R) : (accept limited free l p).1.label = l := by
  obtain ⟨-, -, heq⟩ | ⟨-, n, -, heq⟩ | ⟨-, heq⟩ := accept_cases limited free l p <;> rw [heq] <;> rfl

/-- What has come fits its place. -/
def Fits (exec : C → (a : A) → σ → R a × σ) (task : L → Task A R) (K : Nat → Contract σ)
    (Q : Nat → Except Unit Unit → σ → Prop) (s : Gated L A R σ) : Prop :=
  ∀ i slot, s.slots[i]? = some slot → ∀ u, (K i).Init u →
    (task slot.label).Assures exec (K i) (Q i) u

theorem Fits.before (h : Fits exec task K Q t)
    (ht : GateEvent.Transition exec env limited e s t) : Fits exec task K Q s := by
  intro i slot hget
  obtain ⟨slot', hget', hlabel⟩ := Lib.slots_kept ht hget
  exact hlabel ▸ h i slot' hget'

theorem Fits.arrived {l : L} (h : Fits exec task K Q t)
    (ht : GateEvent.Transition exec env limited (.arrive l (task l)) s t) :
    ∀ u, (K s.slots.length).Init u →
      (task l).Assures exec (K s.slots.length) (Q s.slots.length) u := by
  obtain rfl := ht
  have hnew := h _ _ List.getElem?_concat_length
  rwa [accept_label] at hnew

/-- The parallel rule: when all that comes fits its place, every program that runs assures what
its place is there for. -/
theorem Assured.run (hrun : GateRun exec env limited P s es t) (hs : Assured exec K Q s)
    (hK : Compatible env K) (hserved : ∀ u l p, P u (.arrive l p) → p = task l)
    (hfit : Fits exec task K Q t) : Assured exec K Q t := by
  induction hrun with
  | nil => exact hs
  | snoc hbefore hp ht ih =>
    refine ((ih (hfit.before ht)).step hK ht ?_).1
    rintro l p rfl
    obtain rfl := hserved _ _ _ hp
    exact hfit.arrived ht

theorem Idle.step (h : Idle i s) (ht : GateEvent.Transition exec env limited e s t) :
    e ≠ .act i ∧ Idle i t := by
  obtain ⟨hlt, hidle⟩ := h
  cases e with
  | arrive l p =>
    obtain rfl := ht
    refine ⟨by simp, by simp; omega, fun m held a k hget => hidle m held a k ?_⟩
    rwa [List.getElem?_append_left hlt] at hget
  | act j =>
    obtain ⟨l, held, a, k, c, hget, rfl⟩ := ht
    have hne : j ≠ i := by
      rintro rfl
      exact hidle l held a k hget
    refine ⟨by simpa using hne, by simpa using hlt, fun m b a' k' hi => ?_⟩
    rw [List.getElem?_set, if_neg hne] at hi
    exact hidle m b a' k' hi
  | leave j =>
    obtain ⟨l, held, p, hget, rfl⟩ := ht
    refine ⟨by simp, by simpa using hlt, fun m b a k hi => ?_⟩
    rw [List.getElem?_set] at hi
    split at hi
    · split at hi <;> simp at hi
    · exact hidle m b a k hi
  | environment e =>
    obtain ⟨-, hslots, -⟩ := ht
    refine ⟨by simp, ?_, ?_⟩
    · rw [hslots]
      exact hlt
    · rw [hslots]
      exact hidle

/-- From when a program has ended, whatever happens is relied on at its place. -/
theorem Assured.rely (hrun : GateRun exec env limited P s es t) (hs : Assured exec K Q s)
    (hK : Compatible env K) (hserved : ∀ u l p, P u (.arrive l p) → p = task l)
    (hfit : Fits exec task K Q t) (hidle : Idle i s) : (K i).Rely s.state t.state := by
  suffices h : (K i).Rely s.state t.state ∧ Idle i t from h.1
  induction hrun with
  | nil => exact ⟨(K i).refl _, hidle⟩
  | snoc hbefore hp ht ih =>
    have hbefore_fit := hfit.before ht
    obtain ⟨hrely, hidle⟩ := ih hbefore_fit
    obtain ⟨hact, hidle⟩ := hidle.step ht
    have hassured := Assured.run hbefore hs hK hserved hbefore_fit
    refine ⟨(K i).trans hrely ((hassured.step hK ht ?_).2 i hact), hidle⟩
    rintro l p rfl
    obtain rfl := hserved _ _ _ hp
    exact hfit.arrived ht

/-- What a program that has succeeded was there for holds from then on. -/
theorem Assured.post {l : L} {held : Bool} {es' : List (GateEvent L A R ε)} {w : σ}
    {capacity : Nat} {u : Gated L A R σ} (hinit : ∀ i, (K i).Init w)
    (hrun : GateRun exec env limited P (Gated.opened capacity w) es s)
    (hdone : s.slots[i]? = some (.running l held (.ret ())))
    (hlater : GateRun exec env limited P s es' u) (hK : Compatible env K)
    (hserved : ∀ u l p, P u (.arrive l p) → p = task l) (hfit : Fits exec task K Q u) :
    Q i (.ok ()) u.state := by
  have hopened : Assured exec K Q (Gated.opened capacity w : Gated L A R σ) :=
    ⟨fun i m b q hget => by simp [Gated.opened] at hget, fun i _ => hinit i⟩
  have hfit_before : Fits exec task K Q s := by
    intro i slot hget
    obtain ⟨slot', hget', hlabel⟩ := hlater.slots_kept hget
    exact hlabel ▸ hfit i slot' hget'
  have hassured := hopened.run hrun hK hserved hfit_before
  have hidle : Idle i s := by
    refine ⟨(List.getElem?_eq_some_iff.mp hdone).1, fun m b a k hget => ?_⟩
    rw [hdone] at hget
    simp at hget
  exact hassured.running i l held _ hdone _ (hassured.rely hlater hK hserved hfit hidle)

end

end LocalStorage.Lib
