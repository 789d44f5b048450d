import LocalStorage.Lib.Pool

namespace LocalStorage.Lib

/-! # A pool behind a counted semaphore

Programs of the limited labels run only while they hold one of a fixed number of permits,
and are turned away when none is free. A program that ends, or is given up where it
stands, gives its permit back. -/

section
variable {L A : Type} {R : A → Type} {C ε σ : Type}

inductive Slot (L A : Type) (R : A → Type) where
  | running (label : L) (held : Bool) (p : Task A R)
  | rejected (label : L)
  | finished (label : L)

namespace Slot

def label : Slot L A R → L
  | running l _ _ => l
  | rejected l => l
  | finished l => l

def isRunning : Slot L A R → Bool
  | running _ _ _ => true
  | _ => false

def isRejected : Slot L A R → Bool
  | rejected _ => true
  | _ => false

def holds : Slot L A R → Bool
  | running _ held _ => held
  | _ => false

end Slot

structure Gated (L A : Type) (R : A → Type) (σ : Type) where
  free : Nat
  slots : List (Slot L A R)
  state : σ

namespace Gated

def opened (capacity : Nat) (state : σ) : Gated L A R σ := ⟨capacity, [], state⟩

def holders (s : Gated L A R σ) : Nat := s.slots.countP Slot.holds

end Gated

inductive GateEvent (L A : Type) (R : A → Type) (ε : Type) where
  | arrive (label : L) (p : Task A R)
  /-- The program at this place takes a step. -/
  | act (i : Nat)
  /-- The program at this place has ended, or is dropped. -/
  | leave (i : Nat)
  /-- The state changes by itself. -/
  | environment (e : ε)

/-- What becomes of an arrival, and the permits that are left. -/
def accept (limited : L → Bool) (free : Nat) (l : L) (p : Task A R) : Slot L A R × Nat :=
  if limited l then
    match free with
    | 0 => (.rejected l, 0)
    | free + 1 => (.running l true p, free)
  else (.running l false p, free)

variable (exec : C → (a : A) → σ → R a × σ) (env : ε → σ → σ → Prop) (limited : L → Bool)

def GateEvent.Transition : GateEvent L A R ε → Gated L A R σ → Gated L A R σ → Prop
  | arrive l p, s, t =>
    t = { s with free := (accept limited s.free l p).2
                 slots := s.slots ++ [(accept limited s.free l p).1] }
  | act i, s, t => ∃ l held a k c, s.slots[i]? = some (.running l held (.act a k)) ∧
      t = { s with slots := s.slots.set i (.running l held (k (exec c a s.state).1))
                   state := (exec c a s.state).2 }
  | leave i, s, t => ∃ l held p, s.slots[i]? = some (.running l held p) ∧
      t = { s with free := if held then s.free + 1 else s.free
                   slots := s.slots.set i (.finished l) }
  | environment e, s, t => t.free = s.free ∧ t.slots = s.slots ∧ env e s.state t.state

abbrev GateRun (P : Gated L A R σ → GateEvent L A R ε → Prop) :=
  Run (GateEvent.Transition exec env limited) P

variable {exec env limited} {P : Gated L A R σ → GateEvent L A R ε → Prop}
  {s t : Gated L A R σ} {es : List (GateEvent L A R ε)} {capacity i : Nat}

/-! ## The permits -/

/-- Every permit is free or held, and exactly the running programs of the limited labels
hold one. -/
structure Accounted (limited : L → Bool) (capacity : Nat) (s : Gated L A R σ) : Prop where
  total : s.free + s.holders = capacity
  held : ∀ l h p, .running l h p ∈ s.slots → h = limited l
  turned : ∀ l, .rejected l ∈ s.slots → limited l = true

theorem Accounted.opened (state : σ) :
    Accounted limited capacity (Gated.opened capacity state : Gated L A R σ) where
  total := rfl
  held _ _ _ hmem := absurd hmem List.not_mem_nil
  turned _ hmem := absurd hmem List.not_mem_nil

/-- One element takes the place of another. -/
theorem countP_replaced {α : Type} {p : α → Bool} {xs : List α} {x y : α}
    (hget : xs[i]? = some x) : (xs.set i y).countP p + (if p x then 1 else 0) =
      xs.countP p + (if p y then 1 else 0) := by
  induction xs generalizing i with
  | nil => simp at hget
  | cons z zs ih =>
    cases i with
    | zero =>
      obtain rfl : z = x := by simpa using hget
      simp only [List.set_cons_zero, List.countP_cons]
      omega
    | succ i =>
      have htail := ih (by simpa using hget)
      simp only [List.set_cons_succ, List.countP_cons]
      omega

theorem accept_cases (limited : L → Bool) (free : Nat) (l : L) (p : Task A R) :
    (limited l = true ∧ free = 0 ∧ accept limited free l p = (.rejected l, 0)) ∨
    (limited l = true ∧ ∃ n, free = n + 1 ∧ accept limited free l p = (.running l true p, n)) ∨
    (limited l = false ∧ accept limited free l p = (.running l false p, free)) := by
  unfold accept
  cases hl : limited l with
  | false => exact .inr (.inr ⟨rfl, rfl⟩)
  | true =>
    cases free with
    | zero => exact .inl ⟨rfl, rfl, rfl⟩
    | succ n => exact .inr (.inl ⟨rfl, n, rfl, rfl⟩)

/-- Another slot at the end, with the permit where it belongs. -/
theorem Accounted.extended {slot : Slot L A R} {free : Nat} (h : Accounted limited capacity s)
    (hfree : free + (if slot.holds then 1 else 0) = s.free)
    (hheld : ∀ m b q, slot = .running m b q → b = limited m)
    (hturned : ∀ m, slot = .rejected m → limited m = true) :
    Accounted limited capacity (⟨free, s.slots ++ [slot], s.state⟩ : Gated L A R σ) := by
  have htotal := h.total
  refine ⟨?_, fun m b q hmem => ?_, fun m hmem => ?_⟩
  · simp only [Gated.holders, List.countP_append, List.countP_singleton] at htotal ⊢
    omega
  · obtain hmem | hmem := List.mem_append.mp hmem
    · exact h.held m b q hmem
    · exact hheld m b q (List.mem_singleton.mp hmem).symm
  · obtain hmem | hmem := List.mem_append.mp hmem
    · exact h.turned m hmem
    · exact hturned m (List.mem_singleton.mp hmem).symm

theorem Accounted.arrive {l : L} {p : Task A R} (h : Accounted limited capacity s) :
    Accounted limited capacity (⟨(accept limited s.free l p).2,
      s.slots ++ [(accept limited s.free l p).1], s.state⟩ : Gated L A R σ) := by
  obtain ⟨hl, hfree, heq⟩ | ⟨hl, n, hfree, heq⟩ | ⟨hl, heq⟩ := accept_cases limited s.free l p
  · rw [heq]
    refine h.extended (by simp [Slot.holds, hfree]) (by simp) ?_
    rintro m ⟨rfl⟩
    exact hl
  · rw [heq]
    refine h.extended (by simp [Slot.holds, hfree]) ?_ (by simp)
    rintro m b q ⟨rfl⟩
    exact hl.symm
  · rw [heq]
    refine h.extended (by simp [Slot.holds]) ?_ (by simp)
    rintro m b q ⟨rfl⟩
    exact hl.symm

/-- Another slot in the place of a running one, with the permit where it belongs. -/
theorem Accounted.replaced {l : L} {held : Bool} {p : Task A R} {slot : Slot L A R} {free : Nat}
    {state : σ} (h : Accounted limited capacity s) (hget : s.slots[i]? = some (.running l held p))
    (hfree : free + (if slot.holds then 1 else 0) = s.free + (if held then 1 else 0))
    (hheld : ∀ m b q, slot = .running m b q → b = limited m)
    (hturned : ∀ m, slot ≠ .rejected m) :
    Accounted limited capacity (⟨free, s.slots.set i slot, state⟩ : Gated L A R σ) := by
  have htotal := h.total
  have hcount := countP_replaced (p := Slot.holds) (y := slot) hget
  refine ⟨?_, fun m b q hmem => ?_, fun m hmem => ?_⟩
  · simp only [Gated.holders] at htotal ⊢
    rw [show Slot.holds (.running l held p) = held from rfl] at hcount
    omega
  · obtain hmem | heq := List.mem_or_eq_of_mem_set hmem
    · exact h.held m b q hmem
    · exact hheld m b q heq.symm
  · obtain hmem | heq := List.mem_or_eq_of_mem_set hmem
    · exact h.turned m hmem
    · exact absurd heq.symm (hturned m)

theorem Accounted.step {e : GateEvent L A R ε} (h : Accounted limited capacity s)
    (ht : GateEvent.Transition exec env limited e s t) : Accounted limited capacity t := by
  cases e with
  | arrive l p =>
    obtain rfl := ht
    exact h.arrive
  | act i =>
    obtain ⟨l, held, a, k, c, hget, rfl⟩ := ht
    refine h.replaced hget rfl ?_ (by simp)
    rintro m b q heq
    cases heq
    exact h.held l held _ (List.mem_of_getElem? hget)
  | leave i =>
    obtain ⟨l, held, p, hget, rfl⟩ := ht
    refine h.replaced hget ?_ (by simp) (by simp)
    cases held <;> simp [Slot.holds]
  | environment e =>
    obtain ⟨hfree, hslots, -⟩ := ht
    refine ⟨?_, ?_, ?_⟩
    · simpa only [Gated.holders, hfree, hslots] using h.total
    · rw [hslots]
      exact h.held
    · rw [hslots]
      exact h.turned

theorem Accounted.run (hrun : GateRun exec env limited P s es t)
    (h : Accounted limited capacity s) : Accounted limited capacity t :=
  hrun.invariant h fun _ _ _ _ hu _ ht => hu.step ht

/-- The running programs of the limited labels are the ones that hold a permit. -/
theorem Accounted.holders_eq (h : Accounted limited capacity s) :
    s.holders = s.slots.countP (fun slot => slot.isRunning && limited slot.label) := by
  apply List.countP_congr
  intro slot hmem
  cases slot with
  | running l held p => simp [Slot.holds, Slot.isRunning, Slot.label, h.held l held p hmem]
  | rejected l => simp [Slot.holds, Slot.isRunning]
  | finished l => simp [Slot.holds, Slot.isRunning]

/-- An arrival is turned away exactly when it needs a permit and all are held. -/
theorem Accounted.rejected_iff {l : L} {p : Task A R} (h : Accounted limited capacity s) :
    (accept limited s.free l p).1.isRejected = true ↔
      limited l = true ∧ s.holders = capacity := by
  have htotal := h.total
  obtain ⟨hl, hfree, heq⟩ | ⟨hl, n, hfree, heq⟩ | ⟨hl, heq⟩ := accept_cases limited s.free l p
  · simp only [heq, Slot.isRejected, hl, true_and, true_iff]
    omega
  · simp only [heq, Slot.isRejected, hl, true_and, Bool.false_eq_true, false_iff]
    omega
  · simp [heq, Slot.isRejected, hl]

/-! ## What the permits do not change -/

/-- The same programs without the limit: a program that was turned away or given up is there
and takes no step. -/
def Ungated (s : Gated L A R σ) (u : Pool A R σ) : Prop :=
  u.2 = s.state ∧ u.1.length = s.slots.length ∧
    ∀ (i : Nat) (l : L) (held : Bool) (p : Task A R),
      s.slots[i]? = some (.running l held p) → u.1[i]? = some p

theorem Ungated.opened (state : σ) :
    Ungated (Gated.opened capacity state : Gated L A R σ) ([], state) :=
  ⟨rfl, rfl, fun i l held p hget => by simp [Gated.opened] at hget⟩

theorem getElem?_concat {α β : Type} {xs : List α} {ys : List β} {x y : α} (hlen : ys.length = xs.length)
    (hget : (xs ++ [x])[i]? = some y) :
    xs[i]? = some y ∧ i < ys.length ∨ i = ys.length ∧ x = y := by
  obtain hlt | rfl | hgt := Nat.lt_trichotomy i xs.length
  · rw [List.getElem?_append_left hlt] at hget
    exact .inl ⟨hget, by omega⟩
  · rw [List.getElem?_append_right (Nat.le_refl _)] at hget
    exact .inr ⟨hlen.symm, by simpa using hget⟩
  · rw [List.getElem?_eq_none (by simp; omega)] at hget
    simp at hget

theorem accept_running {l m : L} {held : Bool} {free : Nat} {p q : Task A R}
    (h : (accept limited free l p).1 = .running m held q) : q = p := by
  obtain ⟨-, -, heq⟩ | ⟨-, n, -, heq⟩ | ⟨-, heq⟩ := accept_cases limited free l p
  · simp [heq] at h
  · simp only [heq, Slot.running.injEq] at h
    exact h.2.2.symm
  · simp only [heq, Slot.running.injEq] at h
    exact h.2.2.symm

/-- Every step of the limited pool is one of the plain pool or none at all. -/
theorem Ungated.step {e : GateEvent L A R ε} {u : Pool A R σ} {Q : Pool A R σ → PoolEvent A R ε → Prop}
    (h : Ungated s u) (ht : GateEvent.Transition exec env limited e s t) (hp : P s e)
    (arrive : ∀ s u l p, P s (.arrive l p) → Q u (.arrive p)) (act : ∀ u i, Q u (.act i))
    (environment : ∀ u e, Q u (.environment e)) :
    ∃ fs v, PoolRun exec env Q u fs v ∧ Ungated t v := by
  obtain ⟨hstate, hlen, hsame⟩ := h
  cases e with
  | arrive l p =>
    obtain rfl := ht
    refine ⟨[.arrive p], (u.1 ++ [p], u.2), .snoc (.nil u) (arrive s u l p hp) rfl, hstate,
      by simp [hlen], fun i m held q hget => ?_⟩
    obtain ⟨hold, hlt⟩ | ⟨rfl, hnew⟩ := getElem?_concat hlen hget
    · rw [List.getElem?_append_left hlt]
      exact hsame i m held q hold
    · rw [List.getElem?_append_right (Nat.le_refl _), accept_running hnew]
      simp
  | act i =>
    obtain ⟨l, held, a, k, c, hget, rfl⟩ := ht
    have hget' : u.1[i]? = some (.act a k) := hsame i l held _ hget
    have hlt : i < u.1.length := (List.getElem?_eq_some_iff.mp hget').1
    refine ⟨[.act i], _, .snoc (.nil u) (act u i) ⟨a, k, c, hget', rfl⟩, by rw [hstate],
      by simp [hlen], fun j m b q hj => ?_⟩
    rw [hstate]
    rw [List.getElem?_set] at hj ⊢
    by_cases hij : i = j
    · subst hij
      simp only [if_true, hlen ▸ hlt, Option.some.injEq, Slot.running.injEq] at hj
      simp [hlt, hj.2.2]
    · rw [if_neg hij] at hj ⊢
      exact hsame j m b q hj
  | leave i =>
    obtain ⟨l, held, p, hget, rfl⟩ := ht
    refine ⟨[], u, .nil u, hstate, by simp [hlen], fun j m b q hj => ?_⟩
    rw [List.getElem?_set] at hj
    split at hj
    · split at hj <;> simp at hj
    · exact hsame j m b q hj
  | environment e =>
    obtain ⟨-, hslots, henv⟩ := ht
    refine ⟨[.environment e], (u.1, t.state), .snoc (.nil u) (environment u e) ⟨rfl, ?_⟩, rfl, ?_⟩
    · rw [hstate]
      exact henv
    · rw [hslots]
      exact ⟨hlen, hsame⟩

/-- The steps of one program on its own are a run of the limited pool. -/
theorem Prog.Runs.gated {E α : Type} {p : Prog A R E α} {u v : σ} {x : Except E α} {l : L}
    {held : Bool} {free : Nat} (h : p.Runs exec u x v) (hp : ∀ s i, P s (.act i)) :
    ∃ es, GateRun exec env limited P ⟨free, [.running l held p.discard], u⟩ es
      ⟨free, [.running l held (Prog.ofExcept x).discard], v⟩ := by
  induction p generalizing u with
  | ret a =>
    obtain ⟨rfl, rfl⟩ := h
    exact ⟨[], .nil _⟩
  | fail e =>
    obtain ⟨rfl, rfl⟩ := h
    exact ⟨[], .nil _⟩
  | act a k ih =>
    obtain ⟨c, hc⟩ := h
    obtain ⟨es, hrun⟩ := ih _ hc
    have hstep : GateEvent.Transition exec env limited (.act 0)
        (⟨free, [.running l held (Prog.act a k).discard], u⟩ : Gated L A R σ)
        ⟨free, [.running l held (k (exec c a u).1).discard], (exec c a u).2⟩ :=
      ⟨l, held, a, fun r => (k r).discard, c, rfl, rfl⟩
    exact ⟨_, (Run.snoc (.nil _) (hp _ 0) hstep).append hrun⟩

/-- What the limited pool does to the state, the plain pool can do. -/
theorem GateRun.pooled {Q : Pool A R σ → PoolEvent A R ε → Prop}
    (hrun : GateRun exec env limited P s es t) {u : Pool A R σ} (h : Ungated s u)
    (arrive : ∀ s u l p, P s (.arrive l p) → Q u (.arrive p)) (act : ∀ u i, Q u (.act i))
    (environment : ∀ u e, Q u (.environment e)) :
    ∃ fs v, PoolRun exec env Q u fs v ∧ Ungated t v := by
  induction hrun with
  | nil => exact ⟨[], u, .nil u, h⟩
  | snoc _ hp ht ih =>
    obtain ⟨fs, v, hbefore, hv⟩ := ih
    obtain ⟨gs, w, hstep, hw⟩ := hv.step ht hp arrive act environment
    exact ⟨fs ++ gs, w, hbefore.append hstep, hw⟩

end

end LocalStorage.Lib
