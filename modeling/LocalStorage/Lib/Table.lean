import Mathlib.Data.List.Nodup

namespace LocalStorage.Lib

/-- A relation stored as a list of rows with a unique key. -/
@[ext]
structure Table {ρ κ : Type} (key : ρ → κ) where
  rows : List ρ
  keyed : (rows.map key).Nodup

namespace Table

variable {ρ κ : Type} [DecidableEq κ] {key : ρ → κ}

instance : Membership ρ (Table key) := ⟨fun t r => r ∈ t.rows⟩

omit [DecidableEq κ] in
theorem mem_def {t : Table key} {r : ρ} : r ∈ t ↔ r ∈ t.rows := Iff.rfl

def empty : Table key := ⟨[], List.nodup_nil⟩

def find (t : Table key) (k : κ) : Option ρ := t.rows.find? (fun r => key r = k)

/-- Keep the rows that satisfy `p`. -/
def filter (t : Table key) (p : ρ → Bool) : Table key :=
  ⟨t.rows.filter p, t.keyed.sublist (List.filter_sublist.map key)⟩

def erase (t : Table key) (k : κ) : Table key := t.filter (fun r => key r ≠ k)

/-- Rewrite the rows in place; the keys stay. -/
def update (t : Table key) (f : ρ → ρ) (hf : ∀ r, key (f r) = key r) : Table key :=
  ⟨t.rows.map f, by simpa only [List.map_map, Function.comp_def, hf] using t.keyed⟩

/-- The row under `r`'s key becomes `r`, whether or not there was one. -/
def put (t : Table key) (r : ρ) : Table key where
  rows := (t.erase (key r)).rows ++ [r]
  keyed := by
    rw [List.map_append, List.map_singleton, List.nodup_append]
    refine ⟨(t.erase (key r)).keyed, List.nodup_singleton _, ?_⟩
    intro a ha b hb hab
    obtain ⟨q, hq, rfl⟩ := List.mem_map.mp ha
    have hne : key q ≠ key r := by simpa [erase, filter] using (List.mem_filter.mp hq).2
    exact hne (hab.trans (List.mem_singleton.mp hb))

omit [DecidableEq κ] in
@[simp] theorem not_mem_empty {r : ρ} : r ∉ (empty : Table key) := List.not_mem_nil

omit [DecidableEq κ] in
theorem eq_of_key {t : Table key} {q r : ρ} (hq : q ∈ t) (hr : r ∈ t) (h : key q = key r) : q = r :=
  List.inj_on_of_nodup_map t.keyed hq hr h

theorem find_eq_some {t : Table key} {k : κ} {r : ρ} : t.find k = some r ↔ r ∈ t ∧ key r = k := by
  constructor
  · intro h
    exact ⟨List.mem_of_find?_eq_some h, by simpa using List.find?_some h⟩
  · rintro ⟨hr, rfl⟩
    cases h : t.find (key r) with
    | none => simpa using List.find?_eq_none.mp h r hr
    | some q =>
      have hk : key q = key r := by simpa using List.find?_some h
      rw [eq_of_key (List.mem_of_find?_eq_some h) hr hk]

theorem find_eq_none {t : Table key} {k : κ} : t.find k = none ↔ ∀ r ∈ t, key r ≠ k := by
  simp [find, mem_def]

theorem find_mem {t : Table key} {k : κ} {r : ρ} (h : t.find k = some r) : r ∈ t :=
  (find_eq_some.mp h).1

theorem find_key {t : Table key} {k : κ} {r : ρ} (h : t.find k = some r) : key r = k :=
  (find_eq_some.mp h).2

theorem find_self {t : Table key} {r : ρ} (h : r ∈ t) : t.find (key r) = some r :=
  find_eq_some.mpr ⟨h, rfl⟩

omit [DecidableEq κ] in
@[simp] theorem mem_filter {t : Table key} {p : ρ → Bool} {r : ρ} :
    r ∈ t.filter p ↔ r ∈ t ∧ p r = true := List.mem_filter

@[simp] theorem mem_erase {t : Table key} {k : κ} {r : ρ} :
    r ∈ t.erase k ↔ r ∈ t ∧ key r ≠ k := by
  simp [erase]

omit [DecidableEq κ] in
@[simp] theorem mem_update {t : Table key} {f : ρ → ρ} {hf : ∀ r, key (f r) = key r} {r : ρ} :
    r ∈ t.update f hf ↔ ∃ q ∈ t, f q = r := List.mem_map

@[simp] theorem mem_put {t : Table key} {q r : ρ} :
    q ∈ t.put r ↔ q = r ∨ q ∈ t ∧ key q ≠ key r := by
  have h : q ∈ t.put r ↔ q ∈ t.erase (key r) ∨ q ∈ [r] := List.mem_append
  simp [h, or_comm]

@[simp] theorem find_empty {k : κ} : (empty : Table key).find k = none := rfl

theorem find_put_self {t : Table key} {r : ρ} : (t.put r).find (key r) = some r :=
  find_self (mem_put.mpr (.inl rfl))

/-- At most one row has a key. -/
theorem filter_key (t : Table key) (k : κ) :
    t.rows.filter (fun r => key r = k) = (t.find k).toList := by
  have hlist : ∀ rows : List ρ, (rows.map key).Nodup →
      rows.filter (fun r => key r = k) = (rows.find? (fun r => key r = k)).toList := by
    intro rows hn
    induction rows with
    | nil => rfl
    | cons r rows ih =>
      rw [List.map_cons, List.nodup_cons] at hn
      by_cases hr : key r = k
      · have hnone : rows.filter (fun r => key r = k) = [] := by
          rw [List.filter_eq_nil_iff]
          intro q hq hk
          exact hn.1 (List.mem_map.mpr ⟨q, hq, (of_decide_eq_true hk).trans hr.symm⟩)
        simp [hr, hnone]
      · simpa [hr] using ih hn.2
  exact hlist t.rows t.keyed

theorem find_congr {s t : Table key} {k : κ} (h : ∀ r, key r = k → (r ∈ s ↔ r ∈ t)) :
    s.find k = t.find k := by
  cases hs : s.find k with
  | none =>
    refine (find_eq_none.mpr ?_).symm
    intro r hr hk
    exact find_eq_none.mp hs r ((h r hk).mpr hr) hk
  | some r =>
    obtain ⟨hr, hk⟩ := find_eq_some.mp hs
    exact (find_eq_some.mpr ⟨(h r hk).mp hr, hk⟩).symm

theorem find_put_ne {t : Table key} {r : ρ} {k : κ} (h : k ≠ key r) : (t.put r).find k = t.find k := by
  apply find_congr
  intro q hq
  subst hq
  simp only [mem_put, h, ne_eq, not_false_eq_true, and_true, or_iff_right_iff_imp]
  rintro rfl
  exact absurd rfl h

theorem find_erase_self {t : Table key} {k : κ} : (t.erase k).find k = none := by
  simp [find_eq_none]

theorem find_erase_ne {t : Table key} {j k : κ} (h : j ≠ k) : (t.erase k).find j = t.find j := by
  apply find_congr
  intro q hq
  subst hq
  simp [h]

theorem erase_of_find_none {t : Table key} {k : κ} (h : t.find k = none) : t.erase k = t := by
  ext1
  simp only [erase, filter, List.filter_eq_self]
  exact fun r hr => by simpa using find_eq_none.mp h r hr

theorem find_update {t : Table key} {f : ρ → ρ} {hf : ∀ r, key (f r) = key r} {k : κ} :
    (t.update f hf).find k = (t.find k).map f := by
  cases h : t.find k with
  | none =>
    rw [Option.map_none, find_eq_none]
    intro r hr
    obtain ⟨q, hq, rfl⟩ := mem_update.mp hr
    rw [hf]
    exact find_eq_none.mp h q hq
  | some r =>
    obtain ⟨hr, rfl⟩ := find_eq_some.mp h
    exact find_eq_some.mpr ⟨mem_update.mpr ⟨r, hr, rfl⟩, hf r⟩

/-- What is found among fewer rows was found before. -/
theorem find_of_filter {t : Table key} {p : ρ → Bool} {k : κ} {r : ρ}
    (h : (t.filter p).find k = some r) : t.find k = some r := by
  obtain ⟨hr, hk⟩ := find_eq_some.mp h
  exact find_eq_some.mpr ⟨(mem_filter.mp hr).1, hk⟩

theorem find_filter_of {t : Table key} {p : ρ → Bool} {k : κ} (h : ∀ r ∈ t, key r = k → p r = true) :
    (t.filter p).find k = t.find k := by
  apply find_congr
  intro r hk
  simp only [mem_filter, and_iff_left_iff_imp]
  exact fun hr => h r hr hk

theorem find_filter_not {t : Table key} {p : ρ → Bool} {k : κ} (h : ∀ r ∈ t, key r = k → p r = false) :
    (t.filter p).find k = none := by
  rw [find_eq_none]
  intro r hr hk
  obtain ⟨hr, hp⟩ := mem_filter.mp hr
  simp [h r hr hk] at hp

end Table

end LocalStorage.Lib
