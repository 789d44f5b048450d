import Mathlib.Algebra.GroupWithZero.Nat
import Mathlib.Algebra.Ring.Int.Defs
import Mathlib.Data.List.Nodup

namespace LocalStorage.Lib.Tallies

/-! # Entries by key, in the order in which the keys came up -/

variable {β κ : Type} [DecidableEq κ] {key : β → κ} {grow : β → β} {new e : β} {entries : List β}

/-- The entry under the key of `new` grows, or `new` comes in last. -/
def enter (key : β → κ) (grow : β → β) (new : β) : List β → List β
  | [] => [new]
  | e :: entries => if key e = key new then grow e :: entries else e :: enter key grow new entries

theorem map_key_enter (hgrow : ∀ e, key (grow e) = key e) : (enter key grow new entries).map key =
    if key new ∈ entries.map key then entries.map key else entries.map key ++ [key new] := by
  induction entries with
  | nil => simp [enter]
  | cons e entries ih =>
    by_cases hkey : key e = key new
    · simp [enter, hkey, hgrow]
    · have hne : key new ≠ key e := Ne.symm hkey
      simp only [enter, if_neg hkey, List.map_cons, ih, List.mem_cons, hne, false_or]
      split <;> rfl

theorem nodup_enter (hgrow : ∀ e, key (grow e) = key e) (hn : (entries.map key).Nodup) :
    ((enter key grow new entries).map key).Nodup := by
  rw [map_key_enter hgrow]
  split
  · exact hn
  · rename_i hnew
    rw [List.nodup_append]
    refine ⟨hn, List.nodup_singleton _, ?_⟩
    rintro a ha b hb rfl
    exact hnew (List.mem_singleton.mp hb ▸ ha)

/-- Entries of other keys stay as they are; the one of the key has grown or is new. -/
theorem mem_enter (hn : (entries.map key).Nodup)
    (he : e ∈ enter key grow new entries) : e ∈ entries ∧ key e ≠ key new ∨
      (∃ old ∈ entries, key old = key new ∧ e = grow old) ∨
      (∀ old ∈ entries, key old ≠ key new) ∧ e = new := by
  induction entries with
  | nil => exact .inr (.inr ⟨by simp, List.mem_singleton.mp he⟩)
  | cons first entries ih =>
    rw [List.map_cons, List.nodup_cons] at hn
    by_cases hkey : key first = key new
    · simp only [enter, if_pos hkey, List.mem_cons] at he
      obtain rfl | he := he
      · exact .inr (.inl ⟨first, List.mem_cons_self, hkey, rfl⟩)
      · refine .inl ⟨List.mem_cons_of_mem _ he, fun heq => hn.1 ?_⟩
        exact List.mem_map.mpr ⟨e, he, heq.trans hkey.symm⟩
    · simp only [enter, if_neg hkey, List.mem_cons] at he
      obtain rfl | he := he
      · exact .inl ⟨List.mem_cons_self, hkey⟩
      · obtain ⟨hold, hne⟩ | ⟨old, hold, hsame, rfl⟩ | ⟨hnone, rfl⟩ := ih hn.2 he
        · exact .inl ⟨List.mem_cons_of_mem _ hold, hne⟩
        · exact .inr (.inl ⟨old, List.mem_cons_of_mem _ hold, hsame, rfl⟩)
        · refine .inr (.inr ⟨fun old hold => ?_, rfl⟩)
          obtain rfl | hold := List.mem_cons.mp hold
          · exact hkey
          · exact hnone old hold

/-- What every growth adds to, and a new entry starts with, the entries have more of together. -/
theorem sum_enter {count : β → Nat} {n : Nat} (hgrow : ∀ e, count (grow e) = count e + n)
    (hnew : count new = n) :
    ((enter key grow new entries).map count).sum = (entries.map count).sum + n := by
  induction entries with
  | nil => simp [enter, hnew]
  | cons e entries ih =>
    by_cases hkey : key e = key new
    · simp only [enter, if_pos hkey, List.map_cons, List.sum_cons, hgrow]
      omega
    · simp only [enter, if_neg hkey, List.map_cons, List.sum_cons, ih]
      omega

end LocalStorage.Lib.Tallies
