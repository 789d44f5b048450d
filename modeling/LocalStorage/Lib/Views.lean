import Mathlib.Logic.Function.Basic
import Mathlib.Data.List.Basic

namespace LocalStorage.Lib

/-! A table whose rows fall into groups, and a view with one summary for each group. The
view is kept by recomputing single groups. -/

section
variable {ρ κ S : Type} [DecidableEq κ] (group : ρ → κ) (summary : List ρ → S)

def members (rows : List ρ) (g : κ) : List ρ := rows.filter (fun r => group r = g)

/-- Summaries are only put in place, never taken away: a group without members keeps the
summary it had. -/
def refresh (rows : List ρ) (view : κ → Option S) (g : κ) : κ → Option S :=
  if members group rows g = [] then view
  else Function.update view g (some (summary (members group rows g)))

/-- The summary of every group agrees with its members; a group without one has none. -/
def Agreeing (agrees : S → List ρ → Prop) (rows : List ρ) (view : κ → Option S) : Prop :=
  ∀ g, match view g with
    | none => members group rows g = []
    | some s => agrees s (members group rows g)

variable {group summary}

@[simp] theorem mem_members {rows : List ρ} {g : κ} {r : ρ} :
    r ∈ members group rows g ↔ r ∈ rows ∧ group r = g := by
  simp [members]

theorem members_eq_nil {rows : List ρ} {g : κ} :
    members group rows g = [] ↔ ∀ r ∈ rows, group r ≠ g := by
  simp [members]

theorem refresh_self {rows : List ρ} {view : κ → Option S} {g : κ}
    (h : members group rows g ≠ []) :
    refresh group summary rows view g g = some (summary (members group rows g)) := by
  simp [refresh, h]

theorem refresh_ne {rows : List ρ} {view : κ → Option S} {g g' : κ} (h : g' ≠ g) :
    refresh group summary rows view g g' = view g' := by
  unfold refresh
  split
  · rfl
  · simp [h]

theorem refresh_empty {rows : List ρ} {view : κ → Option S} {g g' : κ}
    (h : members group rows g' = []) : refresh group summary rows view g g' = view g' := by
  by_cases hg : g' = g
  · subst hg
    simp [refresh, h]
  · exact refresh_ne hg

/-- After recomputing several groups, exactly the inhabited ones among them are new. -/
theorem foldl_refresh {rows : List ρ} {gs : List κ} {view : κ → Option S} {g : κ} :
    gs.foldl (refresh group summary rows) view g =
      if g ∈ gs ∧ members group rows g ≠ [] then some (summary (members group rows g))
      else view g := by
  induction gs generalizing view with
  | nil => simp
  | cons g' gs ih =>
    rw [List.foldl_cons, ih]
    by_cases hm : members group rows g = []
    · simp [hm, refresh_empty hm]
    · by_cases hg : g = g'
      · subst hg
        simp [hm, refresh_self hm]
      · simp [hm, hg, refresh_ne hg]

variable {agrees : S → List ρ → Prop} {rows rows' : List ρ} {view : κ → Option S} {gs : List κ}

/-- Recomputing every group that changed keeps the view, as long as none of them is empty. -/
theorem Agreeing.refreshed (h : Agreeing group agrees rows view)
    (hsummary : ∀ l, agrees (summary l) l) (hin : ∀ g ∈ gs, members group rows' g ≠ [])
    (hempty : ∀ g, g ∉ gs → members group rows g = [] → members group rows' g = [])
    (hkeep : ∀ g, g ∉ gs → ∀ s, agrees s (members group rows g) → agrees s (members group rows' g)) :
    Agreeing group agrees rows' (gs.foldl (refresh group summary rows') view) := by
  intro g
  rw [foldl_refresh]
  by_cases hg : g ∈ gs
  · simpa [hg, hin g hg] using hsummary _
  · have hold := h g
    simp only [hg, false_and, ↓reduceIte]
    cases hv : view g with
    | none =>
      rw [hv] at hold
      exact hempty g hg hold
    | some s =>
      rw [hv] at hold
      exact hkeep g hg s hold

theorem Agreeing.refreshed_one {g : κ} (h : Agreeing group agrees rows view)
    (hsummary : ∀ l, agrees (summary l) l) (hin : members group rows' g ≠ [])
    (hempty : ∀ g', g' ≠ g → members group rows g' = [] → members group rows' g' = [])
    (hkeep : ∀ g', g' ≠ g → ∀ s, agrees s (members group rows g') →
      agrees s (members group rows' g')) :
    Agreeing group agrees rows' (refresh group summary rows' view g) := by
  have hall : Agreeing group agrees rows' ([g].foldl (refresh group summary rows') view) := by
    refine h.refreshed hsummary ?_ (fun g' hg => hempty g' (by simpa using hg))
      fun g' hg => hkeep g' (by simpa using hg)
    intro g' hg
    exact List.mem_singleton.mp hg ▸ hin
  exact hall

/-- A group that lost members and was not recomputed, or has none left, shows its old
summary. -/
theorem Agreeing.stale (h : Agreeing group agrees rows view)
    (h' : Agreeing group agrees rows' (gs.foldl (refresh group summary rows') view))
    (hlength : ∀ s l l', agrees s l → agrees s l' → l.length = l'.length) {g : κ}
    (hg : members group rows g ≠ []) (hnot : g ∉ gs ∨ members group rows' g = []) :
    (members group rows' g).length = (members group rows g).length := by
  have hold := h g
  have hnew := h' g
  have hsame : gs.foldl (refresh group summary rows') view g = view g := by
    rw [foldl_refresh, if_neg]
    intro ⟨hin, hne⟩
    exact hnot.elim (fun hn => hn hin) hne
  rw [hsame] at hnew
  cases hv : view g with
  | none =>
    rw [hv] at hold
    exact absurd hold hg
  | some s =>
    rw [hv] at hold hnew
    exact hlength s _ _ hnew hold

end

end LocalStorage.Lib
