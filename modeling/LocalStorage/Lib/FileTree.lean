import Mathlib.Data.List.Infix

namespace LocalStorage.Lib

inductive Node (β : Type) where
  | file (bytes : β)
  | dir
deriving DecidableEq, Repr

/-- A file tree: what stands at each place. -/
def FileTree (α β : Type) := List α → Option (Node β)

namespace FileTree

variable {α β : Type} {t : FileTree α β}

def empty : FileTree α β := fun _ => none

/-- The root is always a directory. -/
def node (t : FileTree α β) (l : List α) : Option (Node β) :=
  if l = [] then some .dir else t l

def fileAt (t : FileTree α β) (l : List α) : Option β :=
  match t.node l with
  | some (.file b) => some b
  | _ => none

def isDir (t : FileTree α β) (l : List α) : Bool :=
  match t.node l with
  | some .dir => true
  | _ => false

@[simp] theorem node_nil : t.node [] = some .dir := rfl

theorem fileAt_eq_some {l : List α} {b : β} :
    t.fileAt l = some b ↔ t.node l = some (.file b) := by
  unfold fileAt
  rcases t.node l with _ | _ | _ <;> simp

theorem isDir_iff {l : List α} : t.isDir l = true ↔ t.node l = some .dir := by
  unfold isDir
  rcases t.node l with _ | _ | _ <;> simp

@[simp] theorem fileAt_nil : t.fileAt [] = none := rfl

theorem ne_nil_of_fileAt {l : List α} {b : β} (h : t.fileAt l = some b) : l ≠ [] := by
  rintro rfl
  simp at h

theorem fileAt_congr {s : FileTree α β} {l : List α} (h : s.node l = t.node l) :
    s.fileAt l = t.fileAt l := by
  unfold fileAt
  rw [h]

/-! ## Changes -/

variable [DecidableEq α]

def set (t : FileTree α β) (l : List α) (n : Option (Node β)) : FileTree α β :=
  fun k => if k = l then n else t k

def putFile (t : FileTree α β) (l : List α) (b : β) : FileTree α β := t.set l (some (.file b))

def erase (t : FileTree α β) (l : List α) : FileTree α β := t.set l none

/-- Drop what stands at or below `l` and satisfies `p`. -/
def prune (t : FileTree α β) (l : List α) (p : List α → Bool) : FileTree α β :=
  fun k => if l <+: k ∧ p k then none else t k

/-- Make every place of the list a directory, in order; a file in the way stops it. -/
def mkdirs (t : FileTree α β) : List (List α) → Bool × FileTree α β
  | [] => (true, t)
  | l :: ls =>
    match t.node l with
    | some .dir => mkdirs t ls
    | some (.file _) => (false, t)
    | none => mkdirs (t.set l (some .dir)) ls

theorem node_set {l : List α} {n : Option (Node β)} (h : l ≠ []) (k : List α) :
    (t.set l n).node k = if k = l then n else t.node k := by
  by_cases hk : k = l
  · simp [node, set, hk, h]
  · simp [node, set, hk]

theorem node_prune {l : List α} {p : List α → Bool} (k : List α) (hk : k ≠ []) :
    (t.prune l p).node k = if l <+: k ∧ p k then none else t.node k := by
  simp [node, prune, hk]

theorem fileAt_putFile_self {l : List α} {b : β} (h : l ≠ []) :
    (t.putFile l b).fileAt l = some b := by
  rw [fileAt_eq_some, putFile, node_set h, if_pos rfl]

theorem fileAt_set_ne {l k : List α} {n : Option (Node β)} (h : k ≠ l) :
    (t.set l n).fileAt k = t.fileAt k := by
  apply fileAt_congr
  simp only [node, set, if_neg h]

theorem fileAt_putFile_ne {l k : List α} {b : β} (h : k ≠ l) :
    (t.putFile l b).fileAt k = t.fileAt k := fileAt_set_ne h

theorem fileAt_erase_self {l : List α} : (t.erase l).fileAt l = none := by
  by_cases h : l = []
  · subst h
    rfl
  · simp [fileAt, erase, node_set h]

theorem fileAt_erase_ne {l k : List α} (h : k ≠ l) : (t.erase l).fileAt k = t.fileAt k :=
  fileAt_set_ne h

theorem isDir_erase {l k : List α} (h : (t.erase l).isDir k = true) : t.isDir k = true := by
  rw [isDir_iff] at h ⊢
  by_cases hl : l = []
  · subst hl
    by_cases hk : k = []
    · simp [hk]
    · simpa [node, erase, set, hk] using h
  · rw [erase, node_set hl] at h
    by_cases hk : k = l
    · simp [hk] at h
    · simpa [hk] using h

/-- Unlinking a file takes no directory away. -/
theorem isDir_erase_file {l k : List α} (hl : (t.fileAt l).isSome = true) :
    (t.erase l).isDir k = t.isDir k := by
  obtain ⟨b, hb⟩ := Option.isSome_iff_exists.mp hl
  have hne := ne_nil_of_fileAt hb
  unfold isDir
  rw [erase, node_set hne]
  by_cases hk : k = l
  · simp [hk, fileAt_eq_some.mp hb]
  · simp [hk]

/-- A file put where no directory stands takes none away. -/
theorem isDir_putFile {l : List α} {b : β} (hl : l ≠ []) (hdir : t.isDir l = false) (k : List α) :
    (t.putFile l b).isDir k = t.isDir k := by
  by_cases hk : k = l
  · subst hk
    rw [hdir, ← Bool.not_eq_true, isDir_iff, putFile, node_set hl, if_pos rfl]
    simp
  · unfold isDir
    rw [putFile, node_set hl, if_neg hk]

theorem fileAt_prune_of_not {l k : List α} {p : List α → Bool} (h : ¬ (l <+: k ∧ p k)) :
    (t.prune l p).fileAt k = t.fileAt k := by
  apply fileAt_congr
  simp only [node, prune, if_neg h]

theorem fileAt_prune_of {l k : List α} {p : List α → Bool} (h : l <+: k) (hp : p k) :
    (t.prune l p).fileAt k = none := by
  by_cases hk : k = []
  · subst hk
    rfl
  · simp [fileAt, node_prune k hk, h, hp]

/-- Making directories never changes a file. -/
theorem fileAt_mkdirs (ls : List (List α)) (k : List α) :
    (t.mkdirs ls).2.fileAt k = t.fileAt k := by
  induction ls generalizing t with
  | nil => rfl
  | cons l ls ih =>
    cases hn : t.node l with
    | none =>
      have hl : l ≠ [] := by
        rintro rfl
        simp at hn
      simp only [mkdirs, hn, ih]
      by_cases hk : k = l
      · subst hk
        simp [fileAt, node_set hl, hn]
      · exact fileAt_set_ne hk
    | some n =>
      cases n with
      | file b => simp only [mkdirs, hn]
      | dir => simp only [mkdirs, hn, ih]

/-- Directories stay when directories are made. -/
theorem isDir_mkdirs {ls : List (List α)} {k : List α} (h : t.isDir k) :
    (t.mkdirs ls).2.isDir k := by
  induction ls generalizing t with
  | nil => exact h
  | cons l ls ih =>
    cases hn : t.node l with
    | none =>
      have hl : l ≠ [] := by
        rintro rfl
        simp at hn
      simp only [mkdirs, hn]
      apply ih
      rw [isDir_iff, node_set hl]
      split
      · rfl
      · exact isDir_iff.mp h
    | some n =>
      cases n with
      | file b => simpa only [mkdirs, hn] using h
      | dir => simpa only [mkdirs, hn] using ih h

/-- Every place asked for is a directory once the walk has succeeded. -/
theorem isDir_of_mkdirs {ls : List (List α)} (h : (t.mkdirs ls).1 = true) {k : List α} (hk : k ∈ ls) :
    (t.mkdirs ls).2.isDir k := by
  induction ls generalizing t with
  | nil => exact absurd hk List.not_mem_nil
  | cons l ls ih =>
    cases hn : t.node l with
    | none =>
      have hl : l ≠ [] := by
        rintro rfl
        simp at hn
      simp only [mkdirs, hn] at h ⊢
      rcases List.mem_cons.mp hk with rfl | hk
      · apply isDir_mkdirs
        simp [isDir_iff, node_set hl]
      · exact ih h hk
    | some n =>
      cases n with
      | file b => simp [mkdirs, hn] at h
      | dir =>
        simp only [mkdirs, hn] at h ⊢
        rcases List.mem_cons.mp hk with rfl | hk
        · exact isDir_mkdirs (isDir_iff.mpr hn)
        · exact ih h hk

/-- Directories can be made exactly where no file is in the way. -/
theorem mkdirs_eq_true_iff {ls : List (List α)} :
    (t.mkdirs ls).1 = true ↔ ∀ l ∈ ls, t.fileAt l = none := by
  induction ls generalizing t with
  | nil => simp [mkdirs]
  | cons l ls ih =>
    cases hn : t.node l with
    | none =>
      have hl : l ≠ [] := by
        rintro rfl
        simp at hn
      have hsame : ∀ k, (t.set l (some .dir)).fileAt k = t.fileAt k := by
        intro k
        by_cases hk : k = l
        · subst hk
          simp [fileAt, node_set hl, hn]
        · exact fileAt_set_ne hk
      have hfree : t.fileAt l = none := by simp [fileAt, hn]
      simp [mkdirs, hn, ih, hsame, hfree]
    | some n =>
      cases n with
      | file b =>
        have hfile : t.fileAt l = some b := fileAt_eq_some.mpr hn
        simp [mkdirs, hn, hfile]
      | dir =>
        have hfree : t.fileAt l = none := by simp [fileAt, hn]
        simp [mkdirs, hn, ih, hfree]

/-- Nothing but the directories asked for is new. -/
theorem node_mkdirs {ls : List (List α)} (h : (t.mkdirs ls).1 = true) (k : List α) :
    (t.mkdirs ls).2.node k = if k ∈ ls then some .dir else t.node k := by
  induction ls generalizing t with
  | nil => simp [mkdirs]
  | cons l ls ih =>
    cases hn : t.node l with
    | none =>
      have hl : l ≠ [] := by
        rintro rfl
        simp at hn
      simp only [mkdirs, hn] at h ⊢
      rw [ih h, node_set hl]
      by_cases hk : k = l <;> simp [hk]
    | some n =>
      cases n with
      | file b => simp [mkdirs, hn] at h
      | dir =>
        simp only [mkdirs, hn] at h ⊢
        rw [ih h]
        by_cases hk : k = l
        · subst hk
          simp [hn]
        · simp [hk]

/-- Where no file is in the way, every directory can be made. -/
theorem mkdirs_of_no_file (h : ∀ l, t.fileAt l = none) (ls : List (List α)) :
    (t.mkdirs ls).1 = true :=
  mkdirs_eq_true_iff.mpr fun l _ => h l

end FileTree

end LocalStorage.Lib
