import LocalStorage.Lib.FileTree
import Mathlib.Logic.Function.Basic

namespace LocalStorage.Lib

def Node.map {β γ : Type} (f : β → γ) : Node β → Node γ
  | .file b => .file (f b)
  | .dir => .dir

/-- A file tree whose names stand for numbered files. A rename moves a name and leaves the
file, and an open file is its number, whatever its name has become. -/
structure Disk (α β : Type) where
  names : FileTree α Nat
  data : Nat → List β
  next : Nat
  fresh : ∀ l n, names.fileAt l = some n → n < next

namespace Disk

variable {α β : Type} {d : Disk α β} {l k : List α} {n : Nat}

/-- What a reader of names sees. -/
def shown (d : Disk α β) : FileTree α (List β) := fun l => (d.names l).map (Node.map d.data)

theorem node_shown : d.shown.node l = (d.names.node l).map (Node.map d.data) := by
  unfold FileTree.node shown
  split <;> rfl

theorem fileAt_shown : d.shown.fileAt l = (d.names.fileAt l).map d.data := by
  unfold FileTree.fileAt
  rw [node_shown]
  rcases d.names.node l with _ | _ | _ <;> rfl

theorem isDir_shown : d.shown.isDir l = d.names.isDir l := by
  unfold FileTree.isDir
  rw [node_shown]
  rcases d.names.node l with _ | _ | _ <;> rfl

theorem fileAt_shown_eq_none : d.shown.fileAt l = none ↔ d.names.fileAt l = none := by
  rw [fileAt_shown, Option.map_eq_none_iff]

/-! ## Operations -/

/-- The bytes of a file after a write at an offset. A gap before it fills up, and a write of
nothing changes nothing. -/
def patch [Inhabited β] (old : List β) (offset : Nat) : List β → List β
  | [] => old
  | b :: new =>
    (old ++ List.replicate (offset - old.length) default).take offset ++ b :: new ++
      old.drop (offset + (b :: new).length)

def writeAt [Inhabited β] (d : Disk α β) (n offset : Nat) (bytes : List β) : Disk α β :=
  { d with data := Function.update d.data n (patch (d.data n) offset bytes) }

/-- Writing on where the bytes end only appends. -/
theorem patch_length [Inhabited β] (old new : List β) : patch old old.length new = old ++ new := by
  cases new <;> simp [patch]

theorem shown_writeAt [Inhabited β] (hn : d.names.fileAt l = some n) (offset : Nat)
    (bytes : List β) :
    (d.writeAt n offset bytes).shown.fileAt l = some (patch (d.data n) offset bytes) := by
  have hn' : (d.writeAt n offset bytes).names.fileAt l = some n := hn
  rw [fileAt_shown, hn']
  exact congrArg some (Function.update_self _ _ _)

theorem writeAt_nil [Inhabited β] (d : Disk α β) (n offset : Nat) : d.writeAt n offset [] = d := by
  simp only [writeAt, patch, Function.update_eq_self]

variable [DecidableEq α]

/-- Open a file for writing: one that is there is emptied and keeps its number. -/
def create (d : Disk α β) (l : List α) : Nat × Disk α β :=
  match d.names.fileAt l with
  | some n => (n, { d with data := Function.update d.data n [] })
  | none =>
    (d.next,
      { names := d.names.putFile l d.next
        data := Function.update d.data d.next []
        next := d.next + 1
        fresh := by
          intro k n hk
          by_cases hkl : k = l
          · subst hkl
            have hne := FileTree.ne_nil_of_fileAt hk
            rw [FileTree.fileAt_putFile_self hne, Option.some.injEq] at hk
            omega
          · rw [FileTree.fileAt_putFile_ne hkl] at hk
            have hlt := d.fresh k n hk
            omega })

/-- Move a file's name over another place. -/
def rename (d : Disk α β) (src dst : List α) : Disk α β :=
  match h : d.names.fileAt src with
  | none => d
  | some n =>
    { d with
      names := (d.names.erase src).putFile dst n
      fresh := by
        intro k m hk
        by_cases hkd : k = dst
        · subst hkd
          have hne := FileTree.ne_nil_of_fileAt hk
          rw [FileTree.fileAt_putFile_self hne, Option.some.injEq] at hk
          exact hk ▸ d.fresh src n h
        · rw [FileTree.fileAt_putFile_ne hkd] at hk
          by_cases hks : k = src
          · subst hks
            rw [FileTree.fileAt_erase_self] at hk
            simp at hk
          · rw [FileTree.fileAt_erase_ne hks] at hk
            exact d.fresh k m hk }

/-! ## What the operations leave -/

/-- The file a place leads to after it was opened there. -/
theorem fileAt_create (hl : l ≠ []) (k : List α) : (d.create l).2.names.fileAt k =
    if k = l then some (d.create l).1 else d.names.fileAt k := by
  unfold create
  split
  · rename_i n hn
    by_cases hk : k = l
    · rw [if_pos hk, hk, hn]
    · rw [if_neg hk]
  · by_cases hk : k = l
    · rw [if_pos hk, hk]
      exact FileTree.fileAt_putFile_self hl
    · rw [if_neg hk]
      exact FileTree.fileAt_putFile_ne hk

theorem data_create (d : Disk α β) (l : List α) :
    (d.create l).2.data = Function.update d.data (d.create l).1 [] := by
  unfold create
  split <;> rfl

/-- The file opened at a place is the one that stands there, or a new one. -/
theorem create_file (d : Disk α β) (l : List α) :
    d.names.fileAt l = some (d.create l).1 ∨ d.names.fileAt l = none ∧ (d.create l).1 = d.next := by
  unfold create
  split
  · rename_i n hn
    exact .inl hn
  · rename_i hn
    exact .inr ⟨hn, rfl⟩

theorem shown_create (hl : l ≠ []) : (d.create l).2.shown.fileAt l = some [] := by
  rw [fileAt_shown, fileAt_create hl, if_pos rfl, data_create, Option.map_some,
    Function.update_self]

theorem next_le_create (d : Disk α β) (l : List α) : d.next ≤ (d.create l).2.next := by
  unfold create
  split
  · exact Nat.le_refl _
  · exact Nat.le_succ _

theorem isDir_create (hl : l ≠ []) (hdir : d.names.isDir l = false) (k : List α) :
    (d.create l).2.names.isDir k = d.names.isDir k := by
  unfold create
  split
  · rfl
  · exact FileTree.isDir_putFile hl hdir k

theorem names_rename (hn : d.names.fileAt l = some n) (k : List α) :
    (d.rename l k).names = (d.names.erase l).putFile k n := by
  unfold rename
  split
  · rename_i hnone
    rw [hn] at hnone
    simp at hnone
  · rename_i n' hn'
    rw [hn, Option.some.injEq] at hn'
    rw [hn']

theorem fileAt_rename (hk : k ≠ []) (hn : d.names.fileAt l = some n) (m : List α) :
    (d.rename l k).names.fileAt m =
      if m = k then some n else if m = l then none else d.names.fileAt m := by
  rw [names_rename hn]
  by_cases hm : m = k
  · rw [if_pos hm, hm]
    exact FileTree.fileAt_putFile_self hk
  · rw [if_neg hm, FileTree.fileAt_putFile_ne hm]
    by_cases hml : m = l
    · rw [if_pos hml, hml, FileTree.fileAt_erase_self]
    · rw [if_neg hml, FileTree.fileAt_erase_ne hml]

theorem data_rename (d : Disk α β) (l k : List α) : (d.rename l k).data = d.data := by
  unfold rename
  split <;> rfl

theorem next_rename (d : Disk α β) (l k : List α) : (d.rename l k).next = d.next := by
  unfold rename
  split <;> rfl

theorem isDir_rename (hk : k ≠ []) (hn : d.names.fileAt l = some n)
    (hdir : d.names.isDir k = false) (m : List α) :
    (d.rename l k).names.isDir m = d.names.isDir m := by
  have herase : ∀ j, (d.names.erase l).isDir j = d.names.isDir j := fun j =>
    FileTree.isDir_erase_file (by simp [hn])
  unfold rename
  split
  · rfl
  · rw [← herase]
    exact FileTree.isDir_putFile hk (by rw [herase, hdir]) m

/-! ## What a reader of names sees of them -/

/-- New bytes in a file with one name are new bytes at that name. -/
theorem node_shown_update (hn : d.names.fileAt l = some n)
    (hsole : ∀ k, d.names.fileAt k = some n → k = l) (bytes : List β) (k : List α) :
    ({ d with data := Function.update d.data n bytes } : Disk α β).shown.node k =
      (d.shown.putFile l bytes).node k := by
  have hl := FileTree.ne_nil_of_fileAt hn
  rw [FileTree.putFile, FileTree.node_set hl, node_shown, node_shown]
  by_cases hk : k = l
  · subst hk
    rw [if_pos rfl, FileTree.fileAt_eq_some.mp hn]
    exact congrArg (fun b => some (Node.file b)) (Function.update_self ..)
  · rw [if_neg hk]
    cases hnode : d.names.node k with
    | none => rfl
    | some node =>
      cases node with
      | dir => rfl
      | file m =>
        have hm : m ≠ n := by
          rintro rfl
          exact hk (hsole k (FileTree.fileAt_eq_some.mpr hnode))
        exact congrArg (fun b => some (Node.file b)) (Function.update_of_ne hm ..)

theorem node_shown_create (hl : l ≠ [])
    (hsole : ∀ n k, d.names.fileAt l = some n → d.names.fileAt k = some n → k = l) (k : List α) :
    (d.create l).2.shown.node k = (d.shown.putFile l []).node k := by
  unfold create
  split
  · rename_i n hn
    exact node_shown_update hn (fun k => hsole n k hn) [] k
  · have hput : (d.shown.putFile l []).node k =
        if k = l then some (.file []) else d.shown.node k := FileTree.node_set hl k
    have hname : (d.names.putFile l d.next).node k =
        if k = l then some (.file d.next) else d.names.node k := FileTree.node_set hl k
    rw [hput, node_shown, node_shown]
    by_cases hk : k = l
    · rw [if_pos hk] at hname ⊢
      refine (congrArg _ hname).trans ?_
      exact congrArg (fun b => some (Node.file b)) (Function.update_self ..)
    · rw [if_neg hk] at hname ⊢
      refine (congrArg _ hname).trans ?_
      cases hnode : d.names.node k with
      | none => rfl
      | some node =>
        cases node with
        | dir => rfl
        | file m =>
          have hlt := d.fresh k m (FileTree.fileAt_eq_some.mpr hnode)
          exact congrArg (fun b => some (Node.file b)) (Function.update_of_ne (Nat.ne_of_lt hlt) ..)

theorem node_shown_rename (hk : k ≠ []) (hn : d.names.fileAt l = some n) (m : List α) :
    (d.rename l k).shown.node m = ((d.shown.erase l).putFile k (d.data n)).node m := by
  have hl := FileTree.ne_nil_of_fileAt hn
  rw [node_shown, names_rename hn, data_rename]
  simp only [FileTree.putFile, FileTree.erase]
  rw [FileTree.node_set hk, FileTree.node_set hk, FileTree.node_set hl, FileTree.node_set hl,
    node_shown]
  split
  · rfl
  · split <;> rfl

end Disk

end LocalStorage.Lib
