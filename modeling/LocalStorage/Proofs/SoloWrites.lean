import LocalStorage.Proofs.TempFiles

namespace LocalStorage.Proofs.SoloWrites
open Lib Lib.Paths TempFiles

/-! # A write on its own

The service's programs take an atomic write as one step. Alone, the calls a write is made of do
nothing that the step cannot do. -/

variable {h : Host} {path : String} {content : Bytes} {d d' : Disk Name UInt8}
  {x : Except IoError Unit} {fs : FileTree Name Bytes}

theorem runs_advance {st : Stage} {a : FileAction} {k : FileResponse a → FileOp Unit}
    (hst : st.prog path content = .act a k)
    (hrun : (st.prog path content).Runs (execFile h) d x d') :
    ∃ st₁ d₁, Advance h path content d st st₁ d₁ ∧
      (st₁.prog path content).Runs (execFile h) d₁ x d' := by
  rw [hst, Prog.runs_act] at hrun
  obtain ⟨c, hrun⟩ := hrun
  obtain ⟨st₁, hk, hadv⟩ := advance_of_step (h := h) (d := d) hst c
  exact ⟨st₁, _, hadv, hk ▸ hrun⟩

/-- The temporary file is new to `fs`, has one name, and holds these bytes. -/
structure Filled (h : Host) (path : String) (fs : FileTree Name Bytes) (file : Nat) (bytes : Bytes)
    (d : Disk Name UInt8) : Prop where
  named : d.names.fileAt (h.temp path) = some file
  sole : ∀ l, d.names.fileAt l = some file → l = h.temp path
  data : d.data file = bytes
  node : ∀ l, d.shown.node l = (fs.putFile (h.temp path) bytes).node l

/-- Putting a file twice is putting it the second time. -/
theorem node_putFile_putFile {l : Loc} (hl : l ≠ []) (b b' : Bytes) (k : Loc) :
    ((fs.putFile l b).putFile l b').node k = (fs.putFile l b').node k := by
  simp only [FileTree.putFile]
  rw [FileTree.node_set hl, FileTree.node_set hl, FileTree.node_set hl]
  split <;> rfl

theorem Filled.created (hopens : Opens h d path)
    (hsole : ∀ n l, d.names.fileAt (h.temp path) = some n → d.names.fileAt l = some n →
      l = h.temp path) :
    Filled h path d.shown (d.create (h.temp path)).1 [] (d.create (h.temp path)).2 := by
  have hne := hopens.ne_nil
  refine ⟨?_, ?_, ?_, Disk.node_shown_create hne hsole⟩
  · rw [Disk.fileAt_create hne, if_pos rfl]
  · intro l hl
    rw [Disk.fileAt_create hne] at hl
    by_contra hout
    rw [if_neg hout] at hl
    rcases Disk.create_file d (h.temp path) with hthere | ⟨-, hfresh⟩
    · exact hout (hsole _ l hthere hl)
    · rw [hfresh] at hl
      exact absurd (d.fresh l _ hl) (Nat.lt_irrefl _)
  · rw [Disk.data_create, Function.update_self]

theorem Filled.wrote {file : Nat} {bytes : Bytes} (hf : Filled h path fs file bytes d)
    (new : Bytes) : Filled h path fs file (bytes ++ new) (d.writeAt file bytes.length new) := by
  have hne := FileTree.ne_nil_of_fileAt hf.named
  have hpatch : Disk.patch (d.data file) bytes.length new = bytes ++ new := by
    rw [hf.data]
    exact Disk.patch_length bytes new
  refine ⟨hf.named, hf.sole, (Function.update_self ..).trans hpatch, fun l => ?_⟩
  rw [Disk.writeAt, hpatch, Disk.node_shown_update hf.named hf.sole]
  have hput : ∀ k, (d.shown.putFile (h.temp path) (bytes ++ new)).node k =
      ((fs.putFile (h.temp path) bytes).putFile (h.temp path) (bytes ++ new)).node k := by
    intro k
    simp only [FileTree.putFile]
    rw [FileTree.node_set hne, FileTree.node_set hne]
    split
    · rfl
    · exact hf.node k
  rw [hput, node_putFile_putFile hne]

/-- From the temporary file on, a write fails with some of the content in it, or gets to the
rename with all of it. -/
theorem filled_of_runs {file rounds offset : Nat} {written left : Bytes}
    (hf : Filled h path fs file written d) (hall : written ++ left = content)
    (hoffset : offset = written.length) (hrounds : left.length ≤ rounds)
    (hrun : ((Stage.writing file rounds offset left).prog path content).Runs (execFile h) d x d') :
    (∃ e cut, x = .error e ∧
        ∀ l, d'.shown.node l = (fs.putFile (h.temp path) (content.take cut)).node l) ∨
      ∃ d₁, Filled h path fs file content d₁ ∧
        (Stage.written.prog path content).Runs (execFile h) d₁ x d' := by
  have hstopped : ∀ e, ((Stage.finished (.error e)).prog path content).Runs (execFile h) d x d' →
      ∃ e cut, x = .error e ∧
        ∀ l, d'.shown.node l = (fs.putFile (h.temp path) (content.take cut)).node l := by
    rintro e ⟨rfl, rfl⟩
    refine ⟨e, written.length, rfl, ?_⟩
    rw [← hall, List.take_left']
    · exact hf.node
    · rfl
  induction rounds generalizing d offset written left with
  | zero =>
    obtain rfl : left = [] := List.length_eq_zero_iff.mp (Nat.le_zero.mp hrounds)
    obtain ⟨st₁, d₁, hadv, hrest⟩ := runs_advance prog_filled hrun
    cases hadv with
    | stop e => exact .inl (hstopped e hrest)
    | sync =>
      rw [List.append_nil] at hall
      exact .inr ⟨_, hall ▸ hf, hrest⟩
  | succ rounds ih =>
    cases left with
    | nil =>
      obtain ⟨st₁, d₁, hadv, hrest⟩ := runs_advance prog_filled hrun
      cases hadv with
      | stop e => exact .inl (hstopped e hrest)
      | write hn hle =>
        simp only [List.length_nil] at hle
        omega
      | sync =>
        rw [List.append_nil] at hall
        exact .inr ⟨_, hall ▸ hf, hrest⟩
    | cons b left =>
      obtain ⟨st₁, d₁, hadv, hrest⟩ := runs_advance prog_writing hrun
      cases hadv with
      | stop e => exact .inl (hstopped e hrest)
      | @write _ _ _ n _ hn hle =>
        subst hoffset
        have hnext := hf.wrote ((b :: left).take n)
        refine ih hnext ?_ ?_ ?_ hrest ?_
        · rw [List.append_assoc, List.take_append_drop, hall]
        · rw [List.length_append, List.length_take, Nat.min_eq_left hle]
        · rw [List.length_drop]
          omega
        · rintro e ⟨rfl, rfl⟩
          refine ⟨e, (written ++ (b :: left).take n).length, rfl, ?_⟩
          have hcut : content.take (written ++ (b :: left).take n).length =
              written ++ (b :: left).take n := by
            rw [← hall, ← List.take_append_drop n (b :: left), ← List.append_assoc, List.take_left']
            · rw [List.take_append_drop]
            · rw [List.take_append_drop]
          rw [hcut]
          exact hnext.node

/-- Every run of a write alone is the one step under some choice of the environment: the same
answer, and the same to see on the disk. -/
theorem step_of_runs {w : World} (hfs : w.fs = d.shown)
    (hsole : ∀ n l, d.names.fileAt (h.temp path) = some n → d.names.fileAt l = some n →
      l = h.temp path)
    (hrun : (writeFileAtomicOptimized path content).Runs (execFile h) d x d') :
    ∃ c fs, execWriteFileAtomic h c path content w = (x, { w with fs := fs }) ∧
      ∀ l, fs.node l = d'.shown.node l := by
  cases hopens : createError d.shown (h.temp path) with
  | some e =>
    have hstart : (Stage.fresh.prog path content).Runs (execFile h) d x d' := hrun
    rw [prog_fresh, Prog.runs_act] at hstart
    obtain ⟨c, hstart⟩ := hstart
    have hopens' : createError d.shown (h.place ((parse path).withExtension "tmp".toList)) =
        some e := hopens
    simp only [execFile, execCreate, hopens', Prog.ofExcept_error, Prog.fail_bind,
      Prog.runs_fail] at hstart
    obtain ⟨rfl, rfl⟩ := hstart
    refine ⟨calm, w.fs, ?_, fun l => by rw [hfs]⟩
    simp only [execWriteFileAtomic, hfs, hopens]
    rw [← hfs]
  | none =>
    have hcoarse : createError w.fs (h.temp path) = none := hfs ▸ hopens
    have hne : h.temp path ≠ [] := Opens.ne_nil hopens
    obtain ⟨st₁, d₁, hadv, hrest⟩ := runs_advance (prog_fresh path content) hrun
    cases hadv with
    | stop e =>
      obtain ⟨rfl, rfl⟩ := hrest
      refine ⟨{ fault := some e }, w.fs, ?_, fun l => by rw [hfs]⟩
      simp only [execWriteFileAtomic, hcoarse]
    | create =>
      have hf := Filled.created hopens hsole
      rcases filled_of_runs hf (List.nil_append _) rfl (Nat.le_refl _) hrest with
        ⟨e, cut, rfl, hnode⟩ | ⟨d₂, hf₂, hlast⟩
      · refine ⟨{ fault := some e, stage := .write cut },
          w.fs.putFile (h.temp path) (content.take cut), ?_, fun l => ?_⟩
        · simp only [execWriteFileAtomic, hcoarse]
        · rw [hnode, hfs]
      · obtain ⟨st₃, d₃, hadv, hend⟩ := runs_advance prog_written hlast
        cases hadv with
        | stop e =>
          obtain ⟨rfl, rfl⟩ := hend
          refine ⟨{ fault := some e, stage := .rename }, w.fs.putFile (h.temp path) content, ?_,
            fun l => ?_⟩
          · simp only [execWriteFileAtomic, hcoarse]
          · rw [hf₂.node, hfs]
        | @rename file' hfile hnames hdir =>
          obtain ⟨rfl, rfl⟩ := hend
          have hmoves : Moves h d₂ path := ⟨hnames, hdir⟩
          have hplace := hmoves.ne_nil
          have hdir' : w.fs.isDir (h.target path) = false := by
            by_cases hsame : h.target path = h.temp path
            · rw [hsame, hfs, Disk.isDir_shown]
              exact (opens_iff.mp hopens).1
            · have hnode := hf₂.node (h.target path)
              rw [FileTree.putFile, FileTree.node_set hne, if_neg hsame, ← hfs] at hnode
              rw [← Disk.isDir_shown] at hdir
              unfold FileTree.isDir at hdir ⊢
              rwa [← hnode]
          refine ⟨calm, (w.fs.erase (h.temp path)).putFile (h.target path) content, ?_, fun l => ?_⟩
          · simp only [execWriteFileAtomic, hcoarse, calm, hnames, hdir', Bool.not_true,
              Bool.false_eq_true, ↓reduceIte]
          · rw [Disk.node_shown_rename hplace hfile]
            rw [hf₂.named, Option.some.injEq] at hfile
            subst hfile
            have hout : ∀ k, k ≠ h.temp path → d₂.shown.node k = w.fs.node k := by
              intro k hk
              rw [hf₂.node, FileTree.putFile, FileTree.node_set hne, if_neg hk, hfs]
            simp only [FileTree.putFile, FileTree.erase]
            rw [FileTree.node_set hplace, FileTree.node_set hplace, FileTree.node_set hne,
              FileTree.node_set hne, hf₂.data]
            by_cases hl : l = h.temp path
            · simp only [if_pos hl]
            · simp only [if_neg hl, hout l hl]

end LocalStorage.Proofs.SoloWrites
