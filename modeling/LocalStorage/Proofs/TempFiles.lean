import LocalStorage.FileWrites
import LocalStorage.Lib.Interleave
import LocalStorage.Sample

namespace LocalStorage.Proofs.TempFiles
open Lib Lib.Paths

/-! # Atomic writes next to one another -/

/-! ## One call, stage by stage -/

/-- Where a call is. While it writes it knows the file, what it has left, and the offset. -/
inductive Stage where
  | fresh
  | writing (file rounds offset : Nat) (left : Bytes)
  | written
  | finished (x : Except IoError Unit)

section Stages
variable (path : String) (content : Bytes)

def renameStep : FileOp Unit :=
  fileStep (.rename ((parse path).withExtension "tmp".toList) path)

/-- What the call has yet to do. -/
def Stage.prog : Stage → FileOp Unit
  | .fresh => writeFileAtomicOptimized path content
  | .writing file rounds offset left => (writeRounds file rounds offset left).bind fun _ =>
      (fileStep (.syncAll file)).bind fun _ => renameStep path
  | .written => renameStep path
  | .finished x => Prog.ofExcept x

theorem prog_fresh : Stage.fresh.prog path content =
    .act (.create ((parse path).withExtension "tmp".toList)) fun r => (Prog.ofExcept r).bind
      fun file => (Stage.writing file content.length 0 content).prog path content := by
  simp only [Stage.prog, writeFileAtomicOptimized, writeFileOptimized, writeAll, fileStep,
    renameStep, Prog.bind_eq, Prog.call_bind, Prog.act_bind, Prog.bind_assoc]

variable {path content} {file rounds offset : Nat} {b : UInt8} {left : Bytes}

theorem prog_filled : (Stage.writing file rounds offset []).prog path content =
    .act (.syncAll file) fun r => (Prog.ofExcept r).bind
      fun _ => Stage.written.prog path content := by
  cases rounds <;> rfl

theorem prog_writing : (Stage.writing file (rounds + 1) offset (b :: left)).prog path content =
    .act (.write file offset (b :: left)) fun r => (Prog.ofExcept r).bind fun taken =>
      if taken = 0 then .fail .writeZero
      else (Stage.writing file rounds (offset + taken) ((b :: left).drop taken)).prog path content := by
  simp only [Stage.prog, writeRounds, fileStep, Prog.bind_eq, Prog.call_bind, Prog.act_bind]
  congr 1
  funext r
  cases r with
  | error e => rfl
  | ok taken =>
    simp only [Prog.ofExcept_ok, Prog.ret_bind]
    split <;> rfl

theorem prog_written : Stage.written.prog path content =
    .act (.rename ((parse path).withExtension "tmp".toList) path) Prog.ofExcept := rfl

/-- A call that has returned is at its end. -/
theorem prog_eq_ret {st : Stage} (hst : st.prog path content = .ret ()) :
    st = .finished (.ok ()) := by
  cases st with
  | fresh =>
    rw [prog_fresh] at hst
    simp at hst
  | writing file rounds offset left =>
    cases left with
    | nil =>
      rw [prog_filled] at hst
      simp at hst
    | cons b left =>
      cases rounds with
      | zero => simp [Stage.prog, writeRounds] at hst
      | succ rounds =>
        rw [prog_writing] at hst
        simp at hst
  | written =>
    rw [prog_written] at hst
    simp at hst
  | finished x =>
    cases x with
    | error e => simp [Stage.prog] at hst
    | ok _ => rfl

end Stages

/-- What a step of one call can do. -/
inductive Advance (h : Host) (path : String) (content : Bytes) (d : Disk Name UInt8) :
    Stage → Stage → Disk Name UInt8 → Prop where
  | stop {st : Stage} (e : IoError) (hst : ∀ x, st ≠ .finished x) :
      Advance h path content d st (.finished (.error e)) d
  | create (hopens : createError d.shown (h.temp path) = none) :
      Advance h path content d .fresh
        (.writing (d.create (h.temp path)).1 content.length 0 content) (d.create (h.temp path)).2
  | write {file rounds offset n : Nat} {left : Bytes} (hn : 0 < n) (hle : n ≤ left.length) :
      Advance h path content d (.writing file (rounds + 1) offset left)
        (.writing file rounds (offset + n) (left.drop n)) (d.writeAt file offset (left.take n))
  | sync {file rounds offset : Nat} :
      Advance h path content d (.writing file rounds offset []) .written d
  | rename {file : Nat} (hfile : d.names.fileAt (h.temp path) = some file)
      (hnames : namesFile path = true) (hdir : d.names.isDir (h.target path) = false) :
      Advance h path content d .written (.finished (.ok ()))
        (d.rename (h.temp path) (h.target path))

variable {h : Host} {path : String} {content : Bytes} {d : Disk Name UInt8}

/-- Each step of the program is one of them. -/
theorem advance_of_step {st : Stage} {a : FileAction} {k : FileResponse a → FileOp Unit}
    (hst : st.prog path content = .act a k) (c : FileChoice) :
    ∃ st', k (execFile h c a d).1 = Stage.prog path content st' ∧
      Advance h path content d st st' (execFile h c a d).2 := by
  have hstop : ∀ e, (Prog.fail e : FileOp Unit) = (Stage.finished (.error e)).prog path content :=
    fun _ => rfl
  cases st with
  | fresh =>
    rw [prog_fresh, Prog.act.injEq] at hst
    obtain ⟨rfl, hk⟩ := hst
    obtain rfl := eq_of_heq hk
    simp only [execFile, execCreate]
    cases hopens : createError d.shown (h.place ((parse path).withExtension "tmp".toList)) with
    | some e => exact ⟨_, hstop e, .stop e (by simp)⟩
    | none =>
      cases c.fault with
      | some e => exact ⟨_, hstop e, .stop e (by simp)⟩
      | none => exact ⟨_, rfl, .create hopens⟩
  | writing file rounds offset left =>
    cases left with
    | nil =>
      rw [prog_filled, Prog.act.injEq] at hst
      obtain ⟨rfl, hk⟩ := hst
      obtain rfl := eq_of_heq hk
      simp only [execFile, execSyncAll]
      cases c.fault with
      | some e => exact ⟨_, hstop e, .stop e (by simp)⟩
      | none => exact ⟨_, rfl, .sync⟩
    | cons b left =>
      cases rounds with
      | zero => simp [Stage.prog, writeRounds] at hst
      | succ rounds =>
        rw [prog_writing, Prog.act.injEq] at hst
        obtain ⟨rfl, hk⟩ := hst
        obtain rfl := eq_of_heq hk
        simp only [execFile, execWrite]
        cases c.fault with
        | some e => exact ⟨_, hstop e, .stop e (by simp)⟩
        | none =>
          by_cases hzero : (b :: left).length - c.short = 0
          · simp only [hzero, Prog.ofExcept_ok, Prog.ret_bind, ↓reduceIte, List.take_zero,
              Disk.writeAt_nil]
            exact ⟨_, hstop _, .stop _ (by simp)⟩
          · simp only [Prog.ofExcept_ok, Prog.ret_bind, if_neg hzero]
            exact ⟨_, rfl, .write (Nat.pos_of_ne_zero hzero) (Nat.sub_le _ _)⟩
  | written =>
    rw [prog_written, Prog.act.injEq] at hst
    obtain ⟨rfl, hk⟩ := hst
    obtain rfl := eq_of_heq hk
    simp only [execFile, execRename]
    cases c.fault with
    | some e => exact ⟨_, hstop e, .stop e (by simp)⟩
    | none =>
      cases hfile : d.names.fileAt (h.temp path) with
      | none =>
        have hnone : d.shown.fileAt (h.place ((parse path).withExtension "tmp".toList)) = none :=
          Disk.fileAt_shown_eq_none.mpr hfile
        simp only [hnone, Option.isNone_none, ↓reduceIte]
        exact ⟨_, hstop _, .stop _ (by simp)⟩
      | some file =>
        have hsome : d.shown.fileAt (h.place ((parse path).withExtension "tmp".toList)) =
            some (d.data file) := by
          rw [Disk.fileAt_shown]
          exact congrArg (Option.map d.data) hfile
        simp only [hsome, Option.isNone_some, Bool.false_eq_true, ↓reduceIte]
        by_cases hnames : namesFile path = true
        · by_cases hdir : d.shown.isDir (h.target path) = true
          · simp only [hnames, hdir, Bool.not_true, Bool.false_eq_true, ↓reduceIte]
            exact ⟨_, hstop _, .stop _ (by simp)⟩
          · rw [Bool.not_eq_true] at hdir
            simp only [hnames, hdir, Bool.not_true, Bool.false_eq_true, ↓reduceIte]
            rw [Disk.isDir_shown] at hdir
            exact ⟨_, rfl, .rename hfile hnames hdir⟩
        · simp only [hnames, Bool.not_false, ↓reduceIte]
          exact ⟨_, hstop _, .stop _ (by simp)⟩
  | finished x => cases x <;> simp [Stage.prog] at hst

/-- And each of them that does not fail is a step of the program. -/
theorem Advance.taken {st st' : Stage} {d' : Disk Name UInt8}
    (hadv : Advance h path content d st st' d') (hok : ∀ e, st' ≠ .finished (.error e)) :
    ∃ (a : FileAction) (k : FileResponse a → FileOp Unit) (c : FileChoice),
      st.prog path content = .act a k ∧ k (execFile h c a d).1 = st'.prog path content ∧
        (execFile h c a d).2 = d' := by
  cases hadv with
  | stop e => exact absurd rfl (hok e)
  | create hopens =>
    have hopens' : createError d.shown (h.place ((parse path).withExtension "tmp".toList)) = none :=
      hopens
    refine ⟨_, _, {}, prog_fresh path content, ?_⟩
    simp only [execFile, execCreate, hopens', Prog.ofExcept_ok, Prog.ret_bind]
    exact ⟨rfl, rfl⟩
  | @write file rounds offset n left hn hle =>
    cases left with
    | nil => simp at hle; omega
    | cons b left =>
      have htaken : (b :: left).length - ((b :: left).length - n) = n := Nat.sub_sub_self hle
      refine ⟨_, _, { short := (b :: left).length - n }, prog_writing, ?_⟩
      simp only [execFile, execWrite, htaken, Prog.ofExcept_ok, Prog.ret_bind,
        if_neg (Nat.pos_iff_ne_zero.mp hn)]
      exact ⟨trivial, trivial⟩
  | sync => exact ⟨_, _, {}, prog_filled, rfl, rfl⟩
  | @rename file hfile hnames hdir =>
    have hsome : d.shown.fileAt (h.place ((parse path).withExtension "tmp".toList)) =
        some (d.data file) := by
      rw [Disk.fileAt_shown]
      exact congrArg (Option.map d.data) hfile
    rw [← Disk.isDir_shown] at hdir
    refine ⟨_, _, {}, prog_written, ?_⟩
    simp only [execFile, execRename, hsome, hnames, hdir, Option.isNone_some, Bool.not_true,
      Bool.false_eq_true, ↓reduceIte]
    exact ⟨rfl, rfl⟩

/-! ## Many calls -/

/-- The temporary file can be made. -/
def Opens (h : Host) (d : Disk Name UInt8) (path : String) : Prop :=
  createError d.shown (h.temp path) = none

/-- Nothing but a fault keeps the file from being renamed into place. -/
def Moves (h : Host) (d : Disk Name UInt8) (path : String) : Prop :=
  namesFile path = true ∧ d.names.isDir (h.target path) = false

instance (h : Host) (d : Disk Name UInt8) (path : String) : Decidable (Opens h d path) :=
  inferInstanceAs (Decidable (_ = _))

instance (h : Host) (d : Disk Name UInt8) (path : String) : Decidable (Moves h d path) :=
  inferInstanceAs (Decidable (_ ∧ _))

theorem opens_iff : Opens h d path ↔
    d.names.isDir (h.temp path) = false ∧ d.names.isDir (h.temp path).dropLast = true := by
  unfold Opens createError
  rw [Disk.isDir_shown]
  cases hdir : d.names.isDir (h.temp path) with
  | true => simp
  | false =>
    rw [← Disk.isDir_shown (l := (h.temp path).dropLast)]
    unfold FileTree.isDir
    rcases d.shown.node (h.temp path).dropLast with _ | _ | _ <;> simp

theorem Opens.ne_nil (hopens : Opens h d path) : h.temp path ≠ [] := by
  intro hroot
  have hdir := (opens_iff.mp hopens).1
  rw [hroot, ← Bool.not_eq_true, FileTree.isDir_iff] at hdir
  exact hdir FileTree.node_nil

theorem Moves.ne_nil (hmoves : Moves h d path) : h.target path ≠ [] := by
  intro hroot
  have hdir := hmoves.2
  rw [hroot, ← Bool.not_eq_true, FileTree.isDir_iff] at hdir
  exact hdir FileTree.node_nil

section Calls
variable {ι : Type} (h : Host) (path : ι → String) (content : ι → Bytes) (d₀ : Disk Name UInt8)

def place (i : ι) : Loc := h.target (path i)

def tempPlace (i : ι) : Loc := h.temp (path i)

/-- What the calls promise at a moment at which `ps i` is what call `i` has yet to do: a call
that has returned left its own content, no object is seen half written, and nothing else is
different but for new temporary files of calls that have not returned. -/
structure Kept (ps : ι → FileOp Unit) (d : Disk Name UInt8) : Prop where
  own : ∀ i, ps i = .ret () → d.shown.fileAt (place h path i) = some (content i)
  whole : ∀ i, d.shown.fileAt (place h path i) = d₀.shown.fileAt (place h path i) ∨
    d.shown.fileAt (place h path i) = some (content i)
  others : ∀ l, (∀ i, l ≠ place h path i) → d.shown.fileAt l = d₀.shown.fileAt l ∨
    d₀.shown.fileAt l = none ∧ ∃ i, l = tempPlace h path i ∧ ps i ≠ .ret ()

/-- The temporary files that can be made are of nobody's object and of nobody else's write. -/
structure Separate : Prop where
  unused : ∀ i, Opens h d₀ (path i) → d₀.shown.fileAt (tempPlace h path i) = none
  apart : ∀ i j, Opens h d₀ (path i) → tempPlace h path i ≠ place h path j
  single : ∀ i j, i ≠ j → Opens h d₀ (path i) → Moves h d₀ (path i) →
    tempPlace h path i ≠ tempPlace h path j

/-! ## What stands while the calls run -/

/-- What is true of one call at its stage. Only a call that can be renamed into place cares
about the bytes. -/
def Holds (i : ι) : Stage → Disk Name UInt8 → Prop
  | .fresh, d => d.names.fileAt (place h path i) = d₀.names.fileAt (place h path i) ∧
      (Opens h d₀ (path i) → Moves h d₀ (path i) → d.names.fileAt (tempPlace h path i) = none)
  | .writing file rounds offset left, d =>
      d.names.fileAt (place h path i) = d₀.names.fileAt (place h path i) ∧
      Opens h d₀ (path i) ∧ left.length ≤ rounds ∧
      d.names.fileAt (tempPlace h path i) = some file ∧
      (Moves h d₀ (path i) → d.data file ++ left = content i ∧ offset = (d.data file).length)
  | .written, d => d.names.fileAt (place h path i) = d₀.names.fileAt (place h path i) ∧
      Opens h d₀ (path i) ∧ ∃ file, d.names.fileAt (tempPlace h path i) = some file ∧
        (Moves h d₀ (path i) → d.data file = content i)
  | .finished (.error _), d => d.names.fileAt (place h path i) = d₀.names.fileAt (place h path i)
  | .finished (.ok _), d => Opens h d₀ (path i) ∧ Moves h d₀ (path i) ∧
      d.names.fileAt (tempPlace h path i) = none ∧ ∃ file, d₀.next ≤ file ∧ d.names.fileAt (place h path i) = some file ∧
        d.data file = content i

/-- The calls are at these stages. -/
def At (ps : ι → FileOp Unit) (st : ι → Stage) : Prop :=
  ∀ i, ps i = (st i).prog (path i) (content i)

structure Stands (st : ι → Stage) (d : Disk Name UInt8) : Prop where
  dirs : ∀ l, d.names.isDir l = d₀.names.isDir l
  grown : d₀.next ≤ d.next
  old : ∀ n, n < d₀.next → d.data n = d₀.data n
  sole : ∀ l l' n, d₀.next ≤ n → d.names.fileAt l = some n → d.names.fileAt l' = some n → l = l'
  new : ∀ i, Opens h d₀ (path i) → ∀ n, d.names.fileAt (tempPlace h path i) = some n → d₀.next ≤ n
  frame : ∀ l, (∀ i, l ≠ place h path i) → (∀ i, Opens h d₀ (path i) → l ≠ tempPlace h path i) →
    d.names.fileAt l = d₀.names.fileAt l
  each : ∀ i, Holds h path content d₀ i (st i) d

end Calls

section Steps
variable {ι : Type} {path : ι → String} {content : ι → Bytes} {d₀ d' : Disk Name UInt8}
  {st : ι → Stage} {i j : ι} {ps : ι → FileOp Unit}

theorem Stands.start (hsep : Separate h path d₀) :
    Stands h path content d₀ (fun _ => .fresh) d₀ where
  dirs _ := rfl
  grown := Nat.le_refl _
  old _ _ := rfl
  sole l l' n hn hl _ := by
    have hlt := d₀.fresh l n hl
    omega
  new i hopens n hn := by
    have hnone := Disk.fileAt_shown_eq_none.mp (hsep.unused i hopens)
    rw [hnone] at hn
    simp at hn
  frame _ _ _ := rfl
  each i := ⟨rfl, fun hopens _ => Disk.fileAt_shown_eq_none.mp (hsep.unused i hopens)⟩

/-- A call's stage still holds when what it goes by is as it was. -/
theorem Holds.keep {s : Stage} (hh : Holds h path content d₀ j s d)
    (hplace : d'.names.fileAt (place h path j) = d.names.fileAt (place h path j))
    (hbytes : ∀ n, d₀.next ≤ n → d.names.fileAt (place h path j) = some n → d'.data n = d.data n)
    (hname : Opens h d₀ (path j) → ∀ n, d.names.fileAt (tempPlace h path j) = some n →
      d'.names.fileAt (tempPlace h path j) = some n)
    (hnone : Opens h d₀ (path j) → Moves h d₀ (path j) →
      d.names.fileAt (tempPlace h path j) = none → d'.names.fileAt (tempPlace h path j) = none)
    (hdata : Opens h d₀ (path j) → Moves h d₀ (path j) →
      ∀ n, d.names.fileAt (tempPlace h path j) = some n → d'.data n = d.data n) :
    Holds h path content d₀ j s d' := by
  cases s with
  | fresh =>
    obtain ⟨hsame, hfree⟩ := hh
    exact ⟨hplace.trans hsame, fun hopens hmoves => hnone hopens hmoves (hfree hopens hmoves)⟩
  | writing file rounds offset left =>
    obtain ⟨hsame, hopens, hrounds, htemp, hleft⟩ := hh
    refine ⟨hplace.trans hsame, hopens, hrounds, hname hopens file htemp, fun hmoves => ?_⟩
    rw [hdata hopens hmoves file htemp]
    exact hleft hmoves
  | written =>
    obtain ⟨hsame, hopens, file, htemp, hall⟩ := hh
    refine ⟨hplace.trans hsame, hopens, file, hname hopens file htemp, fun hmoves => ?_⟩
    rw [hdata hopens hmoves file htemp]
    exact hall hmoves
  | finished x =>
    cases x with
    | error e => exact hplace.trans hh
    | ok _ =>
      obtain ⟨hopens, hmoves, hfree, file, hnew, hat, hall⟩ := hh
      exact ⟨hopens, hmoves, hnone hopens hmoves hfree, file, hnew, hplace.trans hat,
        (hbytes file hnew hat).trans hall⟩

theorem Stands.opens (hs : Stands h path content d₀ st d) :
    Opens h d (path i) ↔ Opens h d₀ (path i) := by
  rw [opens_iff, opens_iff, hs.dirs, hs.dirs]

theorem Stands.moves (hs : Stands h path content d₀ st d) :
    Moves h d (path i) ↔ Moves h d₀ (path i) := by
  unfold Moves
  rw [hs.dirs]

/-- What stands is what the calls promise. -/
theorem Stands.kept (hat : At path content ps st) (hs : Stands h path content d₀ st d)
    (hsep : Separate h path d₀) : Kept h path content d₀ ps d := by
  have hsame : ∀ l, d.names.fileAt l = d₀.names.fileAt l → d.shown.fileAt l = d₀.shown.fileAt l := by
    intro l hl
    rw [Disk.fileAt_shown, Disk.fileAt_shown, hl]
    cases hn : d₀.names.fileAt l with
    | none => rfl
    | some n => exact congrArg some (hs.old n (d₀.fresh l n hn))
  have hdone : ∀ i, st i = .finished (.ok ()) →
      d.shown.fileAt (place h path i) = some (content i) := by
    intro i hi
    have hh := hs.each i
    rw [hi] at hh
    obtain ⟨-, -, -, file, -, hfile, hall⟩ := hh
    rw [Disk.fileAt_shown, hfile, Option.map_some, hall]
  refine ⟨fun i hi => hdone i (prog_eq_ret ((hat i).symm.trans hi)), fun i => ?_, fun l hl => ?_⟩
  · have hh := hs.each i
    cases hi : st i with
    | fresh => rw [hi] at hh; exact .inl (hsame _ hh.1)
    | writing => rw [hi] at hh; exact .inl (hsame _ hh.1)
    | written => rw [hi] at hh; exact .inl (hsame _ hh.1)
    | finished x =>
      cases x with
      | error e => rw [hi] at hh; exact .inl (hsame _ hh)
      | ok _ => exact .inr (hdone i hi)
  · by_cases htemp : ∃ i, Opens h d₀ (path i) ∧ l = tempPlace h path i
    · obtain ⟨i, hopens, rfl⟩ := htemp
      have hunused := hsep.unused i hopens
      cases hfile : d.names.fileAt (tempPlace h path i) with
      | none =>
        rw [hunused]
        exact .inl (Disk.fileAt_shown_eq_none.mpr hfile)
      | some n =>
        refine .inr ⟨hunused, i, rfl, fun hret => ?_⟩
        have hh := hs.each i
        rw [prog_eq_ret ((hat i).symm.trans hret)] at hh
        rw [hh.2.2.1] at hfile
        simp at hfile
    · refine .inl (hsame l (hs.frame l hl fun i hopens heq => htemp ⟨i, hopens, heq⟩))

variable [DecidableEq ι]

/-- The other calls' stages and the one of the call that took the step. -/
theorem each_update {s : Stage} (hothers : ∀ j, j ≠ i → Holds h path content d₀ j (st j) d')
    (hself : Holds h path content d₀ i s d') :
    ∀ j, Holds h path content d₀ j (Function.update st i s j) d' := by
  intro j
  by_cases hj : j = i
  · subst hj
    rw [Function.update_self]
    exact hself
  · rw [Function.update_of_ne hj]
    exact hothers j hj

theorem Stands.stopped (hs : Stands h path content d₀ st d) (e : IoError)
    (hst : ∀ x, st i ≠ .finished x) :
    Stands h path content d₀ (Function.update st i (.finished (.error e))) d := by
  refine { hs with each := each_update (fun j _ => hs.each j) ?_ }
  have hi := hs.each i
  cases hs' : st i with
  | fresh => rw [hs'] at hi; exact hi.1
  | writing => rw [hs'] at hi; exact hi.1
  | written => rw [hs'] at hi; exact hi.1
  | finished x => exact absurd hs' (hst x)

theorem Stands.created (hsep : Separate h path d₀) (hs : Stands h path content d₀ st d)
    (hst : st i = .fresh) (hopens : Opens h d (path i)) :
    Stands h path content d₀ (Function.update st i
      (.writing (d.create (tempPlace h path i)).1 (content i).length 0 (content i)))
      (d.create (tempPlace h path i)).2 := by
  have hopens₀ := hs.opens.mp hopens
  have hne : tempPlace h path i ≠ [] := hopens.ne_nil
  have hnames := Disk.fileAt_create (d := d) hne
  have hdata := Disk.data_create d (tempPlace h path i)
  have hfile := Disk.create_file d (tempPlace h path i)
  generalize (d.create (tempPlace h path i)).1 = n at hnames hdata hfile ⊢
  -- the file that was opened is a new one, and only its temporary place leads to it
  have hnew : d₀.next ≤ n := by
    rcases hfile with hthere | ⟨-, rfl⟩
    · exact hs.new i hopens₀ n hthere
    · exact hs.grown
  have hsole : ∀ l, d.names.fileAt l = some n → l = tempPlace h path i := by
    intro l hl
    rcases hfile with hthere | ⟨-, rfl⟩
    · exact hs.sole l _ n hnew hl hthere
    · exact absurd (d.fresh l _ hl) (Nat.lt_irrefl _)
  have hkept : ∀ m, m ≠ n → (d.create (tempPlace h path i)).2.data m = d.data m := by
    intro m hm
    rw [hdata, Function.update_of_ne hm]
  have hother : ∀ l, l ≠ tempPlace h path i →
      (d.create (tempPlace h path i)).2.names.fileAt l = d.names.fileAt l := by
    intro l hl
    rw [hnames, if_neg hl]
  refine ⟨?_, ?_, ?_, ?_, ?_, ?_, each_update (fun j hj => ?_) ?_⟩
  · intro l
    rw [Disk.isDir_create hne (opens_iff.mp hopens).1, hs.dirs]
  · exact Nat.le_trans hs.grown (Disk.next_le_create d _)
  · intro m hm
    rw [hkept m (by omega), hs.old m hm]
  · intro l l' m hm hl hl'
    by_cases hmn : m = n
    · subst hmn
      have honly : ∀ k, (d.create (tempPlace h path i)).2.names.fileAt k = some m →
          k = tempPlace h path i := by
        intro k hk
        by_contra hk'
        rw [hother k hk'] at hk
        exact hk' (hsole k hk)
      rw [honly l hl, honly l' hl']
    · have hback : ∀ k, (d.create (tempPlace h path i)).2.names.fileAt k = some m →
          d.names.fileAt k = some m := by
        intro k hk
        by_cases hk' : k = tempPlace h path i
        · rw [hnames, if_pos hk', Option.some.injEq] at hk
          exact absurd hk.symm hmn
        · rwa [hother k hk'] at hk
      exact hs.sole l l' m hm (hback l hl) (hback l' hl')
  · intro j hj m hm
    by_cases htemp : tempPlace h path j = tempPlace h path i
    · rw [hnames, if_pos htemp, Option.some.injEq] at hm
      omega
    · rw [hother _ htemp] at hm
      exact hs.new j hj m hm
  · intro l hl hl'
    rw [hother l (hl' i hopens₀), hs.frame l hl hl']
  · have hplace : place h path j ≠ tempPlace h path i := Ne.symm (hsep.apart i j hopens₀)
    have hmover : Opens h d₀ (path j) → Moves h d₀ (path j) →
        tempPlace h path j ≠ tempPlace h path i := fun ho hm => hsep.single j i hj ho hm
    refine (hs.each j).keep (hother _ hplace) ?_ ?_ ?_ ?_
    · intro m _ hm
      refine hkept m fun heq => hplace (hsole _ (heq ▸ hm))
    · intro _ m hm
      by_cases htemp : tempPlace h path j = tempPlace h path i
      · rcases hfile with hthere | ⟨hfree, -⟩
        · rw [hnames, if_pos htemp, ← hthere, ← htemp, hm]
        · rw [← htemp, hm] at hfree
          simp at hfree
      · rw [hother _ htemp, hm]
    · intro ho hmv hfree
      rw [hother _ (hmover ho hmv), hfree]
    · intro ho hmv m hm
      exact hkept m fun heq => hmover ho hmv (hsole _ (heq ▸ hm))
  · have hi := hs.each i
    rw [hst] at hi
    refine ⟨(hother _ (Ne.symm (hsep.apart i i hopens₀))).trans hi.1, hopens₀, Nat.le_refl _, ?_,
      fun _ => ?_⟩
    · rw [hnames, if_pos rfl]
    · rw [hdata, Function.update_self]
      exact ⟨rfl, rfl⟩

theorem Stands.wrote {file rounds offset n : Nat} {left : Bytes} (hsep : Separate h path d₀)
    (hs : Stands h path content d₀ st d) (hst : st i = .writing file (rounds + 1) offset left)
    (hn : 0 < n) (hle : n ≤ left.length) :
    Stands h path content d₀
      (Function.update st i (.writing file rounds (offset + n) (left.drop n)))
      (d.writeAt file offset (left.take n)) := by
  have hi := hs.each i
  rw [hst] at hi
  obtain ⟨hsame, hopens, hrounds, htemp, hbytes⟩ := hi
  have hnew := hs.new i hopens file htemp
  have hkept : ∀ m, m ≠ file → (d.writeAt file offset (left.take n)).data m = d.data m :=
    fun m hm => Function.update_of_ne hm _ _
  refine ⟨hs.dirs, hs.grown, ?_, hs.sole, hs.new, hs.frame, each_update (fun j hj => ?_) ?_⟩
  · intro m hm
    rw [hkept m (by omega), hs.old m hm]
  · refine (hs.each j).keep rfl ?_ (fun _ _ hm => hm) (fun _ _ hfree => hfree) ?_
    · intro m _ hm
      refine hkept m fun heq => hsep.apart i j hopens ?_
      exact hs.sole _ _ file hnew htemp (heq ▸ hm)
    · intro ho hmv m hm
      refine hkept m fun heq => hsep.single j i hj ho hmv ?_
      exact hs.sole _ _ file hnew (heq ▸ hm) htemp
  · have hshort : (left.drop n).length ≤ rounds := by
      rw [List.length_drop]
      omega
    refine ⟨hsame, hopens, hshort, htemp, fun hmv => ?_⟩
    obtain ⟨hall, rfl⟩ := hbytes hmv
    have hwritten : (d.writeAt file (d.data file).length (left.take n)).data file =
        d.data file ++ left.take n :=
      (Function.update_self _ _ _).trans (Disk.patch_length _ _)
    rw [hwritten]
    refine ⟨?_, ?_⟩
    · rw [List.append_assoc, List.take_append_drop, hall]
    · rw [List.length_append, List.length_take, Nat.min_eq_left hle]

theorem Stands.synced {file rounds offset : Nat} (hs : Stands h path content d₀ st d)
    (hst : st i = .writing file rounds offset []) :
    Stands h path content d₀ (Function.update st i .written) d := by
  have hi := hs.each i
  rw [hst] at hi
  obtain ⟨hsame, hopens, -, htemp, hbytes⟩ := hi
  refine { hs with each := each_update (fun j _ => hs.each j) ?_ }
  refine ⟨hsame, hopens, file, htemp, fun hmv => ?_⟩
  have hall := (hbytes hmv).1
  rwa [List.append_nil] at hall

theorem Stands.renamed {file : Nat}
    (hdistinct : ∀ i j, i ≠ j → place h path i ≠ place h path j) (hsep : Separate h path d₀)
    (hs : Stands h path content d₀ st d) (hst : st i = .written)
    (hfile : d.names.fileAt (tempPlace h path i) = some file) (hmoves : Moves h d (path i)) :
    Stands h path content d₀ (Function.update st i (.finished (.ok ())))
      (d.rename (tempPlace h path i) (place h path i)) := by
  have hi := hs.each i
  rw [hst] at hi
  obtain ⟨-, hopens, file', htemp, hall⟩ := hi
  rw [hfile, Option.some.injEq] at htemp
  subst htemp
  have hmoves₀ := hs.moves.mp hmoves
  have hne : place h path i ≠ [] := hmoves.ne_nil
  have hnew := hs.new i hopens file hfile
  have hnames := Disk.fileAt_rename hne hfile
  have hdata := Disk.data_rename d (tempPlace h path i) (place h path i)
  have hother : ∀ l, l ≠ place h path i → l ≠ tempPlace h path i →
      (d.rename (tempPlace h path i) (place h path i)).names.fileAt l = d.names.fileAt l := by
    intro l hl hl'
    rw [hnames, if_neg hl, if_neg hl']
  have htempOther : ∀ j, j ≠ i → Opens h d₀ (path j) →
      (d.rename (tempPlace h path i) (place h path i)).names.fileAt (tempPlace h path j) =
        d.names.fileAt (tempPlace h path j) := fun j hj ho =>
    hother _ (hsep.apart j i ho) (Ne.symm (hsep.single i j (Ne.symm hj) hopens hmoves₀))
  -- where a file was before the rename: the renamed one stood at its temporary place only
  have hback : ∀ l m, d₀.next ≤ m →
      (d.rename (tempPlace h path i) (place h path i)).names.fileAt l = some m →
      l = place h path i ∧ m = file ∨ l ≠ place h path i ∧ m ≠ file ∧ d.names.fileAt l = some m := by
    intro l m hm hl
    rw [hnames] at hl
    by_cases hp : l = place h path i
    · rw [if_pos hp, Option.some.injEq] at hl
      exact .inl ⟨hp, hl.symm⟩
    · by_cases ht : l = tempPlace h path i
      · rw [if_neg hp, if_pos ht] at hl
        simp at hl
      · rw [if_neg hp, if_neg ht] at hl
        refine .inr ⟨hp, fun heq => ht ?_, hl⟩
        exact hs.sole l _ m hm hl (heq ▸ hfile)
  refine ⟨?_, ?_, ?_, ?_, ?_, ?_, each_update (fun j hj => ?_) ?_⟩
  · intro l
    rw [Disk.isDir_rename hne hfile hmoves.2, hs.dirs]
  · rw [Disk.next_rename]
    exact hs.grown
  · rw [hdata]
    exact hs.old
  · intro l l' m hm hl hl'
    rcases hback l m hm hl with ⟨hp, hmf⟩ | ⟨-, hmf, hat⟩
    · rcases hback l' m hm hl' with ⟨hp', -⟩ | ⟨-, hmf', -⟩
      · rw [hp, hp']
      · exact absurd hmf hmf'
    · rcases hback l' m hm hl' with ⟨-, hmf'⟩ | ⟨-, -, hat'⟩
      · exact absurd hmf' hmf
      · exact hs.sole l l' m hm hat hat'
  · intro j ho m hm
    by_cases hj : j = i
    · subst hj
      rw [hnames, if_neg (hsep.apart j j ho), if_pos rfl] at hm
      simp at hm
    · rw [htempOther j hj ho] at hm
      exact hs.new j ho m hm
  · intro l hl hl'
    rw [hother l (hl i) (hl' i hopens), hs.frame l hl hl']
  · have hplace := hother _ (hdistinct j i hj) (Ne.symm (hsep.apart i j hopens))
    refine (hs.each j).keep hplace (fun m _ _ => by rw [hdata]) ?_ ?_ (fun _ _ m _ => by rw [hdata])
    · intro ho m hm
      rw [htempOther j hj ho, hm]
    · intro ho _ hfree
      rw [htempOther j hj ho, hfree]
  · refine ⟨hopens, hmoves₀, ?_, file, hnew, ?_, ?_⟩
    · rw [hnames, if_neg (hsep.apart i i hopens), if_pos rfl]
    · rw [hnames, if_pos rfl]
    · rw [hdata, hall hmoves₀]

/-- Whatever a call does next, everything stands. -/
theorem Stands.advance {s : Stage} (hdistinct : ∀ i j, i ≠ j → place h path i ≠ place h path j)
    (hsep : Separate h path d₀) (hs : Stands h path content d₀ st d)
    (hadv : Advance h (path i) (content i) d (st i) s d') :
    Stands h path content d₀ (Function.update st i s) d' := by
  generalize hst : st i = t at hadv
  cases hadv with
  | stop e hopen => exact hs.stopped e (hst ▸ hopen)
  | create hopens => exact hs.created hsep hst hopens
  | write hn hle => exact hs.wrote hsep hst hn hle
  | sync => exact hs.synced hst
  | rename hfile hnames hdir => exact hs.renamed hdistinct hsep hst hfile ⟨hnames, hdir⟩

end Steps

/-! ## Runs -/

section Runs
variable {ι : Type} [DecidableEq ι] {path : ι → String} {content : ι → Bytes}
  {d₀ d' : Disk Name UInt8} {st : ι → Stage} {i j : ι} {ps : ι → FileOp Unit}

theorem At.update {s : Stage} {p : FileOp Unit} (hat : At path content ps st)
    (hp : p = s.prog (path i) (content i)) :
    At path content (Function.update ps i p) (Function.update st i s) := by
  intro j
  by_cases hj : j = i
  · subst hj
    rw [Function.update_self, Function.update_self, hp]
  · rw [Function.update_of_ne hj, Function.update_of_ne hj, hat j]

theorem stands_of_reaches (hdistinct : ∀ i j, i ≠ j → place h path i ≠ place h path j)
    (hsep : Separate h path d₀)
    (hreach : Reaches (execFile h) (fun i => writeFileAtomicOptimized (path i) (content i)) d₀ ps d) :
    ∃ st, At path content ps st ∧ Stands h path content d₀ st d := by
  refine hreach.invariant (I := fun ps d => ∃ st, At path content ps st ∧ Stands h path content d₀ st d)
    ⟨fun _ => .fresh, fun _ => rfl, .start hsep⟩ ?_
  rintro qs t i a k c ⟨st, hat, hs⟩ hi
  obtain ⟨s, hs', hadv⟩ := advance_of_step ((hat i).symm.trans hi) c
  exact ⟨_, hat.update hs', hs.advance hdistinct hsep hadv⟩

/-! ## In each other's way -/

variable {qs : ι → FileOp Unit}

theorem reaches_advance {s s' : Stage} (hreach : Reaches (execFile h) qs d₀ ps d)
    (hat : At path content ps st) (hst : st i = s)
    (hadv : Advance h (path i) (content i) d s s' d') (hok : ∀ e, s' ≠ .finished (.error e)) :
    ∃ ps', Reaches (execFile h) qs d₀ ps' d' ∧ At path content ps' (Function.update st i s') := by
  subst hst
  obtain ⟨a, k, c, hact, hk, rfl⟩ := hadv.taken hok
  exact ⟨_, .step c hreach ((hat i).trans hact), hat.update hk⟩

/-- A call on its way: the temporary file made, and some of the content written. -/
theorem reaches_writing {n : Nat} (content : ι → Bytes) (hopens : Opens h d₀ (path i)) (hn : 0 < n)
    (hle : n ≤ (content i).length) :
    ∃ ps d ps' d',
      Reaches (execFile h) (fun i => writeFileAtomicOptimized (path i) (content i)) d₀ ps d ∧
      d.shown.fileAt (tempPlace h path i) = some [] ∧
      Reaches (execFile h) (fun i => writeFileAtomicOptimized (path i) (content i)) d₀ ps' d' ∧
      d'.shown.fileAt (tempPlace h path i) = some ((content i).take n) := by
  have hat : At path content (fun i => writeFileAtomicOptimized (path i) (content i))
      fun _ => .fresh := fun _ => rfl
  obtain ⟨ps, hreach, hat⟩ := reaches_advance .start hat rfl (.create hopens) (by simp)
  obtain ⟨rounds, hrounds⟩ : ∃ rounds, (content i).length = rounds + 1 :=
    Nat.exists_eq_add_one.mpr (Nat.lt_of_lt_of_le hn hle)
  rw [hrounds] at hat
  have hadv : Advance h (path i) (content i) (d₀.create (tempPlace h path i)).2
      (.writing (d₀.create (tempPlace h path i)).1 (rounds + 1) 0 (content i))
      (.writing (d₀.create (tempPlace h path i)).1 rounds (0 + n) ((content i).drop n))
      ((d₀.create (tempPlace h path i)).2.writeAt (d₀.create (tempPlace h path i)).1 0
        ((content i).take n)) := .write hn hle
  obtain ⟨ps', hreach', -⟩ := reaches_advance hreach hat (Function.update_self ..) hadv (by simp)
  have hne : tempPlace h path i ≠ [] := hopens.ne_nil
  refine ⟨ps, _, ps', _, hreach, Disk.shown_create hne, hreach', ?_⟩
  have hname : (d₀.create (tempPlace h path i)).2.names.fileAt (tempPlace h path i) =
      some (d₀.create (tempPlace h path i)).1 := by
    rw [Disk.fileAt_create hne, if_pos rfl]
  rw [Disk.shown_writeAt hname, Disk.data_create, Function.update_self]
  exact congrArg some (Disk.patch_length [] _)

/-- A call of one byte on its way to the rename. -/
theorem reaches_written {b : UInt8} (hreach : Reaches (execFile h) qs d₀ ps d)
    (hat : At path content ps st) (hst : st i = .fresh) (hopens : Opens h d (path i))
    (hb : content i = [b]) :
    ∃ ps' d', Reaches (execFile h) qs d₀ ps' d' ∧
      At path content ps' (Function.update st i .written) ∧
      ∀ l, d'.names.isDir l = d.names.isDir l := by
  obtain ⟨ps₁, hreach₁, hat₁⟩ := reaches_advance hreach hat hst (.create hopens) (by simp)
  rw [hb] at hat₁
  have hwrite := @Advance.write h (path i) (content i) (d.create (h.temp (path i))).2
    (d.create (h.temp (path i))).1 0 0 1 [b] Nat.one_pos (Nat.le_refl 1)
  obtain ⟨ps₂, hreach₂, hat₂⟩ :=
    reaches_advance hreach₁ hat₁ (Function.update_self ..) hwrite (by simp)
  obtain ⟨ps₃, hreach₃, hat₃⟩ := reaches_advance hreach₂ hat₂ (Function.update_self ..) .sync (by simp)
  rw [Function.update_idem, Function.update_idem] at hat₃
  exact ⟨ps₃, _, hreach₃, hat₃, Disk.isDir_create hopens.ne_nil (opens_iff.mp hopens).1⟩

/-- Of two calls with one temporary file, one can put the other's bytes in its own place. -/
theorem reaches_swapped {b : UInt8} (content : ι → Bytes) (hij : i ≠ j) (hopens : Opens h d₀ (path i))
    (hmoves : Moves h d₀ (path i)) (hshared : tempPlace h path i = tempPlace h path j)
    (hb : content i = [b]) :
    ∃ ps d, Reaches (execFile h) (fun i => writeFileAtomicOptimized (path i) (content i)) d₀ ps d ∧
      ps i = .ret () ∧ d.shown.fileAt (place h path i) = some [] := by
  have hat : At path content (fun i => writeFileAtomicOptimized (path i) (content i))
      fun _ => .fresh := fun _ => rfl
  obtain ⟨ps₁, d₁, hreach₁, hat₁, hdirs⟩ := reaches_written .start hat rfl hopens hb
  -- the other call opens the same file and empties it
  have hne : tempPlace h path j ≠ [] := hshared ▸ hopens.ne_nil
  have hopens' : Opens h d₁ (path j) := by
    have htemp : h.temp (path i) = h.temp (path j) := hshared
    rw [opens_iff, hdirs, hdirs, ← htemp]
    exact opens_iff.mp hopens
  obtain ⟨ps₂, hreach₂, hat₂⟩ := reaches_advance hreach₁ hat₁
    (Function.update_of_ne (Ne.symm hij) _ _) (.create hopens') (by simp)
  -- the first call renames it
  have hfile : (d₁.create (tempPlace h path j)).2.names.fileAt (tempPlace h path i) =
      some (d₁.create (tempPlace h path j)).1 := by
    rw [hshared, Disk.fileAt_create hne, if_pos rfl]
  have hdir : (d₁.create (tempPlace h path j)).2.names.isDir (place h path i) = false := by
    rw [Disk.isDir_create hne (opens_iff.mp hopens').1, hdirs]
    exact hmoves.2
  have hready : Function.update (Function.update (fun _ => Stage.fresh) i .written) j
      (.writing (d₁.create (tempPlace h path j)).1 (content j).length 0 (content j)) i =
        .written := by
    rw [Function.update_of_ne hij, Function.update_self]
  obtain ⟨ps₃, hreach₃, hat₃⟩ :=
    reaches_advance hreach₂ hat₂ hready (.rename hfile hmoves.1 hdir) (by simp)
  refine ⟨ps₃, _, hreach₃, ?_, ?_⟩
  · rw [hat₃ i, Function.update_self]
    rfl
  · have hplace : place h path i ≠ [] := hmoves.ne_nil
    have hnow := (Disk.fileAt_rename hplace hfile (place h path i)).trans (if_pos rfl)
    refine Disk.fileAt_shown.trans ((congrArg _ hnow).trans ?_)
    rw [Option.map_some, Disk.data_rename, Disk.data_create]
    exact congrArg some (Function.update_self _ _ _)

/-! ## When the promise is kept -/

/-- At every moment of every run of the calls, whatever they write, the promise is kept. -/
def Atomic (h : Host) (path : ι → String) (d₀ : Disk Name UInt8) : Prop :=
  ∀ content ps d,
    Reaches (execFile h) (fun i => writeFileAtomicOptimized (path i) (content i)) d₀ ps d →
    Kept h path content d₀ ps d

theorem Atomic.apart (hatomic : Atomic h path d₀) (i j : ι) (hopens : Opens h d₀ (path i)) :
    tempPlace h path i ≠ place h path j := by
  intro hsame
  -- two bytes for the one, another one for the rest: half of it is nobody's content
  obtain ⟨ps, d, ps', d', hreach, hempty, hreach', hhalf⟩ :=
    reaches_writing (n := 1) (fun k => if k = i then [1, 2] else [3]) hopens Nat.one_pos (by simp)
  have hwhole := (hatomic _ ps d hreach).whole j
  have hwhole' := (hatomic _ ps' d' hreach').whole j
  rw [← hsame, hempty] at hwhole
  rw [← hsame, hhalf] at hwhole'
  have hinit : d₀.shown.fileAt (tempPlace h path i) = some [] := by
    rcases hwhole with hfirst | hall
    · exact hfirst.symm
    · by_cases hj : j = i <;> simp [hj] at hall
  rw [hinit] at hwhole'
  by_cases hj : j = i <;> simp [hj] at hwhole'

theorem Atomic.unused (hatomic : Atomic h path d₀) (i : ι) (hopens : Opens h d₀ (path i)) :
    d₀.shown.fileAt (tempPlace h path i) = none := by
  by_contra hthere
  obtain ⟨ps, d, ps', d', hreach, hempty, hreach', hwritten⟩ :=
    reaches_writing (n := 1) (fun _ => [1]) hopens Nat.one_pos (by simp)
  have hout : ∀ j, tempPlace h path i ≠ place h path j := fun j => hatomic.apart i j hopens
  have hothers := (hatomic _ ps d hreach).others _ hout
  have hothers' := (hatomic _ ps' d' hreach').others _ hout
  rw [hempty] at hothers
  rw [hwritten] at hothers'
  rcases hothers with hsame | ⟨hnone, -⟩
  · rcases hothers' with hsame' | ⟨hnone, -⟩
    · rw [← hsame] at hsame'
      simp at hsame'
    · exact hthere hnone
  · exact hthere hnone

theorem Atomic.single (hatomic : Atomic h path d₀) (i j : ι) (hij : i ≠ j)
    (hopens : Opens h d₀ (path i)) (hmoves : Moves h d₀ (path i)) :
    tempPlace h path i ≠ tempPlace h path j := by
  intro hshared
  obtain ⟨ps, d, hreach, hret, hempty⟩ :=
    reaches_swapped (fun _ => [1]) hij hopens hmoves hshared rfl
  have hown := (hatomic _ ps d hreach).own i hret
  rw [hempty] at hown
  simp at hown

/-- Calls to different places, however many and in whatever order they take their steps, keep
their promise exactly when no temporary file one of them can make is an object's, stands there
already, or is the temporary file of another one. -/
theorem writes_atomic_iff (hdistinct : ∀ i j, i ≠ j → place h path i ≠ place h path j) :
    Atomic h path d₀ ↔ Separate h path d₀ := by
  constructor
  · intro hatomic
    exact ⟨hatomic.unused, hatomic.apart, hatomic.single⟩
  · intro hsep content ps d hreach
    obtain ⟨st, hat, hs⟩ := stands_of_reaches hdistinct hsep hreach
    exact hs.kept hat hsep

end Runs

open Sample (host)

/-- A store with one bucket and no object. -/
def photos : Disk Name UInt8 where
  names := (FileTree.empty.mkdirs ((parse "/storage/photos").passed [])).2
  data _ := []
  next := 0
  fresh l n h := by
    rw [FileTree.fileAt_mkdirs] at h
    simp [FileTree.fileAt, FileTree.node, FileTree.empty] at h

/-- The object `a.tmp` stored in it. -/
def withTmp : Disk Name UInt8 :=
  ((photos.create (host.target "/storage/photos/a.tmp")).2).writeAt 0 0 [122]

def twoKeys (k k' : String) (second : Bool) : String :=
  "/storage/photos/" ++ if second then k' else k

/-- Keys with different stems are out of each other's way. -/
theorem different_stems_atomic : Atomic host (twoKeys "a.txt" "b.txt") photos :=
  (writes_atomic_iff (by decide)).mpr ⟨by decide, by decide, by decide⟩

def twoBytes (second : Bool) : Bytes := if second then [121] else [120]

/-- Two uploads at once whose keys differ in the extension only. -/
def mixed : (Bool → FileOp Unit) × Disk Name UInt8 :=
  (weave (execFile host) {} [false, true, false, true, false, false]
    (fun i => writeFileAtomicOptimized (twoKeys "a.txt" "a.jpg" i) (twoBytes i)) photos).2

/-- An upload next to the object that has its temporary file's name. -/
def swept : (Unit → FileOp Unit) × Disk Name UInt8 :=
  (weave (execFile host) {} [(), (), (), ()]
    (fun _ => writeFileAtomicOptimized "/storage/photos/a.txt" [120]) withTmp).2

/-- The first upload returns and its place holds the other one's bytes; and an upload alone
takes away the object that has its temporary file's name. -/
theorem shared_temp_mixes :
    (∀ i j, i ≠ j → place host (twoKeys "a.txt" "a.jpg") i ≠ place host (twoKeys "a.txt" "a.jpg") j) ∧
      mixed.1 false = .ret () ∧
      mixed.2.shown.fileAt (place host (twoKeys "a.txt" "a.jpg") false) = some [121] ∧
      ¬ Atomic host (twoKeys "a.txt" "a.jpg") photos ∧
      withTmp.shown.fileAt (host.target "/storage/photos/a.tmp") = some [122] ∧
      swept.2.shown.fileAt (host.target "/storage/photos/a.tmp") = none ∧
      ¬ Atomic host (fun _ : Unit => "/storage/photos/a.txt") withTmp := by
  have hmixed : mixed.2.shown.fileAt (place host (twoKeys "a.txt" "a.jpg") false) = some [121] := by
    decide
  have hthere : withTmp.shown.fileAt (host.target "/storage/photos/a.tmp") = some [122] := by decide
  have hswept : swept.2.shown.fileAt (host.target "/storage/photos/a.tmp") = none := by decide
  refine ⟨by decide, rfl, hmixed, fun hatomic => ?_, hthere, hswept, fun hatomic => ?_⟩
  · have hkept := hatomic twoBytes mixed.1 mixed.2 (weave_reaches _ _)
    have hown := hkept.own false rfl
    rw [hmixed] at hown
    exact absurd hown (by decide)
  · have hkept := hatomic (fun _ => [120]) swept.1 swept.2 (weave_reaches _ _)
    have hne : host.target "/storage/photos/a.tmp" ≠ host.target "/storage/photos/a.txt" := by
      decide
    have hothers := hkept.others (host.target "/storage/photos/a.tmp") fun _ => hne
    rw [hswept, hthere] at hothers
    simp at hothers

end LocalStorage.Proofs.TempFiles
