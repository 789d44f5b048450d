import LocalStorage.Proofs.Containment

namespace LocalStorage.Proofs.FlatKeys
open Lib Lib.Paths StorageManager Containment

/-! # Keys next to one another on disk -/

section Places
variable (sm : StorageManager) (p : String × String)

def filePath : String := sm.getFilePath p.1 p.2

/-- Where the object's file is. -/
def place : Loc := sm.host.target (filePath sm p)

def tempPlace : Loc := sm.host.temp (filePath sm p)

/-- The directories an upload of the object makes sure of. -/
def dirs : List Loc := ((parse (filePath sm p)).passed sm.host.cwd).dropLast

/-- The bytes of an upload put in place when nothing fails: `create_dir_all`, then the atomic
write. -/
def write (content : Bytes) (w : World) : Result Unit × World :=
  (writeBytes (filePath sm p) content).eval (exec sm.host) calm w

end Places

/-- Some upload of the object to a started service puts its bytes in place. -/
def Accepted (sm : StorageManager) (p : String × String) : Prop :=
  ∃ w content, BaseReady sm w ∧ (write sm p content w).1 = .ok ()

/-- Whether `q` can be written, and what is written, is the same with `p` stored first. -/
def Unaffected (sm : StorageManager) (p q : String × String) : Prop :=
  ∀ w w' content content', BaseReady sm w → write sm p content w = (.ok (), w') →
    ((write sm q content' w').1 = .ok () ↔ (write sm q content' w).1 = .ok ()) ∧
    ((write sm q content' w').1 = .ok () →
      (write sm q content' w').2.fs.fileAt (place sm q) = some content' ∧
      (write sm q content' w).2.fs.fileAt (place sm q) = some content')

/-- The two objects share no file, neither is a directory of the other, and neither upload
depends on the other object. -/
structure FlatPair (sm : StorageManager) (p q : String × String) : Prop where
  distinct : place sm p ≠ place sm q
  notAbove : ¬ place sm p <+: place sm q
  notBelow : ¬ place sm q <+: place sm p
  unaffected : Unaffected sm p q
  unaffected' : Unaffected sm q p

/-- The strings lead to different places, and neither file nor its temporary one is a
directory on the way to the other. -/
structure Clear (sm : StorageManager) (p q : String × String) : Prop where
  distinct : place sm p ≠ place sm q
  above : place sm p ∉ dirs sm q ∧ tempPlace sm p ∉ dirs sm q
  below : place sm q ∉ dirs sm p ∧ tempPlace sm q ∉ dirs sm p

/-- An ordinary object: no separator in the bucket's name, and names between the key's
separators. -/
structure Plain (p : String × String) : Prop where
  bucket : '/' ∉ p.1.toList ∧ p.1.toList ≠ [] ∧ p.1.toList ≠ dot ∧ p.1.toList ≠ dotDot
  key : ∀ n ∈ segments p.2, n ≠ [] ∧ n ≠ dot ∧ n ≠ dotDot

/-- The last name of a key with its extension replaced by `tmp`. -/
def tempNames (k : String) : List Name :=
  match (segments k).getLast? with
  | some n => (segments k).dropLast ++ [stem n ++ '.' :: "tmp".toList]
  | none => []

/-- The key whose file would be the temporary file of `k`. -/
def tempKey (k : String) : String := String.ofList (['/'].intercalate (tempNames k))

/-- Of two keys in one bucket neither one, nor its temporary key, is followed by a separator
in the other. -/
def Apart (k k' : String) : Prop :=
  (¬ Under k k' ∧ ¬ Under (tempKey k) k') ∧ ¬ Under k' k ∧ ¬ Under (tempKey k') k

instance (k k' : String) : Decidable (Apart k k') := inferInstanceAs (Decidable (_ ∧ _))

variable {sm : StorageManager} {p q : String × String} {w w' : World} {content : Bytes}

/-! ## When a write succeeds -/

/-- No file is on the way, and no directory where the file or its temporary one goes. -/
structure Fits (sm : StorageManager) (p : String × String) (w : World) : Prop where
  named : namesFile (filePath sm p) = true
  way : ∀ l ∈ dirs sm p, w.fs.fileAt l = none
  free : w.fs.isDir (place sm p) = false ∧ place sm p ∉ dirs sm p
  freeTemp : w.fs.isDir (tempPlace sm p) = false ∧ tempPlace sm p ∉ dirs sm p

/-- The directory of an object's file, and what its file and its temporary one are in it. -/
theorem parent_of_named (h : namesFile (filePath sm p) = true) :
    ∃ parent, (parse (filePath sm p)).parent = some parent ∧
      parent.passed sm.host.cwd = dirs sm p ∧
      (place sm p).dropLast = parent.resolve sm.host.cwd ∧
      (tempPlace sm p).dropLast = parent.resolve sm.host.cwd := by
  obtain ⟨ns, n, hns, hn⟩ := names_of_namesFile h
  have hpath : parse (filePath sm p) = ⟨isAbsolute (filePath sm p), ns ++ [n]⟩ := by
    rw [← hns]
    rfl
  have htmp : stem n ++ '.' :: "tmp".toList ≠ dotDot := by
    intro heq
    have hlen := congrArg List.length heq
    have htext : "tmp".toList.length = 3 := rfl
    simp only [List.length_append, List.length_cons, htext, dotDot, List.length_nil] at hlen
    omega
  refine ⟨⟨isAbsolute (filePath sm p), ns⟩, ?_, ?_, ?_, ?_⟩
  · rw [hpath, Path.parent]
    simp
  · rw [dirs, hpath, Path.passed, Path.passed, ← trail_dropLast, List.dropLast_concat]
    rfl
  · rw [place, Host.target, Host.place, hpath, resolve_concat hn, List.dropLast_concat]
  · rw [tempPlace, Host.temp, Host.place, hpath]
    simp only [Path.withExtension, List.getLast?_concat, if_neg hn, List.dropLast_concat]
    rw [resolve_concat htmp, List.dropLast_concat]

/-- A file right where its path starts is in the root or in the base path. -/
theorem start_own {parent : Path} (hnamed : namesFile (filePath sm p) = true)
    (hparent : (parse (filePath sm p)).parent = some parent) (hnames : parent.names = []) :
    parent.resolve sm.host.cwd = [] ∨ OwnDir sm (parent.resolve sm.host.cwd) := by
  have hparent' : parent = { parse (filePath sm p) with names := (parse (filePath sm p)).names.dropLast } := by
    unfold Path.parent at hparent
    split at hparent
    · simp at hparent
    · exact (Option.some.inj hparent).symm
  cases habs : isAbsolute (filePath sm p) with
  | true =>
    left
    rw [Path.resolve, hnames, walk_nil, Path.start, hparent']
    simp [parse, habs]
  | false =>
    right
    have hk : isAbsolute p.2 = false := by
      cases hk : isAbsolute p.2 with
      | false => rfl
      | true => rw [filePath, getFilePath, join_absolute hk, hk] at habs; exact habs
    have hb : isAbsolute p.1 = false := by
      rw [filePath, getFilePath, isAbsolute_join hk] at habs
      cases hb : isAbsolute p.1 with
      | false => rfl
      | true => rw [join_absolute hb, hb] at habs; exact habs
    have hbase : isAbsolute sm.config.storage.path = false := by
      rwa [filePath, getFilePath, isAbsolute_join hk, isAbsolute_join hb] at habs
    obtain ⟨ks, n, hks, -⟩ := names_of_namesFile (s := p.2) (by
      rwa [filePath, getFilePath, namesFile_join] at hnamed)
    have hall : (parse (filePath sm p)).names =
        (parse sm.config.storage.path).names ++ (parse p.1).names ++ (ks ++ [n]) := by
      rw [filePath, getFilePath, segments_join hk, segments_join hb, hks]
    have hnone : (parse sm.config.storage.path).names = [] := by
      rw [hparent'] at hnames
      simp only [hall, ← List.append_assoc, List.dropLast_concat, List.append_eq_nil_iff] at hnames
      exact hnames.1.1
    have hcwd : basePlace sm = sm.host.cwd := by
      have hstart : (parse sm.config.storage.path).absolute = false := hbase
      simp only [basePlace, Host.target, Host.place, Path.resolve, hnone, walk_nil, Path.start, hstart]
      simp
    have hparentCwd : parent.resolve sm.host.cwd = sm.host.cwd := by
      rw [Path.resolve, hnames, walk_nil, Path.start, hparent']
      simp [parse, habs]
    rw [hparentCwd, ← hcwd]
    exact .inl List.prefix_rfl

/-- Once the directories are made, the one the file goes to is among them. -/
theorem parent_isDir {parent : Path} (hready : BaseReady sm w)
    (hnamed : namesFile (filePath sm p) = true)
    (hparent : (parse (filePath sm p)).parent = some parent)
    (hmade : (w.fs.mkdirs (parent.passed sm.host.cwd)).1 = true) :
    (w.fs.mkdirs (parent.passed sm.host.cwd)).2.isDir (parent.resolve sm.host.cwd) = true := by
  by_cases hnames : parent.names = []
  · -- the file stands right where its path starts
    rcases start_own hnamed hparent hnames with hroot | hown
    · rw [hroot, FileTree.isDir_iff, FileTree.node_nil]
    · exact FileTree.isDir_mkdirs (hready _ hown)
  · exact FileTree.isDir_of_mkdirs hmade (walk_mem_trail _ hnames)

/-- The disk after a write that succeeds. -/
def afterFs (sm : StorageManager) (p : String × String) (content : Bytes) (w : World) :
    FileTree Name Bytes :=
  afterWrite sm.host (filePath sm p) content (w.fs.mkdirs (dirs sm p)).2

theorem write_eq (hready : BaseReady sm w) (hfits : Fits sm p w) : write sm p content w =
    (.ok (), { w with fs := afterFs sm p content w }) := by
  obtain ⟨parent, hparent, hpassed, -, htemp⟩ := parent_of_named hfits.named
  have hmade := FileTree.mkdirs_eq_true_iff.mpr hfits.way
  rw [← hpassed] at hmade
  have hdir := parent_isDir hready hfits.named hparent hmade
  have hnodir : ∀ l, w.fs.isDir l = false → l ∉ dirs sm p →
      (w.fs.mkdirs (dirs sm p)).2.isDir l = false := by
    intro l hl hout
    rw [← Bool.not_eq_true, FileTree.isDir_iff, ← hpassed, FileTree.node_mkdirs hmade, hpassed,
      if_neg hout, ← FileTree.isDir_iff, hl]
    simp
  have hmk : w.fs.mkdirs (dirs sm p) = (true, (w.fs.mkdirs (dirs sm p)).2) := by
    rw [← hmade, hpassed]
  have hnoerror : createError (w.fs.mkdirs (dirs sm p)).2 (tempPlace sm p) = none := by
    rw [← htemp, hpassed, FileTree.isDir_iff] at hdir
    simp only [createError, hnodir _ hfits.freeTemp.1 hfits.freeTemp.2, hdir, Bool.false_eq_true,
      ↓reduceIte]
  have htarget : (w.fs.mkdirs (dirs sm p)).2.isDir (sm.host.target (filePath sm p)) = false :=
    hnodir _ hfits.free.1 hfits.free.2
  have hcreated : exec sm.host calm (.createDirAll parent) w =
      (.ok (), { w with fs := (w.fs.mkdirs (dirs sm p)).2 }) := by
    simp only [exec, execCreateDirAll, calm, hpassed]
    rw [hmk]
  have hwritten : exec sm.host calm (.writeFileAtomic (filePath sm p) content)
      { w with fs := (w.fs.mkdirs (dirs sm p)).2 } =
      (.ok (), { w with fs := afterFs sm p content w }) := by
    have htempPlace : sm.host.temp (filePath sm p) = tempPlace sm p := rfl
    simp only [exec, execWriteFileAtomic, calm, htempPlace, hnoerror, hfits.named, htarget, afterFs,
      afterWrite]
    simp
  simp only [write, writeBytes, hparent, ofIo, step_eq, Prog.bind_eq, Prog.act_bind, Prog.ret_bind,
    Prog.pure_eq, Prog.eval, hcreated, hwritten, Except.mapError, Prog.ofExcept_ok]

theorem exec_writeFileAtomic_ok {h : Host} {path : String} {u : World}
    (hok : (exec h calm (.writeFileAtomic path content) u).1 = .ok ()) :
    namesFile path = true ∧ u.fs.isDir (h.temp path) = false ∧ u.fs.isDir (h.target path) = false := by
  simp only [exec, execWriteFileAtomic, calm] at hok
  cases hc : createError u.fs (h.temp path) with
  | some e => simp [hc] at hok
  | none =>
    have htemp : u.fs.isDir (h.temp path) = false := by
      unfold createError at hc
      split at hc
      · simp at hc
      · rename_i hdir
        simpa using hdir
    simp only [hc] at hok
    cases hn : namesFile path with
    | false => simp [hn] at hok
    | true =>
      cases hd : u.fs.isDir (h.target path) with
      | true => simp [hn, hd] at hok
      | false => exact ⟨rfl, htemp, rfl⟩

theorem fits_of_write (hok : (write sm p content w).1 = .ok ()) : Fits sm p w := by
  simp only [write, writeBytes, ofIo, step_eq, Prog.bind_eq, Prog.act_bind, Prog.ret_bind,
    Prog.pure_eq] at hok
  have hlast : ∀ u : World, ((Prog.act (.writeFileAtomic (filePath sm p) content) fun r =>
      (Prog.ofExcept (r.mapError StorageError.ofIo)).bind fun _ => .ret () : Op Unit).eval
        (exec sm.host) calm u).1 = .ok () →
      (exec sm.host calm (.writeFileAtomic (filePath sm p) content) u).1 = .ok () := by
    intro u hu
    simp only [Prog.eval] at hu
    cases hx : (exec sm.host calm (.writeFileAtomic (filePath sm p) content) u).1 with
    | ok _ => rfl
    | error e => simp [hx, Except.mapError, Prog.eval] at hu
  cases hparent : (parse (filePath sm p)).parent with
  | none =>
    rw [hparent] at hok
    obtain ⟨hnamed, -⟩ := exec_writeFileAtomic_ok (hlast w hok)
    obtain ⟨parent, hsome, -⟩ := parent_of_named hnamed
    simp [hparent] at hsome
  | some parent =>
    simp only [hparent, Prog.eval, exec, execCreateDirAll, calm] at hok
    cases hmk : w.fs.mkdirs (parent.passed sm.host.cwd) with
    | mk made fs =>
      cases made with
      | false => simp [hmk, Except.mapError, Prog.eval] at hok
      | true =>
        simp only [hmk, Except.mapError, Prog.ofExcept_ok, Prog.ret_bind] at hok
        obtain ⟨hnamed, htemp, htarget⟩ := exec_writeFileAtomic_ok (hlast _ hok)
        obtain ⟨parent', hparent', hpassed, -⟩ := parent_of_named hnamed
        rw [hparent, Option.some.injEq] at hparent'
        subst hparent'
        rw [hpassed] at hmk
        have hmade : (w.fs.mkdirs (dirs sm p)).1 = true := by rw [hmk]
        have hfree : ∀ l, fs.isDir l = false → w.fs.isDir l = false ∧ l ∉ dirs sm p := by
          intro l hl
          have hfs : fs = (w.fs.mkdirs (dirs sm p)).2 := by rw [hmk]
          rw [hfs, ← Bool.not_eq_true, FileTree.isDir_iff, FileTree.node_mkdirs hmade] at hl
          by_cases hin : l ∈ dirs sm p
          · simp [hin] at hl
          · rw [if_neg hin, ← FileTree.isDir_iff, Bool.not_eq_true] at hl
            exact ⟨hl, hin⟩
        exact ⟨hnamed, FileTree.mkdirs_eq_true_iff.mp hmade, hfree _ htarget, hfree _ htemp⟩

theorem write_ok_iff (hready : BaseReady sm w) :
    (write sm p content w).1 = .ok () ↔ Fits sm p w :=
  ⟨fits_of_write, fun hfits => by rw [write_eq hready hfits]⟩

/-- An upload that writes its bytes and succeeds is of an object the service accepts. -/
theorem Accepted.of_storeFresh {ct : Option String} {opts : StoreOptions} {file : StoredFile}
    (hready : BaseReady sm w)
    (hok : ((sm.storeFresh p.1 p.2 content ct opts).eval (exec sm.host) calm w).1 = .ok file) :
    Accepted sm p := by
  simp only [storeFresh, Prog.bind_eq] at hok
  rw [Prog.eval_bind] at hok
  have hrun : (sm.encryptStage opts (sm.compressStage opts content).1).Runs (exec sm.host) w _ _ :=
    Prog.eval_runs calm _ w
  obtain ⟨hsame, -⟩ := encryptStage_spec _ _ hrun
  cases henc : (sm.encryptStage opts (sm.compressStage opts content).1).eval
      (exec sm.host) calm w with
  | mk x t =>
    rw [henc] at hsame hok
    obtain rfl : t = w := hsame
    cases x with
    | error e => simp at hok
    | ok out =>
      dsimp only at hok
      rw [Prog.eval_bind] at hok
      refine ⟨t, out.1, hready, ?_⟩
      cases hwrite : (writeBytes (filePath sm p) out.1).eval (exec sm.host) calm t with
      | mk y u =>
        cases y with
        | error e =>
          rw [filePath] at hwrite
          simp [hwrite] at hok
        | ok _ => rw [write, hwrite]

/-! ## What a write leaves for the others -/

theorem Fits.place_ne_nil (hfits : Fits sm p w) : place sm p ≠ [] := by
  intro hroot
  have hdir := hfits.free.1
  rw [hroot, ← Bool.not_eq_true, FileTree.isDir_iff] at hdir
  exact hdir FileTree.node_nil

theorem Fits.tempPlace_ne_nil (hfits : Fits sm p w) : tempPlace sm p ≠ [] := by
  intro hroot
  have hdir := hfits.freeTemp.1
  rw [hroot, ← Bool.not_eq_true, FileTree.isDir_iff] at hdir
  exact hdir FileTree.node_nil

/-- The file stands, its temporary one is gone, the directories are made, and the rest is as
it was. -/
theorem node_afterFs (hfits : Fits sm p w) (l : Loc) : (afterFs sm p content w).node l =
    if l = place sm p then some (.file content)
    else if l = tempPlace sm p then none
    else if l ∈ dirs sm p then some .dir
    else w.fs.node l := by
  have hplace : sm.host.target (filePath sm p) = place sm p := rfl
  have htemp : sm.host.temp (filePath sm p) = tempPlace sm p := rfl
  rw [afterFs, afterWrite, FileTree.putFile, hplace, htemp, FileTree.node_set hfits.place_ne_nil,
    FileTree.erase, FileTree.node_set hfits.tempPlace_ne_nil,
    FileTree.node_mkdirs (FileTree.mkdirs_eq_true_iff.mpr hfits.way)]
  by_cases hp : l = place sm p
  · simp only [if_pos hp]
  · by_cases ht : l = tempPlace sm p
    · simp only [if_neg hp, if_pos ht]
    · by_cases hd : l ∈ dirs sm p
      · simp only [if_neg hp, if_neg ht, if_pos hd]
      · simp only [if_neg hp, if_neg ht, if_neg hd]

theorem fileAt_afterFs (hfits : Fits sm p w) (l : Loc) : (afterFs sm p content w).fileAt l =
    if l = place sm p then some content
    else if l = tempPlace sm p then none
    else w.fs.fileAt l := by
  unfold FileTree.fileAt
  rw [node_afterFs hfits]
  by_cases hp : l = place sm p
  · simp only [if_pos hp]
  · by_cases ht : l = tempPlace sm p
    · simp only [if_neg hp, if_pos ht]
    · by_cases hd : l ∈ dirs sm p
      · have hnone := hfits.way l hd
        unfold FileTree.fileAt at hnone
        simp [hp, ht, hd, hnone]
      · simp [hp, ht, hd]

theorem isDir_afterFs (hfits : Fits sm p w) (l : Loc) :
    (afterFs sm p content w).isDir l = true ↔ l ∈ dirs sm p ∨ w.fs.isDir l = true := by
  rw [FileTree.isDir_iff, node_afterFs hfits]
  by_cases hp : l = place sm p
  · subst hp
    simp [hfits.free.1, hfits.free.2]
  · by_cases ht : l = tempPlace sm p
    · subst ht
      simp [hp, hfits.freeTemp.1, hfits.freeTemp.2]
    · by_cases hd : l ∈ dirs sm p
      · simp [hp, ht, hd]
      · simp [hp, ht, hd, FileTree.isDir_iff]

theorem ready_afterFs (hready : BaseReady sm w) (hfits : Fits sm p w) :
    BaseReady sm { w with fs := afterFs sm p content w } :=
  fun l hl => (isDir_afterFs hfits l).mpr (.inr (hready l hl))

/-- Out of each other's way, an object changes nothing for another one. -/
theorem fits_afterFs (hfits : Fits sm p w)
    (habove : place sm p ∉ dirs sm q ∧ tempPlace sm p ∉ dirs sm q)
    (hbelow : place sm q ∉ dirs sm p ∧ tempPlace sm q ∉ dirs sm p) :
    Fits sm q { w with fs := afterFs sm p content w } ↔ Fits sm q w := by
  have hway : (∀ l ∈ dirs sm q, (afterFs sm p content w).fileAt l = none) ↔
      ∀ l ∈ dirs sm q, w.fs.fileAt l = none := by
    refine forall₂_congr fun l hl => ?_
    have hp : l ≠ place sm p := fun heq => habove.1 (heq ▸ hl)
    have ht : l ≠ tempPlace sm p := fun heq => habove.2 (heq ▸ hl)
    rw [fileAt_afterFs hfits, if_neg hp, if_neg ht]
  have hfree : ∀ l, l ∉ dirs sm p →
      ((afterFs sm p content w).isDir l = false ↔ w.fs.isDir l = false) := by
    intro l hl
    rw [← Bool.not_eq_true, isDir_afterFs hfits, ← Bool.not_eq_true]
    simp [hl]
  constructor
  · intro h
    exact ⟨h.named, hway.mp h.way, ⟨(hfree _ hbelow.1).mp h.free.1, h.free.2⟩,
      ⟨(hfree _ hbelow.2).mp h.freeTemp.1, h.freeTemp.2⟩⟩
  · intro h
    exact ⟨h.named, hway.mpr h.way, ⟨(hfree _ hbelow.1).mpr h.free.1, h.free.2⟩,
      ⟨(hfree _ hbelow.2).mpr h.freeTemp.1, h.freeTemp.2⟩⟩

theorem unaffected_of_clear
    (habove : place sm p ∉ dirs sm q ∧ tempPlace sm p ∉ dirs sm q)
    (hbelow : place sm q ∉ dirs sm p ∧ tempPlace sm q ∉ dirs sm p) : Unaffected sm p q := by
  intro w w' content content' hready hwrite
  have hfits : Fits sm p w := fits_of_write (by rw [hwrite])
  have hw' : w' = { w with fs := afterFs sm p content w } := by
    rw [write_eq hready hfits] at hwrite
    exact (Prod.mk.inj hwrite).2.symm
  have hready' : BaseReady sm w' := hw' ▸ ready_afterFs hready hfits
  have hsame : Fits sm q w' ↔ Fits sm q w := hw' ▸ fits_afterFs hfits habove hbelow
  refine ⟨by rw [write_ok_iff hready', write_ok_iff hready, hsame], fun hok => ?_⟩
  have hq := fits_of_write hok
  rw [write_eq hready' hq, write_eq hready (hsame.mp hq)]
  constructor
  · exact (fileAt_afterFs hq _).trans (if_pos rfl)
  · exact (fileAt_afterFs (hsame.mp hq) _).trans (if_pos rfl)

/-! ## In each other's way -/

/-- An object some upload was accepted for can be written to a bare store. -/
theorem Accepted.fits (h : Accepted sm p) : Fits sm p (bare sm []) := by
  obtain ⟨w, content, hready, hok⟩ := h
  have hfits := fits_of_write hok
  have hfree : ∀ l, w.fs.isDir l = false → (bare sm []).fs.isDir l = false := by
    intro l hl
    have hown : ¬ OwnDir sm l := by
      intro hown
      rw [hready l hown] at hl
      simp at hl
    rw [← Bool.not_eq_true, FileTree.isDir_iff, node_bare, if_neg hown]
    simp
  exact ⟨hfits.named, fun l _ => bare_no_file [] l, ⟨hfree _ hfits.free.1, hfits.free.2⟩,
    ⟨hfree _ hfits.freeTemp.1, hfits.freeTemp.2⟩⟩

theorem Accepted.not_own (h : Accepted sm p) : ¬ OwnDir sm (place sm p) := by
  intro hown
  have hdir := h.fits.free.1
  rw [bare_ready [] _ hown] at hdir
  simp at hdir

theorem Accepted.temp_not_own (h : Accepted sm p) : ¬ OwnDir sm (tempPlace sm p) := by
  intro hown
  have hdir := h.fits.freeTemp.1
  rw [bare_ready [] _ hown] at hdir
  simp at hdir

/-- A bare store but for bytes left at the temporary place of an object. -/
def leftover (sm : StorageManager) (p : String × String) : World :=
  { bare sm [] with fs := (bare sm []).fs.putFile (tempPlace sm p) [] }

theorem leftover_ready (h : Accepted sm p) : BaseReady sm (leftover sm p) := by
  intro l hl
  have hne : l ≠ tempPlace sm p := by
    rintro rfl
    have hdir := h.fits.freeTemp.1
    rw [bare_ready [] _ hl] at hdir
    simp at hdir
  rw [FileTree.isDir_iff, leftover, FileTree.putFile, FileTree.node_set h.fits.tempPlace_ne_nil,
    if_neg hne, ← FileTree.isDir_iff]
  exact bare_ready [] l hl

theorem leftover_fileAt (h : Accepted sm p) (l : Loc) :
    (leftover sm p).fs.fileAt l = if l = tempPlace sm p then some [] else none := by
  by_cases hl : l = tempPlace sm p
  · subst hl
    rw [if_pos rfl]
    exact FileTree.fileAt_putFile_self h.fits.tempPlace_ne_nil
  · rw [if_neg hl]
    exact (FileTree.fileAt_putFile_ne hl).trans (bare_no_file [] l)

theorem leftover_isDir {l : Loc} (h : Accepted sm p) (hl : (bare sm []).fs.isDir l = false) :
    (leftover sm p).fs.isDir l = false := by
  rw [← Bool.not_eq_true, FileTree.isDir_iff] at hl ⊢
  rw [leftover, FileTree.putFile, FileTree.node_set h.fits.tempPlace_ne_nil]
  split
  · simp
  · exact hl

theorem leftover_fits (h : Accepted sm p) : Fits sm p (leftover sm p) := by
  refine ⟨h.fits.named, fun l hl => ?_, ⟨leftover_isDir h h.fits.free.1, h.fits.free.2⟩,
    ⟨leftover_isDir h h.fits.freeTemp.1, h.fits.freeTemp.2⟩⟩
  have hne : l ≠ tempPlace sm p := fun heq => h.fits.freeTemp.2 (heq ▸ hl)
  rw [leftover_fileAt h, if_neg hne]

theorem clear_of_unaffected (hp : Accepted sm p) (hq : Accepted sm q) (h : Unaffected sm p q) :
    (place sm p ∉ dirs sm q ∧ tempPlace sm p ∉ dirs sm q) ∧
      place sm q ∉ dirs sm p ∧ tempPlace sm q ∉ dirs sm p := by
  -- next to `p` on a bare store
  have hfirst : Fits sm q { bare sm [] with fs := afterFs sm p [] (bare sm []) } := by
    have hstep := (h (bare sm []) _ [] [] (bare_ready []) (write_eq (bare_ready []) hp.fits)).1
    exact fits_of_write (hstep.mpr (by rw [write_eq (bare_ready []) hq.fits]))
  have hplace : place sm p ∉ dirs sm q := by
    intro hin
    have hnone := hfirst.way _ hin
    rw [show (World.fs _) = afterFs sm p [] (bare sm []) from rfl, fileAt_afterFs hp.fits,
      if_pos rfl] at hnone
    simp at hnone
  have hdirs : ∀ l, (afterFs sm p [] (bare sm [])).isDir l = false → l ∉ dirs sm p := by
    intro l hl hin
    rw [(isDir_afterFs hp.fits l).mpr (.inl hin)] at hl
    simp at hl
  refine ⟨⟨hplace, fun hin => ?_⟩, hdirs _ hfirst.free.1, hdirs _ hfirst.freeTemp.1⟩
  -- bytes left where `q` needs a directory go away with an upload of `p`
  have hready := leftover_ready hp
  have hfree : ∀ l, l ∉ dirs sm p → (bare sm []).fs.isDir l = false →
      (afterFs sm p [] (leftover sm p)).isDir l = false := by
    intro l hl hbare
    rw [← Bool.not_eq_true, isDir_afterFs (leftover_fits hp), leftover_isDir hp hbare]
    simp [hl]
  have hthen : Fits sm q { leftover sm p with fs := afterFs sm p [] (leftover sm p) } := by
    refine ⟨hq.fits.named, fun l hl => ?_,
      ⟨hfree _ (hdirs _ hfirst.free.1) hq.fits.free.1, hq.fits.free.2⟩,
      ⟨hfree _ (hdirs _ hfirst.freeTemp.1) hq.fits.freeTemp.1, hq.fits.freeTemp.2⟩⟩
    have hne : l ≠ place sm p := fun heq => hplace (heq ▸ hl)
    refine (fileAt_afterFs (leftover_fits hp) l).trans ?_
    rw [if_neg hne, leftover_fileAt hp]
    by_cases htemp : l = tempPlace sm p
    · rw [if_pos htemp]
    · rw [if_neg htemp, if_neg htemp]
  have hstep := (h (leftover sm p) _ [] [] hready (write_eq hready (leftover_fits hp))).1
  have hok := hstep.mp ((write_ok_iff (ready_afterFs hready (leftover_fits hp))).mpr hthen)
  have hnone := (fits_of_write hok).way _ hin
  rw [leftover_fileAt hp, if_pos rfl] at hnone
  simp at hnone

/-! ## Above an object -/

theorem passed_cases (hnamed : namesFile (filePath sm q) = true) {l : Loc}
    (hl : l ∈ (parse (filePath sm q)).passed sm.host.cwd) : l ∈ dirs sm q ∨ l = place sm q := by
  obtain ⟨ns, n, hns, -⟩ := names_of_namesFile hnamed
  have hplace : place sm q = walk ((parse (filePath sm q)).start sm.host.cwd) (ns ++ [n]) := by
    rw [← hns]
    rfl
  rw [dirs, Path.passed, ← trail_dropLast, hns, List.dropLast_concat, hplace]
  rw [Path.passed, hns, trail_append, List.mem_append] at hl
  rcases hl with hl | hl
  · exact .inl hl
  · right
    rw [walk_append]
    simpa using hl

/-- What stands above an object's file is one of its directories or the service's own. -/
theorem above_place (hnamed : namesFile (filePath sm q) = true) {l : Loc} (hl : l <+: place sm q) :
    OwnDir sm l ∨ l ∈ dirs sm q ∨ l = place sm q := by
  have hroot : ∀ m : Loc, m <+: [] → OwnDir sm m := fun m hm => .inl (hm.trans List.nil_prefix)
  have hpassed : l ∈ (parse (filePath sm q)).passed sm.host.cwd →
      OwnDir sm l ∨ l ∈ dirs sm q ∨ l = place sm q := fun h => .inr (passed_cases hnamed h)
  rw [place, filePath, target_eq] at hl
  rcases prefix_walk hl with hstart | hvisit
  · cases hk : isAbsolute q.2 with
    | true =>
      rw [origin, hk] at hstart
      exact .inl (hroot l hstart)
    | false =>
      rw [origin, hk, if_neg (by simp)] at hstart
      rcases prefix_walk hstart with hbase | hbucket
      · cases hb : isAbsolute q.1 with
        | true =>
          rw [origin, hb] at hbase
          exact .inl (hroot l hbase)
        | false =>
          rw [origin, hb, if_neg (by simp)] at hbase
          exact .inl (.inl hbase)
      · apply hpassed
        rw [filePath, getFilePath, passed_join, hk, if_neg (by simp), List.mem_append]
        exact .inl (visits_bucket hbucket)
  · apply hpassed
    rw [filePath, getFilePath, passed_join, List.mem_append, ← Host.place, ← Host.target,
      ← bucketDir, bucketDir_eq]
    exact .inr hvisit

theorem not_above (hp : Accepted sm p) (hq : Accepted sm q) (hne : place sm p ≠ place sm q)
    (hout : place sm p ∉ dirs sm q) : ¬ place sm p <+: place sm q := by
  intro hpre
  rcases above_place hq.fits.named hpre with hown | hin | heq
  · exact hp.not_own hown
  · exact hout hin
  · exact hne heq

theorem flatPair_iff (hp : Accepted sm p) (hq : Accepted sm q) :
    FlatPair sm p q ↔ Clear sm p q := by
  constructor
  · intro h
    obtain ⟨habove, hbelow⟩ := clear_of_unaffected hp hq h.unaffected
    exact ⟨h.distinct, habove, hbelow⟩
  · intro h
    exact ⟨h.distinct, not_above hp hq h.distinct h.above.1,
      not_above hq hp (Ne.symm h.distinct) h.below.1, unaffected_of_clear h.above h.below,
      unaffected_of_clear h.below h.above⟩

/-! ## Many objects -/

/-- The objects are written one after another, each successfully. -/
inductive Stored (sm : StorageManager) : List (String × String) → World → World → Prop where
  | nil (w : World) : Stored sm [] w w
  | cons {p : String × String} {ps : List (String × String)} {w u v : World} {content : Bytes}
      (hwrite : write sm p content w = (.ok (), u)) (hrest : Stored sm ps u v) :
      Stored sm (p :: ps) w v

theorem Stored.unaffected {ps : List (String × String)} {u : World} (h : Stored sm ps w u)
    (hready : BaseReady sm w) (hclear : ∀ p ∈ ps, Clear sm p q) :
    BaseReady sm u ∧ ∀ content,
      ((write sm q content u).1 = .ok () ↔ (write sm q content w).1 = .ok ()) ∧
      ((write sm q content u).1 = .ok () →
        (write sm q content u).2.fs.fileAt (place sm q) = some content) := by
  induction h with
  | nil w =>
    refine ⟨hready, fun content => ⟨Iff.rfl, fun hok => ?_⟩⟩
    have hfits := fits_of_write hok
    rw [write_eq hready hfits]
    exact (fileAt_afterFs hfits _).trans (if_pos rfl)
  | @cons p ps w u v content hwrite hrest ih =>
    have hfits : Fits sm p w := fits_of_write (by rw [hwrite])
    have hu : BaseReady sm u := by
      rw [write_eq hready hfits] at hwrite
      rw [← (Prod.mk.inj hwrite).2]
      exact ready_afterFs hready hfits
    obtain ⟨hv, hthen⟩ := ih hu fun r hr => hclear r (by simp [hr])
    refine ⟨hv, fun content' => ⟨?_, (hthen content').2⟩⟩
    have hc := hclear p (by simp)
    have hone := (unaffected_of_clear hc.above hc.below w u content content' hready hwrite).1
    exact (hthen content').1.trans hone

/-! ## Ordinary names -/

theorem Plain.names (h : Plain p) :
    isAbsolute p.1 = false ∧ (parse p.1).names = [p.1.toList] ∧
      isAbsolute p.2 = false ∧ (parse p.2).names = segments p.2 := by
  have hfilter : ∀ ns : List Name, (∀ n ∈ ns, n ≠ [] ∧ n ≠ dot ∧ n ≠ dotDot) →
      ns.filter (fun n => n ≠ [] && n ≠ dot) = ns := by
    intro ns hns
    rw [List.filter_eq_self]
    intro n hn
    simp [(hns n hn).1, (hns n hn).2.1]
  have habs : ∀ s : String, (∀ n ∈ segments s, n ≠ []) → isAbsolute s = false := by
    intro s hs
    unfold isAbsolute
    cases hl : s.toList with
    | nil => rfl
    | cons c cs =>
      by_cases hc : c = '/'
      · subst hc
        have hempty : ([] : Name) ∈ segments s := by
          rw [segments, hl, List.splitOn_cons_eq_if_modifyHead]
          simp
        exact absurd rfl (hs _ hempty)
      · simp [hc]
  have hbucket : segments p.1 = [p.1.toList] := segments_of_plain h.bucket.1
  refine ⟨habs _ ?_, ?_, habs _ fun n hn => (h.key n hn).1, hfilter _ h.key⟩
  · rw [hbucket]
    simpa using h.bucket.2.1
  · have hone := hfilter (segments p.1) (by rw [hbucket]; simpa using h.bucket.2)
    rw [hbucket] at hone
    rw [parse, hbucket]
    exact hone

theorem Plain.down (h : Plain p) : dotDot ∉ p.1.toList :: segments p.2 := by
  rw [List.mem_cons, not_or]
  exact ⟨Ne.symm h.bucket.2.2.2, fun hmem => (h.key _ hmem).2.2 rfl⟩

theorem Plain.place (h : Plain p) : place sm p = basePlace sm ++ p.1.toList :: segments p.2 := by
  obtain ⟨hb, hbn, hk, hkn⟩ := h.names
  have hdown := h.down
  rw [← walk_down hdown, FlatKeys.place, filePath, target_eq]
  simp only [leads, origin, hb, hk, hbn, hkn]
  rfl

theorem tempNames_of {k : String} : ∃ ns n, segments k = ns ++ [n] ∧
    tempNames k = ns ++ [stem n ++ '.' :: "tmp".toList] := by
  obtain ⟨ns, n, hns⟩ : ∃ ns n, segments k = ns ++ [n] :=
    ⟨_, _, (List.dropLast_append_getLast (segments_ne_nil k)).symm⟩
  exact ⟨ns, n, hns, by simp [tempNames, hns]⟩

/-- The path of an ordinary object goes on from the base path with its names. -/
theorem Plain.parse_filePath (h : Plain p) : parse (filePath sm p) =
    ⟨isAbsolute sm.config.storage.path,
      (parse sm.config.storage.path).names ++ p.1.toList :: segments p.2⟩ := by
  obtain ⟨hb, hbn, hk, hkn⟩ := h.names
  have habs : (parse (filePath sm p)).absolute = isAbsolute sm.config.storage.path := by
    rw [← isAbsolute_join hb, ← isAbsolute_join hk]
    rfl
  have hnames : (parse (filePath sm p)).names =
      (parse sm.config.storage.path).names ++ p.1.toList :: segments p.2 := by
    rw [filePath, getFilePath, segments_join hk, segments_join hb, hbn, hkn, List.append_assoc,
      List.singleton_append]
  rw [← habs, ← hnames]

theorem basePlace_eq : basePlace sm = walk (if isAbsolute sm.config.storage.path then [] else sm.host.cwd)
    (parse sm.config.storage.path).names := rfl

theorem Plain.tempPlace (h : Plain p) :
    tempPlace sm p = basePlace sm ++ p.1.toList :: tempNames p.2 := by
  obtain ⟨ns, n, hns, htemp⟩ := tempNames_of (k := p.2)
  have hn : n ≠ dotDot := (h.key n (by simp [hns])).2.2
  have htmp : stem n ++ '.' :: "tmp".toList ≠ dotDot := by
    intro heq
    have hlen := congrArg List.length heq
    have htext : "tmp".toList.length = 3 := rfl
    simp only [List.length_append, List.length_cons, htext, dotDot, List.length_nil] at hlen
    omega
  have hdown : dotDot ∉ p.1.toList :: (ns ++ [stem n ++ '.' :: "tmp".toList]) := by
    have hrest := h.down
    rw [hns] at hrest
    simp only [List.mem_cons, List.mem_append, not_or] at hrest ⊢
    exact ⟨hrest.1, hrest.2.1, Ne.symm htmp, List.not_mem_nil⟩
  have hpath : (parse (filePath sm p)).names =
      ((parse sm.config.storage.path).names ++ p.1.toList :: ns) ++ [n] := by
    rw [h.parse_filePath, hns]
    simp
  have hlast : (parse (filePath sm p)).withExtension "tmp".toList =
      ⟨isAbsolute sm.config.storage.path, (parse sm.config.storage.path).names ++
        p.1.toList :: (ns ++ [stem n ++ '.' :: "tmp".toList])⟩ := by
    rw [Path.withExtension, hpath, List.getLast?_concat]
    simp only [if_neg hn, List.dropLast_concat, h.parse_filePath]
    simp
  have hwalk := walk_down (l := basePlace sm) hdown
  rw [FlatKeys.tempPlace, Host.temp, Host.place, hlast, htemp, ← hwalk, basePlace_eq]
  exact walk_append _ _ _

theorem mem_of_mem_stem {n : Name} {c : Char} (hc : c ∈ stem n) : c ∈ n := by
  unfold stem at hc
  split at hc
  · exact hc
  · rename_i r hr
    split at hc
    · exact hc
    · have hmem : c ∈ n.reverse.dropWhile (· ≠ '.') := by
        rw [hr]
        exact List.mem_cons_of_mem _ (List.mem_reverse.mp hc)
      exact List.mem_reverse.mp (List.dropWhile_subset _ hmem)

theorem segments_tempKey (k : String) : segments (tempKey k) = tempNames k := by
  obtain ⟨ns, n, hns, htemp⟩ := tempNames_of (k := k)
  have hplain : ∀ m ∈ segments k, '/' ∉ m := fun m hm => slash_not_mem hm
  rw [hns] at hplain
  rw [segments, tempKey, String.toList_ofList]
  apply List.splitOn_intercalate
  · intro m hm
    rw [htemp, List.mem_append, List.mem_singleton] at hm
    rcases hm with hm | rfl
    · exact hplain m (by simp [hm])
    · rw [List.mem_append, not_or]
      exact ⟨fun hc => hplain n (by simp) (mem_of_mem_stem hc), by decide⟩
  · simp [htemp]

theorem Plain.mem_dirs (h : Plain q) {l : Loc} (hown : ¬ OwnDir sm l) :
    l ∈ dirs sm q ↔ ∃ xs, xs ≠ [] ∧ xs <+: q.1.toList :: (segments q.2).dropLast ∧
      l = basePlace sm ++ xs := by
  have hlast : ∀ xs : List Name, (xs ++ q.1.toList :: segments q.2).dropLast =
      xs ++ q.1.toList :: (segments q.2).dropLast := by
    intro xs
    rw [List.dropLast_append_of_ne_nil (by simp), List.dropLast_cons_of_ne_nil (segments_ne_nil _)]
  have hdown : dotDot ∉ q.1.toList :: (segments q.2).dropLast := by
    have hall := h.down
    rw [List.mem_cons, not_or] at hall ⊢
    exact ⟨hall.1, fun hmem => hall.2 (List.dropLast_subset _ hmem)⟩
  have hbase : l ∉ trail (if isAbsolute sm.config.storage.path then [] else sm.host.cwd)
      (parse sm.config.storage.path).names := fun hl => hown (.inr hl)
  rw [dirs, Path.passed, ← trail_dropLast, h.parse_filePath, hlast, Path.start, trail_append,
    List.mem_append, ← basePlace_eq, mem_trail_down hdown]
  exact or_iff_right hbase

/-- For ordinary objects what is in the way can be read off the strings. -/
theorem Plain.clear_iff (hplain : Plain p) (hplain' : Plain q) (hp : Accepted sm p)
    (hq : Accepted sm q) (hne : p ≠ q) : Clear sm p q ↔ (p.1 = q.1 → Apart p.2 q.2) := by
  have hmem : ∀ {r s : String × String} {names : List Name}, Plain s →
      ¬ OwnDir sm (basePlace sm ++ r.1.toList :: names) →
      (basePlace sm ++ r.1.toList :: names ∈ dirs sm s ↔
        r.1 = s.1 ∧ names <+: (segments s.2).dropLast) := by
    intro r s names hs hown
    rw [hs.mem_dirs hown]
    constructor
    · rintro ⟨xs, -, hxs, heq⟩
      rw [← List.append_cancel_left heq, List.cons_prefix_cons] at hxs
      exact ⟨String.toList_inj.mp hxs.1, hxs.2⟩
    · rintro ⟨hb, hnames⟩
      refine ⟨_, List.cons_ne_nil _ _, ?_, rfl⟩
      rw [hb, List.cons_prefix_cons]
      exact ⟨rfl, hnames⟩
  have hplaces : ∀ {r s : String × String}, Plain r → Plain s → Accepted sm r →
      ((FlatKeys.place sm r ∈ dirs sm s ↔ r.1 = s.1 ∧ Under r.2 s.2) ∧
        (FlatKeys.tempPlace sm r ∈ dirs sm s ↔ r.1 = s.1 ∧ Under (tempKey r.2) s.2)) := by
    intro r s hr hs hacc
    have hown := hacc.not_own
    have hownTemp := hacc.temp_not_own
    rw [hr.place] at hown ⊢
    rw [hr.tempPlace] at hownTemp ⊢
    rw [hmem hs hown, hmem hs hownTemp, under_iff, under_iff, segments_tempKey]
    exact ⟨Iff.rfl, Iff.rfl⟩
  have hdistinct : FlatKeys.place sm p ≠ FlatKeys.place sm q := by
    rw [hplain.place, hplain'.place]
    intro heq
    obtain ⟨hb, hk⟩ := List.cons.inj (List.append_cancel_left heq)
    exact hne (Prod.ext (String.toList_inj.mp hb) (segments_injective hk))
  obtain ⟨hpq, hpqTemp⟩ := hplaces hplain hplain' hp
  obtain ⟨hqp, hqpTemp⟩ := hplaces hplain' hplain hq
  constructor
  · intro hc hb
    have habove := hc.above
    have hbelow := hc.below
    rw [hpq, hpqTemp] at habove
    rw [hqp, hqpTemp] at hbelow
    exact ⟨⟨fun hu => habove.1 ⟨hb, hu⟩, fun hu => habove.2 ⟨hb, hu⟩⟩,
      fun hu => hbelow.1 ⟨hb.symm, hu⟩, fun hu => hbelow.2 ⟨hb.symm, hu⟩⟩
  · intro hapart
    refine ⟨hdistinct, ?_, ?_⟩
    · rw [hpq, hpqTemp]
      exact ⟨fun hu => (hapart hu.1).1.1 hu.2, fun hu => (hapart hu.1).1.2 hu.2⟩
    · rw [hqp, hqpTemp]
      exact ⟨fun hu => (hapart hu.1.symm).2.1 hu.2, fun hu => (hapart hu.1.symm).2.2 hu.2⟩

/-! ## The key namespace -/

/-- Two stored objects keep out of each other's way exactly when their strings lead there
separately; for ordinary names that is when neither key, nor its temporary one, is a directory
of the other in the same bucket. Any number of such objects changes nothing for one more. -/
theorem flat_namespace_iff (hp : Accepted sm p) (hq : Accepted sm q) :
    (FlatPair sm p q ↔ Clear sm p q) ∧
    (Plain p → Plain q → p ≠ q → (Clear sm p q ↔ (p.1 = q.1 → Apart p.2 q.2))) ∧
    ∀ ps w u content, (∀ r ∈ ps, Clear sm r q) → BaseReady sm w → Stored sm ps w u →
      ((write sm q content u).1 = .ok () ↔ (write sm q content w).1 = .ok ()) ∧
      ((write sm q content u).1 = .ok () →
        (write sm q content u).2.fs.fileAt (place sm q) = some content) :=
  ⟨flatPair_iff hp hq, fun hplain hplain' hne => hplain.clear_iff hplain' hp hq hne,
    fun _ _ _ content hclear hready hstored => (hstored.unaffected hready hclear).2 content⟩

open Sample (manager)

theorem sample_accepted {k : String} (hfits : (write manager ("a", k) [120] (bare manager [])).1 =
    .ok ()) : Accepted manager ("a", k) :=
  ⟨_, _, bare_ready [], hfits⟩

/-- A key that goes on after another one's last letter is out of its way. -/
theorem flat_next_to :
    FlatPair manager ("a", "x") ("a", "xs/y") ∧
      (write manager ("a", "xs/y") [121] (write manager ("a", "x") [120] (bare manager [])).2).1 =
        .ok () := by
  have hok : (write manager ("a", "x") [120] (bare manager [])).1 = .ok () := by decide
  obtain ⟨hiff, hordinary, hmany⟩ := flat_namespace_iff (sample_accepted hok)
    (sample_accepted (k := "xs/y") (by decide))
  have hplain : Plain ("a", "x") := ⟨by decide, by decide⟩
  have hplain' : Plain ("a", "xs/y") := ⟨by decide, by decide⟩
  have hclear := (hordinary hplain hplain' (by decide)).mpr fun _ => by decide
  have hstored : Stored manager [("a", "x")] (bare manager [])
      (write manager ("a", "x") [120] (bare manager [])).2 :=
    .cons (Prod.ext hok rfl) (.nil _)
  refine ⟨hiff.mpr hclear, ?_⟩
  have hsame := (hmany _ _ _ [121] (by simpa using hclear) (bare_ready []) hstored).1
  exact hsame.mpr (by decide)

/-- The store after an upload of `x`. -/
def withX : Result StoredFile × World :=
  (manager.storeFile "a" "x" [120] none {}).eval (exec manager.host) { uuid := 1 } (bare manager [])

def nested (w : World) : Result StoredFile × World :=
  (manager.storeFile "a" "x/y" [121] none {}).eval (exec manager.host) { uuid := 2 } w

/-- A key below another one can be uploaded only where that one is not. -/
theorem nested_key_refused :
    Accepted manager ("a", "x") ∧ Accepted manager ("a", "x/y") ∧
      ¬ FlatPair manager ("a", "x") ("a", "x/y") ∧ withX.1.isOk = true ∧
      (nested withX.2).1.isOk = false ∧ (nested (bare manager [])).1.isOk = true := by
  refine ⟨sample_accepted (by decide), sample_accepted (by decide), fun h => ?_, by decide,
    by decide, by decide⟩
  exact absurd h.notAbove (by decide)

end LocalStorage.Proofs.FlatKeys
