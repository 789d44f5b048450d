import LocalStorage.Proofs.Deletion
import LocalStorage.Sample

namespace LocalStorage.Proofs.Containment
open Lib Lib.Paths StorageManager

/-- The places one step creates, writes, renames or removes. -/
def Touches (h : Host) (w : World) : Action → Loc → Prop
  | .createDirAll path, l => l ∈ path.passed h.cwd ∧ w.fs.node l = none
  | .writeFileAtomic path _, l => l = h.target path ∨ l = h.temp path
  | .removeFile path, l => l = h.target path
  | .removeDirAll path, l => h.target path <+: l
  | _, _ => False

/-- The step works on the file of an object, not on directories. -/
def OnObject : Action → Prop
  | .writeFileAtomic _ _ => True
  | .removeFile _ => True
  | _ => False

def basePlace (sm : StorageManager) : Loc := sm.host.target sm.config.storage.path

/-- Whatever the step touches lies strictly inside the base path. -/
def BaseContained (sm : StorageManager) (a : Action) (w : World) : Prop :=
  ∀ l, Touches sm.host w a l → Inside (basePlace sm) l

/-- Moreover the object's file lies strictly inside the bucket's directory. -/
def ObjectContained (sm : StorageManager) (b : String) (a : Action) (w : World) : Prop :=
  ∀ l, Touches sm.host w a l → Inside (basePlace sm) l ∧ (OnObject a → Inside (bucketDir sm b) l)

/-- A directory the service makes sure of when it starts: the base path or one on the way
to it. -/
def OwnDir (sm : StorageManager) (l : Loc) : Prop :=
  l <+: basePlace sm ∨ l ∈ (parse sm.config.storage.path).passed sm.host.cwd

instance (sm : StorageManager) (l : Loc) : Decidable (OwnDir sm l) :=
  inferInstanceAs (Decidable (_ ∨ _))

def BaseReady (sm : StorageManager) (w : World) : Prop :=
  ∀ l, OwnDir sm l → w.fs.isDir l = true

/-- Following the bucket string from the base path, every directory passed is one of the
base path's own or inside it. -/
def BucketStays (sm : StorageManager) (b : String) : Prop :=
  ∀ l ∈ visits (basePlace sm) b, OwnDir sm l ∨ Inside (basePlace sm) l

/-- So is every directory passed on following the key string from there, and the last
component leads strictly inside both the base path and the bucket's directory. -/
def UploadStays (sm : StorageManager) (b k : String) : Prop :=
  BucketStays sm b ∧
  (∀ l ∈ (visits (leads (basePlace sm) b) k).dropLast, OwnDir sm l ∨ Inside (basePlace sm) l) ∧
  Inside (basePlace sm) (leads (leads (basePlace sm) b) k) ∧
  Inside (leads (basePlace sm) b) (leads (leads (basePlace sm) b) k)

instance (sm : StorageManager) (b : String) : Decidable (BucketStays sm b) :=
  inferInstanceAs (Decidable (∀ l ∈ visits (basePlace sm) b, _))

instance (sm : StorageManager) (b k : String) : Decidable (UploadStays sm b k) :=
  inferInstanceAs (Decidable (_ ∧ (∀ l ∈ (visits (leads (basePlace sm) b) k).dropLast, _) ∧ _))

variable {sm : StorageManager} {w : World} {b k : String} {content : Bytes} {ct : Option String}
  {opts : StoreOptions}

/-! ## Where the paths lead -/

theorem bucketDir_eq : bucketDir sm b = leads (basePlace sm) b := resolve_join _ _ _

theorem target_eq :
    sm.host.target (sm.getFilePath b k) = leads (leads (basePlace sm) b) k := by
  rw [← bucketDir_eq]
  exact resolve_join _ _ _

theorem passed_bucket {l : Loc}
    (h : l ∈ (parse (join sm.config.storage.path b)).passed sm.host.cwd) :
    OwnDir sm l ∨ l ∈ visits (basePlace sm) b := by
  rw [passed_join, List.mem_append] at h
  rcases h with h | h
  · split at h
    · exact absurd h List.not_mem_nil
    · exact .inl (.inr h)
  · exact .inr h

theorem visits_bucket {l : Loc} (h : l ∈ visits (basePlace sm) b) :
    l ∈ (parse (join sm.config.storage.path b)).passed sm.host.cwd := by
  rw [passed_join]
  exact List.mem_append_right _ h

theorem passed_parent {cwd : Loc} {p q : Path} (h : p.parent = some q) :
    q.passed cwd = (p.passed cwd).dropLast := by
  unfold Path.parent at h
  split at h
  · simp at h
  · obtain rfl := Option.some.inj h
    exact trail_dropLast _ _

/-- The directories made for an object: those of its bucket and those its key passes. -/
theorem passed_object {l : Loc} {q : Path}
    (hq : (parse (sm.getFilePath b k)).parent = some q) (h : l ∈ q.passed sm.host.cwd) :
    OwnDir sm l ∨ l ∈ visits (basePlace sm) b ∨
      l ∈ (visits (leads (basePlace sm) b) k).dropLast := by
  rw [passed_parent hq, getFilePath, passed_join, resolve_join] at h
  have hsplit : ∀ xs ys : List Loc, l ∈ (xs ++ ys).dropLast → l ∈ xs ∨ l ∈ ys.dropLast := by
    intro xs ys hl
    by_cases hys : ys = []
    · subst hys
      rw [List.append_nil] at hl
      exact .inl (List.dropLast_subset _ hl)
    · rw [List.dropLast_append_of_ne_nil hys, List.mem_append] at hl
      exact hl
  rcases hsplit _ _ h with h | h
  · split at h
    · exact absurd h List.not_mem_nil
    · rcases passed_bucket h with h | h
      · exact .inl h
      · exact .inr (.inl h)
  · exact .inr (.inr h)

theorem visits_object {l : Loc} {q : Path}
    (hq : (parse (sm.getFilePath b k)).parent = some q)
    (h : l ∈ (visits (leads (basePlace sm) b) k).dropLast) : l ∈ q.passed sm.host.cwd := by
  rw [passed_parent hq, getFilePath, passed_join, resolve_join]
  have hne : visits (leads (basePlace sm) b) k ≠ [] := by
    intro hnil
    simp [hnil] at h
  have hbase : (parse sm.config.storage.path).resolve sm.host.cwd = basePlace sm := rfl
  rw [hbase, List.dropLast_append_of_ne_nil hne]
  exact List.mem_append_right _ h

/-- The temporary file lies wherever the file does. -/
theorem inside_temp {root : Loc} {path : String} (h : Inside root (sm.host.target path)) :
    Inside root (sm.host.temp path) :=
  h.withExtension (by decide) (by decide)

/-! ## Uploads -/

/-- The step touches nothing on disk. -/
def NoTouch (a : Action) : Prop := ∀ h w l, ¬ Touches h w a l

theorem NoTouch.object {a : Action} (h : NoTouch a) (u : World) : ObjectContained sm b a u :=
  fun _ hl => absurd hl (h _ _ _)

theorem NoTouch.base {a : Action} (h : NoTouch a) (u : World) : BaseContained sm a u :=
  fun _ hl => absurd hl (h _ _ _)

/-- Directories stay directories. -/
def DirsKept (w w' : World) : Prop := ∀ l, w.fs.isDir l = true → w'.fs.isDir l = true

theorem DirsKept.refl (w : World) : DirsKept w w := fun _ h => h

theorem DirsKept.trans (u v w : World) (h : DirsKept u v) (h' : DirsKept v w) : DirsKept u w :=
  fun l hl => h' l (h l hl)

def KeepsDirs (a : Action) : Prop := ∀ h c w, DirsKept w (exec h c a w).2

theorem saveFile_uses (file : StoredFile) : (saveFile file).Uses NoTouch := by
  simp only [saveFile, step_eq, Prog.bind_eq, Prog.act_bind, Prog.ret_bind, Prog.pure_eq]
  refine ⟨fun _ _ _ h => h, fun r => ?_⟩
  dsimp only
  split
  · trivial
  · split
    · split <;> trivial
    · trivial

theorem storeAlias_uses (existing : StoredFile) :
    (sm.storeAlias b k content ct opts existing).Uses NoTouch := by
  simp only [storeAlias, step_eq, Prog.bind_eq, Prog.act_bind, Prog.ret_bind, Prog.pure_eq]
  refine ⟨fun _ _ _ h => h, fun id => ⟨fun _ _ _ h => h, fun now => ?_⟩⟩
  exact (saveFile_uses _).bind fun _ => trivial

theorem encryptStage_uses (data : Bytes) : (sm.encryptStage opts data).Uses NoTouch := by
  simp only [encryptStage, getKey, ofSqlx, step_eq, Prog.bind_eq, Prog.act_bind, Prog.ret_bind,
    Prog.pure_eq]
  split
  · refine Prog.Uses.bind (Prog.uses_ofExcept _) fun alg => ?_
    split
    · refine ⟨fun _ _ _ h => h, fun r => ?_⟩
      refine Prog.Uses.bind (Prog.Uses.bind (Prog.uses_ofExcept _) fun key => ?_) fun key => ?_
      · cases key <;> trivial
      · refine ⟨fun _ _ _ h => h, fun nonce => ?_⟩
        exact Prog.Uses.bind (Prog.uses_ofExcept _) fun out => trivial
    · refine ⟨fun _ _ _ h => h, fun nonce => ?_⟩
      exact Prog.Uses.bind (Prog.uses_ofExcept _) fun out => trivial
  · trivial

theorem keepsDirs_createDirAll (path : Path) : KeepsDirs (.createDirAll path) := by
  intro h c w l hl
  simp only [exec, execCreateDirAll]
  cases c.fault with
  | some e => exact FileTree.isDir_mkdirs hl
  | none =>
    have hkeep : (w.fs.mkdirs (path.passed h.cwd)).2.isDir l = true := FileTree.isDir_mkdirs hl
    cases hm : w.fs.mkdirs (path.passed h.cwd) with
    | mk made fs =>
      rw [hm] at hkeep
      cases made <;> exact hkeep

theorem ensureBucketExists_uses : (sm.ensureBucketExists b).Uses KeepsDirs := by
  simp only [ensureBucketExists, createBucket, ofSqlx, ofIo, step_eq, Prog.bind_eq, Prog.act_bind,
    Prog.ret_bind, Prog.pure_eq]
  refine ⟨fun _ _ _ _ hl => hl, fun r => Prog.Uses.bind (Prog.uses_ofExcept _) fun found => ?_⟩
  split
  · trivial
  · refine ⟨keepsDirs_createDirAll _, fun r => Prog.Uses.bind (Prog.uses_ofExcept _) fun _ => ?_⟩
    refine ⟨fun h c w l hl => ?_, fun r => Prog.Uses.bind (Prog.uses_ofExcept _) fun _ => trivial⟩
    simp only [exec, statement]
    cases c.fault with
    | some e => exact hl
    | none => cases w.db.insertBucket b <;> exact hl

theorem BaseReady.ensured {u : World} {x : Result Unit} (hready : BaseReady sm w)
    (hrun : (sm.ensureBucketExists b).Runs (exec sm.host) w x u) : BaseReady sm u := by
  have hkept : DirsKept w u :=
    Prog.Runs.frame DirsKept.refl DirsKept.trans
      (fun c a s (ha : KeepsDirs a) => ha sm.host c s) ensureBucketExists_uses hrun
  exact fun l hl => hkept l (hready l hl)

theorem BaseReady.not_missing {l : Loc} (hready : BaseReady sm w) (hmissing : w.fs.node l = none) :
    ¬ OwnDir sm l := by
  intro hl
  have hdir := FileTree.isDir_iff.mp (hready l hl)
  rw [hmissing] at hdir
  simp at hdir

theorem createBucket_step (hready : BaseReady sm w) (hb : BucketStays sm b) {l : Loc}
    (hl : Touches sm.host w (.createDirAll (parse (join sm.config.storage.path b))) l) :
    Inside (basePlace sm) l := by
  obtain ⟨hpassed, hmissing⟩ := hl
  have hnew := hready.not_missing hmissing
  rcases passed_bucket hpassed with hown | hvisit
  · exact absurd hown hnew
  · exact (hb l hvisit).resolve_left hnew

theorem createBucket_contained {P : Action → World → Prop} (hnone : ∀ a u, NoTouch a → P a u)
    (hdirs : P (.createDirAll (parse (join sm.config.storage.path b))) w) :
    (sm.createBucket b).Throughout (exec sm.host) P w := by
  simp only [createBucket, ofIo, ofSqlx, step_eq, Prog.bind_eq, Prog.act_bind, Prog.ret_bind,
    Prog.pure_eq]
  refine ⟨hdirs, fun c => Prog.throughout_bind.mpr ⟨Prog.throughout_ofExcept, fun _ t _ => ?_⟩⟩
  refine ⟨hnone _ _ fun _ _ _ h => h, fun c => ?_⟩
  exact Prog.throughout_bind.mpr ⟨Prog.throughout_ofExcept, fun _ _ _ => trivial⟩

theorem ensureBucketExists_contained {P : Action → World → Prop} (hnone : ∀ a u, NoTouch a → P a u)
    (hdirs : P (.createDirAll (parse (join sm.config.storage.path b))) w) :
    (sm.ensureBucketExists b).Throughout (exec sm.host) P w := by
  simp only [ensureBucketExists, ofSqlx, step_eq, Prog.bind_eq, Prog.act_bind, Prog.ret_bind,
    Prog.pure_eq]
  refine ⟨hnone _ _ fun _ _ _ h => h, fun c => ?_⟩
  refine Prog.throughout_bind.mpr ⟨Prog.throughout_ofExcept, fun found t ht => ?_⟩
  rw [Prog.runs_ofExcept] at ht
  obtain ⟨-, rfl⟩ := ht
  split
  · trivial
  · exact createBucket_contained hnone hdirs

theorem writeBytes_contained {bytes : Bytes} (hready : BaseReady sm w) (hu : UploadStays sm b k) :
    (writeBytes (sm.getFilePath b k) bytes).Throughout (exec sm.host) (ObjectContained sm b) w := by
  obtain ⟨hb, hk, hbase, hdir⟩ := hu
  have hfile : ∀ u, ObjectContained sm b (.writeFileAtomic (sm.getFilePath b k) bytes) u := by
    intro u l hl
    rw [← target_eq] at hbase hdir
    rw [← bucketDir_eq] at hdir
    rcases hl with rfl | rfl
    · exact ⟨hbase, fun _ => hdir⟩
    · exact ⟨inside_temp hbase, fun _ => inside_temp hdir⟩
  have hwrite : ∀ u, (Prog.act (.writeFileAtomic (sm.getFilePath b k) bytes)
      fun r => (ofIo r).bind fun _ => .ret ()).Throughout (exec sm.host) (ObjectContained sm b) u := by
    intro u
    refine ⟨hfile u, fun c => ?_⟩
    exact Prog.throughout_bind.mpr ⟨Prog.throughout_ofExcept, fun _ _ _ => trivial⟩
  simp only [writeBytes, step_eq, Prog.bind_eq, Prog.act_bind, Prog.ret_bind, Prog.pure_eq]
  split
  · rename_i parent hparent
    refine ⟨fun l hl => ⟨?_, fun h => h.elim⟩, fun c => ?_⟩
    · have hnew := hready.not_missing hl.2
      rcases passed_object hparent hl.1 with hown | hvisit | hvisit
      · exact absurd hown hnew
      · exact (hb l hvisit).resolve_left hnew
      · exact (hk l hvisit).resolve_left hnew
    · exact Prog.throughout_bind.mpr ⟨Prog.throughout_ofExcept, fun _ t _ => hwrite t⟩
  · exact hwrite w

theorem recordFile_contained {file : StoredFile} {processed : Bytes}
    (hpath : file.filePath = sm.getFilePath b k) (hu : UploadStays sm b k) :
    (recordFile file processed).Throughout (exec sm.host) (ObjectContained sm b) w := by
  simp only [recordFile, step_eq, Prog.bind_eq, Prog.act_bind, Prog.ret_bind, Prog.pure_eq]
  refine Prog.throughout_bind.mpr ⟨?_, fun saved t _ => ?_⟩
  · exact Prog.throughout_attempt.mpr
      ((saveFile_uses file).throughout (fun _ s h => h.object s) w)
  · cases saved with
    | error e =>
      refine ⟨fun l hl => ?_, fun _ => trivial⟩
      obtain rfl : l = sm.host.target file.filePath := hl
      rw [hpath, target_eq, bucketDir_eq]
      exact ⟨hu.2.2.1, fun _ => hu.2.2.2⟩
    | ok _ =>
      refine ⟨fun _ hl => False.elim hl, fun _ => ?_⟩
      exact ⟨fun _ hl => False.elim hl, fun _ => trivial⟩

theorem storeFresh_contained (hready : BaseReady sm w) (hu : UploadStays sm b k) :
    (sm.storeFresh b k content ct opts).Throughout (exec sm.host) (ObjectContained sm b) w := by
  simp only [storeFresh, step_eq, Prog.bind_eq, Prog.act_bind, Prog.ret_bind]
  refine Prog.throughout_bind.mpr ⟨?_, fun out t ht => ?_⟩
  · exact (encryptStage_uses _).throughout (fun _ s h => h.object s) w
  · obtain ⟨rfl, -⟩ := encryptStage_spec _ _ ht
    obtain ⟨processed, enc⟩ := out
    refine Prog.throughout_bind.mpr ⟨writeBytes_contained hready hu, fun _ u _ => ?_⟩
    refine ⟨fun _ hl => False.elim hl, fun c => ?_⟩
    refine ⟨fun _ hl => False.elim hl, fun c' => ?_⟩
    exact recordFile_contained rfl hu

theorem storeFile_contained (hready : BaseReady sm w) (hu : UploadStays sm b k) :
    (sm.storeFile b k content ct opts).Throughout (exec sm.host) (ObjectContained sm b) w := by
  simp only [storeFile, ofSqlx, step_eq, Prog.bind_eq, Prog.act_bind, Prog.ret_bind, Prog.pure_eq]
  refine Prog.throughout_bind.mpr ⟨?_, fun _ u hrun => ?_⟩
  · refine ensureBucketExists_contained (fun _ u h => h.object u) fun l hl => ?_
    exact ⟨createBucket_step hready hu.1 hl, fun h => h.elim⟩
  · have hready' := hready.ensured hrun
    split
    · refine ⟨fun _ hl => False.elim hl, fun c => ?_⟩
      refine Prog.throughout_bind.mpr ⟨Prog.throughout_ofExcept, fun found t ht => ?_⟩
      rw [Prog.runs_ofExcept] at ht
      obtain ⟨-, rfl⟩ := ht
      split
      · split
        · trivial
        · exact (storeAlias_uses _).throughout (fun _ s h => h.object s) _
      · exact storeFresh_contained hready' hu
    · exact storeFresh_contained hready' hu

/-! ## Removals -/

theorem cleanFiles_contained {files : List (String × String)}
    (hin : ∀ f ∈ files, Inside (basePlace sm) (sm.host.target f.2)) :
    (cleanFiles b files).Throughout (exec sm.host) (BaseContained sm) w := by
  induction files generalizing w with
  | nil => trivial
  | cons f files ih =>
    obtain ⟨k, path⟩ := f
    have hrest : ∀ u, (Prog.act (.invalidateFile b k) fun _ => cleanFiles b files).Throughout
        (exec sm.host) (BaseContained sm) u := fun u =>
      ⟨fun _ hl => False.elim hl, fun _ => ih fun f hf => hin f (List.mem_cons_of_mem _ hf)⟩
    simp only [cleanFiles, step_eq, Prog.bind_eq, Prog.act_bind, Prog.ret_bind]
    refine ⟨fun _ hl => False.elim hl, fun c => ?_⟩
    dsimp only
    split
    · refine ⟨fun l hl => ?_, fun c' => hrest _⟩
      obtain rfl : l = sm.host.target path := hl
      exact hin (k, path) (by simp)
    · exact hrest _

/-- Every listed file can come up for unlinking: its count can fail. -/
theorem cleanFiles_inside {files : List (String × String)}
    (h : (cleanFiles b files).Throughout (exec sm.host) (BaseContained sm) w) :
    ∀ f ∈ files, Inside (basePlace sm) (sm.host.target f.2) := by
  induction files generalizing w with
  | nil => simp
  | cons f files ih =>
    obtain ⟨k, path⟩ := f
    simp only [cleanFiles, step_eq, Prog.bind_eq, Prog.act_bind, Prog.ret_bind] at h
    obtain ⟨hremove, hnext⟩ := h.2 { fault := some .noEntry }
    obtain ⟨-, hrest⟩ := hnext calm
    intro g hg
    rcases List.mem_cons.mp hg with rfl | hg
    · exact hremove _ rfl
    · exact ih (hrest calm) g hg

theorem throughout_answer {α β : Type} {P : Action → World → Prop} {h : Host} {c : Choice} {x : β}
    {f : β → Op α} (hok : (f x).Throughout (exec h) P w) :
    (Prog.bind (ofSqlx (answer c x)) f).Throughout (exec h) P w := by
  unfold answer
  cases c.fault with
  | some e => trivial
  | none => exact hok

theorem throughout_deleteBucketRow {α : Type} {P : Action → World → Prop} {h : Host} {f : Nat → Op α}
    (hnone : (f 0).Throughout (exec h) P w)
    (hsome : ∀ db, w.db.deleteBucketRow b = some db →
      (f 1).Throughout (exec h) P { w with db := db }) (c : Choice) :
    (Prog.bind (ofSqlx (exec h c (.deleteBucketRow b) w).1) f).Throughout (exec h) P
      (exec h c (.deleteBucketRow b) w).2 := by
  simp only [exec]
  cases c.fault with
  | some e => trivial
  | none =>
    cases hd : w.db.deleteBucketRow b with
    | none => exact hnone
    | some db => exact hsome db hd

/-- In each state, a bucket's removal is contained exactly when its directory and the files
its rows record are. -/
theorem deleteBucket_contained :
    (sm.deleteBucket b).Throughout (exec sm.host) (BaseContained sm) w ↔
      (b ∈ w.db.buckets → Inside (basePlace sm) (leads (basePlace sm) b) ∧
        ∀ f ∈ w.db.files, f.bucket = b → Inside (basePlace sm) (sm.host.target f.filePath)) := by
  simp only [deleteBucket, ofSqlx, step_eq, Prog.bind_eq, Prog.act_bind, Prog.ret_bind,
    Prog.pure_eq]
  constructor
  · intro h hb
    obtain ⟨db, hdb⟩ : ∃ db, w.db.deleteBucketRow b = some db := by
      simp [Database.deleteBucketRow, hb]
    have hrow := (h.2 calm).2 calm
    simp only [exec, answer, calm, hdb, Except.mapError, Prog.ofExcept_ok, Prog.ret_bind,
      Nat.one_ne_zero, ↓reduceIte] at hrow
    obtain ⟨hclean, hdir⟩ := Prog.throughout_bind.mp hrow
    constructor
    · obtain ⟨x, u, hrun⟩ : ∃ x u, (cleanFiles b (w.db.selectBucketFiles b fun _ => 0)).Runs
          (exec sm.host) { w with db := db } x u := ⟨_, _, Prog.eval_runs calm _ _⟩
      obtain ⟨rfl, -⟩ := cleanFiles_spec _ _ hrun
      rw [← bucketDir_eq]
      exact (hdir _ _ hrun).1 _ (List.prefix_refl _)
    · intro f hf hfb
      exact cleanFiles_inside hclean (f.key, f.filePath)
        (Database.mem_selectBucketFiles.mpr ⟨f, hf, hfb, rfl, rfl⟩)
  · intro h
    refine ⟨fun _ hl => False.elim hl, fun c => throughout_answer ?_⟩
    refine ⟨fun _ hl => False.elim hl, throughout_deleteBucketRow trivial fun db hdb => ?_⟩
    obtain ⟨hb, -, -⟩ := Database.deleteBucketRow_some hdb
    obtain ⟨hdir, hrows⟩ := h hb
    rw [if_neg Nat.one_ne_zero]
    refine Prog.throughout_bind.mpr ⟨cleanFiles_contained ?_, fun _ t _ => ⟨fun l hl => ?_, fun _ => trivial⟩⟩
    · rintro ⟨k, path⟩ hmem
      obtain ⟨f, hf, hfb, -, rfl⟩ := Database.mem_selectBucketFiles.mp hmem
      exact hrows f hf hfb
    · rw [← bucketDir_eq] at hdir
      exact hdir.below hl

/-! ## What the strings must be like -/

/-- A service that has just started: its own directories and nothing else. -/
def bare (sm : StorageManager) (buckets : List String) : World :=
  { World.empty with
    db := { Database.empty with buckets := buckets }
    fs := fun l => if OwnDir sm l then some .dir else none }

theorem node_bare (bs : List String) (l : Loc) :
    (bare sm bs).fs.node l = if OwnDir sm l then some .dir else none := by
  by_cases hl : l = []
  · subst hl
    have hroot : OwnDir sm [] := .inl List.nil_prefix
    simp [hroot]
  · simp [FileTree.node, hl, bare]

theorem bare_ready (bs : List String) : BaseReady sm (bare sm bs) := by
  intro l hl
  rw [FileTree.isDir_iff, node_bare, if_pos hl]

theorem bare_no_file (bs : List String) (l : Loc) : (bare sm bs).fs.fileAt l = none := by
  unfold FileTree.fileAt
  rw [node_bare]
  by_cases hl : OwnDir sm l <;> simp [hl]

theorem own_or_inside {bs : List String} {path : Path} {l : Loc}
    (h : BaseContained sm (.createDirAll path) (bare sm bs)) (hl : l ∈ path.passed sm.host.cwd) :
    OwnDir sm l ∨ Inside (basePlace sm) l := by
  by_cases hown : OwnDir sm l
  · exact .inl hown
  · refine .inr (h l ⟨hl, ?_⟩)
    rw [node_bare, if_neg hown]

theorem createBucket_only_if
    (h : (sm.createBucket b).Throughout (exec sm.host) (BaseContained sm) (bare sm [])) :
    BucketStays sm b := by
  simp only [createBucket, step_eq, Prog.bind_eq, Prog.act_bind, Prog.ret_bind] at h
  exact fun l hl => own_or_inside h.1 (visits_bucket hl)

/-- Options under which an upload's bytes are stored as they come. -/
def plainOptions : StoreOptions := { compress := some false, encrypt := some false }

theorem storeFresh_only_if
    (h : (sm.storeFresh b k content none plainOptions).Throughout (exec sm.host)
      (ObjectContained sm b) (bare sm [b])) (hb : BucketStays sm b) : UploadStays sm b k := by
  have hcompress : sm.compressStage plainOptions content = (content, false) := by
    simp [compressStage, shouldCompress, plainOptions]
  have hencrypt : sm.encryptStage plainOptions content = .ret (content, false) := by
    simp [encryptStage, shouldEncrypt, plainOptions]
  simp only [storeFresh, hcompress, hencrypt, Prog.bind_eq, Prog.ret_bind] at h
  obtain ⟨hwrite, -⟩ := Prog.throughout_bind.mp h
  simp only [writeBytes, step_eq, Prog.bind_eq, Prog.act_bind, Prog.ret_bind, Prog.pure_eq] at hwrite
  have hfile : ∀ u, ObjectContained sm b (.writeFileAtomic (sm.getFilePath b k) content) u →
      Inside (basePlace sm) (leads (leads (basePlace sm) b) k) ∧
        Inside (leads (basePlace sm) b) (leads (leads (basePlace sm) b) k) := by
    intro u hu
    obtain ⟨hbase, hdir⟩ := hu (sm.host.target (sm.getFilePath b k)) (.inl rfl)
    rw [← target_eq, ← bucketDir_eq]
    exact ⟨hbase, hdir trivial⟩
  cases hq : (parse (sm.getFilePath b k)).parent with
  | none =>
    rw [hq] at hwrite
    have hnone : visits (leads (basePlace sm) b) k = [] := by
      have hnames : (parse (sm.getFilePath b k)).names = [] := by
        unfold Path.parent at hq
        split at hq
        · assumption
        · simp at hq
      have hpassed : (parse (sm.getFilePath b k)).passed sm.host.cwd = [] := by
        rw [Path.passed, hnames, trail_nil]
      rw [getFilePath, passed_join, resolve_join, List.append_eq_nil_iff] at hpassed
      exact hpassed.2
    refine ⟨hb, ?_, hfile _ hwrite.1⟩
    simp [hnone]
  | some parent =>
    rw [hq] at hwrite
    obtain ⟨hdirs, hnext⟩ := hwrite
    refine ⟨hb, fun l hl => ?_, ?_⟩
    · exact own_or_inside (fun l hl => (hdirs l hl).1) (visits_object hq hl)
    · obtain ⟨u, hmade⟩ : ∃ u, exec sm.host calm (.createDirAll parent) (bare sm [b]) =
          (.ok (), u) := by
        have hall : ((bare sm [b]).fs.mkdirs (parent.passed sm.host.cwd)).1 = true :=
          FileTree.mkdirs_of_no_file (bare_no_file [b]) _
        simp only [exec, execCreateDirAll, calm]
        cases hm : (bare sm [b]).fs.mkdirs (parent.passed sm.host.cwd) with
        | mk made fs =>
          rw [hm] at hall
          subst hall
          exact ⟨_, rfl⟩
      have hthen := hnext calm
      rw [hmade] at hthen
      exact hfile u hthen.1

theorem storeFile_only_if
    (h : ∀ w, BaseReady sm w → (sm.storeFile b k content none plainOptions).Throughout
      (exec sm.host) (ObjectContained sm b) w) : UploadStays sm b k := by
  have hb : BucketStays sm b := by
    have hnew := h (bare sm []) (bare_ready [])
    simp only [storeFile, Prog.bind_eq] at hnew
    have hensure := (Prog.throughout_bind.mp hnew).1
    simp only [ensureBucketExists, step_eq, Prog.bind_eq, Prog.act_bind, Prog.ret_bind,
      Prog.pure_eq] at hensure
    have hcreate : (sm.createBucket b).Throughout (exec sm.host) (ObjectContained sm b)
        (bare sm []) := hensure.2 calm
    simp only [createBucket, step_eq, Prog.bind_eq, Prog.act_bind, Prog.ret_bind] at hcreate
    exact fun l hl => own_or_inside (fun l hl => (hcreate.1 l hl).1) (visits_bucket hl)
  have hready := h (bare sm [b]) (bare_ready [b])
  have hexists : (bare sm [b]).db.bucketExists b = true := by
    simp [bare, Database.bucketExists]
  have hensured : (sm.ensureBucketExists b).Runs (exec sm.host) (bare sm [b]) (.ok ())
      (bare sm [b]) := by
    simp only [ensureBucketExists, step_eq, Prog.bind_eq, Prog.act_bind, Prog.ret_bind, Prog.pure_eq]
    refine ⟨calm, ?_⟩
    simp [exec, answer, calm, hexists]
  simp only [storeFile, Prog.bind_eq] at hready
  have hstore := (Prog.throughout_bind.mp hready).2 () _ hensured
  have hfresh : (sm.storeFresh b k content none plainOptions).Throughout (exec sm.host)
      (ObjectContained sm b) (bare sm [b]) := by
    split at hstore
    · exact hstore.2 calm
    · exact hstore
  exact storeFresh_only_if hfresh hb

/-! ## Rows -/

/-- Every row's file lies strictly inside the base path. -/
def RowsInside (sm : StorageManager) (w : World) : Prop :=
  ∀ f ∈ w.db.files, Inside (basePlace sm) (sm.host.target f.filePath)

theorem RowsInside.stored {w' : World} {x : Result StoredFile} (hr : RowsInside sm w)
    (hu : UploadStays sm b k)
    (hrun : (sm.storeFile b k content ct opts).Runs (exec sm.host) w x w') : RowsInside sm w' := by
  have hput : ∀ (file : StoredFile) (old : Option StoredFile),
      w'.db.files = w.db.files.put (Database.mergeRow old file) →
      Inside (basePlace sm) (sm.host.target file.filePath) → RowsInside sm w' := by
    intro file old hfiles hin f hf
    rw [hfiles, Table.mem_put] at hf
    rcases hf with rfl | ⟨hf, -⟩
    · simpa using hin
    · exact hr f hf
  have hkept : ∀ ls, Kept ls w w' → RowsInside sm w' := by
    intro ls hk f hf
    exact hr f (hk.files ▸ hf)
  cases storeFile_spec _ _ hrun with
  | rejected e hk => exact hkept _ hk
  | broken e _ _ hk => exact hkept _ hk
  | identical file _ _ _ _ hk => exact hkept _ hk
  | aliased existing id now hmem _ _ _ ha => exact hput _ _ ha.files (hr existing hmem)
  | fresh processed enc id now _ _ hw =>
    refine hput _ _ hw.files ?_
    rw [freshFile_filePath, target_eq]
    exact hu.2.2.1

/-- For each bucket and key: uploads and bucket creation are contained in every state
exactly when the strings stay inside, and a removal is contained exactly when the string
leads inside and so do the bucket's rows; an upload that stays inside leaves rows inside. -/
theorem contained_iff (sm : StorageManager) (b k : String) :
    ((∀ w content ct opts, BaseReady sm w →
        (sm.storeFile b k content ct opts).Throughout (exec sm.host) (ObjectContained sm b) w) ↔
      UploadStays sm b k) ∧
    ((∀ w, BaseReady sm w →
        (sm.createBucket b).Throughout (exec sm.host) (BaseContained sm) w) ↔ BucketStays sm b) ∧
    (∀ w, (sm.deleteBucket b).Throughout (exec sm.host) (BaseContained sm) w ↔
      (b ∈ w.db.buckets → Inside (basePlace sm) (leads (basePlace sm) b) ∧
        ∀ f ∈ w.db.files, f.bucket = b → Inside (basePlace sm) (sm.host.target f.filePath))) ∧
    (UploadStays sm b k → ∀ w content ct opts x w', RowsInside sm w →
      (sm.storeFile b k content ct opts).Runs (exec sm.host) w x w' → RowsInside sm w') := by
  refine ⟨⟨fun h => ?_, fun hu w content ct opts hready => storeFile_contained hready hu⟩,
    ⟨fun h => createBucket_only_if (h _ (bare_ready [])), fun hb w hready => ?_⟩,
    fun w => deleteBucket_contained, fun hu w content ct opts x w' hr hrun => hr.stored hu hrun⟩
  · exact storeFile_only_if fun w hready => h w [120] none plainOptions hready
  · exact createBucket_contained (fun _ u hnone => hnone.base u)
      fun l hl => createBucket_step hready hb hl

/-! ## A file name that climbs -/

open Sample (manager)

/-- The store right after its start, and an upload whose file name climbs out of it. -/
def escape : Result StoredFile × World :=
  (manager.storeFile "a" "../../etc/cron.d/x" [120] none {}).eval (exec manager.host)
    { uuid := 1 } (bare manager [])

/-- The upload succeeds and writes outside the base path. -/
theorem climbing_name_escapes :
    BaseReady manager (bare manager []) ∧ escape.1.isOk = true ∧
      escape.2.fs.fileAt (manager.host.target "/etc/cron.d/x") = some [120] ∧
      ¬ Inside (basePlace manager) (manager.host.target "/etc/cron.d/x") ∧
      ¬ ∀ w content ct opts, BaseReady manager w →
        (manager.storeFile "a" "../../etc/cron.d/x" content ct opts).Throughout
          (exec manager.host) (ObjectContained manager "a") w := by
  refine ⟨bare_ready [], by decide, by decide, by decide, fun h => ?_⟩
  have hstays := storeFile_only_if fun w hready => h w [120] none plainOptions hready
  exact absurd hstays (by decide)

end LocalStorage.Proofs.Containment
