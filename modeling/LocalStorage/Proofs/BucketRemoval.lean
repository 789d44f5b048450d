import LocalStorage.Proofs.Deletion
import LocalStorage.Proofs.Reading
import LocalStorage.Sample

namespace LocalStorage.Proofs.BucketRemoval
open Lib Lib.Paths StorageManager

variable {sm : StorageManager} {w w' : World} {b : String}

/-- Every row's path holds a file. -/
def RowsOnDisk (sm : StorageManager) (w : World) : Prop :=
  ∀ f ∈ w.db.files.rows, (w.bytesAt sm.host f.filePath).isSome = true

instance (sm : StorageManager) (w : World) : Decidable (RowsOnDisk sm w) :=
  inferInstanceAs (Decidable (∀ f ∈ w.db.files.rows, _))

/-- Rows and bytes of every other bucket are as before, and a read of one answers as
before unless its cache entry was already wrong. -/
structure OthersKept (sm : StorageManager) (b : String) (w w' : World) : Prop where
  rows : ∀ f, f.bucket ≠ b → (f ∈ w'.db.files ↔ f ∈ w.db.files)
  bytes : ∀ f ∈ w.db.files, f.bucket ≠ b →
    w'.bytesAt sm.host f.filePath = w.bytesAt sm.host f.filePath
  reads : ∀ b' k t, b' ≠ b → Coherent sm.host w b' k →
    served sm { w' with now := t } b' k = served sm { w with now := t } b' k

/-- No row of another bucket has its file below the bucket's directory. -/
def OutsideDir (sm : StorageManager) (b : String) (w : World) : Prop :=
  w.fs.isDir (bucketDir sm b) = true →
    ∀ g ∈ w.db.files.rows, g.bucket ≠ b → ¬ bucketDir sm b <+: sm.host.target g.filePath

/-- Where a row of another bucket has its file at the place of a row of `b`, the latter's
path is also that of a row of another bucket, unless the counts are lost: then there is no
such place at all. -/
def SharedKept (sm : StorageManager) (lost : Bool) (b : String) (w : World) : Prop :=
  ∀ f ∈ w.db.files.rows, f.bucket = b → ∀ g ∈ w.db.files.rows, g.bucket ≠ b →
    sm.host.target g.filePath = sm.host.target f.filePath →
      lost = false ∧ ∃ g' ∈ w.db.files.rows, g'.bucket ≠ b ∧ g'.filePath = f.filePath

instance (sm : StorageManager) (b : String) (w : World) : Decidable (OutsideDir sm b w) :=
  inferInstanceAs (Decidable (_ → ∀ g ∈ w.db.files.rows, _))

instance (sm : StorageManager) (lost : Bool) (b : String) (w : World) :
    Decidable (SharedKept sm lost b w) :=
  inferInstanceAs (Decidable (∀ f ∈ w.db.files.rows, _ → ∀ g ∈ w.db.files.rows, _))

theorem OthersKept.of_deleted (hd : BucketDeleted sm b w w')
    (hdisk : ∀ g ∈ w.db.files, g.bucket ≠ b →
      w'.fs.fileAt (sm.host.target g.filePath) = w.fs.fileAt (sm.host.target g.filePath)) :
    OthersKept sm b w w' := by
  have hrows : ∀ f, f.bucket ≠ b → (f ∈ w'.db.files ↔ f ∈ w.db.files) := by
    intro f hf
    rw [hd.files, Table.mem_filter]
    simp [hf]
  have hbytes : ∀ f ∈ w.db.files, f.bucket ≠ b →
      w'.bytesAt sm.host f.filePath = w.bytesAt sm.host f.filePath :=
    fun f hf hb => World.bytesAt_congr (hdisk f hf hb)
  refine ⟨hrows, hbytes, fun b' k t hb' hc => ?_⟩
  have hfind : w'.db.files.find (b', k) = w.db.files.find (b', k) := by
    apply Table.find_congr
    intro f hf
    exact hrows f (by rw [show f.bucket = b' from congrArg Prod.fst hf]; exact hb')
  have hrow : ∀ g, w.db.files.find (b', k) = some g →
      w'.bytesAt sm.host g.filePath = w.bytesAt sm.host g.filePath := by
    intro g hg
    have hident : g.bucket = b' := congrArg Prod.fst (Table.find_key hg)
    exact hbytes g (Table.find_mem hg) (hident ▸ hb')
  obtain ⟨ks, -, hcache⟩ := hd.cache
  have hc' : Coherent sm.host w' b' k := by
    refine ⟨fun f hf => ?_, fun x hx => ?_⟩
    · rw [hcache, Cache.getFileMetadata_invalidateFiles] at hf
      split at hf
      · simp at hf
      · obtain ⟨g, hg, hfg⟩ := hc.metadata f hf
        exact ⟨g, hfind.trans hg, hfg⟩
    · rw [hcache, Cache.getFileContent_invalidateFiles] at hx
      split at hx
      · simp at hx
      · obtain ⟨g, hg, hgx⟩ := hc.content x hx
        exact ⟨g, hfind.trans hg, (hrow g hg).trans hgx⟩
  have ht : Coherent sm.host { w with now := t } b' k := ⟨hc.metadata, hc.content⟩
  have ht' : Coherent sm.host { w' with now := t } b' k := ⟨hc'.metadata, hc'.content⟩
  exact ht.served_congr ht' (by simp only [hfind]) hrow (selectKey_congr hd.keys) rfl

/-! ## Calls in which nothing fails -/

/-- The steps when nothing fails but, if `lost` is set, the counting of references. -/
def execQuiet (h : Host) (lost : Bool) (c : {c : Choice // c.fault = none}) :
    (a : Action) → World → Response a × World
  | .countReferences path, w =>
    if lost then (.error (.other "pool timed out while waiting for an open connection"), w)
    else exec h c.1 (.countReferences path) w
  | a, w => exec h c.1 a w

theorem execQuiet_exec (h : Host) (lost : Bool) (c : {c : Choice // c.fault = none}) (a : Action)
    (w : World) : ∃ c', exec h c' a w = execQuiet h lost c a w := by
  cases a with
  | countReferences path =>
    cases lost with
    | false => exact ⟨c.1, rfl⟩
    | true =>
      exact ⟨{ fault := some ⟨none, "pool timed out while waiting for an open connection"⟩ }, rfl⟩
  | _ => exact ⟨c.1, rfl⟩

/-- A path the clean-up unlinks when nothing fails. -/
def Unlinked (lost : Bool) (db : Database) (path : String) : Prop :=
  lost = true ∨ db.countReferences path = 0

theorem quiet_count {h : Host} {lost : Bool} {path : String} (c : {c : Choice // c.fault = none}) :
    ∃ r : Query Nat, execQuiet h lost c (.countReferences path) w = (r, w) ∧
      (r.toOption.getD 0 = 0 ↔ Unlinked lost w.db path) := by
  cases lost with
  | true => exact ⟨_, rfl, by simp [Unlinked, Except.toOption]⟩
  | false =>
    refine ⟨.ok (w.db.countReferences path), ?_, by simp [Unlinked, Except.toOption]⟩
    simp [execQuiet, exec, answer, c.2]

/-- The table and the directories are as before; the disk has lost at most the listed
files, and all of those that are to be unlinked. -/
structure QuietlyCleaned (h : Host) (lost : Bool) (files : List (String × String))
    (w w' : World) : Prop where
  db : w'.db = w.db
  dirs : ∀ l, w'.fs.isDir l = w.fs.isDir l
  gone : ∀ f ∈ files, Unlinked lost w.db f.2 → namesFile f.2 = true →
    w'.fs.fileAt (h.target f.2) = none
  kept : ∀ l, w'.fs.fileAt l = w.fs.fileAt l ∨ w'.fs.fileAt l = none ∧
    ∃ f ∈ files, Unlinked lost w.db f.2 ∧ l = h.target f.2

theorem quiet_remove {h : Host} {lost : Bool} {k path : String}
    (c : {c : Choice // c.fault = none}) (hu : Unlinked lost w.db path) :
    QuietlyCleaned h lost [(k, path)] w (execQuiet h lost c (.removeFile path) w).2 := by
  simp only [execQuiet, exec, execRemoveFile, c.2]
  cases hl : lookup h path w with
  | error e =>
    refine ⟨rfl, fun _ => rfl, ?_, fun _ => .inl rfl⟩
    simp only [List.mem_singleton, forall_eq]
    intro _ hn
    cases hf : w.fs.fileAt (h.target path) with
    | none => rfl
    | some x =>
      have hb : w.bytesAt h path = some x := by rw [World.bytesAt, if_pos hn, hf]
      simp [lookup_eq_ok.mpr hb] at hl
  | ok x =>
    have hb := lookup_eq_ok.mp hl
    have hfile : (w.fs.fileAt (h.target path)).isSome = true := by
      unfold World.bytesAt at hb
      split at hb
      · simp [hb]
      · simp at hb
    refine ⟨rfl, fun l => FileTree.isDir_erase_file hfile, ?_, fun l => ?_⟩
    · simp only [List.mem_singleton, forall_eq]
      exact fun _ _ => FileTree.fileAt_erase_self
    · by_cases hl : l = h.target path
      · subst hl
        exact .inr ⟨FileTree.fileAt_erase_self, (k, path), by simp, hu, rfl⟩
      · exact .inl (FileTree.fileAt_erase_ne hl)

theorem QuietlyCleaned.next {h : Host} {lost : Bool} {f : String × String}
    {files : List (String × String)} {u : World} (hf : QuietlyCleaned h lost [f] w u)
    (hc : QuietlyCleaned h lost files u w') : QuietlyCleaned h lost (f :: files) w w' := by
  refine ⟨hc.db.trans hf.db, fun l => (hc.dirs l).trans (hf.dirs l), fun g hg hu hn => ?_,
    fun l => ?_⟩
  · rcases List.mem_cons.mp hg with rfl | hg
    · have hnone := hf.gone g (by simp) hu hn
      rcases hc.kept (h.target g.2) with hsame | ⟨hgone, -⟩
      · exact hsame.trans hnone
      · exact hgone
    · exact hc.gone g hg (hf.db ▸ hu) hn
  · rcases hc.kept l with hsame | ⟨hnone, g, hg, hu, hl⟩
    · rcases hf.kept l with hsame' | ⟨hnone, g, hg, hu, hl⟩
      · exact .inl (hsame.trans hsame')
      · exact .inr ⟨hsame.trans hnone, g, by simp [List.mem_singleton.mp hg], hu, hl⟩
    · exact .inr ⟨hnone, g, by simp [hg], hf.db ▸ hu, hl⟩

theorem cleanFiles_quiet {h : Host} {lost : Bool} {files : List (String × String)} :
    (cleanFiles b files).Ensures (execQuiet h lost)
      (fun x t => x = .ok () ∧ QuietlyCleaned h lost files w t) w := by
  induction files generalizing w with
  | nil =>
    simp only [cleanFiles, Prog.pure_eq, Prog.ensures_ret, true_and]
    exact ⟨rfl, fun _ => rfl, by simp, fun _ => .inl rfl⟩
  | cons f files ih =>
    obtain ⟨k, path⟩ := f
    simp only [cleanFiles, step_eq, Prog.bind_eq, Prog.act_bind, Prog.ret_bind]
    refine Prog.ensures_act.mpr fun c => ?_
    obtain ⟨r, hr, hzero⟩ : ∃ r : Query Nat, execQuiet h lost c (.countReferences path) w = (r, w) ∧
        (r.toOption.getD 0 = 0 ↔ Unlinked lost w.db path) := quiet_count c
    rw [hr]
    have hnext : ∀ u : World, QuietlyCleaned h lost [(k, path)] w u →
        (Prog.act (.invalidateFile b k) fun _ => cleanFiles b files).Ensures (execQuiet h lost)
          (fun x t => x = .ok () ∧ QuietlyCleaned h lost ((k, path) :: files) w t) u := by
      intro u hu
      refine Prog.ensures_act.mpr fun c => ih.mono fun x t hx => ⟨hx.1, hu.next ?_⟩
      exact ⟨hx.2.db, hx.2.dirs, hx.2.gone, hx.2.kept⟩
    split
    · rename_i hcount
      exact Prog.ensures_act.mpr fun c => hnext _ (quiet_remove c (hzero.mp hcount))
    · rename_i hcount
      refine hnext w ⟨rfl, fun _ => rfl, ?_, fun _ => .inl rfl⟩
      simp only [List.mem_singleton, forall_eq]
      exact fun hu => absurd (hzero.mpr hu) hcount

/-- No row of another bucket has the path, or the counts that would tell are lost. -/
def Released (lost : Bool) (b : String) (w : World) (path : String) : Prop :=
  lost = true ∨ ∀ g ∈ w.db.files, g.bucket ≠ b → g.filePath ≠ path

theorem unlinked_iff {lost : Bool} {db : Database} {path : String}
    (hf : db.files = w.db.files.filter (fun f => f.bucket ≠ b)) :
    Unlinked lost db path ↔ Released lost b w path := by
  simp [Unlinked, Released, Database.countReferences_eq_zero, hf]

structure QuietlyDeleted (sm : StorageManager) (lost : Bool) (b : String) (w w' : World) : Prop where
  gone : ∀ f ∈ w.db.files, f.bucket = b → Released lost b w f.filePath →
    namesFile f.filePath = true → w'.fs.fileAt (sm.host.target f.filePath) = none
  pruned : w.fs.isDir (bucketDir sm b) = true → ∀ l, bucketDir sm b <+: l → w'.fs.fileAt l = none
  kept : ∀ l, w'.fs.fileAt l = w.fs.fileAt l ∨ w'.fs.fileAt l = none ∧
    ((∃ f ∈ w.db.files, f.bucket = b ∧ Released lost b w f.filePath ∧
        l = sm.host.target f.filePath) ∨
      w.fs.isDir (bucketDir sm b) = true ∧ bucketDir sm b <+: l)

theorem quiet_removeDirAll {h : Host} {lost : Bool} {path : String}
    (c : {c : Choice // c.fault = none}) :
    (execQuiet h lost c (.removeDirAll path) w).2.fs =
      if w.fs.isDir (h.target path) then w.fs.prune (h.target path) (fun _ => true) else w.fs := by
  simp only [execQuiet, exec, execRemoveDirAll, c.2]
  cases hn : w.fs.node (h.target path) with
  | none => simp [FileTree.isDir, hn]
  | some n => cases n <;> simp [FileTree.isDir, hn]

theorem deleteBucket_quiet {lost : Bool} (hb : b ∈ w.db.buckets) :
    (sm.deleteBucket b).Ensures (execQuiet sm.host lost)
      (fun x t => x = .ok () ∧ QuietlyDeleted sm lost b w t) w := by
  simp only [deleteBucket, step_eq, Prog.bind_eq, Prog.act_bind, Prog.ret_bind, Prog.pure_eq]
  refine Prog.ensures_act.mpr fun c => ?_
  simp only [execQuiet, exec, answer, c.2, ofSqlx_ok, Prog.ret_bind]
  refine Prog.ensures_act.mpr fun d => ?_
  obtain ⟨db, hdb⟩ : ∃ db, w.db.deleteBucketRow b = some db := by
    simp [Database.deleteBucketRow, hb]
  obtain ⟨-, hf, -⟩ := Database.deleteBucketRow_some hdb
  simp only [execQuiet, exec, d.2, hdb, ofSqlx_ok, Prog.ret_bind, Nat.one_ne_zero, ↓reduceIte]
  rw [Prog.ensures_bind]
  refine cleanFiles_quiet.mono fun x u hx => ?_
  obtain ⟨rfl, hu⟩ := hx
  refine Prog.ensures_act.mpr fun e => ?_
  have hgone : ∀ f ∈ w.db.files, f.bucket = b → Released lost b w f.filePath →
      namesFile f.filePath = true → u.fs.fileAt (sm.host.target f.filePath) = none := by
    intro f hmem hfb hrel hn
    exact hu.gone (f.key, f.filePath) (Database.mem_selectBucketFiles.mpr ⟨f, hmem, hfb, rfl, rfl⟩)
      ((unlinked_iff hf).mpr hrel) hn
  have hkept : ∀ l, u.fs.fileAt l = w.fs.fileAt l ∨ u.fs.fileAt l = none ∧
      ∃ f ∈ w.db.files, f.bucket = b ∧ Released lost b w f.filePath ∧
        l = sm.host.target f.filePath := by
    intro l
    rcases hu.kept l with hsame | ⟨hnone, ⟨k, path⟩, hmem, hun, hl⟩
    · exact .inl hsame
    · obtain ⟨f, hfm, hfb, -, rfl⟩ := Database.mem_selectBucketFiles.mp hmem
      exact .inr ⟨hnone, f, hfm, hfb, (unlinked_iff hf).mp hun, hl⟩
  have hdir : u.fs.isDir (bucketDir sm b) = w.fs.isDir (bucketDir sm b) := hu.dirs _
  have hfs : (execQuiet sm.host lost e (.removeDirAll (join sm.config.storage.path b)) u).2.fs =
      if w.fs.isDir (bucketDir sm b) then u.fs.prune (bucketDir sm b) (fun _ => true) else u.fs := by
    rw [← hdir]
    exact quiet_removeDirAll e
  simp only [Prog.ensures_ret, true_and]
  refine ⟨fun f hmem hfb hrel hn => ?_, fun hd l hl => ?_, fun l => ?_⟩
  · rw [hfs]
    split
    · by_cases hl : bucketDir sm b <+: sm.host.target f.filePath
      · exact FileTree.fileAt_prune_of hl rfl
      · rw [FileTree.fileAt_prune_of_not (fun h => hl h.1), hgone f hmem hfb hrel hn]
    · exact hgone f hmem hfb hrel hn
  · rw [hfs, if_pos hd]
    exact FileTree.fileAt_prune_of hl rfl
  · rw [hfs]
    by_cases hl : w.fs.isDir (bucketDir sm b) = true ∧ bucketDir sm b <+: l
    · rw [if_pos hl.1]
      exact .inr ⟨FileTree.fileAt_prune_of hl.2 rfl, .inr hl⟩
    · have hsame : (if w.fs.isDir (bucketDir sm b) then
          u.fs.prune (bucketDir sm b) (fun _ => true) else u.fs).fileAt l = u.fs.fileAt l := by
        split
        · rename_i hd
          exact FileTree.fileAt_prune_of_not fun h => hl ⟨hd, h.1⟩
        · rfl
      rw [hsame]
      exact (hkept l).imp_right fun h => ⟨h.1, .inl h.2⟩

/-! ## When the other buckets are kept -/

/-- A row of another bucket whose bytes the removal takes. -/
theorem OthersKept.not_lost (hk : OthersKept sm b w w') (hdisk : RowsOnDisk sm w) {g : StoredFile}
    (hg : g ∈ w.db.files) (hgb : g.bucket ≠ b)
    (hgone : w'.fs.fileAt (sm.host.target g.filePath) = none) : False := by
  have hbefore := hdisk g hg
  rw [← hk.bytes g hg hgb] at hbefore
  simp [World.bytesAt, hgone] at hbefore

theorem quiet_only_if {lost : Bool} (hdisk : RowsOnDisk sm w) (hb : b ∈ w.db.buckets)
    (hkeep : ∀ w', (sm.deleteBucket b).Runs (execQuiet sm.host lost) w (.ok ()) w' →
      OthersKept sm b w w') : OutsideDir sm b w ∧ SharedKept sm lost b w := by
  obtain ⟨x, w', hrun⟩ : ∃ x w', (sm.deleteBucket b).Runs (execQuiet sm.host lost) w x w' :=
    ⟨_, _, Prog.eval_runs ⟨calm, rfl⟩ _ _⟩
  obtain ⟨rfl, hd⟩ := deleteBucket_quiet hb _ _ hrun
  have hk := hkeep _ hrun
  refine ⟨fun hdir g hg hgb hl => ?_, fun f hf hfb g hg hgb hplace => ?_⟩
  · exact hk.not_lost hdisk hg hgb (hd.pruned hdir _ hl)
  · have hn : namesFile f.filePath = true := by
      have hbytes := hdisk f hf
      unfold World.bytesAt at hbytes
      split at hbytes
      · assumption
      · simp at hbytes
    have hrel : ¬ Released lost b w f.filePath := by
      intro hrel
      exact hk.not_lost hdisk hg hgb (by rw [hplace]; exact hd.gone f hf hfb hrel hn)
    unfold Released at hrel
    rw [not_or, Bool.not_eq_true] at hrel
    refine ⟨hrel.1, ?_⟩
    simpa [Table.mem_def] using hrel.2

theorem kept_if {lost : Bool} (hd : BucketDeleted sm b w w')
    (hkept : ∀ l, w'.fs.fileAt l = w.fs.fileAt l ∨ w'.fs.fileAt l = none ∧
      ((∃ f ∈ w.db.files, f.bucket = b ∧ Released lost b w f.filePath ∧
          l = sm.host.target f.filePath) ∨
        w.fs.isDir (bucketDir sm b) = true ∧ bucketDir sm b <+: l))
    (hout : OutsideDir sm b w) (hshare : SharedKept sm lost b w) : OthersKept sm b w w' := by
  refine .of_deleted hd fun g hg hgb => ?_
  rcases hkept (sm.host.target g.filePath) with hsame | ⟨-, ⟨f, hf, hfb, hrel, hl⟩ | ⟨hdir, hl⟩⟩
  · exact hsame
  · obtain ⟨hlost, g', hg', hgb', hpath⟩ := hshare f hf hfb g hg hgb hl
    rcases hrel with hrel | hrel
    · exact absurd hrel (by simp [hlost])
    · exact absurd hpath (hrel g' hg' hgb')
  · exact absurd hl (hout hdir g hg hgb)

open Sample (manager)

/-- One upload to each of two buckets, of the content the bytes give. -/
def twoUploads (x y : UInt8) : List (Event × Choice) :=
  [(.storeFile "a" "k1" [x] none {} (.error (.io "")), { uuid := 1 }),
   (.storeFile "b" "k2" [y] none {} (.error (.io "")), { uuid := 2 })]

def twoBuckets (x y : UInt8) : World := (replay manager (twoUploads x y) ([], World.empty)).2

def removal (w : World) : Result Unit × World :=
  (manager.deleteBucket "a").eval (exec manager.host) calm w

theorem removal_runs {w : World} (h : (removal w).1 = .ok ()) :
    (manager.deleteBucket "a").Runs (exec manager.host) w (.ok ()) (removal w).2 :=
  h ▸ Prog.eval_runs _ _ _

end LocalStorage.Proofs.BucketRemoval
