import LocalStorage.Proofs.Upload

namespace LocalStorage
open Lib Lib.Paths

namespace StorageManager

variable {h : Host} {b k : String} {w w' : World}

/-- The row is gone, its bytes with it when no other row has the same path string, and
both cache entries are dropped. -/
structure Deleted (h : Host) (b k : String) (file : StoredFile) (w w' : World) : Prop where
  row : w.db.files.find (b, k) = some file
  files : w'.db.files = w.db.files.erase (b, k)
  keys : w'.db.encryptionKeys = w.db.encryptionKeys
  cache : w'.cache = w.cache.invalidateFile b k
  disk : (∀ l, w'.fs.fileAt l = w.fs.fileAt l) ∨
    (∀ f ∈ w.db.files, f.filePath = file.filePath → f.ident = (b, k)) ∧
      ∀ l, w'.fs.fileAt l = if l = h.target file.filePath then none else w.fs.fileAt l
  clock : w'.now = w.now

theorem deleteFile_spec :
    (deleteFile b k).Ensures (exec h) (fun x t => match x with
      | .ok _ => ∃ file, Deleted h b k file w t
      | .error _ => t = w) w := by
  simp only [deleteFile, step_eq, Prog.bind_eq, Prog.act_bind, Prog.ret_bind, Prog.pure_eq]
  refine ensures_selectFilePath (by simp) ?_
  cases hrow : w.db.files.find (b, k) with
  | none => simp [Database.selectFile, hrow]
  | some file =>
    simp only [Database.selectFile, hrow, Option.map_some]
    refine ensures_countOtherReferences (by simp) ?_
    refine ensures_deleteFileRow (by simp) fun db hdb => ?_
    obtain ⟨hf, -, hk⟩ := Database.deleteFileRow_ok hdb
    split
    · rename_i hzero
      apply ensures_removeFile
      · simp only [ensures_invalidateFile, Prog.ensures_ret]
        exact ⟨file, hrow, hf, hk, rfl, .inl fun _ => rfl, rfl⟩
      · simp only [ensures_invalidateFile, Prog.ensures_ret]
        refine ⟨file, hrow, hf, hk, rfl, .inr ⟨Database.countOtherReferences_eq_zero.mp hzero, ?_⟩, rfl⟩
        intro l
        split
        · rename_i hl
          subst hl
          exact FileTree.fileAt_erase_self
        · rename_i hl
          exact FileTree.fileAt_erase_ne hl
    · simp only [ensures_invalidateFile, Prog.ensures_ret]
      exact ⟨file, hrow, hf, hk, rfl, .inl fun _ => rfl, rfl⟩

/-! ## Buckets -/

/-- The directory that goes with a bucket. -/
def bucketDir (sm : StorageManager) (b : String) : Loc :=
  sm.host.target (join sm.config.storage.path b)

/-- The clean-up drops the cache entries of every listed file and may unlink any of them:
the count that would keep a shared one can fail. -/
structure Cleaned (h : Host) (b : String) (files : List (String × String)) (w w' : World) : Prop where
  db : w'.db = w.db
  cache : w'.cache = w.cache.invalidateFiles b (files.map Prod.fst)
  dirs : ∀ l, w'.fs.isDir l = true → w.fs.isDir l = true
  disk : ∀ l, w'.fs.fileAt l = w.fs.fileAt l ∨
    w'.fs.fileAt l = none ∧ ∃ f ∈ files, l = h.target f.2
  clock : w'.now = w.now

theorem Cleaned.next {f : String × String} {files : List (String × String)} {u : World}
    (hc : Cleaned h b files { u with cache := u.cache.invalidateFile b f.1 } w')
    (hu : u = w ∨ u = { w with fs := w.fs.erase (h.target f.2) }) :
    Cleaned h b (f :: files) w w' := by
  have hdisk : ∀ l, u.fs.fileAt l = w.fs.fileAt l ∨
      u.fs.fileAt l = none ∧ l = h.target f.2 := by
    intro l
    rcases hu with rfl | rfl
    · exact .inl rfl
    · by_cases hl : l = h.target f.2
      · subst hl
        exact .inr ⟨FileTree.fileAt_erase_self, rfl⟩
      · exact .inl (FileTree.fileAt_erase_ne hl)
  have hdirs : ∀ l, u.fs.isDir l = true → w.fs.isDir l = true := by
    intro l hl
    rcases hu with rfl | rfl
    · exact hl
    · exact FileTree.isDir_erase hl
  have hrest : u.db = w.db ∧ u.cache = w.cache ∧ u.now = w.now := by
    rcases hu with rfl | rfl <;> exact ⟨rfl, rfl, rfl⟩
  obtain ⟨hdb, hcache, hnow⟩ := hrest
  refine ⟨hc.db.trans hdb, ?_, fun l hl => hdirs l (hc.dirs l hl), fun l => ?_, hc.clock.trans hnow⟩
  · rw [hc.cache, hcache]
    rfl
  · rcases hc.disk l with hsame | ⟨hnone, g, hg, hl⟩
    · rcases hdisk l with hu' | ⟨hu', hl⟩
      · exact .inl (hsame.trans hu')
      · exact .inr ⟨hsame.trans hu', f, by simp, hl⟩
    · exact .inr ⟨hnone, g, by simp [hg], hl⟩

theorem cleanFiles_spec {files : List (String × String)} :
    (cleanFiles b files).Ensures (exec h) (fun x t => x = .ok () ∧ Cleaned h b files w t) w := by
  induction files generalizing w with
  | nil =>
    simp only [cleanFiles, Prog.pure_eq, Prog.ensures_ret, true_and]
    exact ⟨rfl, rfl, fun _ hl => hl, fun _ => .inl rfl, rfl⟩
  | cons f files ih =>
    obtain ⟨k, path⟩ := f
    simp only [cleanFiles, step_eq, Prog.bind_eq, Prog.act_bind, Prog.ret_bind]
    have hnext : ∀ u : World, u = w ∨ u = { w with fs := w.fs.erase (h.target path) } →
        (Prog.act (.invalidateFile b k) fun _ => cleanFiles b files).Ensures (exec h)
          (fun x t => x = .ok () ∧ Cleaned h b ((k, path) :: files) w t) u := by
      intro u hu
      rw [ensures_invalidateFile]
      exact ih.mono fun x t hx => ⟨hx.1, hx.2.next hu⟩
    have hboth : ∀ n : Query Nat,
        (if n.toOption.getD 0 = 0 then
          Prog.act (.removeFile path) fun _ =>
            Prog.act (.invalidateFile b k) fun _ => cleanFiles b files
        else Prog.act (.invalidateFile b k) fun _ => cleanFiles b files).Ensures (exec h)
          (fun x t => x = .ok () ∧ Cleaned h b ((k, path) :: files) w t) w := by
      intro n
      split
      · exact ensures_removeFile (hnext w (.inl rfl)) (hnext _ (.inr rfl))
      · exact hnext w (.inl rfl)
    exact ensures_countReferences (hboth _) fun e => hboth _

/-- The rows of the bucket are gone with their cache entries. Bytes can be lost where such
a row had its file, and anywhere below the bucket's directory. -/
structure BucketDeleted (sm : StorageManager) (b : String) (w w' : World) : Prop where
  bucket : b ∈ w.db.buckets
  files : w'.db.files = w.db.files.filter (fun f => f.bucket ≠ b)
  keys : w'.db.encryptionKeys = w.db.encryptionKeys
  cache : ∃ ks, (∀ k, k ∈ ks ↔ ∃ f ∈ w.db.files, f.ident = (b, k)) ∧
    w'.cache = w.cache.invalidateFiles b ks
  disk : ∀ l, w'.fs.fileAt l = w.fs.fileAt l ∨ w'.fs.fileAt l = none ∧
    ((∃ f ∈ w.db.files, f.bucket = b ∧ l = sm.host.target f.filePath) ∨
      w.fs.isDir (bucketDir sm b) = true ∧ bucketDir sm b <+: l)
  clock : w'.now = w.now

theorem deleteBucket_spec {sm : StorageManager} :
    (sm.deleteBucket b).Ensures (exec sm.host) (fun x t => match x with
      | .ok _ => BucketDeleted sm b w t
      | .error _ => t = w) w := by
  simp only [deleteBucket, step_eq, Prog.bind_eq, Prog.act_bind, Prog.ret_bind, Prog.pure_eq]
  refine ensures_selectBucketFiles (by simp) fun rank => ?_
  refine ensures_deleteBucketRow (by simp) (by simp) fun db hdb => ?_
  obtain ⟨hb, hf, hk⟩ := Database.deleteBucketRow_some hdb
  simp only [Nat.one_ne_zero, ↓reduceIte]
  rw [Prog.ensures_bind]
  refine cleanFiles_spec.mono fun x u hx => ?_
  obtain ⟨rfl, hu⟩ := hx
  have hlost : ∀ fs : FileTree Name Bytes,
      (∀ l, fs.fileAt l = u.fs.fileAt l ∨ fs.fileAt l = none ∧
        (u.fs.isDir (bucketDir sm b) = true ∧ bucketDir sm b <+: l)) →
      BucketDeleted sm b w { u with fs := fs } := by
    intro fs hfs
    refine ⟨hb, by rw [hu.db, hf], by rw [hu.db, hk],
      ⟨_, fun k => Database.key_mem_selectBucketFiles, hu.cache⟩, fun l => ?_, hu.clock⟩
    rcases hfs l with hsame | ⟨hnone, hdir, hl⟩
    · rcases hu.disk l with hsame' | ⟨hnone, ⟨k, path⟩, hmem, hl⟩
      · exact .inl (hsame.trans hsame')
      · obtain ⟨f, hf, hbf, -, rfl⟩ := Database.mem_selectBucketFiles.mp hmem
        exact .inr ⟨hsame.trans hnone, .inl ⟨f, hf, hbf, hl⟩⟩
    · exact .inr ⟨hnone, .inr ⟨hu.dirs _ hdir, hl⟩⟩
  apply ensures_removeDirAll
  · simpa using hlost u.fs fun l => .inl rfl
  · intro hdir gone
    rw [Prog.ensures_ret]
    apply hlost
    intro l
    by_cases hl : bucketDir sm b <+: l ∧ gone l = true
    · exact .inr ⟨FileTree.fileAt_prune_of hl.1 hl.2, hdir, hl.1⟩
    · exact .inl (FileTree.fileAt_prune_of_not hl)

end StorageManager

end LocalStorage
