import LocalStorage.Lib.Rely
import LocalStorage.Proofs.RequestKeys
import LocalStorage.Proofs.ServerRuns

namespace LocalStorage.Proofs.Isolation
open Lib StorageManager Service

/-! # What requests for other objects leave alone -/

/-- A new object and how it is asked to be stored. -/
structure Upload where
  bucket : String
  key : String
  content : Bytes
  contentType : Option String
  opts : StoreOptions

def Upload.ident (up : Upload) : String × String := (up.bucket, up.key)

/-- Where the bytes of the object go. -/
def home (sm : StorageManager) (up : Upload) : String := sm.getFilePath up.bucket up.key

/-- A row of the object does not expire; one of another object has other bytes. -/
structure Tidy (sm : StorageManager) (up : Upload) (f : StoredFile) : Prop where
  own : f.ident = up.ident → f.expiresAt = none ∧ f.hashBlake3 = sm.lib.blake3 up.content
  other : f.ident ≠ up.ident → sm.host.target f.filePath ≠ sm.host.target (home sm up) ∧
    (sm.config.storage.enableDeduplication = true → f.hashBlake3 ≠ sm.lib.blake3 up.content)

def AllTidy (sm : StorageManager) (up : Upload) (w : World) : Prop := ∀ f ∈ w.db.files, Tidy sm up f

/-- The object is as it was, but for cache entries that are gone. -/
structure Untouched (sm : StorageManager) (up : Upload) (w w' : World) : Prop where
  row : (w'.db.files.find up.ident).map recipe = (w.db.files.find up.ident).map recipe
  disk : w'.bytesAt sm.host (home sm up) = w.bytesAt sm.host (home sm up)
  metadata : w'.cache.getFileMetadata up.bucket up.key = none ∨
    w'.cache.getFileMetadata up.bucket up.key = w.cache.getFileMetadata up.bucket up.key
  content : w'.cache.getFileContent up.bucket up.key = none ∨
    w'.cache.getFileContent up.bucket up.key = w.cache.getFileContent up.bucket up.key
  key : ∀ id, up.opts.encryptionKeyId = some id → ∀ key, w.db.selectKey id = some key →
    w'.db.selectKey id = some key

variable {sm : StorageManager} {app : App} {up : Upload} {w w' u : World} {b k : String}
  {file : StoredFile}

theorem Untouched.refl (w : World) : Untouched sm up w w :=
  ⟨rfl, rfl, .inr rfl, .inr rfl, fun _ _ _ h => h⟩

theorem gone_or_same {α : Type} {x y z : Option α} (h : y = none ∨ y = x) (h' : z = none ∨ z = y) :
    z = none ∨ z = x := by
  obtain rfl | rfl := h'
  · exact .inl rfl
  · exact h

theorem Untouched.trans (h : Untouched sm up w w') (h' : Untouched sm up w' u) :
    Untouched sm up w u where
  row := h'.row.trans h.row
  disk := h'.disk.trans h.disk
  metadata := gone_or_same h.metadata h'.metadata
  content := gone_or_same h.content h'.content
  key id hid key hkey := h'.key id hid key (h.key id hid key hkey)

theorem Tidy.touched {id : Uuid} {now : Time} (h : Tidy sm up file) :
    Tidy sm up (Database.touch id now file) := by
  unfold Database.touch
  split
  · exact ⟨h.own, h.other⟩
  · exact h

theorem Tidy.merged {old : Option StoredFile} (h : Tidy sm up file) :
    Tidy sm up (Database.mergeRow old file) := by
  cases old <;> exact ⟨h.own, h.other⟩

/-! ## What the others hear and ask -/

/-- Answers that do not lead to the object. -/
def Heard (sm : StorageManager) (up : Upload) : (a : Action) → Response a → Prop
  | .selectFilePath b k, r => (b, k) ≠ up.ident → ∀ p, r = .ok (some p) →
    sm.host.target p ≠ sm.host.target (home sm up)
  | .selectFileByHash hash, r => hash ≠ sm.lib.blake3 up.content → ∀ f, r = .ok (some f) →
    sm.host.target f.filePath ≠ sm.host.target (home sm up)
  | .selectBucketFiles b, r => b ≠ up.bucket → ∀ files, r = .ok files → ∀ f ∈ files,
    sm.host.target f.2 ≠ sm.host.target (home sm up)
  | .selectExpired, r => ∀ files, r = .ok files → up.ident ∉ files
  | _, _ => True

/-- Actions that leave the object alone. -/
def Asked (sm : StorageManager) (up : Upload) : Action → Prop
  | .upsertFile f => f.ident ≠ up.ident ∧ Tidy sm up f
  | .deleteFileRow b k => (b, k) ≠ up.ident
  | .deleteBucketRow b => b ≠ up.bucket
  | .writeFileAtomic p _ => sm.host.target p ≠ sm.host.target (home sm up) ∧
    sm.host.temp p ≠ sm.host.target (home sm up)
  | .removeFile p => sm.host.target p ≠ sm.host.target (home sm up)
  | .removeDirAll p => ¬ sm.host.target p <+: sm.host.target (home sm up)
  | .setFileMetadata b k _ => ¬ Cache.SameSlot up.bucket up.key b k
  | .setFileContent b k _ => ¬ Cache.SameSlot up.bucket up.key b k
  | _ => True

theorem tidy_step {h : Host} {c : Choice} {a : Action} (hw : AllTidy sm up w)
    (ha : ∀ f, a = .upsertFile f → Tidy sm up f) : AllTidy sm up (exec h c a w).2 := by
  have ht : Takes (exec h) w ⟨a, (exec h c a w).1⟩ (exec h c a w).2 := ⟨c, rfl⟩
  refine takes_rows ht (fun _ _ _ hf => hf.touched) ?_ hw
  rintro f rfl
  exact (ha f rfl).merged

theorem tidy_asked {h : Host} {c : Choice} {a : Action} (hw : AllTidy sm up w)
    (ha : Asked sm up a) : AllTidy sm up (exec h c a w).2 := by
  refine tidy_step hw ?_
  rintro f rfl
  exact ha.2

theorem takes_writeFileAtomic_ne {h : Host} {p q : String} {x : Bytes} {r : Except IoError Unit}
    (ht : Takes (exec h) w ⟨.writeFileAtomic p x, r⟩ w') (htarget : h.target p ≠ h.target q)
    (htemp : h.temp p ≠ h.target q) : w'.bytesAt h q = w.bytesAt h q := by
  obtain ⟨c, hc⟩ := ht
  have hrun : (Prog.act (.writeFileAtomic p x) (fun r => (ofIo r).bind fun _ => .ret ()) :
      Op Unit).Runs (exec h) w (r.mapError StorageError.ofIo) w' := by
    refine ⟨c, ?_⟩
    rw [hc]
    cases r <;> exact ⟨rfl, rfl⟩
  have hwrite : (Prog.act (.writeFileAtomic p x) (fun r => (ofIo r).bind fun _ => .ret ()) :
      Op Unit).Ensures (exec h) (fun _ t => t.bytesAt h q = w.bytesAt h q) w := by
    apply ensures_writeFileAtomic
    · intro hn hp
      refine Prog.ensures_ret.mpr (World.bytesAt_congr ?_)
      rw [afterWrite, FileTree.fileAt_putFile_ne htarget.symm, FileTree.fileAt_erase_ne htemp.symm]
    · exact fun _ fs hfs => World.bytesAt_congr (hfs _ htemp.symm)
  exact hwrite _ _ hrun

theorem row_untouched {c : Choice} {a : Action} (ha : Asked sm up a) :
    ((exec sm.host c a w).2.db.files.find up.ident).map recipe =
      (w.db.files.find up.ident).map recipe := by
  have ht : Takes (exec sm.host) w ⟨a, (exec sm.host c a w).1⟩ (exec sm.host c a w).2 := ⟨c, rfl⟩
  cases a with
  | upsertFile f =>
    have hsame := takes_upsertFile_ne (b := up.bucket) (k := up.key) ht ha.1.symm
    exact congrArg (Option.map recipe) hsame
  | deleteFileRow b k =>
    have hsame := takes_deleteFileRow_ne (b := up.bucket) (k := up.key) ht (Ne.symm ha)
    exact congrArg (Option.map recipe) hsame
  | deleteBucketRow b =>
    obtain hdb | hdb := takes_db ht
    · rw [hdb]
    · rw [(Database.deleteBucketRow_some hdb).2.1]
      refine congrArg (Option.map recipe) (Table.find_filter_of fun f _ hf => ?_)
      have hbucket : f.bucket = up.bucket := congrArg Prod.fst hf
      simpa [hbucket] using Ne.symm ha
  | _ => exact takes_recipe ht rfl up.bucket up.key

theorem disk_untouched {c : Choice} {a : Action} (ha : Asked sm up a) :
    (exec sm.host c a w).2.bytesAt sm.host (home sm up) = w.bytesAt sm.host (home sm up) := by
  have ht : Takes (exec sm.host) w ⟨a, (exec sm.host c a w).1⟩ (exec sm.host c a w).2 := ⟨c, rfl⟩
  cases a with
  | writeFileAtomic p x => exact takes_writeFileAtomic_ne ht ha.1 ha.2
  | removeFile p => exact takes_removeFile_ne ht ha
  | removeDirAll p => exact (takes_removeDirAll ht).2.1 ha
  | _ => exact takes_bytesAt ht rfl _

theorem metadata_untouched {c : Choice} {a : Action} (ha : Asked sm up a) :
    (exec sm.host c a w).2.cache.getFileMetadata up.bucket up.key = none ∨
      (exec sm.host c a w).2.cache.getFileMetadata up.bucket up.key =
        w.cache.getFileMetadata up.bucket up.key := by
  have ht : Takes (exec sm.host) w ⟨a, (exec sm.host c a w).1⟩ (exec sm.host c a w).2 := ⟨c, rfl⟩
  cases a with
  | setFileMetadata b k f =>
    rw [takes_cache ht, Action.onCache, Cache.getFileMetadata_setFileMetadata]
    exact .inr (if_neg ha)
  | invalidateFile b k =>
    rw [takes_cache ht, Action.onCache, Cache.getFileMetadata_invalidateFile]
    exact ite_eq_or_eq _ _ _
  | _ => exact .inr (takes_getFileMetadata ht rfl _ _)

theorem content_untouched {c : Choice} {a : Action} (ha : Asked sm up a) :
    (exec sm.host c a w).2.cache.getFileContent up.bucket up.key = none ∨
      (exec sm.host c a w).2.cache.getFileContent up.bucket up.key =
        w.cache.getFileContent up.bucket up.key := by
  have ht : Takes (exec sm.host) w ⟨a, (exec sm.host c a w).1⟩ (exec sm.host c a w).2 := ⟨c, rfl⟩
  cases a with
  | setFileContent b k x =>
    rw [takes_cache ht, Action.onCache, Cache.getFileContent_setFileContent_ne x ha]
    exact .inr rfl
  | invalidateFile b k =>
    rw [takes_cache ht, Action.onCache, Cache.getFileContent_invalidateFile]
    exact ite_eq_or_eq _ _ _
  | _ => exact .inr (takes_getFileContent ht rfl _ _)

theorem untouched_asked {c : Choice} {a : Action} (ha : Asked sm up a) :
    Untouched sm up w (exec sm.host c a w).2 where
  row := row_untouched ha
  disk := disk_untouched ha
  metadata := metadata_untouched ha
  content := content_untouched ha
  key id _ key hkey := by
    have ht : Takes (exec sm.host) w ⟨a, (exec sm.host c a w).1⟩ (exec sm.host c a w).2 := ⟨c, rfl⟩
    rw [selectKey_congr (takes_encryptionKeys ht), hkey]

theorem heard_answer {h : Host} {c : Choice} {a : Action} (hw : AllTidy sm up w) :
    Heard sm up a (exec h c a w).1 := by
  cases a with
  | selectFilePath b k =>
    intro hne p hp
    have hpath : some p = (w.db.selectFile b k).map (·.filePath) := answer_eq_ok hp
    obtain ⟨f, hf, rfl⟩ := Option.map_eq_some_iff.mp hpath.symm
    refine ((hw f (Table.find_mem hf)).other ?_).1
    rwa [Table.find_key hf]
  | selectFileByHash hash =>
    intro hne f hf
    have hfound : some f = w.db.selectFileByHash hash c.rank := answer_eq_ok hf
    obtain ⟨hmem, rfl⟩ := Database.selectFileByHash_some hfound.symm
    exact ((hw f hmem).other fun hown => hne ((hw f hmem).own hown).2).1
  | selectBucketFiles b =>
    intro hne files hfiles f hf
    obtain rfl : files = w.db.selectBucketFiles b c.rank := answer_eq_ok hfiles
    obtain ⟨g, hg, rfl⟩ := List.mem_map.mp hf
    rw [Database.mem_orderBy, List.mem_filter, decide_eq_true_eq] at hg
    refine ((hw g hg.1).other fun hown => hne ?_).1
    rw [← hg.2]
    exact congrArg Prod.fst hown
  | selectExpired =>
    intro files hfiles hmem
    obtain rfl : files = w.db.selectExpired w.now c.rank := answer_eq_ok hfiles
    obtain ⟨g, hg, hown⟩ := List.mem_map.mp hmem
    rw [Database.mem_orderBy, List.mem_filter] at hg
    have hexpired := hg.2
    simp [Database.expired, ((hw g hg.1).own hown).1] at hexpired
  | _ => trivial

/-! ## Requests for other objects -/

abbrev Keeps {E α : Type} (sm : StorageManager) (up : Upload) (p : Prog Action Response E α) : Prop :=
  p.Honours (Heard sm up) (Asked sm up)

/-- Another object, in other cache entries. -/
structure Away (up : Upload) (b k : String) : Prop where
  ident : (b, k) ≠ up.ident
  slot : ¬ Cache.SameSlot up.bucket up.key b k

theorem deleteFile_keeps (hne : (b, k) ≠ up.ident) : Keeps sm up (deleteFile b k) := by
  simp only [deleteFile, ofSqlx, step_eq, Prog.bind_eq, Prog.act_bind, Prog.ret_bind, Prog.pure_eq]
  refine ⟨trivial, fun r hr => ?_⟩
  cases r with
  | error e => trivial
  | ok path =>
    simp only [Except.mapError, Prog.ofExcept_ok, Prog.ret_bind]
    cases path with
    | none => trivial
    | some path =>
      have hpath : sm.host.target path ≠ sm.host.target (home sm up) := hr hne path rfl
      refine ⟨trivial, fun r _ => Prog.Honours.bind (Prog.honours_ofExcept _) fun n => ?_⟩
      refine ⟨hne, fun r _ => Prog.Honours.bind (Prog.honours_ofExcept _) fun _ => ?_⟩
      split
      · exact ⟨hpath, fun _ _ => ⟨trivial, fun _ _ => trivial⟩⟩
      · exact ⟨trivial, fun _ _ => trivial⟩

theorem readMetadata_keeps (haway : Away up b k) : Keeps sm up (readMetadata b k) := by
  simp only [readMetadata, dbGetFile, ofSqlx, step_eq, Prog.bind_eq, Prog.act_bind, Prog.ret_bind,
    Prog.pure_eq]
  refine ⟨trivial, fun hit _ => ?_⟩
  dsimp only
  split
  · trivial
  · refine ⟨trivial, fun r _ => Prog.Honours.bind ?_ fun file => ⟨haway.slot, fun _ _ => trivial⟩⟩
    refine Prog.Honours.bind (Prog.honours_ofExcept _) fun found => ?_
    cases found <;> trivial

theorem expireFile_keeps (hne : (b, k) ≠ up.ident) : Keeps sm up (expireFile b k file) := by
  simp only [expireFile, step_eq, Prog.bind_eq, Prog.act_bind, Prog.ret_bind, Prog.pure_eq]
  split
  · trivial
  · refine ⟨trivial, fun now _ => ?_⟩
    dsimp only
    split
    · exact Prog.Honours.bind (deleteFile_keeps hne).attempt fun _ => trivial
    · trivial

theorem readContent_keeps (haway : Away up b k) : Keeps sm up (readContent b k file) := by
  simp only [readContent, step_eq, Prog.bind_eq, Prog.act_bind, Prog.ret_bind, Prog.pure_eq]
  refine ⟨trivial, fun hit _ => ?_⟩
  dsimp only
  split
  · trivial
  · refine ⟨trivial, fun bytes _ => ?_⟩
    cases bytes with
    | ok x => exact ⟨haway.slot, fun _ _ => trivial⟩
    | error e =>
      dsimp only
      split
      · exact Prog.Honours.bind (deleteFile_keeps haway.ident).attempt fun _ => trivial
      · trivial

theorem getFile_keeps (haway : Away up b k) : Keeps sm up (sm.getFile b k) := by
  simp only [getFile, step_eq, Prog.bind_eq, Prog.pure_eq]
  refine Prog.Honours.bind (readMetadata_keeps haway) fun file => ?_
  refine Prog.Honours.bind (expireFile_keeps haway.ident) fun _ => ?_
  refine Prog.Honours.bind (readContent_keeps haway) fun raw => ?_
  refine Prog.Honours.bind ?_ fun _ => ⟨trivial, fun _ _ => trivial⟩
  apply (decodeContent_uses sm file raw).honours
  rintro a ⟨keyId, rfl⟩
  trivial

theorem getFileInfo_keeps (hne : (b, k) ≠ up.ident) : Keeps sm up (getFileInfo b k) := by
  simp only [getFileInfo, dbGetFile, ofSqlx, step_eq, Prog.bind_eq, Prog.act_bind, Prog.ret_bind,
    Prog.pure_eq]
  refine ⟨trivial, fun r _ => Prog.Honours.bind ?_ fun file => ?_⟩
  · refine Prog.Honours.bind (Prog.honours_ofExcept _) fun found => ?_
    cases found <;> trivial
  · exact Prog.Honours.bind (expireFile_keeps hne) fun _ => trivial

theorem getFileRangeIfPlain_keeps (haway : Away up b k) (start stop : Nat) :
    Keeps sm up (getFileRangeIfPlain b k start stop) := by
  simp only [getFileRangeIfPlain, ofIo, step_eq, Prog.bind_eq, Prog.act_bind, Prog.ret_bind,
    Prog.pure_eq]
  refine Prog.Honours.bind (readMetadata_keeps haway) fun file => ?_
  split
  · trivial
  · split
    · trivial
    · refine ⟨trivial, fun r _ => Prog.Honours.bind (Prog.honours_ofExcept _) fun buf => ?_⟩
      exact ⟨trivial, fun _ _ => trivial⟩

theorem getCompressedFileRange_keeps (haway : Away up b k) (start stop : Nat) :
    Keeps sm up (sm.getCompressedFileRange b k start stop) := by
  simp only [getCompressedFileRange, ofIo, step_eq, Prog.bind_eq, Prog.act_bind, Prog.ret_bind,
    Prog.pure_eq]
  refine Prog.Honours.bind (readMetadata_keeps haway) fun file => ?_
  split
  · trivial
  · split
    · trivial
    · refine ⟨trivial, fun r _ => Prog.Honours.bind (Prog.honours_ofExcept _) fun compressed => ?_⟩
      refine Prog.Honours.bind (Prog.honours_ofExcept _) fun buf => ?_
      cases buf with
      | none => trivial
      | some buf => exact ⟨trivial, fun _ _ => trivial⟩

theorem downloadFile_keeps (haway : Away up b k) (range : Option String) :
    Keeps sm up (downloadFile sm b k range) := by
  have hrange : ∀ value, Keeps sm up (rangeRequest sm b k value) := by
    intro value
    simp only [rangeRequest, Prog.bind_eq, Prog.pure_eq]
    refine Prog.Honours.bind (getFileInfo_keeps haway.ident).attempt fun info => ?_
    cases info with
    | error e => trivial
    | ok info =>
      dsimp only
      split
      · rename_i start stop _
        refine Prog.Honours.bind (getFileRangeIfPlain_keeps haway start stop).attempt fun plain => ?_
        split
        · exact Prog.Honours.bind (Prog.honours_ofExcept _) fun _ => trivial
        · refine Prog.Honours.bind (getCompressedFileRange_keeps haway start stop).attempt
            fun packed => ?_
          split
          · exact Prog.Honours.bind (Prog.honours_ofExcept _) fun _ => trivial
          · trivial
      · split
        · split
          · trivial
          · exact Prog.Honours.bind (Prog.honours_ofExcept _) fun _ => trivial
        · trivial
  simp only [downloadFile, Prog.bind_eq, Prog.pure_eq]
  refine Prog.Honours.bind ?_ fun early => ?_
  · cases range with
    | none => trivial
    | some value => exact hrange value
  · cases early with
    | some response => trivial
    | none => exact Prog.Honours.bind (getFile_keeps haway) fun _ => Prog.honours_ofExcept _

theorem sweepExpiredFiles_keeps : Keeps sm up sweepExpiredFiles := by
  have hsweep : ∀ files, up.ident ∉ files → Keeps sm up (sweepFiles files) := by
    intro files
    induction files with
    | nil => exact fun _ => trivial
    | cons f files ih =>
      intro hnot
      obtain ⟨b, k⟩ := f
      rw [List.mem_cons, not_or] at hnot
      simp only [sweepFiles, Prog.bind_eq, Prog.pure_eq]
      refine Prog.Honours.bind (deleteFile_keeps (Ne.symm hnot.1)).attempt fun deleted => ?_
      cases deleted with
      | ok _ => exact Prog.Honours.bind (ih hnot.2) fun _ => trivial
      | error e => exact ih hnot.2
  simp only [sweepExpiredFiles, ofSqlx, step_eq, Prog.bind_eq, Prog.act_bind, Prog.ret_bind]
  refine ⟨trivial, fun r hr => ?_⟩
  cases r with
  | error e => trivial
  | ok files => exact hsweep files (hr files rfl)

/-- A bucket whose directory does not hold the object. -/
structure BucketAway (sm : StorageManager) (up : Upload) (b : String) : Prop where
  bucket : b ≠ up.bucket
  directory : ¬ sm.host.target (Paths.join sm.config.storage.path b) <+: sm.host.target (home sm up)

theorem deleteBucket_keeps (haway : BucketAway sm up b) : Keeps sm up (sm.deleteBucket b) := by
  have hclean : ∀ files, (∀ f ∈ files, sm.host.target f.2 ≠ sm.host.target (home sm up)) →
      Keeps sm up (cleanFiles b files) := by
    intro files
    induction files with
    | nil => exact fun _ => trivial
    | cons f files ih =>
      intro hfiles
      have hrest : Keeps sm up (cleanFiles b files) :=
        ih fun f hf => hfiles f (List.mem_cons_of_mem _ hf)
      simp only [cleanFiles, step_eq, Prog.bind_eq, Prog.act_bind, Prog.ret_bind]
      refine ⟨trivial, fun n _ => ?_⟩
      dsimp only
      split
      · exact ⟨hfiles f List.mem_cons_self, fun _ _ => ⟨trivial, fun _ _ => hrest⟩⟩
      · exact ⟨trivial, fun _ _ => hrest⟩
  simp only [StorageManager.deleteBucket, ofSqlx, step_eq, Prog.bind_eq, Prog.act_bind, Prog.ret_bind, Prog.pure_eq]
  refine ⟨trivial, fun r hr => ?_⟩
  cases r with
  | error e => trivial
  | ok files =>
    refine ⟨haway.bucket, fun r _ => Prog.Honours.bind (Prog.honours_ofExcept _) fun n => ?_⟩
    split
    · trivial
    · exact Prog.Honours.bind (hclean files (hr haway.bucket files rfl)) fun _ =>
        ⟨haway.directory, fun _ _ => trivial⟩

theorem createBucket_keeps : Keeps sm up (sm.createBucket b) := by
  simp only [StorageManager.createBucket, ofIo, ofSqlx, step_eq, Prog.bind_eq, Prog.act_bind, Prog.ret_bind]
  refine ⟨trivial, fun r _ => Prog.Honours.bind (Prog.honours_ofExcept _) fun _ => ?_⟩
  exact ⟨trivial, fun r _ => Prog.Honours.bind (Prog.honours_ofExcept _) fun _ => trivial⟩

theorem deleteObjects_keeps {keys : List String} {result : S3.DeleteResult}
    (hkeys : ∀ k ∈ keys, (b, k) ≠ up.ident) : Keeps sm up (S3.deleteObjects b keys result) := by
  induction keys generalizing result with
  | nil => trivial
  | cons key keys ih =>
    have hrest : ∀ result, Keeps sm up (S3.deleteObjects b keys result) :=
      fun result => ih fun k hk => hkeys k (List.mem_cons_of_mem _ hk)
    simp only [S3.deleteObjects, S3.orS3, Prog.bind_eq]
    refine Prog.Honours.bind (deleteFile_keeps (hkeys key List.mem_cons_self)).attempt.mapError
      fun x => ?_
    cases x with
    | ok _ => exact hrest _
    | error e => cases e <;> exact hrest _

/-! ## Uploads of other objects -/

/-- Another object with other places on disk, the temporary ones included. -/
structure Beside (sm : StorageManager) (up : Upload) (b k : String) : Prop extends Away up b k where
  places : ∀ l ∈ sm.places up.bucket up.key, l ∉ sm.places b k

theorem Beside.target (h : Beside sm up b k) :
    sm.host.target (sm.getFilePath b k) ≠ sm.host.target (home sm up) := by
  intro heq
  refine h.places (sm.host.target (home sm up)) (by simp [StorageManager.places, home]) ?_
  simp [StorageManager.places, heq]

theorem Beside.temp (h : Beside sm up b k) :
    sm.host.temp (sm.getFilePath b k) ≠ sm.host.target (home sm up) := by
  intro heq
  refine h.places (sm.host.target (home sm up)) (by simp [StorageManager.places, home]) ?_
  simp [StorageManager.places, heq]

variable {content : Bytes} {ct : Option String} {opts : StoreOptions}

theorem saveFile_keeps (hident : file.ident = (b, k)) (haway : Away up b k)
    (htarget : sm.host.target file.filePath ≠ sm.host.target (home sm up))
    (hhash : sm.config.storage.enableDeduplication = true →
      file.hashBlake3 ≠ sm.lib.blake3 up.content) : Keeps sm up (saveFile file) := by
  apply saveFile_steps.honours
  rintro a rfl
  have hne : file.ident ≠ up.ident := hident ▸ haway.ident
  exact ⟨hne, fun hown => absurd hown hne, fun _ => ⟨htarget, hhash⟩⟩

theorem writeBytes_keeps (hbeside : Beside sm up b k) (processed : Bytes) :
    Keeps sm up (writeBytes (sm.getFilePath b k) processed) := by
  simp only [writeBytes, ofIo, step_eq, Prog.bind_eq, Prog.act_bind, Prog.ret_bind, Prog.pure_eq]
  have hwrite : Keeps sm up (Prog.act (.writeFileAtomic (sm.getFilePath b k) processed) fun r =>
      (Prog.ofExcept (r.mapError StorageError.ofIo)).bind fun _ => .ret () : Op Unit) :=
    ⟨⟨hbeside.target, hbeside.temp⟩, fun r _ =>
      Prog.Honours.bind (Prog.honours_ofExcept _) fun _ => trivial⟩
  split
  · exact ⟨trivial, fun r _ => Prog.Honours.bind (Prog.honours_ofExcept _) fun _ => hwrite⟩
  · exact hwrite

theorem storeFresh_keeps (hbeside : Beside sm up b k)
    (hhash : sm.config.storage.enableDeduplication = true →
      sm.lib.blake3 content ≠ sm.lib.blake3 up.content) :
    Keeps sm up (sm.storeFresh b k content ct opts) := by
  simp only [storeFresh, recordFile, step_eq, Prog.bind_eq, Prog.act_bind, Prog.ret_bind,
    Prog.pure_eq]
  have hencrypt : ∀ data, Keeps sm up (sm.encryptStage opts data) := by
    intro data
    apply (encryptStage_steps data).honours
    intro a ha
    cases ha <;> trivial
  refine Prog.Honours.bind (hencrypt _) fun out => ?_
  refine Prog.Honours.bind (writeBytes_keeps hbeside _) fun _ => ?_
  refine ⟨trivial, fun id _ => ⟨trivial, fun now _ => ?_⟩⟩
  refine Prog.Honours.bind (saveFile_keeps (freshFile_ident sm b k content ct opts _ _ _ _ id now)
    hbeside.toAway hbeside.target hhash).attempt fun saved => ?_
  cases saved with
  | ok _ => exact ⟨hbeside.slot, fun _ _ => ⟨hbeside.slot, fun _ _ => trivial⟩⟩
  | error e => exact ⟨hbeside.target, fun _ _ => trivial⟩

theorem ensureBucketExists_keeps : Keeps sm up (sm.ensureBucketExists b) := by
  apply ensureBucketExists_steps.honours
  intro a ha
  cases ha <;> trivial

theorem storeFile_keeps (hbeside : Beside sm up b k)
    (hhash : sm.config.storage.enableDeduplication = true →
      sm.lib.blake3 content ≠ sm.lib.blake3 up.content) :
    Keeps sm up (sm.storeFile b k content ct opts) := by
  simp only [storeFile, storeAlias, step_eq, Prog.bind_eq, Prog.act_bind, Prog.ret_bind, Prog.pure_eq]
  refine Prog.Honours.bind ensureBucketExists_keeps fun _ => ?_
  split
  · rename_i hdedup
    refine ⟨trivial, fun r hr => ?_⟩
    cases r with
    | error e => trivial
    | ok found =>
      simp only [ofSqlx_ok, Prog.ret_bind]
      cases found with
      | none => exact storeFresh_keeps hbeside hhash
      | some existing =>
        dsimp only
        split
        · trivial
        · refine ⟨trivial, fun id _ => ⟨trivial, fun now _ => ?_⟩⟩
          have htarget := hr (hhash hdedup) existing rfl
          exact Prog.Honours.bind (saveFile_keeps (aliasedFile_ident sm b k content ct opts existing
            id now) hbeside.toAway htarget hhash) fun _ => trivial
  · exact storeFresh_keeps hbeside hhash

/-! ## The routes -/

/-- The names an upload can get. -/
def Named (app : App) (headers : HeaderMap) (k : String) : Prop :=
  extractFilenameFromContentDisposition app.text headers = some k ∨
    ∃ now : Time, k = s!"file_{now / 1000000}.bin"

/-- Where equal contents are stored once, the other one is not equal. -/
def Distinct (sm : StorageManager) (up : Upload) (content : Bytes) : Prop :=
  sm.config.storage.enableDeduplication = true → sm.lib.blake3 content ≠ sm.lib.blake3 up.content

/-- A copy is to another object and, where equal contents are stored once, there is none. -/
def PutSpares (sm : StorageManager) (up : Upload) (b k : String) (headers : HeaderMap)
    (body : Bytes) : Prop :=
  match headers.text "x-amz-copy-source" with
  | some source => sm.config.storage.enableDeduplication = false ∧ Beside sm up b k ∧
      ∀ srcBucket srcKey, S3.copySource source = some (srcBucket, srcKey) → Away up srcBucket srcKey
  | none => Beside sm up b k ∧ Distinct sm up body

/-- A request for other objects. -/
def Spares (app : App) (up : Upload) : Call → Prop
  | .uploadFile b _ headers body => (∀ k, Named app headers k → Beside app.storage up b k) ∧
      ∀ x, readBody body (maxFileSize app.storage) = .ok x → Distinct app.storage up x
  | .handleFileRequest b path _ => (RequestKeys.EndsInInfo path → (b, trimInfo path) ≠ up.ident) ∧
      (¬ RequestKeys.EndsInInfo path → Away up b path)
  | .handleFileDelete b path => (b, trimInfo path) ≠ up.ident
  | .deleteBucket b => BucketAway app.storage up b
  | .deactivateKey keyId => up.opts.encryptionKeyId ≠ some keyId
  | .v2 _ (.deleteBucket b) => BucketAway app.storage up b
  | .v2 _ (.bucketPost b _ body) => ∀ keys, S3.readDeleteRequest app.parseDelete body = .ok keys →
      ∀ k ∈ keys, (b, k) ≠ up.ident
  | .v2 _ (.putObject b k headers body) => PutSpares app.storage up b k headers body
  | .v2 _ (.getObject b k) => Away up b k
  | .v2 _ (.headObject b k) => (b, k) ≠ up.ident
  | .v2 _ (.deleteObject b k) => (b, k) ≠ up.ident
  | _ => True

theorem keeps_orFail {E α : Type} (x : Except E α) : Keeps sm up (orFail x : Handler E α) :=
  (Prog.honours_ofExcept x).mapError

theorem expiryAfter_keeps {E : Type} (invalid : E) (ttl : Option Int) :
    Keeps sm up (expiryAfter invalid ttl) := by
  cases ttl with
  | none => trivial
  | some ttl =>
    simp only [expiryAfter, checkedStep, Prog.bind_eq, Prog.call_bind, Prog.pure_eq]
    split
    · trivial
    · exact ⟨trivial, fun now _ => Prog.Honours.bind (Prog.honours_unwrap _) fun _ => trivial⟩

theorem uploadFile_keeps {query : UploadQuery} {headers : HeaderMap} {body : Incoming}
    (h : Spares app up (.uploadFile b query headers body)) :
    Keeps app.storage up
      (LocalStorage.uploadFile app.storage app.text b query headers body) := by
  obtain ⟨hnames, hbody⟩ := h
  have hrest : ∀ k, Named app headers k → ∀ ct, Keeps app.storage up
      ((orFail (checkDeclared headers (maxFileSize app.storage))).bind fun _ =>
        (orFail (readBody body (maxFileSize app.storage))).bind fun bytes =>
        (expiryAfter (invalidTtlSeconds query) query.ttlSeconds).bind fun expiresAt =>
        (app.storage.storeFile b k bytes (some ct)
          { compress := query.compress
            encrypt := query.encrypt
            expiresAt := expiresAt
            compressionAlgorithm := query.compressionAlgorithm
            compressionLevel := query.compressionLevel
            encryptionKeyId := query.encryptionKeyId }).lifted.bind fun file =>
        .ret (⟨201, [("content-type", "application/json")], .json (FileInfo.ofStored file)⟩ :
          HttpResponse)) := by
    intro k hk ct
    refine Prog.Honours.bind (keeps_orFail _) fun _ => ?_
    cases hbytes : readBody body (maxFileSize app.storage) with
    | error e => trivial
    | ok bytes =>
      simp only [orFail_ok, Prog.ret_bind]
      refine Prog.Honours.bind (expiryAfter_keeps _ _) fun expiresAt => ?_
      exact Prog.Honours.bind (storeFile_keeps (hnames k hk) (hbody bytes hbytes)).mapError
        fun _ => trivial
  simp only [LocalStorage.uploadFile, Prog.bind_eq, Prog.pure_eq, uploadName]
  cases hname : extractFilenameFromContentDisposition app.text headers with
  | some k => exact hrest k (.inl hname) _
  | none => exact ⟨trivial, fun now _ => hrest _ (.inr ⟨now, rfl⟩) _⟩

theorem putObject_keeps {verified : Except S3.S3Error Unit} {headers : HeaderMap} {body : Bytes}
    (h : PutSpares sm up b k headers body) :
    Keeps sm up (S3.putObject sm verified b k headers body) := by
  simp only [S3.putObject, S3.putBody, S3.copyObject, S3.orS3, Prog.bind_eq, Prog.pure_eq]
  unfold PutSpares at h
  refine Prog.Honours.bind (keeps_orFail _) fun _ => ?_
  cases hcopy : headers.text "x-amz-copy-source" with
  | some source =>
    rw [hcopy] at h
    obtain ⟨hdedup, hbeside, hsource⟩ := h
    refine Prog.Honours.mapError ?_
    cases hparsed : S3.copySource source with
    | none => trivial
    | some src =>
      obtain ⟨srcBucket, srcKey⟩ := src
      refine Prog.Honours.bind (getFile_keeps (hsource _ _ hparsed)).mapError fun read => ?_
      refine Prog.Honours.bind (storeFile_keeps hbeside ?_).mapError fun _ => trivial
      simp [hdedup]
  | none =>
    rw [hcopy] at h
    refine Prog.Honours.bind (keeps_orFail _) fun ttl => ?_
    refine Prog.Honours.bind (expiryAfter_keeps _ _) fun expiresAt => ?_
    exact Prog.Honours.bind (storeFile_keeps h.1 h.2).mapError.mapError fun _ => trivial

theorem handleFileRequest_keeps {path : String} {headers : HeaderMap}
    (h : Spares app up (.handleFileRequest b path headers)) :
    Keeps app.storage up (LocalStorage.handleFileRequest app.state b path headers) := by
  by_cases hend : RequestKeys.EndsInInfo path
  · rw [RequestKeys.handleFileRequest_info hend]
    refine Prog.Honours.bind (Prog.honours_ofExcept _) fun _ => ?_
    exact Prog.Honours.bind (getFileInfo_keeps (h.1 hend)) fun _ => trivial
  · rw [RequestKeys.handleFileRequest_file hend]
    exact Prog.Honours.bind (Prog.honours_ofExcept _) fun _ => downloadFile_keeps (h.2 hend) _

theorem listFiles_keeps {keyPrefix : Option String} {limit offset : Option Int} :
    Keeps sm up (StorageManager.listFiles b keyPrefix limit offset) := by
  simp only [StorageManager.listFiles, ofSqlx, step_eq, Prog.bind_eq, Prog.act_bind, Prog.ret_bind]
  exact ⟨trivial, fun r _ => Prog.Honours.bind (Prog.honours_ofExcept _) fun _ => trivial⟩

theorem searchFiles_keeps {bucket : Option String} {query : String} {limit : Option Int} :
    Keeps sm up (StorageManager.searchFiles bucket query limit) := by
  simp only [StorageManager.searchFiles, ofSqlx, step_eq, Prog.bind_eq, Prog.act_bind, Prog.ret_bind]
  exact ⟨trivial, fun r _ => Prog.Honours.bind (Prog.honours_ofExcept _) fun _ => trivial⟩

theorem v2_keeps {verified : Except S3.S3Error Unit} {call : S3Call}
    {p : Prog Action Response Unit Unit} (h : Spares app up (.v2 verified call))
    (hp : objectPart app (.v2 verified call) = some p) : Keeps app.storage up p := by
  cases call with
  | listBuckets => simp [objectPart] at hp
  | createBucket b =>
    obtain rfl := Option.some.inj hp
    refine Prog.Honours.discard (Prog.Honours.bind (Prog.honours_ofExcept _) fun _ => ?_)
    exact createBucket_keeps.mapError
  | deleteBucket b =>
    obtain rfl := Option.some.inj hp
    refine Prog.Honours.discard (Prog.Honours.bind (Prog.honours_ofExcept _) fun _ => ?_)
    exact (deleteBucket_keeps h).mapError
  | listObjectsV2 b query =>
    obtain rfl := Option.some.inj hp
    refine Prog.Honours.discard ?_
    simp only [S3.listObjectsV2, S3.orS3, Prog.bind_eq]
    refine Prog.Honours.bind (Prog.honours_ofExcept _) fun _ => ?_
    exact Prog.Honours.bind listFiles_keeps.mapError fun _ => trivial
  | bucketPost b query body =>
    obtain rfl := Option.some.inj hp
    refine Prog.Honours.discard ?_
    simp only [S3.bucketPost, Prog.bind_eq]
    refine Prog.Honours.bind (Prog.honours_ofExcept _) fun _ => ?_
    split
    · cases hkeys : S3.readDeleteRequest app.parseDelete body with
      | error e => trivial
      | ok keys => exact deleteObjects_keeps (h keys hkeys)
    · trivial
  | putObject b k headers body =>
    obtain rfl := Option.some.inj hp
    exact (putObject_keeps h).discard
  | getObject b k =>
    obtain rfl := Option.some.inj hp
    refine Prog.Honours.discard ?_
    simp only [S3.getObject, S3.orS3, Prog.bind_eq]
    refine Prog.Honours.bind (Prog.honours_ofExcept _) fun _ => ?_
    refine Prog.Honours.bind (getFile_keeps h).mapError fun _ => ?_
    exact Prog.Honours.bind (getFileInfo_keeps h.ident).mapError fun _ => trivial
  | headObject b k =>
    obtain rfl := Option.some.inj hp
    refine Prog.Honours.discard ?_
    simp only [S3.headObject, S3.orS3, Prog.bind_eq]
    refine Prog.Honours.bind (Prog.honours_ofExcept _) fun _ => ?_
    exact Prog.Honours.bind (getFileInfo_keeps h).mapError fun _ => trivial
  | deleteObject b k =>
    obtain rfl := Option.some.inj hp
    refine Prog.Honours.discard ?_
    simp only [S3.deleteObject, S3.orS3, Prog.bind_eq]
    refine Prog.Honours.bind (Prog.honours_ofExcept _) fun _ => ?_
    refine Prog.Honours.bind (deleteFile_keeps h).attempt.mapError fun x => ?_
    cases x with
    | ok _ => trivial
    | error e => cases e <;> trivial

theorem objectPart_keeps {call : Call} {p : Prog Action Response Unit Unit}
    (h : Spares app up call) (hp : objectPart app call = some p) : Keeps app.storage up p := by
  cases call with
  | v2 verified call => exact v2_keeps h hp
  | uploadFile b query headers body =>
    obtain rfl := Option.some.inj hp
    exact (uploadFile_keeps h).discard
  | listFiles b query headers =>
    obtain rfl := Option.some.inj hp
    refine Prog.Honours.discard ?_
    exact Prog.Honours.bind (Prog.honours_ofExcept _) fun _ => listFiles_keeps
  | searchFiles query headers =>
    obtain rfl := Option.some.inj hp
    refine Prog.Honours.discard ?_
    exact Prog.Honours.bind (Prog.honours_ofExcept _) fun _ => searchFiles_keeps
  | handleFileRequest b path headers =>
    obtain rfl := Option.some.inj hp
    exact (handleFileRequest_keeps h).discard
  | handleFileDelete b path =>
    obtain rfl := Option.some.inj hp
    refine Prog.Honours.discard ?_
    simp only [LocalStorage.handleFileDelete, Prog.bind_eq, Prog.pure_eq]
    exact Prog.Honours.bind (deleteFile_keeps h) fun _ => trivial
  | createBucket b =>
    obtain rfl := Option.some.inj hp
    exact createBucket_keeps.discard
  | deleteBucket b =>
    obtain rfl := Option.some.inj hp
    exact (deleteBucket_keeps h).discard
  | sweepExpiredFiles =>
    obtain rfl := Option.some.inj hp
    exact sweepExpiredFiles_keeps.discard
  | _ => simp [objectPart] at hp

/-! ## The service -/

def ServerHeard (sm : StorageManager) (up : Upload) : (a : ServiceAction) → ServiceResponse a → Prop
  | .object a, r => Heard sm up a r
  | _, _ => True

def ServerAsked (sm : StorageManager) (up : Upload) : ServiceAction → Prop
  | .object a => Asked sm up a
  | .deactivateKey keyId => up.opts.encryptionKeyId ≠ some keyId
  | _ => True

theorem call_keeps {call : Call} (h : Spares app up call) :
    (call.task app).Honours (ServerHeard app.storage up) (ServerAsked app.storage up) := by
  refine call_honours (fun p hp => objectPart_keeps h hp) (fun a ha => ?_) (fun _ _ => trivial) ?_
  · cases a with
    | object a => cases a with
      | selectFiles _ _ _ _ => trivial
      | utcNow => trivial
      | _ => exact ha.elim
    | deactivateKey keyId => exact ha.elim
    | _ => trivial
  · rintro keyId rfl
    exact h

theorem server_heard {c : ServiceChoice} {a : ServiceAction} (hw : AllTidy sm up w) :
    ServerHeard sm up a (execService sm.host c a w).1 := by
  cases a with
  | object a => exact heard_answer hw
  | _ => trivial

theorem untouched_of_onlyKeys (h : OnlyKeys w w')
    (hkey : ∀ id, up.opts.encryptionKeyId = some id → ∀ key, w.db.selectKey id = some key →
      w'.db.selectKey id = some key) : Untouched sm up w w' where
  row := by rw [h.files]
  disk := World.bytesAt_congr (congrArg (fun fs => FileTree.fileAt fs (sm.host.target (home sm up))) h.disk)
  metadata := .inr (by rw [h.cache])
  content := .inr (by rw [h.cache])
  key := hkey

theorem server_tidy {c : ServiceChoice} {a : ServiceAction} (hw : AllTidy sm up w)
    (ha : ∀ f, a = .object (.upsertFile f) → Tidy sm up f) :
    AllTidy sm up (execService sm.host c a w).2 := by
  by_cases hobject : ∃ o, a = .object o
  · obtain ⟨o, rfl⟩ := hobject
    exact tidy_step hw fun f hf => ha f (congrArg _ hf)
  · have hkeys : OnlyKeys w (execService sm.host c a w).2 :=
      execService_onlyKeys fun o ho => hobject ⟨o, ho⟩
    intro f hf
    exact hw f (hkeys.files ▸ hf)

theorem server_untouched {c : ServiceChoice} {a : ServiceAction} (ha : ServerAsked sm up a) :
    Untouched sm up w (execService sm.host c a w).2 := by
  cases a with
  | object a => exact untouched_asked ha
  | insertKey keyId keyData =>
    refine untouched_of_onlyKeys (execService_onlyKeys (by simp)) fun id _ key hkey => ?_
    obtain hsame | ⟨db, hdb, hsame⟩ :=
      statement_world (c := c.toChoice) (w := w) (x := w.db.createKey keyId keyData)
    · simp only [execService, hsame, hkey]
    · simp only [execService, hsame]
      exact Database.createKey_selectKey hdb hkey
  | deactivateKey keyId =>
    refine untouched_of_onlyKeys (execService_onlyKeys (by simp)) fun id hid key hkey => ?_
    obtain hsame | ⟨db, hdb, hsame⟩ :=
      statement_world (c := c.toChoice) (w := w) (x := .ok (w.db.deactivateKey keyId))
    · simp only [execService, hsame, hkey]
    · obtain rfl := Except.ok.inj hdb
      have hne : id ≠ keyId := by
        rintro rfl
        exact ha hid
      simp only [execService, hsame]
      rw [Database.deactivateKey_selectKey_ne hne, hkey]
  | _ => exact Untouched.refl w

theorem drift_untouched {d : Drift} (hd : d.Transition w w') : Untouched sm up w w' := by
  cases d with
  | evict gone =>
    obtain rfl : w' = { w with cache := w.cache.evict gone } := hd
    refine ⟨rfl, rfl, ?_, ?_, fun _ _ _ hkey => hkey⟩
    · cases hcached : (w.cache.evict gone).getFileMetadata up.bucket up.key with
      | none => exact .inl rfl
      | some f => exact .inr (Cache.getFileMetadata_of_evict hcached).symm
    · cases hcached : (w.cache.evict gone).getFileContent up.bucket up.key with
      | none => exact .inl rfl
      | some x => exact .inr (Cache.getFileContent_of_evict hcached).symm
  | tick elapsed =>
    obtain rfl : w' = { w with now := w.now + elapsed } := hd
    exact ⟨rfl, rfl, .inr rfl, .inr rfl, fun _ _ _ hkey => hkey⟩

end LocalStorage.Proofs.Isolation
