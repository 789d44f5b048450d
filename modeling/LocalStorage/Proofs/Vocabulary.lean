import LocalStorage.Proofs.Reading

namespace LocalStorage
open Lib Lib.Paths

/-! # Which steps a method can take

Said once for each method, whatever it hears; what such steps cannot do follows by cases. -/

/-- The steps of the deletion of one key. -/
inductive DeleteStep (b k : String) : Action → Prop where
  | selectFilePath : DeleteStep b k (.selectFilePath b k)
  | countOtherReferences (path : String) : DeleteStep b k (.countOtherReferences path b k)
  | deleteFileRow : DeleteStep b k (.deleteFileRow b k)
  | removeFile (path : String) : DeleteStep b k (.removeFile path)
  | invalidateFile : DeleteStep b k (.invalidateFile b k)

/-- The steps of the reads of one key; an expired or lost object is deleted on the way. -/
inductive ReadStep (b k : String) : Action → Prop where
  | delete {a : Action} (h : DeleteStep b k a) : ReadStep b k a
  | getFileMetadata : ReadStep b k (.getFileMetadata b k)
  | selectFile : ReadStep b k (.selectFile b k)
  | setFileMetadata (file : StoredFile) : ReadStep b k (.setFileMetadata b k file)
  | utcNow : ReadStep b k .utcNow
  | getFileContent : ReadStep b k (.getFileContent b k)
  | readFile (path : String) : ReadStep b k (.readFile path)
  | readRange (path : String) (start len : Nat) : ReadStep b k (.readRange path start len)
  | setFileContent (content : Bytes) : ReadStep b k (.setFileContent b k content)
  | selectKey (keyId : String) : ReadStep b k (.selectKey keyId)
  | updateAccess (id : Uuid) : ReadStep b k (.updateAccess id)

/-- The steps of the removal of a bucket. -/
inductive DeleteBucketStep (b : String) : Action → Prop where
  | selectBucketFiles : DeleteBucketStep b (.selectBucketFiles b)
  | deleteBucketRow : DeleteBucketStep b (.deleteBucketRow b)
  | countReferences (path : String) : DeleteBucketStep b (.countReferences path)
  | removeFile (path : String) : DeleteBucketStep b (.removeFile path)
  | invalidateFile (key : String) : DeleteBucketStep b (.invalidateFile b key)
  | removeDirAll (path : String) : DeleteBucketStep b (.removeDirAll path)

inductive EnsureStep (b : String) : Action → Prop where
  | bucketExists : EnsureStep b (.bucketExists b)
  | createDirAll (path : Path) : EnsureStep b (.createDirAll path)
  | insertBucket : EnsureStep b (.insertBucket b)

inductive EncryptStep : Action → Prop where
  | selectKey (keyId : String) : EncryptStep (.selectKey keyId)
  | randomNonce : EncryptStep .randomNonce

/-- The row an upload inserts is of its own key, with the expiry it was asked for. -/
structure RowOf (b k : String) (opts : StoreOptions) (file : StoredFile) : Prop where
  ident : file.ident = (b, k)
  expiresAt : file.expiresAt = opts.expiresAt

/-- The steps of an upload that writes its own file. -/
inductive FreshStep (sm : StorageManager) (b k : String) (opts : StoreOptions) : Action → Prop where
  | encrypt {a : Action} (h : EncryptStep a) : FreshStep sm b k opts a
  | createDirAll (path : Path) : FreshStep sm b k opts (.createDirAll path)
  | writeFileAtomic (content : Bytes) :
      FreshStep sm b k opts (.writeFileAtomic (sm.getFilePath b k) content)
  | newUuid : FreshStep sm b k opts .newUuid
  | utcNow : FreshStep sm b k opts .utcNow
  | upsertFile (file : StoredFile) (h : RowOf b k opts file) :
      FreshStep sm b k opts (.upsertFile file)
  | removeFile : FreshStep sm b k opts (.removeFile (sm.getFilePath b k))
  | setFileMetadata (file : StoredFile) : FreshStep sm b k opts (.setFileMetadata b k file)
  | setFileContent (content : Bytes) : FreshStep sm b k opts (.setFileContent b k content)

inductive StoreStep (sm : StorageManager) (b k : String) (opts : StoreOptions) : Action → Prop where
  | ensure {a : Action} (h : EnsureStep b a) : StoreStep sm b k opts a
  | selectFileByHash (hash : String) : StoreStep sm b k opts (.selectFileByHash hash)
  | fresh {a : Action} (h : FreshStep sm b k opts a) : StoreStep sm b k opts a

namespace StorageManager

variable {sm : StorageManager} {b k : String} {file : StoredFile} {content : Bytes}
  {ct : Option String} {opts : StoreOptions}

/-! ## Uploads -/

theorem ensureBucketExists_steps : (sm.ensureBucketExists b).Uses (EnsureStep b) := by
  simp only [ensureBucketExists, createBucket, ofSqlx, ofIo, step_eq, Prog.bind_eq, Prog.act_bind,
    Prog.ret_bind, Prog.pure_eq]
  refine ⟨.bucketExists, fun r => Prog.Uses.bind (Prog.uses_ofExcept _) fun found => ?_⟩
  split
  · trivial
  · refine ⟨.createDirAll _, fun r => Prog.Uses.bind (Prog.uses_ofExcept _) fun _ => ?_⟩
    exact ⟨.insertBucket, fun r => Prog.Uses.bind (Prog.uses_ofExcept _) fun _ => trivial⟩

theorem encryptStage_steps (data : Bytes) : (sm.encryptStage opts data).Uses EncryptStep := by
  simp only [encryptStage, getKey, ofSqlx, step_eq, Prog.bind_eq, Prog.act_bind, Prog.ret_bind,
    Prog.pure_eq]
  split
  · refine Prog.Uses.bind (Prog.uses_ofExcept _) fun alg => ?_
    split
    · refine ⟨.selectKey _, fun r => ?_⟩
      refine Prog.Uses.bind (Prog.Uses.bind (Prog.uses_ofExcept _) fun key => ?_) fun key => ?_
      · cases key <;> trivial
      · exact ⟨.randomNonce, fun nonce => Prog.Uses.bind (Prog.uses_ofExcept _) fun out => trivial⟩
    · exact ⟨.randomNonce, fun nonce => Prog.Uses.bind (Prog.uses_ofExcept _) fun out => trivial⟩
  · trivial

theorem saveFile_steps : (saveFile file).Uses (fun a => a = .upsertFile file) := by
  simp only [saveFile, step_eq, Prog.bind_eq, Prog.act_bind, Prog.ret_bind, Prog.pure_eq]
  refine ⟨rfl, fun r => ?_⟩
  cases r with
  | ok u => trivial
  | error e =>
    cases e with
    | database db =>
      dsimp only
      split <;> trivial
    | other msg => trivial

theorem storeFresh_steps :
    (sm.storeFresh b k content ct opts).Uses (FreshStep sm b k opts) := by
  simp only [storeFresh, writeBytes, recordFile, ofIo, step_eq, Prog.bind_eq, Prog.act_bind,
    Prog.ret_bind, Prog.pure_eq]
  refine Prog.Uses.bind ((encryptStage_steps _).mono fun _ => .encrypt) fun out => ?_
  refine Prog.Uses.bind ?_ fun _ => ⟨.newUuid, fun id => ⟨.utcNow, fun now => ?_⟩⟩
  · have hwrite : (Prog.act (.writeFileAtomic (sm.getFilePath b k) out.1) fun r =>
        (Prog.ofExcept (r.mapError StorageError.ofIo)).bind fun _ => .ret () : Op Unit).Uses
          (FreshStep sm b k opts) :=
      ⟨.writeFileAtomic _, fun r => Prog.Uses.bind (Prog.uses_ofExcept _) fun _ => trivial⟩
    split
    · exact ⟨.createDirAll _, fun r => Prog.Uses.bind (Prog.uses_ofExcept _) fun _ => hwrite⟩
    · exact hwrite
  · refine Prog.Uses.bind ?_ fun saved => ?_
    · refine (saveFile_steps.mono ?_).attempt
      rintro a rfl
      exact .upsertFile _ ⟨rfl, rfl⟩
    · cases saved with
      | ok u => exact ⟨.setFileMetadata _, fun _ => ⟨.setFileContent _, fun _ => trivial⟩⟩
      | error e => exact ⟨.removeFile, fun _ => trivial⟩

theorem storeAlias_steps (existing : StoredFile) :
    (sm.storeAlias b k content ct opts existing).Uses (FreshStep sm b k opts) := by
  simp only [storeAlias, step_eq, Prog.bind_eq, Prog.act_bind, Prog.ret_bind, Prog.pure_eq]
  refine ⟨.newUuid, fun id => ⟨.utcNow, fun now => Prog.Uses.bind ?_ fun _ => trivial⟩⟩
  apply saveFile_steps.mono
  rintro a rfl
  exact .upsertFile _ ⟨rfl, rfl⟩

theorem storeFile_steps : (sm.storeFile b k content ct opts).Uses (StoreStep sm b k opts) := by
  have hfresh : (sm.storeFresh b k content ct opts).Uses (StoreStep sm b k opts) :=
    storeFresh_steps.mono fun _ => .fresh
  simp only [storeFile, ofSqlx, step_eq, Prog.bind_eq, Prog.act_bind, Prog.ret_bind, Prog.pure_eq]
  refine Prog.Uses.bind (ensureBucketExists_steps.mono fun _ => .ensure) fun _ => ?_
  split
  · refine ⟨.selectFileByHash _, fun r => Prog.Uses.bind (Prog.uses_ofExcept _) fun found => ?_⟩
    cases found with
    | none => exact hfresh
    | some existing =>
      dsimp only
      split
      · trivial
      · exact (storeAlias_steps existing).mono fun _ => .fresh
  · exact hfresh

/-! ## Deletions and reads -/

theorem deleteFile_steps : (deleteFile b k).Uses (DeleteStep b k) := by
  simp only [deleteFile, ofSqlx, step_eq, Prog.bind_eq, Prog.act_bind, Prog.ret_bind, Prog.pure_eq]
  refine ⟨.selectFilePath, fun r => Prog.Uses.bind (Prog.uses_ofExcept _) fun path => ?_⟩
  cases path with
  | none => trivial
  | some path =>
    refine ⟨.countOtherReferences path, fun r => Prog.Uses.bind (Prog.uses_ofExcept _) fun n => ?_⟩
    refine ⟨.deleteFileRow, fun r => Prog.Uses.bind (Prog.uses_ofExcept _) fun _ => ?_⟩
    split
    · exact ⟨.removeFile path, fun _ => ⟨.invalidateFile, fun _ => trivial⟩⟩
    · exact ⟨.invalidateFile, fun _ => trivial⟩

theorem attempt_deleteFile_steps : (deleteFile b k).attempt.Uses (ReadStep b k) :=
  (deleteFile_steps.mono fun _ => .delete).attempt

theorem dbGetFile_steps : (dbGetFile b k).Uses (ReadStep b k) := by
  simp only [dbGetFile, ofSqlx, step_eq, Prog.bind_eq, Prog.act_bind, Prog.ret_bind, Prog.pure_eq]
  refine ⟨.selectFile, fun r => Prog.Uses.bind (Prog.uses_ofExcept _) fun row => ?_⟩
  cases row <;> trivial

theorem readMetadata_steps : (readMetadata b k).Uses (ReadStep b k) := by
  simp only [readMetadata, step_eq, Prog.bind_eq, Prog.act_bind, Prog.ret_bind, Prog.pure_eq]
  refine ⟨.getFileMetadata, fun hit => ?_⟩
  dsimp only
  split
  · trivial
  · exact Prog.Uses.bind dbGetFile_steps fun file => ⟨.setFileMetadata file, fun _ => trivial⟩

theorem expireFile_steps : (expireFile b k file).Uses (ReadStep b k) := by
  simp only [expireFile, step_eq, Prog.bind_eq, Prog.act_bind, Prog.ret_bind, Prog.pure_eq]
  split
  · trivial
  · refine ⟨.utcNow, fun now => ?_⟩
    dsimp only
    split
    · exact Prog.Uses.bind attempt_deleteFile_steps fun _ => trivial
    · trivial

theorem readContent_steps : (readContent b k file).Uses (ReadStep b k) := by
  simp only [readContent, step_eq, Prog.bind_eq, Prog.act_bind, Prog.ret_bind, Prog.pure_eq]
  refine ⟨.getFileContent, fun hit => ?_⟩
  dsimp only
  split
  · trivial
  · refine ⟨.readFile file.filePath, fun bytes => ?_⟩
    cases bytes with
    | ok x => exact ⟨.setFileContent x, fun _ => trivial⟩
    | error e =>
      dsimp only
      split
      · exact Prog.Uses.bind attempt_deleteFile_steps fun _ => trivial
      · trivial

theorem decodeContent_steps (raw : Bytes) : (sm.decodeContent file raw).Uses (ReadStep b k) := by
  apply (decodeContent_uses sm file raw).mono
  rintro a ⟨keyId, rfl⟩
  exact .selectKey keyId

theorem getFile_steps : (sm.getFile b k).Uses (ReadStep b k) := by
  simp only [getFile, step_eq, Prog.bind_eq, Prog.pure_eq]
  refine Prog.Uses.bind readMetadata_steps fun file => ?_
  refine Prog.Uses.bind expireFile_steps fun _ => ?_
  refine Prog.Uses.bind readContent_steps fun raw => ?_
  exact Prog.Uses.bind (decodeContent_steps raw) fun _ => ⟨.updateAccess file.id, fun _ => trivial⟩

theorem getFileInfo_steps : (getFileInfo b k).Uses (ReadStep b k) := by
  simp only [getFileInfo, Prog.bind_eq, Prog.pure_eq]
  refine Prog.Uses.bind dbGetFile_steps fun file => ?_
  exact Prog.Uses.bind expireFile_steps fun _ => trivial

theorem getFileRangeIfPlain_steps (start stop : Nat) :
    (getFileRangeIfPlain b k start stop).Uses (ReadStep b k) := by
  simp only [getFileRangeIfPlain, ofIo, step_eq, Prog.bind_eq, Prog.act_bind, Prog.ret_bind,
    Prog.pure_eq]
  refine Prog.Uses.bind readMetadata_steps fun file => ?_
  split
  · trivial
  · split
    · trivial
    · refine ⟨.readRange _ _ _, fun r => Prog.Uses.bind (Prog.uses_ofExcept _) fun buf => ?_⟩
      exact ⟨.updateAccess file.id, fun _ => trivial⟩

theorem getCompressedFileRange_steps (start stop : Nat) :
    (sm.getCompressedFileRange b k start stop).Uses (ReadStep b k) := by
  simp only [getCompressedFileRange, ofIo, step_eq, Prog.bind_eq, Prog.act_bind, Prog.ret_bind,
    Prog.pure_eq]
  refine Prog.Uses.bind readMetadata_steps fun file => ?_
  split
  · trivial
  · split
    · trivial
    · refine ⟨.readFile _, fun r => Prog.Uses.bind (Prog.uses_ofExcept _) fun compressed => ?_⟩
      refine Prog.Uses.bind (Prog.uses_ofExcept _) fun buf => ?_
      cases buf with
      | none => trivial
      | some buf => exact ⟨.updateAccess file.id, fun _ => trivial⟩

theorem cleanFiles_steps (files : List (String × String)) :
    (cleanFiles b files).Uses (DeleteBucketStep b) := by
  induction files with
  | nil => trivial
  | cons f files ih =>
    obtain ⟨k, path⟩ := f
    simp only [cleanFiles, step_eq, Prog.bind_eq, Prog.act_bind, Prog.ret_bind]
    refine ⟨.countReferences path, fun n => ?_⟩
    dsimp only
    split
    · exact ⟨.removeFile path, fun _ => ⟨.invalidateFile k, fun _ => ih⟩⟩
    · exact ⟨.invalidateFile k, fun _ => ih⟩

theorem deleteBucket_steps : (sm.deleteBucket b).Uses (DeleteBucketStep b) := by
  simp only [deleteBucket, ofSqlx, step_eq, Prog.bind_eq, Prog.act_bind, Prog.ret_bind, Prog.pure_eq]
  refine ⟨.selectBucketFiles, fun r => Prog.Uses.bind (Prog.uses_ofExcept _) fun files => ?_⟩
  refine ⟨.deleteBucketRow, fun r => Prog.Uses.bind (Prog.uses_ofExcept _) fun n => ?_⟩
  split
  · trivial
  · exact Prog.Uses.bind (cleanFiles_steps files) fun _ => ⟨.removeDirAll _, fun _ => trivial⟩

theorem sweepFiles_steps (files : List (String × String)) :
    (sweepFiles files).Uses (fun a => ∃ f ∈ files, DeleteStep f.1 f.2 a) := by
  induction files with
  | nil => trivial
  | cons f files ih =>
    obtain ⟨b, k⟩ := f
    have hrest : (sweepFiles files).Uses (fun a => ∃ f ∈ (b, k) :: files, DeleteStep f.1 f.2 a) :=
      ih.mono fun a ⟨f, hf, ha⟩ => ⟨f, List.mem_cons_of_mem _ hf, ha⟩
    simp only [sweepFiles, Prog.bind_eq, Prog.pure_eq]
    refine Prog.Uses.bind ?_ fun deleted => ?_
    · exact (deleteFile_steps.mono fun a ha => ⟨(b, k), List.mem_cons_self, ha⟩).attempt
    · cases deleted with
      | ok u => exact Prog.Uses.bind hrest fun _ => trivial
      | error e => exact hrest

theorem sweepExpiredFiles_steps : sweepExpiredFiles.Uses
    (fun a => a = .selectExpired ∨ ∃ f : String × String, DeleteStep f.1 f.2 a) := by
  simp only [sweepExpiredFiles, ofSqlx, step_eq, Prog.bind_eq, Prog.act_bind, Prog.ret_bind]
  refine ⟨.inl rfl, fun r => Prog.Uses.bind (Prog.uses_ofExcept _) fun files => ?_⟩
  refine (sweepFiles_steps files).mono fun a ha => ?_
  obtain ⟨f, -, hstep⟩ := ha
  exact .inr ⟨f, hstep⟩

theorem listFiles_steps (keyPrefix : Option String) (limit offset : Option Int) :
    (listFiles b keyPrefix limit offset).Uses
      (fun a => a = .selectFiles b keyPrefix (limit.getD 100) (offset.getD 0)) := by
  simp only [listFiles, ofSqlx, step_eq, Prog.bind_eq, Prog.act_bind, Prog.ret_bind, Prog.pure_eq]
  exact ⟨rfl, fun r => Prog.Uses.bind (Prog.uses_ofExcept _) fun _ => trivial⟩

theorem searchFiles_steps (bucket : Option String) (query : String) (limit : Option Int) :
    (searchFiles bucket query limit).Uses
      (fun a => a = .searchFiles (bucket.getD "") query (limit.getD 100)) := by
  simp only [searchFiles, ofSqlx, step_eq, Prog.bind_eq, Prog.act_bind, Prog.ret_bind, Prog.pure_eq]
  exact ⟨rfl, fun r => Prog.Uses.bind (Prog.uses_ofExcept _) fun _ => trivial⟩

end StorageManager

end LocalStorage
