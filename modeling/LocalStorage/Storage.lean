import LocalStorage.World

namespace LocalStorage
open Lib Lib.Paths

/-- The third-party libraries of the service. -/
structure Libraries extends Codecs, Ciphers where
  blake3 : Bytes → String
  md5 : Bytes → String

/-- A service process: its configuration, and the cipher keys made from it at start. -/
structure StorageManager where
  lib : Libraries
  config : Config
  host : Host
  crypto : CryptoManager
  started : ∃ random, CryptoManager.new lib.toCiphers config.crypto random = .ok crypto

/-- A method of the service, as the atomic steps it takes. -/
abbrev Op := Prog Action Response StorageError

def step (a : Action) : Op (Response a) := Prog.call a

theorem step_eq (a : Action) : step a = .act a .ret := rfl

/-- The `?` operator on a query. -/
def ofSqlx {α : Type} (x : Query α) : Op α := Prog.ofExcept (x.mapError StorageError.ofSqlx)

/-- The `?` operator on a file operation. -/
def ofIo {α : Type} (x : Except IoError α) : Op α := Prog.ofExcept (x.mapError StorageError.ofIo)

/-! ## DatabaseManager -/

def saveFile (file : StoredFile) : Op Unit := do
  let saved : Query Unit ← step (.upsertFile file)
  match saved with
  | .ok () => return
  | .error e =>
    match e with
    | .database db =>
      if db.code = "23505" then .fail (.alreadyExists file.bucket file.key)
      else .fail (.ofSqlx e)
    | .other _ => .fail (.ofSqlx e)

def dbGetFile (bucket key : String) : Op StoredFile := do
  match ← ofSqlx (← step (.selectFile bucket key)) with
  | some file => return file
  | none => .fail (.notFound bucket key)

/-! ## EncryptionKeyManager -/

def getKey (keyId : String) : Op EncryptionKey := do
  match ← ofSqlx (← step (.selectKey keyId)) with
  | some key => return key
  | none => .fail (.validation s!"Unknown or inactive encryption_key_id: {keyId}")

/-! ## CacheManager -/

/-- `cache_file_from_disk`, the preload service's fill of one file. -/
def cacheFileFromDisk (file : StoredFile) : Op Nat := do
  if !(← step (.fileExists file.filePath)) then .fail (.notFound file.bucket file.key)
  else
    let content ← ofIo (← step (.readFile file.filePath))
    Prog.ofExcept (← step (.setFileContent file.bucket file.key content))
    return content.length

namespace StorageManager

variable (self : StorageManager)

def getFilePath (bucket key : String) : String :=
  join (join self.config.storage.path bucket) key

def compression : CompressionManager := ⟨self.config.compression⟩

/-! ## Buckets -/

def createBucket (bucket : String) : Op Unit := do
  ofIo (← step (.createDirAll (parse (join self.config.storage.path bucket))))
  ofSqlx (← step (.insertBucket bucket))
  return

def ensureBucketExists (bucket : String) : Op Unit := do
  if ← ofSqlx (← step (.bucketExists bucket)) then return
  else self.createBucket bucket

/-! ## Uploads -/

def shouldCompress (opts : StoreOptions) : Bool :=
  opts.compress.getD self.config.compression.enabled

def shouldEncrypt (opts : StoreOptions) : Bool :=
  opts.encrypt.getD self.config.crypto.enabled

def compressionAlgo (opts : StoreOptions) : String :=
  opts.compressionAlgorithm.getD self.config.compression.algorithm

def compressionLvl (opts : StoreOptions) : Int :=
  opts.compressionLevel.getD self.config.compression.level

/-- The manager an upload compresses with: always enabled, with the upload's overrides. -/
def compressor (opts : StoreOptions) : CompressionManager :=
  ⟨{ enabled := true, algorithm := self.compressionAlgo opts, level := self.compressionLvl opts
     minSize := self.config.compression.minSize }⟩

/-- The compressed form is kept, and claimed, only when it is smaller. -/
def compressStage (opts : StoreOptions) (content : Bytes) : Bytes × Bool :=
  if self.shouldCompress opts && self.config.compression.minSize ≤ content.length then
    match (self.compressor opts).compress self.lib.toCodecs content with
    | .ok compressed =>
      if compressed.length < content.length then (compressed, true) else (content, false)
    | .error _ => (content, false)
  else (content, false)

def encryptStage (opts : StoreOptions) (data : Bytes) : Op (Bytes × Bool) := do
  if self.shouldEncrypt opts then
    let algorithm ← Prog.ofExcept (EncryptionAlgorithm.fromStr self.config.crypto.algorithm)
    match opts.encryptionKeyId with
    | some keyId =>
      let key ← getKey keyId
      let nonce ← step .randomNonce
      let out ← Prog.ofExcept
        (CryptoManager.encryptWithKey self.lib.toCiphers data algorithm key.keyData nonce)
      return (out, true)
    | none =>
      let nonce ← step .randomNonce
      let out ← Prog.ofExcept (self.crypto.encrypt self.lib.toCiphers data algorithm nonce)
      return (out, true)
  else return (data, false)

/-- The row of a new key whose content is already stored under another one. -/
def aliasedFile (bucket key : String) (content : Bytes) (contentType : Option String)
    (opts : StoreOptions) (existing : StoredFile) (id : Uuid) (now : Time) : StoredFile where
  id := id
  bucket := bucket
  key := key
  filename := filenameOf key
  filePath := existing.filePath
  fileSize := existing.fileSize
  originalSize := existing.originalSize
  contentType := contentType.getD existing.contentType
  hashBlake3 := self.lib.blake3 content
  hashMd5 := self.lib.md5 content
  metadata := opts.metadata
  isCompressed := existing.isCompressed
  isEncrypted := existing.isEncrypted
  compressionAlgorithm := existing.compressionAlgorithm
  encryptionAlgorithm := existing.encryptionAlgorithm
  compressionRatio := existing.compressionRatio
  uploadTime := some now
  lastAccessed := none
  accessCount := 0
  encryptionKeyId := existing.encryptionKeyId
  compressionEnabled := existing.compressionEnabled
  encryptionEnabled := existing.encryptionEnabled
  compressionLevel := existing.compressionLevel
  cacheStatus := some "not_cached"
  lastCacheUpdate := none
  cacheHits := some 0
  cachePriority := some 0
  expiresAt := opts.expiresAt

/-- The row of an upload whose bytes were just written. -/
def freshFile (bucket key : String) (content : Bytes) (contentType : Option String)
    (opts : StoreOptions) (isCompressed : Bool) (packedSize : Nat) (processed : Bytes)
    (isEncrypted : Bool) (id : Uuid) (now : Time) : StoredFile where
  id := id
  bucket := bucket
  key := key
  filename := filenameOf key
  filePath := self.getFilePath bucket key
  fileSize := processed.length
  originalSize := content.length
  contentType := contentType.getD "application/octet-stream"
  hashBlake3 := self.lib.blake3 content
  hashMd5 := self.lib.md5 content
  metadata := opts.metadata
  isCompressed := some isCompressed
  isEncrypted := some isEncrypted
  compressionAlgorithm := if isCompressed then some (self.compressionAlgo opts) else none
  encryptionAlgorithm := if isEncrypted then some self.config.crypto.algorithm else none
  compressionRatio := if isCompressed then some ⟨packedSize, max content.length 1⟩ else none
  uploadTime := some now
  lastAccessed := none
  accessCount := 0
  encryptionKeyId := opts.encryptionKeyId
  compressionEnabled := some (self.shouldCompress opts)
  encryptionEnabled := some (self.shouldEncrypt opts)
  compressionLevel := some (self.compressionLvl opts)
  cacheStatus := some "not_cached"
  lastCacheUpdate := none
  cacheHits := some 0
  cachePriority := some 0
  expiresAt := opts.expiresAt

def storeAlias (bucket key : String) (content : Bytes) (contentType : Option String)
    (opts : StoreOptions) (existing : StoredFile) : Op StoredFile := do
  let id ← step .newUuid
  let now ← step .utcNow
  let aliased := self.aliasedFile bucket key content contentType opts existing id now
  saveFile aliased
  return aliased

/-- Put the bytes in place; the directory is made first. -/
def writeBytes (filePath : String) (processed : Bytes) : Op Unit := do
  match (parse filePath).parent with
  | some parent => ofIo (← step (.createDirAll parent))
  | none => pure ()
  ofIo (← step (.writeFileAtomic filePath processed))
  return

/-- Record the written file; a rejected row takes the file away again. -/
def recordFile (file : StoredFile) (processed : Bytes) : Op StoredFile := do
  match ← (saveFile file).attempt with
  | .error e =>
    let _ ← step (.removeFile file.filePath)
    .fail e
  | .ok () =>
    let _ ← step (.setFileMetadata file.bucket file.key file)
    let _ ← step (.setFileContent file.bucket file.key processed)
    return file

def storeFresh (bucket key : String) (content : Bytes) (contentType : Option String)
    (opts : StoreOptions) : Op StoredFile := do
  let (packed, isCompressed) := self.compressStage opts content
  let (processed, isEncrypted) ← self.encryptStage opts packed
  writeBytes (self.getFilePath bucket key) processed
  let id ← step .newUuid
  let now ← step .utcNow
  recordFile (self.freshFile bucket key content contentType opts isCompressed packed.length
    processed isEncrypted id now) processed

def storeFile (bucket key : String) (content : Bytes) (contentType : Option String)
    (opts : StoreOptions) : Op StoredFile := do
  self.ensureBucketExists bucket
  if self.config.storage.enableDeduplication then
    match ← ofSqlx (← step (.selectFileByHash (self.lib.blake3 content))) with
    | some existing =>
      if existing.bucket = bucket ∧ existing.key = key then return existing
      else self.storeAlias bucket key content contentType opts existing
    | none => self.storeFresh bucket key content contentType opts
  else self.storeFresh bucket key content contentType opts

/-! ## Deletions -/

def deleteFile (bucket key : String) : Op Unit := do
  match ← ofSqlx (← step (.selectFilePath bucket key)) with
  | none => .fail (.notFound bucket key)
  | some path =>
    let otherReferences ← ofSqlx (← step (.countOtherReferences path bucket key))
    ofSqlx (← step (.deleteFileRow bucket key))
    if otherReferences = 0 then
      let _ ← step (.removeFile path)
    let _ ← step (.invalidateFile bucket key)

/-- Unlink what no remaining row refers to; a count that fails reads as zero. -/
def cleanFiles (bucket : String) : List (String × String) → Op Unit
  | [] => return
  | (key, path) :: files => do
    let otherReferences : Query Nat ← step (.countReferences path)
    if otherReferences.toOption.getD 0 = 0 then
      let _ ← step (.removeFile path)
    let _ ← step (.invalidateFile bucket key)
    cleanFiles bucket files

def deleteBucket (bucket : String) : Op Unit := do
  let files ← ofSqlx (← step (.selectBucketFiles bucket))
  let deletedCount ← ofSqlx (← step (.deleteBucketRow bucket))
  if deletedCount = 0 then .fail (.invalidBucket bucket)
  else
    cleanFiles bucket files
    let _ ← step (.removeDirAll (join self.config.storage.path bucket))

def sweepFiles : List (String × String) → Op Nat
  | [] => return 0
  | (bucket, key) :: files => do
    match ← (deleteFile bucket key).attempt with
    | .ok () => return (← sweepFiles files) + 1
    | .error _ => sweepFiles files

/-- The number of rows actually removed. -/
def sweepExpiredFiles : Op Nat := do
  sweepFiles (← ofSqlx (← step .selectExpired))

/-! ## Reads -/

/-- The record a read goes by: cached, or from the table and then cached. -/
def readMetadata (bucket key : String) : Op StoredFile := do
  let hit : Result (Option StoredFile) ← step (.getFileMetadata bucket key)
  match hit with
  | .ok (some cached) => return cached
  | _ =>
    let file ← dbGetFile bucket key
    let _ ← step (.setFileMetadata bucket key file)
    return file

/-- A file past its time is deleted and answered as not found. -/
def expireFile (bucket key : String) (file : StoredFile) : Op Unit := do
  match file.expiresAt with
  | none => return
  | some expiresAt =>
    if expiresAt ≤ (← step .utcNow) then
      let _ ← (deleteFile bucket key).attempt
      .fail (.notFound bucket key)

/-- The stored bytes: cached, or from the recorded path and then cached. A missing disk
file takes its row with it. -/
def readContent (bucket key : String) (file : StoredFile) : Op Bytes := do
  let hit : Result (Option Bytes) ← step (.getFileContent bucket key)
  match hit with
  | .ok (some cached) => return cached
  | _ =>
    let bytes : Except IoError Bytes ← step (.readFile file.filePath)
    match bytes with
    | .ok content =>
      let _ ← step (.setFileContent bucket key content)
      return content
    | .error e =>
      if containsText e.toString "No such file or directory" ||
          containsText e.toString "os error 2" then
        let _ ← (deleteFile bucket key).attempt
        .fail (.notFound bucket key)
      else .fail (.io e.toString)

def decryptContent (file : StoredFile) (content : Bytes) : Op Bytes := do
  if file.encrypted then
    let algorithm ← Prog.ofExcept
      (EncryptionAlgorithm.fromStr (file.encryptionAlgorithm.getD "aes-gcm"))
    match file.encryptionKeyId with
    | some keyId =>
      let key ← getKey keyId
      Prog.ofExcept (CryptoManager.decryptWithKey self.lib.toCiphers content algorithm key.keyData)
    | none => Prog.ofExcept (self.crypto.decrypt self.lib.toCiphers content algorithm)
  else return content

/-- Decrypt, then decompress: the inverse order of `storeFile`. -/
def decodeContent (file : StoredFile) (content : Bytes) : Op Bytes := do
  let content ← self.decryptContent file content
  if file.compressed then Prog.ofExcept (self.compression.decompress self.lib.toCodecs content)
  else return content

def getFile (bucket key : String) : Op (Bytes × Option String) := do
  let file ← readMetadata bucket key
  expireFile bucket key file
  let raw ← readContent bucket key file
  let content ← self.decodeContent file raw
  let _ ← step (.updateAccess file.id)
  return (content, some file.contentType)

/-- `as u64`. -/
def asU64 (n : Int) : Nat := (n % 2 ^ 64).toNat

/-- A byte range of a plain file, straight from disk; `none` sends the caller to
`getFile`. -/
def getFileRangeIfPlain (bucket key : String) (start stop : Nat) :
    Op (Option (Bytes × String × Nat)) := do
  let file ← readMetadata bucket key
  if file.compressed || file.encrypted then return none
  else
    let total := asU64 file.fileSize
    let clampedEnd := min stop (total - 1)
    if total = 0 ∨ clampedEnd < start then return none
    else
      let buf ← ofIo (← step (.readRange file.filePath start (clampedEnd - start + 1)))
      let _ ← step (.updateAccess file.id)
      return some (buf, file.contentType, total)

/-- A byte range of the decompressed form of a file that is not encrypted. -/
def getCompressedFileRange (bucket key : String) (start stop : Nat) :
    Op (Option (Bytes × String × Nat)) := do
  let file ← readMetadata bucket key
  if file.encrypted || !file.compressed then return none
  else
    let total := asU64 file.originalSize
    let clampedEnd := min stop (total - 1)
    if total = 0 ∨ clampedEnd < start then return none
    else
      let compressed ← ofIo (← step (.readFile file.filePath))
      match ← Prog.ofExcept (CompressionManager.decompressRange self.lib.toCodecs compressed start
          (clampedEnd - start + 1)) with
      | none => return none
      | some buf =>
        let _ ← step (.updateAccess file.id)
        return some (buf, file.contentType, total)

/-! ## Listings -/

/-- Unlike `getFile`, this goes by the table alone. -/
def getFileInfo (bucket key : String) : Op FileInfo := do
  let file ← dbGetFile bucket key
  expireFile bucket key file
  return FileInfo.ofStored file

def listFiles (bucket : String) (keyPrefix : Option String) (limit offset : Option Int) :
    Op (List FileInfo) := do
  let files ← ofSqlx (← step (.selectFiles bucket keyPrefix (limit.getD 100) (offset.getD 0)))
  return files.map FileInfo.ofStored

def searchFiles (bucket : Option String) (query : String) (limit : Option Int) :
    Op (List FileInfo) := do
  let files ← ofSqlx (← step (.searchFiles (bucket.getD "") query (limit.getD 100)))
  return files.map FileInfo.ofStored

end StorageManager

end LocalStorage
