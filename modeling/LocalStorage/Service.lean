import LocalStorage.EncryptionKeys
import LocalStorage.Lib.Permits
import LocalStorage.Lib.Relay
import LocalStorage.S3Deletes
import LocalStorage.Stats
import LocalStorage.Uploads

namespace LocalStorage.Service
open Lib

/-! # The whole service

The routes of `create_router` and the sweep, as the programs they run. -/

/-! ## Atomic steps -/

inductive ServiceAction where
  | object (a : Action)
  | selectBuckets
  | selectBucketStats (bucket : String)
  | selectTotalStats
  | insertKey (keyId : String) (keyData : Bytes)
  | selectKeys
  | deactivateKey (keyId : String)
  | selectOne
  | randomKey

abbrev ServiceResponse : ServiceAction → Type
  | .object a => Response a
  | .selectBuckets => Query (List String)
  | .selectBucketStats _ => Query (Int × Int)
  | .selectTotalStats => Query StorageStats
  | .insertKey _ _ => Query Unit
  | .selectKeys => Query (List EncryptionKey)
  | .deactivateKey _ => Query Unit
  | .selectOne => Query Unit
  | .randomKey => String × CipherKey

/-- The order of names is the locale's; that of keys is by a time the model does not keep. -/
structure ServiceChoice extends Choice where
  nameRank : String → Nat
  keyRank : EncryptionKey → Nat
  keyId : String
  keyData : CipherKey

def execService (h : Host) (c : ServiceChoice) : (a : ServiceAction) → World → ServiceResponse a × World
  | .object a, w => LocalStorage.exec h c.toChoice a w
  | .selectBuckets, w =>
    (answer c.toChoice (w.db.buckets.insertionSort (fun a b => c.nameRank a ≤ c.nameRank b)), w)
  | .selectBucketStats bucket, w => (answer c.toChoice (w.db.getBucketStats bucket), w)
  | .selectTotalStats, w => (answer c.toChoice (w.db.getTotalStats w.now), w)
  | .insertKey keyId keyData, w => statement c.toChoice w (w.db.createKey keyId keyData)
  | .selectKeys, w =>
    (answer c.toChoice ((w.db.encryptionKeys.rows.filter (·.isActive = some true)).insertionSort
      (fun a b => c.keyRank a ≤ c.keyRank b)), w)
  | .deactivateKey keyId, w => statement c.toChoice w (.ok (w.db.deactivateKey keyId))
  | .selectOne, w => (answer c.toChoice (), w)
  | .randomKey, w => ((c.keyId, c.keyData), w)

abbrev ServiceOp := Prog ServiceAction ServiceResponse StorageError

def serviceStep (a : ServiceAction) : ServiceOp (ServiceResponse a) := Prog.call a

/-- The `?` operator on a query. -/
def orSqlx {α : Type} (x : Query α) : ServiceOp α := Prog.ofExcept (x.mapError StorageError.ofSqlx)

/-- A program on the objects as one of the service. -/
def onObjects {E α : Type} (p : Prog Action Response E α) :
    Prog ServiceAction ServiceResponse E α :=
  p.relay .object fun _ r => r

/-! ## Health -/

def healthCheck : ServiceOp Nat := return 200

/-- The in-process cache is never down. -/
def healthCheckDeep : ServiceOp Nat := do
  let dbOk : Query Unit ← serviceStep .selectOne
  return if dbOk.isOk then 200 else 503

/-! ## Buckets -/

def listBuckets : ServiceOp (List String) := do
  orSqlx (← serviceStep .selectBuckets)

def createBucket (storage : StorageManager) (bucket : String) : ServiceOp Nat := do
  onObjects (storage.createBucket bucket)
  return 201

def deleteBucket (storage : StorageManager) (bucket : String) : ServiceOp Nat := do
  onObjects (storage.deleteBucket bucket)
  return 204

def getBucketStats (bucket : String) : ServiceOp StorageStats := do
  let (fileCount, totalSize) ← orSqlx (← serviceStep (.selectBucketStats bucket))
  let files ← orSqlx (← serviceStep (.object (.selectFiles bucket none 1000 0)))
  let compressedFiles := (files.filter (·.compressed)).length
  let encryptedFiles := (files.filter (·.encrypted)).length
  let now : Time ← serviceStep (.object .utcNow)
  return {
    totalFiles := fileCount
    totalSize := totalSize
    compressedFiles := compressedFiles
    encryptedFiles := encryptedFiles
    compressionRatio :=
      if 0 < compressedFiles then some ⟨files.filterMap (·.compressionRatio), compressedFiles⟩
      else none
    lastUpdated := now }

def getStorageStats : ServiceOp StorageStats := do
  let stats ← orSqlx (← serviceStep .selectTotalStats)
  let now : Time ← serviceStep (.object .utcNow)
  return { stats with lastUpdated := now }

/-! ## Files -/

structure ListFilesQuery where
  keyPrefix : Option String
  limit : Option Int
  offset : Option Int

structure SearchQuery where
  bucket : Option String
  query : String
  limit : Option Int

def listFiles (state : AppState) (bucket : String) (query : ListFilesQuery) (headers : HeaderMap) :
    Op (List FileInfo) := do
  Prog.ofExcept (requireDownloadToken state headers (some bucket))
  StorageManager.listFiles bucket query.keyPrefix query.limit query.offset

def searchFiles (state : AppState) (query : SearchQuery) (headers : HeaderMap) :
    Op (List FileInfo) := do
  Prog.ofExcept (requireDownloadToken state headers query.bucket)
  StorageManager.searchFiles query.bucket query.query query.limit

/-! ## Keys -/

/-- What is shown of a key; its bytes are not. -/
structure EncryptionKeyInfo where
  keyId : String
  isActive : Option Bool
deriving DecidableEq

def EncryptionKeyInfo.ofKey (key : EncryptionKey) : EncryptionKeyInfo := ⟨key.keyId, key.isActive⟩

def defaultAlgorithm : String := "aes-gcm"

def createEncryptionKey (algorithm : String) : ServiceOp EncryptionKey := do
  let _ ← Prog.ofExcept (EncryptionAlgorithm.fromStr algorithm)
  let (keyId, keyData) ← serviceStep .randomKey
  orSqlx (← serviceStep (.insertKey keyId keyData.val))
  return ⟨keyId, keyData.val, some true⟩

def createKey (algorithm : Option String) : ServiceOp EncryptionKeyInfo := do
  let key ← createEncryptionKey (algorithm.getD defaultAlgorithm)
  return .ofKey key

def listKeys : ServiceOp (List EncryptionKeyInfo) := do
  let keys ← orSqlx (← serviceStep .selectKeys)
  return keys.map .ofKey

def deactivateKey (keyId : String) : ServiceOp Nat := do
  orSqlx (← serviceStep (.deactivateKey keyId))
  return 204

/-! ## Requests -/

/-- The routes of `/v2`; `verified` is what the check of the signature comes to. -/
inductive S3Call where
  | listBuckets
  | createBucket (bucket : String)
  | deleteBucket (bucket : String)
  | listObjectsV2 (bucket : String) (query : S3.ListObjectsQuery)
  | bucketPost (bucket : String) (query : List (String × String)) (body : Bytes)
  | putObject (bucket key : String) (headers : HeaderMap) (body : Bytes)
  | getObject (bucket key : String)
  | headObject (bucket key : String)
  | deleteObject (bucket key : String)

inductive Call where
  | healthCheck
  | healthCheckDeep
  | uploadFile (bucket : String) (query : UploadQuery) (headers : HeaderMap) (body : Incoming)
  | listFiles (bucket : String) (query : ListFilesQuery) (headers : HeaderMap)
  | searchFiles (query : SearchQuery) (headers : HeaderMap)
  | handleFileRequest (bucket path : String) (headers : HeaderMap)
  | handleFileDelete (bucket path : String)
  | listBuckets
  | createBucket (bucket : String)
  | deleteBucket (bucket : String)
  | getBucketStats (bucket : String)
  | getStorageStats
  | createKey (algorithm : Option String)
  | listKeys
  | deactivateKey (keyId : String)
  | v2 (verified : Except S3.S3Error Unit) (call : S3Call)
  | sweepExpiredFiles

abbrev ServiceTask := Task ServiceAction ServiceResponse

/-- The service and the libraries its handlers read requests with. -/
structure App where
  state : AppState
  text : TextLibrary
  parseDelete : String → Except String (List String)

def App.storage (app : App) : StorageManager := app.state.storage

/-- The names alone: the model keeps no creation dates. -/
def S3Call.task (app : App) (verified : Except S3.S3Error Unit) : S3Call → ServiceTask
  | listBuckets =>
    ((Prog.ofExcept verified).bind fun _ => Service.listBuckets.mapError S3.S3Error.ofStorage).discard
  | createBucket bucket => (onObjects
      ((Prog.ofExcept verified).bind fun _ => S3.orS3 (app.storage.createBucket bucket))).discard
  | deleteBucket bucket => (onObjects
      ((Prog.ofExcept verified).bind fun _ => S3.orS3 (app.storage.deleteBucket bucket))).discard
  | listObjectsV2 bucket query => (onObjects (S3.listObjectsV2 verified bucket query)).discard
  | bucketPost bucket query body =>
    (onObjects (S3.bucketPost app.parseDelete verified bucket query body)).discard
  | putObject bucket key headers body =>
    (onObjects (S3.putObject app.storage verified bucket key headers body)).discard
  | getObject bucket key => (onObjects (S3.getObject app.storage verified bucket key)).discard
  | headObject bucket key => (onObjects (S3.headObject verified bucket key)).discard
  | deleteObject bucket key => (onObjects (S3.deleteObject verified bucket key)).discard

def Call.task (app : App) : Call → ServiceTask
  | healthCheck => Service.healthCheck.discard
  | healthCheckDeep => Service.healthCheckDeep.discard
  | uploadFile bucket query headers body =>
    (onObjects (LocalStorage.uploadFile app.storage app.text bucket query headers body)).discard
  | listFiles bucket query headers =>
    (onObjects (Service.listFiles app.state bucket query headers)).discard
  | searchFiles query headers => (onObjects (Service.searchFiles app.state query headers)).discard
  | handleFileRequest bucket path headers =>
    (onObjects (LocalStorage.handleFileRequest app.state bucket path headers)).discard
  | handleFileDelete bucket path => (onObjects (LocalStorage.handleFileDelete bucket path)).discard
  | listBuckets => Service.listBuckets.discard
  | createBucket bucket => (Service.createBucket app.storage bucket).discard
  | deleteBucket bucket => (Service.deleteBucket app.storage bucket).discard
  | getBucketStats bucket => (Service.getBucketStats bucket).discard
  | getStorageStats => Service.getStorageStats.discard
  | createKey algorithm => (Service.createKey algorithm).discard
  | listKeys => Service.listKeys.discard
  | deactivateKey keyId => (Service.deactivateKey keyId).discard
  | v2 verified call => call.task app verified
  | sweepExpiredFiles => (onObjects StorageManager.sweepExpiredFiles).discard

/-! ## The limit on requests -/

def maxConcurrentRequests : Nat := 100

/-- The routes behind `concurrency_limiter`: uploads have a router of their own, and so has
`/v2`. -/
def Call.limited : Call → Bool
  | uploadFile _ _ _ _ => false
  | v2 _ _ => false
  | sweepExpiredFiles => false
  | _ => true

/-- What happens by itself. -/
inductive Drift where
  | evict (gone : String → Bool)
  | tick (elapsed : Nat)

def Drift.Transition : Drift → World → World → Prop
  | evict gone, w, w' => w' = { w with cache := w.cache.evict gone }
  | tick elapsed, w, w' => w' = { w with now := w.now + elapsed }

abbrev Server : Type := Gated Call ServiceAction ServiceResponse World

abbrev ServerEvent : Type := GateEvent Call ServiceAction ServiceResponse Drift

/-- What arrives is a request to one of the routes, or the sweep. -/
def Served (app : App) (_ : Server) : ServerEvent → Prop
  | .arrive call p => p = call.task app
  | _ => True

/-- A history of the server: requests come, go on in any order at the same time, and end or
are dropped at any point, by the timeout or because the client is gone. -/
abbrev ServerRun (app : App) :=
  GateRun (execService app.storage.host) Drift.Transition Call.limited (Served app)

end LocalStorage.Service
