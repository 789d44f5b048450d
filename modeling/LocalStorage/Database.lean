import LocalStorage.Models
import LocalStorage.Lib.Table
import Mathlib.Data.List.Sort

namespace LocalStorage
open Lib

/-- A statement the database rejects: the SQLSTATE and the text of the error. -/
structure DbError where
  code : String
  message : String
deriving DecidableEq, Repr

/-- A query that fails: rejected by the database, or lost on the way to it. -/
inductive SqlxError where
  | database (e : DbError)
  | other (msg : String)
deriving DecidableEq, Repr

def SqlxError.toString : SqlxError → String
  | database e => s!"error returned from database: {e.message}"
  | other msg => msg

def StorageError.ofSqlx (e : SqlxError) : StorageError := .database e.toString

/-- A row of `storage_stats`; the ratio is counted in ten-thousandths, `DECIMAL(5,4)`. -/
structure BucketStats where
  totalFiles : Int
  totalSize : Int
  compressedFiles : Int
  encryptedFiles : Int
  compressionRatio : Int
deriving DecidableEq, Repr

structure Database where
  files : Table StoredFile.ident
  buckets : List String
  encryptionKeys : Table EncryptionKey.keyId
  storageStats : String → Option BucketStats

namespace Database

def empty : Database := ⟨Table.empty, [], Table.empty, fun _ => none⟩

/-! ## Column types and constraints -/

/-- The `VARCHAR` columns of `files` with their limits. -/
def varchars (f : StoredFile) : List (Option String × Nat) :=
  [(f.bucket, 255), (f.key, 1024), (f.filename, 1024), (f.contentType, 255),
   (f.hashBlake3, 64), (f.hashMd5, 32), (f.compressionAlgorithm, 50),
   (f.encryptionAlgorithm, 50), (f.encryptionKeyId, 64)]

def tooLong (limit : Nat) : DbError :=
  ⟨"22001", s!"value too long for type character varying({limit})"⟩

def fits (s : String) (limit : Nat) : Except DbError Unit :=
  if s.length ≤ limit then .ok () else .error (tooLong limit)

def notNull (column : String) (present : Bool) : Except DbError Unit :=
  if present then .ok ()
  else
    .error ⟨"23502",
      s!"null value in column \"{column}\" of relation \"files\" violates not-null constraint"⟩

def check (relation name : String) (holds : Bool) : Except DbError Unit :=
  if holds then .ok ()
  else
    .error ⟨"23514",
      s!"new row for relation \"{relation}\" violates check constraint \"{name}\""⟩

def foreignKey (name : String) (holds : Bool) : Except DbError Unit :=
  if holds then .ok ()
  else
    .error ⟨"23503",
      s!"insert or update on table \"files\" violates foreign key constraint \"{name}\""⟩

def ratioValid : Option Ratio → Bool
  | none => true
  | some r => r.part ≤ r.whole

def cacheStatusValid : Option String → Bool
  | none => true
  | some s => s == "not_cached" || s == "cached" || s == "pending"

/-- What one row must satisfy by itself. -/
def checkRow (f : StoredFile) : Except DbError Unit := do
  (varchars f).forM (fun (s, limit) => match s with
    | some s => fits s limit
    | none => .ok ())
  notNull "is_compressed" f.isCompressed.isSome
  notNull "is_encrypted" f.isEncrypted.isSome
  notNull "upload_time" f.uploadTime.isSome
  check "files" "valid_file_size" (0 ≤ f.fileSize)
  check "files" "valid_original_size" (0 ≤ f.originalSize)
  check "files" "valid_access_count" (0 ≤ f.accessCount)
  check "files" "valid_compression_ratio" (ratioValid f.compressionRatio)
  check "files" "valid_cache_status" (cacheStatusValid f.cacheStatus)

/-! ## The statistics trigger -/

/-- `n / d` in ten-thousandths, rounded half away from zero. -/
def tenThousandths (n d : Int) : Int :=
  if 0 ≤ n then (20000 * n + d) / (2 * d) else -((20000 * -n + d) / (2 * d))

def statsOf (rows : List StoredFile) : BucketStats :=
  let total := (rows.map (·.fileSize)).sum
  let base := (rows.map (fun f => if f.compressed then f.originalSize else f.fileSize)).sum
  { totalFiles := rows.length
    totalSize := total
    compressedFiles := (rows.filter (·.compressed)).length
    encryptedFiles := (rows.filter (·.encrypted)).length
    compressionRatio := if 0 < base then tenThousandths (base - total) base else 0 }

def inRange (limit n : Int) (message : String) : Except DbError Unit :=
  if -limit ≤ n ∧ n < limit then .ok () else .error ⟨"22003", message⟩

/-- `update_storage_stats`: a bucket without rows leaves its old statistics. -/
def refreshStats (db : Database) (bucket : String) : Except DbError Database :=
  let rows := db.files.rows.filter (·.bucket = bucket)
  if rows = [] then .ok db
  else do
    let s := statsOf rows
    inRange (2 ^ 63) s.totalSize "bigint out of range"
    inRange 100000 s.compressionRatio "numeric field overflow"
    check "storage_stats" "valid_stats"
      (0 ≤ s.totalSize && 0 ≤ s.compressionRatio && s.compressionRatio ≤ 10000)
    .ok { db with storageStats := fun b => if b = bucket then some s else db.storageStats b }

/-! ## Statements -/

/-- What the upsert leaves of the row it replaces: `id` and the cache columns, which an
insert fills with their defaults. -/
def mergeRow (old : Option StoredFile) (f : StoredFile) : StoredFile :=
  match old with
  | some o =>
    { f with id := o.id, cacheStatus := o.cacheStatus, lastCacheUpdate := o.lastCacheUpdate
             cacheHits := o.cacheHits, cachePriority := o.cachePriority }
  | none =>
    { f with cacheStatus := some "not_cached", lastCacheUpdate := none, cacheHits := some 0
             cachePriority := some 0 }

/-- `INSERT INTO files … ON CONFLICT (bucket, key) DO UPDATE`. -/
def upsertFile (db : Database) (f : StoredFile) : Except DbError Database := do
  let old := db.files.find f.ident
  let row := mergeRow old f
  checkRow row
  if old.isNone && db.files.rows.any (·.id = f.id) then
    .error ⟨"23505", "duplicate key value violates unique constraint \"files_pkey\""⟩
  foreignKey "files_bucket_fkey" (db.buckets.contains f.bucket)
  foreignKey "files_encryption_key_id_fkey"
    (f.encryptionKeyId.all (fun k => (db.encryptionKeys.find k).isSome))
  refreshStats { db with files := db.files.put row } f.bucket

def bucketExists (db : Database) (name : String) : Bool := db.buckets.contains name

/-- `INSERT INTO buckets … ON CONFLICT (name) DO NOTHING`. -/
def insertBucket (db : Database) (name : String) : Except DbError Database := do
  fits name 255
  .ok (if db.buckets.contains name then db else { db with buckets := db.buckets ++ [name] })

/-- `DELETE FROM buckets`, with the rows the foreign key takes along; `none` when no
bucket has the name. -/
def deleteBucketRow (db : Database) (name : String) : Option Database :=
  if db.buckets.contains name then
    some { db with buckets := db.buckets.filter (· ≠ name)
                   files := db.files.filter (fun f => f.bucket ≠ name) }
  else none

def selectFile (db : Database) (bucket key : String) : Option StoredFile :=
  db.files.find (bucket, key)

/-- Rows come back in an order of the environment's choosing where no `ORDER BY` fixes it. -/
def orderBy (rank : StoredFile → Nat) (rows : List StoredFile) : List StoredFile :=
  rows.insertionSort (fun a b => rank a ≤ rank b)

def selectFileByHash (db : Database) (hash : String) (rank : StoredFile → Nat) :
    Option StoredFile :=
  (orderBy rank (db.files.rows.filter (·.hashBlake3 = hash))).head?

def selectBucketFiles (db : Database) (bucket : String) (rank : StoredFile → Nat) :
    List (String × String) :=
  (orderBy rank (db.files.rows.filter (·.bucket = bucket))).map (fun f => (f.key, f.filePath))

def expired (now : Time) (f : StoredFile) : Bool :=
  match f.expiresAt with
  | some t => t < now
  | none => false

def selectExpired (db : Database) (now : Time) (rank : StoredFile → Nat) :
    List (String × String) :=
  (orderBy rank (db.files.rows.filter (expired now))).map StoredFile.ident

def countReferences (db : Database) (path : String) : Nat :=
  (db.files.rows.filter (·.filePath = path)).length

def countOtherReferences (db : Database) (path bucket key : String) : Nat :=
  (db.files.rows.filter (fun f => f.filePath = path ∧ f.ident ≠ (bucket, key))).length

def deleteFileRow (db : Database) (bucket key : String) : Except DbError Database :=
  match db.files.find (bucket, key) with
  | none => .ok db
  | some _ => refreshStats { db with files := db.files.erase (bucket, key) } bucket

def touch (id : Uuid) (now : Time) (f : StoredFile) : StoredFile :=
  if f.id = id then { f with lastAccessed := some now, accessCount := f.accessCount + 1 } else f

theorem touch_ident (id : Uuid) (now : Time) (f : StoredFile) :
    (touch id now f).ident = f.ident := by
  unfold touch
  split <;> rfl

def updateAccess (db : Database) (id : Uuid) (now : Time) : Except DbError Database :=
  match db.files.rows.find? (·.id = id) with
  | none => .ok db
  | some f =>
    refreshStats { db with files := db.files.update (touch id now) (touch_ident id now) } f.bucket

/-! ## Listings -/

/-- SQL `LIKE` with the default escape character. -/
def like : List Char → List Char → Bool
  | [], s => s.isEmpty
  | '%' :: p, s => s.tails.any (fun rest => like p rest)
  | '_' :: p, s =>
    match s with
    | [] => false
    | _ :: t => like p t
  | '\\' :: c :: p, s =>
    match s with
    | [] => false
    | x :: t => x == c && like p t
  | c :: p, s =>
    match s with
    | [] => false
    | x :: t => x == c && like p t

def ilike (lower : List Char → List Char) (pattern s : List Char) : Bool :=
  like (lower pattern) (lower s)

/-- `ORDER BY upload_time DESC`; rows of one instant come in the environment's order. -/
def newestFirst (rank : StoredFile → Nat) (rows : List StoredFile) : List StoredFile :=
  (orderBy rank rows).insertionSort (fun a b => b.uploadTime.getD 0 ≤ a.uploadTime.getD 0)

def page (rows : List StoredFile) (limit offset : Int) : Except DbError (List StoredFile) :=
  if limit < 0 then .error ⟨"2201W", "LIMIT must not be negative"⟩
  else if offset < 0 then .error ⟨"2201X", "OFFSET must not be negative"⟩
  else .ok ((rows.drop offset.toNat).take limit.toNat)

def prefixMatches (keyPrefix : Option String) (f : StoredFile) : Bool :=
  match keyPrefix with
  | some p => like (p.toList ++ ['%']) f.key.toList
  | none => true

def selectFiles (db : Database) (rank : StoredFile → Nat) (bucket : String)
    (keyPrefix : Option String) (limit offset : Int) : Except DbError (List StoredFile) :=
  page (newestFirst rank (db.files.rows.filter
    (fun f => f.bucket = bucket && prefixMatches keyPrefix f))) limit offset

def searchMatches (lower : List Char → List Char) (query : String) (f : StoredFile) : Bool :=
  let pattern := '%' :: query.toList ++ ['%']
  ilike lower pattern f.key.toList || ilike lower pattern f.filename.toList ||
    ilike lower pattern f.contentType.toList ||
    match f.metadata with
    | some m => ilike lower pattern m.toList
    | none => false

/-- An empty bucket name searches every bucket. -/
def searchFiles (db : Database) (lower : List Char → List Char) (rank : StoredFile → Nat)
    (bucket query : String) (limit : Int) : Except DbError (List StoredFile) :=
  page (newestFirst rank (db.files.rows.filter
    (fun f => (bucket.isEmpty || f.bucket = bucket) && searchMatches lower query f))) limit 0

def selectKey (db : Database) (keyId : String) : Option EncryptionKey :=
  (db.encryptionKeys.find keyId).filter (fun k => k.isActive = some true)

end Database

end LocalStorage
