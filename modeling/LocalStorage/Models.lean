import Mathlib.Algebra.GroupWithZero.Nat
import Mathlib.Algebra.Ring.Int.Defs
import Mathlib.Data.List.Basic

namespace LocalStorage

abbrev Bytes := List UInt8

/-- Microseconds, the resolution at which the database keeps a timestamp. -/
abbrev Time := Int

abbrev Uuid := BitVec 128

/-- `compression_ratio` as the two lengths it is the quotient of. -/
structure Ratio where
  part : Nat
  whole : Nat
deriving DecidableEq, Repr

/-! ## Configuration -/

structure CompressionConfig where
  enabled : Bool
  algorithm : String
  level : Int
  minSize : Nat
deriving DecidableEq, Repr

structure CryptoConfig where
  enabled : Bool
  algorithm : String
  key : Option String
deriving DecidableEq, Repr

structure StorageConfig where
  path : String
  maxFileSize : Nat
  enableDeduplication : Bool
deriving DecidableEq, Repr

structure Config where
  storage : StorageConfig
  crypto : CryptoConfig
  compression : CompressionConfig
deriving DecidableEq, Repr

/-- Per-upload overrides; a field left `none` falls back to the configuration. -/
structure StoreOptions where
  compress : Option Bool := none
  encrypt : Option Bool := none
  expiresAt : Option Time := none
  compressionAlgorithm : Option String := none
  compressionLevel : Option Int := none
  encryptionKeyId : Option String := none
  metadata : Option String := none
deriving DecidableEq, Repr

/-! ## Rows -/

structure StoredFile where
  id : Uuid
  bucket : String
  key : String
  filename : String
  filePath : String
  fileSize : Int
  originalSize : Int
  contentType : String
  hashBlake3 : String
  hashMd5 : String
  metadata : Option String
  isCompressed : Option Bool
  isEncrypted : Option Bool
  compressionAlgorithm : Option String
  encryptionAlgorithm : Option String
  compressionRatio : Option Ratio
  uploadTime : Option Time
  lastAccessed : Option Time
  accessCount : Int
  encryptionKeyId : Option String
  compressionEnabled : Option Bool
  encryptionEnabled : Option Bool
  compressionLevel : Option Int
  cacheStatus : Option String
  lastCacheUpdate : Option Time
  cacheHits : Option Int
  cachePriority : Option Int
  expiresAt : Option Time
deriving DecidableEq, Repr

namespace StoredFile

/-- What `unique_bucket_key` identifies a row by. -/
def ident (f : StoredFile) : String × String := (f.bucket, f.key)

def compressed (f : StoredFile) : Bool := f.isCompressed.getD false
def encrypted (f : StoredFile) : Bool := f.isEncrypted.getD false

end StoredFile

/-- What the listings and the info route show of a row. -/
structure FileInfo where
  id : Uuid
  bucket : String
  key : String
  filename : String
  fileSize : Int
  originalSize : Int
  contentType : String
  hashBlake3 : String
  hashMd5 : String
  metadata : Option String
  isCompressed : Bool
  isEncrypted : Bool
  compressionAlgorithm : Option String
  encryptionAlgorithm : Option String
  compressionRatio : Option Ratio
  uploadTime : Time
  lastAccessed : Option Time
  accessCount : Int
  compressionEnabled : Bool
  encryptionEnabled : Bool
  encryptionKeyId : Option String
  expiresAt : Option Time
deriving DecidableEq, Repr

/-- `FileInfo::from`. -/
def FileInfo.ofStored (f : StoredFile) : FileInfo where
  id := f.id
  bucket := f.bucket
  key := f.key
  filename := f.filename
  fileSize := f.fileSize
  originalSize := f.originalSize
  contentType := f.contentType
  hashBlake3 := f.hashBlake3
  hashMd5 := f.hashMd5
  metadata := f.metadata
  isCompressed := f.isCompressed.getD false
  isEncrypted := f.isEncrypted.getD false
  compressionAlgorithm := f.compressionAlgorithm
  encryptionAlgorithm := f.encryptionAlgorithm
  compressionRatio := f.compressionRatio
  uploadTime := f.uploadTime.getD 0
  lastAccessed := f.lastAccessed
  accessCount := f.accessCount
  compressionEnabled := f.compressionEnabled.getD false
  encryptionEnabled := f.encryptionEnabled.getD false
  encryptionKeyId := f.encryptionKeyId
  expiresAt := f.expiresAt

structure EncryptionKey where
  keyId : String
  keyData : Bytes
  isActive : Option Bool
deriving DecidableEq, Repr

/-- `key.split('/').last().unwrap_or(key)`. -/
def filenameOf (key : String) : String :=
  match (key.toList.splitOn '/').getLast? with
  | some n => String.ofList n
  | none => key

/-! ## Errors -/

inductive StorageError where
  | notFound (bucket key : String)
  | alreadyExists (bucket key : String)
  | invalidBucket (msg : String)
  | validation (msg : String)
  | badRequest (msg : String)
  | payloadTooLarge (msg : String)
  | database (msg : String)
  | io (msg : String)
  | compression (msg : String)
  | encryption (msg : String)
  | invalidEncryptionAlgorithm (msg : String)
  | forbidden (msg : String)
deriving DecidableEq, Repr

abbrev Result := Except StorageError

/-- An input/output error; those the operating system reports carry its number. -/
structure IoError where
  code : Option Nat
  msg : String
deriving DecidableEq, Repr

namespace IoError

def toString (e : IoError) : String :=
  match e.code with
  | some n => s!"{e.msg} (os error {n})"
  | none => e.msg

def noEntry : IoError := ⟨some 2, "No such file or directory"⟩
def fileExists : IoError := ⟨some 17, "File exists"⟩
def notDirectory : IoError := ⟨some 20, "Not a directory"⟩
def isDirectory : IoError := ⟨some 21, "Is a directory"⟩
def invalidArgument : IoError := ⟨some 22, "Invalid argument"⟩
def unexpectedEof : IoError := ⟨none, "failed to fill whole buffer"⟩
def writeZero : IoError := ⟨none, "failed to write whole buffer"⟩

end IoError

def StorageError.ofIo (e : IoError) : StorageError := .io e.toString

/-- `msg.contains(part)`. -/
def containsText (msg part : String) : Bool :=
  msg.toList.tails.any (fun rest => part.toList.isPrefixOf rest)

end LocalStorage
