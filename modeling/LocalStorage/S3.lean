import LocalStorage.Handlers

namespace LocalStorage.S3
open Lib

/-! # The S3 routes -/

structure S3Error where
  status : Nat
  code : String
  message : String
  resource : String
deriving DecidableEq

/-- `Display` of a storage error. -/
def display : StorageError → String
  | .notFound b k => s!"File not found: {b}/{k}"
  | .alreadyExists b k => s!"File already exists: {b}/{k}"
  | .invalidBucket msg => s!"Invalid bucket: {msg}"
  | .validation msg => s!"Validation error: {msg}"
  | .badRequest msg => s!"Bad request: {msg}"
  | .payloadTooLarge msg => s!"Payload too large: {msg}"
  | .database msg => s!"Database error: {msg}"
  | .io msg => s!"IO error: {msg}"
  | .compression msg => s!"Compression error: {msg}"
  | .encryption msg => s!"Encryption error: {msg}"
  | .invalidEncryptionAlgorithm msg => s!"Invalid encryption algorithm: {msg}"
  | .forbidden msg => s!"Forbidden: {msg}"

namespace S3Error

def noSuchKey (bucket key : String) : S3Error :=
  ⟨404, "NoSuchKey", "The specified key does not exist", s!"/{bucket}/{key}"⟩

def invalidRequest (message : String) : S3Error := ⟨400, "InvalidRequest", message, ""⟩

def internal (message : String) : S3Error := ⟨500, "InternalError", message, ""⟩

/-- `S3Error::from`. -/
def ofStorage : StorageError → S3Error
  | .notFound b k => noSuchKey b k
  | .invalidBucket msg => ⟨404, "NoSuchBucket", msg, msg⟩
  | .alreadyExists b k => ⟨409, "KeyAlreadyExists", s!"Object already exists: {b}/{k}", s!"/{b}/{k}"⟩
  | .validation msg => invalidRequest msg
  | .badRequest msg => invalidRequest msg
  | .payloadTooLarge msg => ⟨413, "EntityTooLarge", msg, ""⟩
  | other => internal (display other)

end S3Error

abbrev S3Op := Prog Action Response S3Error

def orS3 {α : Type} (p : Op α) : S3Op α := p.mapError S3Error.ofStorage

/-- One object of a listing; the time is formatted only in the answer. -/
structure Content where
  key : String
  lastModified : Time
  etag : String
  size : Int
  storageClass : String
deriving DecidableEq

structure ListBucketResult where
  name : String
  keyPrefix : String
  keyCount : Nat
  maxKeys : Int
  isTruncated : Bool
  contents : List Content
deriving DecidableEq

inductive S3Body where
  | empty
  | bytes (content : Bytes)
  | listing (result : ListBucketResult)
deriving DecidableEq

structure S3Response where
  status : Nat
  headers : List (String × String)
  body : S3Body
deriving DecidableEq

def S3Response.header (r : S3Response) (name : String) : Option String :=
  (r.headers.find? (·.1 = name)).map Prod.snd

def etag (hashMd5 : String) : String := "\"" ++ hashMd5 ++ "\""

/-- A header that is left out when its value is none that a header can hold. -/
def headerIfValid (name value : String) : List (String × String) :=
  if isHeaderValue value then [(name, value)] else []

structure ListObjectsQuery where
  keyPrefix : Option String
  maxKeys : Option Int

/-- `verified` is what the check of the signature comes to. -/
def listObjectsV2 (verified : Except S3Error Unit) (bucket : String) (query : ListObjectsQuery) :
    S3Op S3Response := do
  Prog.ofExcept verified
  let maxKeys := max 1 (min 1000 (query.maxKeys.getD 1000))
  -- one more than asked for tells whether the result is truncated
  let files ← orS3 (StorageManager.listFiles bucket query.keyPrefix (some (maxKeys + 1)) (some 0))
  let shown := files.take maxKeys.toNat
  return ⟨200, [("content-type", "application/xml")], .listing
    { name := bucket
      keyPrefix := query.keyPrefix.getD ""
      keyCount := shown.length
      maxKeys := maxKeys
      isTruncated := decide (maxKeys < files.length)
      contents := shown.map fun f =>
        { key := f.key
          lastModified := f.uploadTime
          etag := etag f.hashMd5
          size := f.fileSize
          storageClass := "STANDARD" } }⟩

/-- The body is read first, the record for the entity tag after it. -/
def getObject (storage : StorageManager) (verified : Except S3Error Unit) (bucket key : String) :
    S3Op S3Response := do
  Prog.ofExcept verified
  let (content, contentType) ← orS3 (storage.getFile bucket key)
  let info ← orS3 (StorageManager.getFileInfo bucket key)
  let contentType := (contentType.filter isHeaderValue).getD "application/octet-stream"
  return ⟨200, ("content-type", contentType) :: headerIfValid "etag" (etag info.hashMd5),
    .bytes content⟩

def headObject (verified : Except S3Error Unit) (bucket key : String) : S3Op S3Response := do
  Prog.ofExcept verified
  let info ← orS3 (StorageManager.getFileInfo bucket key)
  return ⟨200, headerIfValid "content-type" info.contentType ++
    headerIfValid "etag" (etag info.hashMd5) ++
    headerIfValid "content-length" (toString info.fileSize), .empty⟩

end LocalStorage.S3
