import LocalStorage.Lib.Panics
import LocalStorage.S3

namespace LocalStorage
open Lib Lib.Text

/-! # The upload routes -/

/-- Text functions of other libraries. -/
structure TextLibrary where
  /-- `urlencoding::decode`. -/
  urlDecode : List Char → Option (List Char)
  /-- `String::from_utf8_lossy`. -/
  fromUtf8Lossy : Bytes → List Char

/-- A request handler; sums of times panic out of range. -/
abbrev Handler (E α : Type) : Type := Prog Action Response (Stop E) α

def checkedStep {E : Type} (a : Action) : Handler E (Response a) := Prog.call a

def orFail {E α : Type} (x : Except E α) : Handler E α := (Prog.ofExcept x).lifted

@[simp] theorem orFail_ok {E α : Type} (a : α) : (orFail (.ok a) : Handler E α) = .ret a := rfl
@[simp] theorem orFail_error {E α : Type} (e : E) :
    (orFail (.error e) : Handler E α) = .fail (.error e) := rfl

/-- The status of the answer an error becomes on the native routes. -/
def StorageError.status : StorageError → Nat
  | .notFound _ _ => 404
  | .alreadyExists _ _ => 409
  | .invalidBucket _ => 400
  | .validation _ => 400
  | .badRequest _ => 400
  | .payloadTooLarge _ => 413
  | .database _ => 500
  | .io _ => 500
  | .compression _ => 500
  | .encryption _ => 500
  | .invalidEncryptionAlgorithm _ => 500
  | .forbidden _ => 403

/-! ## Lifetimes -/

/-- The last microsecond of the calendar. -/
def lastInstant : Time := 8210266876799999999

/-- `now + Duration::seconds(ttl)`, which panics beyond its ranges. -/
def addSeconds (now : Time) (ttl : Int) : Option Time :=
  if ttl ≤ 9223372036854775 ∧ now + ttl * 1000000 ≤ lastInstant then some (now + ttl * 1000000)
  else none

/-- Both routes take a positive lifetime or none. -/
def expiryAfter {E : Type} (invalid : E) : Option Int → Handler E (Option Time)
  | none => return none
  | some ttl => do
    if ttl ≤ 0 then .fail (.error invalid)
    else return some (← Prog.unwrap (addSeconds (← checkedStep .utcNow) ttl))

/-! ## The native route -/

structure UploadQuery where
  compress : Option Bool := none
  encrypt : Option Bool := none
  compressionAlgorithm : Option String := none
  compressionLevel : Option Int := none
  encryptionKeyId : Option String := none
  ttlSeconds : Option Int := none

/-- What stands before `quote`, where the rest has one. -/
def upTo (quote : Char) (s : List Char) : Option (List Char) := (splitOnce quote s).map Prod.fst

/-- The name after `filename=`, without its quotes. -/
def unquoted (part : List Char) : List Char :=
  match part with
  | '"' :: rest => (upTo '"' rest).getD part
  | '\'' :: rest => (upTo '\'' rest).getD part
  | _ => (upTo ';' part).getD part

def extractFilenameFromContentDisposition (text : TextLibrary) (headers : HeaderMap) :
    Option String := do
  let value ← (headers.find? (·.1 = "content-disposition")).map Prod.snd
  let disposition := ((headerText value).map String.toList).getD (text.fromUtf8Lossy value)
  let (_, rest) ← splitAtText "filename=".toList disposition
  -- a second `filename=` ends the part
  let part := ((splitAtText "filename=".toList rest).map Prod.fst).getD rest
  let filename := unquoted (trim part)
  match stripPrefix "UTF-8''".toList filename with
  | some encoded => (text.urlDecode encoded).map String.ofList
  | none => some (String.ofList ((text.urlDecode filename).getD filename))

/-- A request body: what arrives of it, and how it breaks off if it does. -/
structure Incoming where
  received : Bytes
  failure : Option String

/-- `axum::body::to_bytes`. -/
def toBytes (body : Incoming) (limit : Nat) : Except String Bytes :=
  if limit < body.received.length then .error "length limit exceeded"
  else
    match body.failure with
    | some message => .error message
    | none => .ok body.received

def maxFileSize (storage : StorageManager) : Nat := storage.config.storage.maxFileSize

/-- The name in the header, or one made from the time. -/
def uploadName (text : TextLibrary) (headers : HeaderMap) : Handler StorageError String :=
  match extractFilenameFromContentDisposition text headers with
  | some filename => return filename
  | none => do
    let now ← checkedStep .utcNow
    return s!"file_{now / 1000000}.bin"

/-- A body that is said to be too large is not read. -/
def checkDeclared (headers : HeaderMap) (maxSize : Nat) : Result Unit :=
  match (headers.text "content-length").bind (parseU64 ·.toList) with
  | some len =>
    if maxSize < len then
      .error (.payloadTooLarge s!"Content-Length {len} exceeds max file size {maxSize} bytes")
    else .ok ()
  | none => .ok ()

def readBody (body : Incoming) (maxSize : Nat) : Result Bytes :=
  match toBytes body maxSize with
  | .error e =>
    if containsText e "length limit exceeded" then
      .error (.payloadTooLarge s!"Body exceeds max file size {maxSize} bytes")
    else .error (.badRequest s!"Failed to read body: {e}")
  | .ok bytes => if bytes = [] then .error (.badRequest "No file content provided") else .ok bytes

def invalidTtlSeconds (query : UploadQuery) : StorageError :=
  .badRequest s!"ttl_seconds must be a positive number, got {query.ttlSeconds.getD 0}"

def uploadFile (storage : StorageManager) (text : TextLibrary) (bucket : String)
    (query : UploadQuery) (headers : HeaderMap) (body : Incoming) :
    Handler StorageError HttpResponse := do
  let filename ← uploadName text headers
  let contentType := (headers.text "content-type").getD "application/octet-stream"
  let maxSize := maxFileSize storage
  orFail (checkDeclared headers maxSize)
  let bytes ← orFail (readBody body maxSize)
  let expiresAt ← expiryAfter (invalidTtlSeconds query) query.ttlSeconds
  let file ← (storage.storeFile bucket filename bytes (some contentType)
    { compress := query.compress
      encrypt := query.encrypt
      expiresAt := expiresAt
      compressionAlgorithm := query.compressionAlgorithm
      compressionLevel := query.compressionLevel
      encryptionKeyId := query.encryptionKeyId }).lifted
  return ⟨201, [("content-type", "application/json")], .json (FileInfo.ofStored file)⟩

namespace S3

/-! ## The S3 route -/

/-- The answer to a stored object is its entity tag, to a copy a document with the time. -/
inductive PutResponse where
  | stored (etag : String)
  | copied (etag : String) (lastModified : Option Time)
deriving DecidableEq

/-- Bucket and key of a copy source: what stands left and right of the first slash after any
leading ones. -/
def copySource (source : String) : Option (String × String) :=
  (splitOnce '/' (source.toList.dropWhile (· = '/'))).map fun (bucket, key) =>
    (String.ofList bucket, String.ofList key)

def copyObject (storage : StorageManager) (bucket key source : String) : S3Op PutResponse := do
  match copySource source with
  | none => .fail (.invalidRequest "Invalid x-amz-copy-source")
  | some (srcBucket, srcKey) =>
    let (content, contentType) ← orS3 (storage.getFile srcBucket srcKey)
    let file ← orS3 (storage.storeFile bucket key content contentType {})
    return .copied (etag file.hashMd5) file.uploadTime

def invalidTtl : S3Error := .invalidRequest "X-Ttl-Seconds must be a positive integer"

/-- The lifetime in the header, if there is one. -/
def ttlSeconds (headers : HeaderMap) : Except S3Error (Option Int) :=
  match headers.text "x-ttl-seconds" with
  | none => .ok none
  | some raw =>
    match parseI64 raw.toList with
    | none => .error invalidTtl
    | some ttl => .ok (some ttl)

def putBody (storage : StorageManager) (bucket key : String) (headers : HeaderMap) (body : Bytes) :
    Handler S3Error PutResponse := do
  let contentType := headers.text "content-type"
  let ttl ← orFail (ttlSeconds headers)
  let expiresAt ← expiryAfter invalidTtl ttl
  let file ← (orS3 (storage.storeFile bucket key body contentType
    { expiresAt := expiresAt })).lifted
  return .stored (etag file.hashMd5)

/-- A copy is told by its header, and by nothing else. -/
def putObject (storage : StorageManager) (verified : Except S3Error Unit) (bucket key : String)
    (headers : HeaderMap) (body : Bytes) : Handler S3Error PutResponse := do
  orFail verified
  match headers.text "x-amz-copy-source" with
  | some source => (copyObject storage bucket key source).lifted
  | none => putBody storage bucket key headers body

end S3

end LocalStorage
