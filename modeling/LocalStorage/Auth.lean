import Mathlib.Data.List.Lex
import Mathlib.Data.List.Sort
import LocalStorage.Uploads

namespace LocalStorage
open Lib Lib.Text

/-! # Signatures of requests -/

namespace HeaderMap

/-- The new value replaces all others of the name. -/
def insert (headers : HeaderMap) (name : String) (value : Bytes) : HeaderMap :=
  headers.filter (·.1 ≠ name) ++ [(name, value)]

def keys (headers : HeaderMap) : List String := (headers.map Prod.fst).dedup

end HeaderMap

namespace S3

/-- What signatures need of other libraries. -/
structure SigningLibrary extends TextLibrary where
  hmacSha256 : Bytes → Bytes → Bytes
  sha256 : Bytes → Bytes
  /-- `parse_from_str` with `%Y%m%dT%H%M%SZ`. -/
  parseTime : List Char → Option Time
  /-- `format` with `%Y%m%d`. -/
  day : Time → List Char

structure S3Config where
  accessKey : String
  secretKey : String
  region : String
deriving DecidableEq

structure Uri where
  path : List Char
  query : Option (List Char)

namespace S3Error

def accessDenied (message : String) : S3Error := ⟨403, "AccessDenied", message, ""⟩

def signatureDoesNotMatch : S3Error :=
  ⟨403, "SignatureDoesNotMatch",
    "The request signature we calculated does not match the signature you provided", ""⟩

def requestTimeTooSkewed (path : List Char) : S3Error :=
  ⟨403, "RequestTimeTooSkewed",
    "The difference between the request time and the current time is too large", String.ofList path⟩

def streamingNotImplemented (path : List Char) : S3Error :=
  ⟨501, "NotImplemented", "Chunked/streaming signed payloads (STREAMING-AWS4-HMAC-SHA256-PAYLOAD) " ++
    "are not supported yet", String.ofList path⟩

end S3Error

/-- `Option::ok_or_else`. -/
def okOr {ε α : Type} (e : ε) : Option α → Except ε α
  | none => .error e
  | some a => .ok a

def sha256Hex (lib : SigningLibrary) (data : Bytes) : List Char := hexEncode (lib.sha256 data)

/-- All bytes are looked at, wherever the first difference is. -/
def constantTimeEq (a b : Bytes) : Bool :=
  if a.length ≠ b.length then false
  else (a.zip b).foldl (fun diff (x, y) => diff ||| (x ^^^ y)) 0 = 0

/-! ## The Authorization header -/

structure ParsedAuth where
  accessKey : List Char
  date : List Char
  region : List Char
  signedHeaders : List (List Char)
  signature : List Char
deriving DecidableEq

/-- The parts that were found so far; of two of a kind the later one counts. -/
structure AuthParts where
  credential : Option (List Char) := none
  signedHeaders : Option (List Char) := none
  signature : Option (List Char) := none
deriving DecidableEq

def AuthParts.read (parts : AuthParts) (part : List Char) : AuthParts :=
  let part := trim part
  match stripPrefix "Credential=".toList part with
  | some v => { parts with credential := some v }
  | none =>
    match stripPrefix "SignedHeaders=".toList part with
    | some v => { parts with signedHeaders := some v }
    | none =>
      match stripPrefix "Signature=".toList part with
      | some v => { parts with signature := some v }
      | none => parts

def authParts (header : List Char) : AuthParts := (header.splitOn ',').foldl AuthParts.read {}

def scheme : List Char := "AWS4-HMAC-SHA256 ".toList

/-- Names of headers are sorted by their bytes; the text is ASCII here. -/
def sortedNames (names : List (List Char)) : List (List Char) := names.insertionSort (· ≤ ·)

/-- Service and terminator have to be there, and nothing else is asked of them. -/
def parseAuthorization (header : List Char) : Option ParsedAuth := do
  let parts := authParts (← stripPrefix scheme header)
  match splitN '/' 5 (← parts.credential) with
  | [accessKey, date, region, _, _] =>
    let signedHeaders := ((← parts.signedHeaders).splitOn ';').map fun s => s.map Char.toLower
    return ⟨accessKey, date, region, sortedNames signedHeaders, ← parts.signature⟩
  | _ => none

/-! ## The canonical request -/

/-- Letters, digits and four marks pass; other bytes become two hexadecimal digits. -/
def uriEncode (input : List Char) (preserveSlash : Bool) : List Char :=
  (asBytes input).flatMap fun byte =>
    let c := Char.ofUInt8 byte
    if c.isAlphanum || c ∈ ['-', '_', '.', '~'] then [c]
    else if preserveSlash && c = '/' then [c]
    else '%' :: (hexEncode [byte]).map Char.toUpper

def decodeOrOriginal (lib : SigningLibrary) (s : List Char) : List Char := (lib.urlDecode s).getD s

def canonicalUri (lib : SigningLibrary) (path : List Char) : List Char :=
  if path = [] then ['/']
  else
    List.intercalate ['/'] ((path.splitOn '/').map fun segment =>
      uriEncode (decodeOrOriginal lib segment) false)

def canonicalQueryString (lib : SigningLibrary) (query : List Char) : List Char :=
  if query = [] then []
  else
    let pairs := ((query.splitOn '&').filter (· ≠ [])).map fun pair =>
      let it := splitN '=' 2 pair
      (decodeOrOriginal lib (it.getD 0 []), decodeOrOriginal lib (it.getD 1 []))
    let pairs := pairs.insertionSort fun a b => a.1 < b.1 ∨ (a.1 = b.1 ∧ a.2 ≤ b.2)
    List.intercalate ['&'] (pairs.map fun (k, v) => uriEncode k false ++ '=' :: uriEncode v false)

/-- The value of a header with one blank between its words. -/
def collapsed (headers : HeaderMap) (name : List Char) : List Char :=
  let value := ((headers.text (String.ofList name)).map String.toList).getD []
  List.intercalate [' '] (splitWhitespace (trim value))

def canonicalHeaders (headers : HeaderMap) (sortedSignedHeaderNames : List (List Char)) : List Char :=
  List.intercalate ['\n'] (sortedSignedHeaderNames.map fun name =>
    name ++ ':' :: collapsed headers name) ++ ['\n']

def canonicalRequest (lib : SigningLibrary) (method : List Char) (uri : Uri) (headers : HeaderMap)
    (sortedSignedHeaders : List (List Char)) (hashedPayload : List Char) : List Char :=
  List.intercalate ['\n']
    [method, canonicalUri lib uri.path, canonicalQueryString lib (uri.query.getD []),
      canonicalHeaders headers sortedSignedHeaders, List.intercalate [';'] sortedSignedHeaders,
      hashedPayload]

/-! ## Signing -/

def signingKey (lib : SigningLibrary) (secretKey date region : List Char) : Bytes :=
  let kDate := lib.hmacSha256 (asBytes ("AWS4".toList ++ secretKey)) (asBytes date)
  let kRegion := lib.hmacSha256 kDate (asBytes region)
  let kService := lib.hmacSha256 kRegion (asBytes "s3".toList)
  lib.hmacSha256 kService (asBytes "aws4_request".toList)

def credentialScope (date region : List Char) : List Char :=
  date ++ '/' :: region ++ "/s3/aws4_request".toList

def stringToSign (lib : SigningLibrary) (amzDate date region canonical : List Char) : List Char :=
  List.intercalate ['\n']
    ["AWS4-HMAC-SHA256".toList, amzDate, credentialScope date region,
      sha256Hex lib (asBytes canonical)]

def signature (lib : SigningLibrary) (secretKey amzDate date region canonical : List Char) :
    List Char :=
  hexEncode (lib.hmacSha256 (signingKey lib secretKey date region)
    (asBytes (stringToSign lib amzDate date region canonical)))

/-! ## Verification -/

/-- `num_seconds().abs()`, which cuts fractions of a second off. -/
def skewSeconds (now requestTime : Time) : Nat := (Int.tdiv (now - requestTime) 1000000).natAbs

/-- The header `x-amz-date`, when its time is close to `now`. -/
def checkedDate (lib : SigningLibrary) (now : Time) (headers : HeaderMap) (uri : Uri) :
    Except S3Error (List Char) := do
  let amzDate ← okOr (.invalidRequest "Missing x-amz-date header") (headers.text "x-amz-date")
  let requestTime ← okOr (.invalidRequest "Invalid x-amz-date") (lib.parseTime amzDate.toList)
  if 900 < skewSeconds now requestTime then .error (.requestTimeTooSkewed uri.path)
  else .ok amzDate.toList

def checkedPayload (lib : SigningLibrary) (headers : HeaderMap) (uri : Uri) (body : Bytes) :
    Except S3Error (List Char) :=
  match (headers.text "x-amz-content-sha256").map String.toList with
  | none => .ok (sha256Hex lib body)
  | some declared =>
    if declared = "UNSIGNED-PAYLOAD".toList then .ok declared
    else if "STREAMING-".toList <+: declared then .error (.streamingNotImplemented uri.path)
    else if declared = sha256Hex lib body then .ok (sha256Hex lib body)
    else .error .signatureDoesNotMatch

def verifySigv4 (lib : SigningLibrary) (now : Time) (headers : HeaderMap) (method : List Char)
    (uri : Uri) (body : Bytes) (s3Config : S3Config) : Except S3Error Unit := do
  let authHeader ← okOr (.accessDenied "Missing Authorization header") (headers.text "authorization")
  let parsed ← okOr (.invalidRequest "Malformed Authorization header")
    (parseAuthorization authHeader.toList)
  if parsed.accessKey ≠ s3Config.accessKey.toList then .error .signatureDoesNotMatch
  else
    let amzDate ← checkedDate lib now headers uri
    let hashedPayload ← checkedPayload lib headers uri body
    let canonical := canonicalRequest lib method uri headers parsed.signedHeaders hashedPayload
    let computedSignature :=
      signature lib s3Config.secretKey.toList amzDate parsed.date parsed.region canonical
    if constantTimeEq (asBytes computedSignature) (asBytes parsed.signature) then .ok ()
    else .error .signatureDoesNotMatch

/-! ## A client -/

/-- `HeaderValue::from_str`. -/
def headerBytes (value : List Char) : Option Bytes :=
  if isHeaderValue (String.ofList value) then some (asBytes value) else none

def authorization (credential : List Char) (signedHeaders : List (List Char))
    (signature : List Char) : List Char :=
  scheme ++ "Credential=".toList ++ credential ++ ", SignedHeaders=".toList ++
    List.intercalate [';'] signedHeaders ++ ", Signature=".toList ++ signature

/-- The headers a client sends, unless one of its values fits in no header. -/
def clientSign (lib : SigningLibrary) (method : List Char) (uri : Uri) (headers : HeaderMap)
    (body : Bytes) (accessKey secretKey region date amzDate : List Char) : Option HeaderMap := do
  let hashedPayload := sha256Hex lib body
  let headers := headers.insert "x-amz-date" (← headerBytes amzDate)
  let headers := headers.insert "x-amz-content-sha256" (← headerBytes hashedPayload)
  let signedHeaderNames := sortedNames (headers.keys.map fun k => k.toList.map Char.toLower)
  let canonical := canonicalRequest lib method uri headers signedHeaderNames hashedPayload
  let signature := signature lib secretKey amzDate date region canonical
  let auth := authorization (accessKey ++ '/' :: credentialScope date region) signedHeaderNames
    signature
  return headers.insert "authorization" (← headerBytes auth)

end S3

end LocalStorage
