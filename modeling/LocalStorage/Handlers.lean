import LocalStorage.Storage
import LocalStorage.Lib.Text

namespace LocalStorage
open Lib Lib.Text

/-! # The native file routes -/

/-- What the request handlers share. -/
structure AppState where
  storage : StorageManager
  downloadProtectionToken : Option String
  protectedReadBuckets : Option (List String)

/-- Request headers by their names in lower case. -/
abbrev HeaderMap := List (String × Bytes)

/-- `HeaderValue::to_str`: visible characters of ASCII, and tabs. -/
def headerText (value : Bytes) : Option String :=
  if value.all (fun b => (32 ≤ b && b < 127) || b == 9) then
    some (String.ofList (value.map Char.ofUInt8))
  else none

/-- The text of a header; one that has none counts as missing. -/
def HeaderMap.text (headers : HeaderMap) (name : String) : Option String :=
  (headers.find? (·.1 = name)).bind fun h => headerText h.2

inductive Body where
  | empty
  | bytes (content : Bytes)
  | json (info : FileInfo)
deriving DecidableEq

structure HttpResponse where
  status : Nat
  headers : List (String × String)
  body : Body
deriving DecidableEq

/-- What a header can hold: no control characters but tabs. -/
def isHeaderValue (value : String) : Bool :=
  value.toList.all (fun c => (32 ≤ c.toNat && c.toNat ≠ 127) || c.toNat = 9)

/-- `HeaderValue::from_str` with the error a request ends in. -/
def headerValue (value invalid : String) : Result String :=
  if isHeaderValue value then .ok value else .error (.badRequest invalid)

theorem headerValue_eq_ok {value invalid x : String} :
    headerValue value invalid = .ok x ↔ isHeaderValue value = true ∧ x = value := by
  unfold headerValue
  split
  · rename_i h
    simp [h, eq_comm]
  · rename_i h
    simp [h]

theorem printable_of_mem_toDigits {n : Nat} {c : Char} (hc : c ∈ Nat.toDigits 10 n) :
    32 ≤ c.toNat ∧ c.toNat ≠ 127 := by
  have hdigit := Nat.isDigit_of_mem_toDigits (by omega) (by omega) hc
  simp only [Char.isDigit, Bool.and_eq_true, decide_eq_true_eq] at hdigit
  have hlow : 48 ≤ c.toNat := hdigit.1
  have hhigh : c.toNat ≤ 57 := hdigit.2
  omega

theorem isHeaderValue_append (s t : String) :
    isHeaderValue (s ++ t) = (isHeaderValue s && isHeaderValue t) := by
  simp only [isHeaderValue, String.toList_append, List.all_append]

theorem isHeaderValue_repr (n : Nat) : isHeaderValue (Nat.repr n) = true := by
  simp only [isHeaderValue, Nat.repr, String.toList_ofList, List.all_eq_true, Bool.or_eq_true,
    Bool.and_eq_true, decide_eq_true_eq]
  intro c hc
  exact .inl (printable_of_mem_toDigits hc)

/-! ## Protected buckets -/

def downloadTokenHeader : String := "x-activator-write-token"

def downloadIsAuthorized (expectedToken : Option String) (protectedBuckets : Option (List String))
    (requestedBucket providedToken : Option String) : Bool :=
  match expectedToken with
  | none => true
  | some expected =>
    let inScope :=
      match protectedBuckets, requestedBucket with
      | some allowlist, some name => allowlist.any (· = name)
      | some _, none => true
      | none, _ => true
    if inScope then providedToken = some expected else true

def requireDownloadToken (state : AppState) (headers : HeaderMap) (bucket : Option String) :
    Result Unit :=
  if downloadIsAuthorized state.downloadProtectionToken state.protectedReadBuckets bucket
      (headers.text downloadTokenHeader) then .ok ()
  else .error (.forbidden "valid X-Activator-Write-Token header required to read this bucket")

/-! ## Ranges -/

/-- First and last byte of a single range, or nothing for what is malformed, has several
ranges or cannot be satisfied. -/
def parseRangeHeader (value : String) (totalLen : Nat) : Option (Nat × Nat) := do
  let spec ← stripPrefix "bytes=".toList value.toList
  if ',' ∈ spec then none
  else
    let (startStr, endStr) ← splitOnce '-' spec
    if startStr = [] then
      let suffixLen ← parseU64 endStr
      if suffixLen = 0 ∨ totalLen = 0 then none
      else some (totalLen - suffixLen, totalLen - 1)
    else
      let start ← parseU64 startStr
      let stop ← (if endStr = [] then some (totalLen - 1) else parseU64 endStr : Option Nat)
      if stop < start ∨ totalLen ≤ start then none
      else some (start, min stop (totalLen - 1))

def contentRange (start stop total : Nat) : String := s!"bytes {start}-{stop}/{total}"

/-- The answer of the two readers that decode no more than they need. -/
def partialContent (slice : Bytes) (contentType : String) (start stop total : Nat) :
    Result HttpResponse := do
  let contentType ← headerValue contentType "Invalid content type"
  let range ← headerValue (contentRange start stop total) "Invalid range"
  return ⟨206, [("content-type", contentType), ("accept-ranges", "bytes"),
    ("content-range", range)], .bytes slice⟩

def rangeNotSatisfiable (totalLen : Nat) : Result HttpResponse := do
  let range ← headerValue s!"bytes */{totalLen}" "Invalid range"
  return ⟨416, [("accept-ranges", "bytes"), ("content-range", range)], .empty⟩

/-- The answer from the decoded content, cut to the range where one was asked for. -/
def fullContent (content : Bytes) (contentType rangeHeader : Option String) :
    Result HttpResponse := do
  let totalLen := content.length
  let contentType ← contentType.elim (pure "application/octet-stream")
    (headerValue · "Invalid content type")
  let headers := [("content-type", contentType), ("accept-ranges", "bytes")]
  match rangeHeader.bind (parseRangeHeader · totalLen) with
  | some (start, stop) =>
    let slice := (content.drop start).take (stop + 1 - start)
    let range ← headerValue (contentRange start stop totalLen) "Invalid range"
    return ⟨206, headers ++ [("content-range", range)], .bytes slice⟩
  | none => return ⟨200, headers, .bytes content⟩

/-- A range request without the full decoding; `none` falls through to it. -/
def rangeRequest (storage : StorageManager) (bucket key rangeValue : String) :
    Op (Option HttpResponse) := do
  match ← (StorageManager.getFileInfo bucket key).attempt with
  | .error _ => return none
  | .ok info =>
    let totalLen := StorageManager.asU64 info.originalSize
    match parseRangeHeader rangeValue totalLen with
    | some (start, stop) =>
      match ← (StorageManager.getFileRangeIfPlain bucket key start stop).attempt with
      | .ok (some (slice, contentType, total)) =>
        return some (← Prog.ofExcept (partialContent slice contentType start stop total))
      | _ =>
        match ← (storage.getCompressedFileRange bucket key start stop).attempt with
        | .ok (some (slice, contentType, total)) =>
          return some (← Prog.ofExcept (partialContent slice contentType start stop total))
        | _ => return none
    | none =>
      match stripPrefix "bytes=".toList rangeValue.toList with
      | some spec =>
        if ',' ∈ spec then return none
        else return some (← Prog.ofExcept (rangeNotSatisfiable totalLen))
      | none => return none

/-! ## Requests -/

def infoSuffix : String := "/info"

/-- `path.trim_end_matches("/info")`. -/
def trimInfo (path : String) : String :=
  String.ofList (trimEndMatches infoSuffix.toList path.toList)

/-- A download, ranged or whole. -/
def downloadFile (storage : StorageManager) (bucket key : String) (rangeHeader : Option String) :
    Op HttpResponse := do
  let early ← rangeHeader.elim (pure none) (rangeRequest storage bucket key)
  match early with
  | some response => return response
  | none =>
    let (content, contentType) ← storage.getFile bucket key
    Prog.ofExcept (fullContent content contentType rangeHeader)

def handleFileRequest (state : AppState) (bucket path : String) (requestHeaders : HeaderMap) :
    Op HttpResponse := do
  Prog.ofExcept (requireDownloadToken state requestHeaders (some bucket))
  let isInfo := infoSuffix.toList.isSuffixOf path.toList
  let key := if isInfo then trimInfo path else path
  if isInfo then
    let info ← StorageManager.getFileInfo bucket key
    return ⟨200, [("content-type", "application/json")], .json info⟩
  else downloadFile state.storage bucket key (requestHeaders.text "range")

def handleFileDelete (bucket path : String) : Op HttpResponse := do
  let key := trimInfo path
  StorageManager.deleteFile bucket key
  return ⟨204, [], .empty⟩

inductive Method where
  | get
  | delete
deriving DecidableEq

/-- `/buckets/:bucket/files/*path`, both parts decoded; neither matches nothing at all. -/
def fileRoute (state : AppState) (method : Method) (bucket path : String) (headers : HeaderMap) :
    Op HttpResponse :=
  if bucket = "" ∨ path = "" then return ⟨404, [], .empty⟩
  else
    match method with
    | .get => handleFileRequest state bucket path headers
    | .delete => handleFileDelete bucket path

end LocalStorage
