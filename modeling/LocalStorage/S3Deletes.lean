import LocalStorage.S3

namespace LocalStorage.S3
open Lib

/-! # Deleting objects over S3 -/

structure DeleteErrorEntry where
  key : String
  code : String
  message : String
deriving DecidableEq

/-- The keys that are gone, and those that could not be deleted. -/
structure DeleteResult where
  deleted : List String := []
  error : List DeleteErrorEntry := []
deriving DecidableEq

/-- A key that was not there is gone too. -/
def deleteObject (verified : Except S3Error Unit) (bucket key : String) : S3Op Nat := do
  Prog.ofExcept verified
  match ← orS3 (StorageManager.deleteFile bucket key).attempt with
  | .ok _ => return 204
  | .error (.notFound _ _) => return 204
  | .error e => .fail (S3Error.ofStorage e)

/-- The loop over the objects of a request, with the report so far. -/
def deleteObjects (bucket : String) : List String → DeleteResult → S3Op DeleteResult
  | [], result => return result
  | key :: keys, result => do
    match ← orS3 (StorageManager.deleteFile bucket key).attempt with
    | .ok _ => deleteObjects bucket keys { result with deleted := result.deleted ++ [key] }
    | .error (.notFound _ _) =>
      deleteObjects bucket keys { result with deleted := result.deleted ++ [key] }
    | .error e =>
      deleteObjects bucket keys
        { result with error := result.error ++ [⟨key, "InternalError", display e⟩] }

/-- The body of a delete request; `parse` is `quick_xml::de::from_str`, which finds the keys of
its objects in their order. -/
def readDeleteRequest (parse : String → Except String (List String)) (body : Bytes) :
    Except S3Error (List String) :=
  match String.fromUTF8? ⟨body.toArray⟩ with
  | none => .error (S3Error.invalidRequest "Delete request body is not valid UTF-8")
  | some text =>
    match parse text with
    | .error e => .error (S3Error.invalidRequest s!"Invalid Delete XML body: {e}")
    | .ok keys => .ok keys

def bucketPost (parse : String → Except String (List String)) (verified : Except S3Error Unit)
    (bucket : String) (query : List (String × String)) (body : Bytes) : S3Op DeleteResult := do
  Prog.ofExcept verified
  if query.any (·.1 = "delete") then
    deleteObjects bucket (← Prog.ofExcept (readDeleteRequest parse body)) {}
  else .fail (S3Error.invalidRequest "Unsupported POST operation on bucket")

end LocalStorage.S3
