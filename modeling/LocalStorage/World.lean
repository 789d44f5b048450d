import LocalStorage.Database
import LocalStorage.Cache
import LocalStorage.Compression
import LocalStorage.Crypto
import LocalStorage.Lib.Program
import LocalStorage.Lib.Paths
import LocalStorage.Lib.FileTree

namespace LocalStorage
open Lib Lib.Paths

/-- What the operations of the service share: the tables, the disk, the cache and the
clock. -/
structure World where
  db : Database
  fs : FileTree Name Bytes
  cache : Cache
  now : Time

namespace World

def empty : World := ⟨Database.empty, FileTree.empty, Cache.empty, 0⟩

/-- The same with the cache emptied. -/
def cold (w : World) : World := { w with cache := Cache.empty }

end World

/-- What the process and the database are started with: the working directory, and the
case folding of the database's locale. -/
structure Host where
  cwd : Loc
  lower : List Char → List Char

namespace Host

def place (h : Host) (path : Path) : Loc := path.resolve h.cwd

def target (h : Host) (path : String) : Loc := h.place (parse path)

/-- Where an atomic write keeps its bytes until the rename. -/
def temp (h : Host) (path : String) : Loc := h.place ((parse path).withExtension "tmp".toList)

end Host

/-- What a path string holds on disk. -/
def World.bytesAt (w : World) (h : Host) (path : String) : Option Bytes :=
  if namesFile path then w.fs.fileAt (h.target path) else none

theorem World.bytesAt_congr {w w' : World} {h : Host} {path : String}
    (hd : w'.fs.fileAt (h.target path) = w.fs.fileAt (h.target path)) :
    w'.bytesAt h path = w.bytesAt h path := by
  simp only [World.bytesAt, hd]

/-! ## Atomic steps -/

inductive Action where
  | bucketExists (name : String)
  | insertBucket (name : String)
  | deleteBucketRow (name : String)
  | selectFile (bucket key : String)
  | selectFileByHash (hash : String)
  | upsertFile (file : StoredFile)
  | updateAccess (id : Uuid)
  | selectFilePath (bucket key : String)
  | countOtherReferences (path bucket key : String)
  | deleteFileRow (bucket key : String)
  | countReferences (path : String)
  | selectBucketFiles (bucket : String)
  | selectExpired
  | selectFiles (bucket : String) (keyPrefix : Option String) (limit offset : Int)
  | searchFiles (bucket query : String) (limit : Int)
  | selectKey (keyId : String)
  | createDirAll (path : Path)
  | writeFileAtomic (path : String) (content : Bytes)
  | readFile (path : String)
  | readRange (path : String) (start len : Nat)
  | fileExists (path : String)
  | removeFile (path : String)
  | removeDirAll (path : String)
  | getFileMetadata (bucket key : String)
  | setFileMetadata (bucket key : String) (file : StoredFile)
  | getFileContent (bucket key : String)
  | setFileContent (bucket key : String) (content : Bytes)
  | invalidateFile (bucket key : String)
  | utcNow
  | newUuid
  | randomNonce
deriving DecidableEq

abbrev Query := Except SqlxError

abbrev Response : Action → Type
  | .bucketExists _ => Query Bool
  | .insertBucket _ => Query Unit
  | .deleteBucketRow _ => Query Nat
  | .selectFile _ _ => Query (Option StoredFile)
  | .selectFileByHash _ => Query (Option StoredFile)
  | .upsertFile _ => Query Unit
  | .updateAccess _ => Query Unit
  | .selectFilePath _ _ => Query (Option String)
  | .countOtherReferences _ _ _ => Query Nat
  | .deleteFileRow _ _ => Query Unit
  | .countReferences _ => Query Nat
  | .selectBucketFiles _ => Query (List (String × String))
  | .selectExpired => Query (List (String × String))
  | .selectFiles _ _ _ _ => Query (List StoredFile)
  | .searchFiles _ _ _ => Query (List StoredFile)
  | .selectKey _ => Query (Option EncryptionKey)
  | .createDirAll _ => Except IoError Unit
  | .writeFileAtomic _ _ => Except IoError Unit
  | .readFile _ => Except IoError Bytes
  | .readRange _ _ _ => Except IoError Bytes
  | .fileExists _ => Bool
  | .removeFile _ => Except IoError Unit
  | .removeDirAll _ => Except IoError Unit
  | .getFileMetadata _ _ => Result (Option StoredFile)
  | .setFileMetadata _ _ _ => Result Unit
  | .getFileContent _ _ => Result (Option Bytes)
  | .setFileContent _ _ _ => Result Unit
  | .invalidateFile _ _ => Result Unit
  | .utcNow => Time
  | .newUuid => Uuid
  | .randomNonce => Nonce

/-- How far an atomic write gets before it fails. -/
inductive WriteStage where
  | create
  | write (cut : Nat)
  | rename
deriving DecidableEq, Repr

/-- The nonce of a calm step. -/
def zeroNonce : Nonce := ⟨List.replicate 12 0, rfl⟩

/-- What the environment decides at one step. -/
structure Choice where
  fault : Option IoError := none
  stage : WriteStage := .create
  cut : Nat := 0
  gone : Loc → Bool := fun _ => false
  rank : StoredFile → Nat := fun _ => 0
  uuid : Uuid := 0
  nonce : Nonce := zeroNonce
  elapsed : Nat := 0

/-- Nothing fails and no time passes. -/
def calm : Choice := {}

section Exec
variable (h : Host) (c : Choice)

def answer {α : Type} (x : α) : Query α :=
  match c.fault with
  | some e => .error (.other e.toString)
  | none => .ok x

def answerPage {α : Type} (x : Except DbError α) : Query α :=
  match c.fault, x with
  | some e, _ => .error (.other e.toString)
  | none, .ok rows => .ok rows
  | none, .error e => .error (.database e)

def statement (w : World) (x : Except DbError Database) : Query Unit × World :=
  match c.fault with
  | some e => (.error (.other e.toString), w)
  | none =>
    match x with
    | .ok db => (.ok (), { w with db := db })
    | .error e => (.error (.database e), w)

/-- Why a file cannot be created at a place. -/
def createError (fs : FileTree Name Bytes) (l : Loc) : Option IoError :=
  if fs.isDir l then some .isDirectory
  else
    match fs.node l.dropLast with
    | some .dir => none
    | some (.file _) => some .notDirectory
    | none => some .noEntry

def execCreateDirAll (path : Path) (w : World) : Except IoError Unit × World :=
  let places := path.passed h.cwd
  match c.fault with
  | some e => (.error e, { w with fs := (w.fs.mkdirs (places.take c.cut)).2 })
  | none =>
    match w.fs.mkdirs places with
    | (true, fs) => (.ok (), { w with fs := fs })
    | (false, fs) =>
      (.error (if (w.fs.fileAt (h.place path)).isSome then .fileExists else .notDirectory),
        { w with fs := fs })

/-- Write the temporary file, then rename it over the target. -/
def execWriteFileAtomic (path : String) (content : Bytes) (w : World) :
    Except IoError Unit × World :=
  let temp := h.temp path
  let target := h.target path
  match createError w.fs temp with
  | some e => (.error e, w)
  | none =>
    match c.fault with
    | some e =>
      match c.stage with
      | .create => (.error e, w)
      | .write cut => (.error e, { w with fs := w.fs.putFile temp (content.take cut) })
      | .rename => (.error e, { w with fs := w.fs.putFile temp content })
    | none =>
      if !namesFile path then
        (.error .notDirectory, { w with fs := w.fs.putFile temp content })
      else if w.fs.isDir target then
        (.error .isDirectory, { w with fs := w.fs.putFile temp content })
      else (.ok (), { w with fs := (w.fs.erase temp).putFile target content })

def lookup (path : String) (w : World) : Except IoError Bytes :=
  match w.fs.node (h.target path) with
  | none => .error .noEntry
  | some .dir => .error .isDirectory
  | some (.file b) => if namesFile path then .ok b else .error .notDirectory

def execReadFile (path : String) (w : World) : Except IoError Bytes :=
  match c.fault with
  | some e => .error e
  | none => lookup h path w

def execReadRange (path : String) (start len : Nat) (w : World) : Except IoError Bytes :=
  match execReadFile h c path w with
  | .error e => .error e
  | .ok b => if start + len ≤ b.length then .ok ((b.drop start).take len) else .error .unexpectedEof

def execRemoveFile (path : String) (w : World) : Except IoError Unit × World :=
  match c.fault with
  | some e => (.error e, w)
  | none =>
    match lookup h path w with
    | .error e => (.error e, w)
    | .ok _ => (.ok (), { w with fs := w.fs.erase (h.target path) })

/-- A failing removal may already have taken some of the entries. -/
def execRemoveDirAll (path : String) (w : World) : Except IoError Unit × World :=
  let l := h.target path
  match w.fs.node l with
  | none => (.error .noEntry, w)
  | some (.file _) => (.error .notDirectory, w)
  | some .dir =>
    match c.fault with
    | some e => (.error e, { w with fs := w.fs.prune l c.gone })
    | none => (.ok (), { w with fs := w.fs.prune l (fun _ => true) })

def exec : (a : Action) → World → Response a × World
  | .bucketExists name, w => (answer c (w.db.bucketExists name), w)
  | .insertBucket name, w => statement c w (w.db.insertBucket name)
  | .deleteBucketRow name, w =>
    match c.fault, w.db.deleteBucketRow name with
    | some e, _ => (.error (.other e.toString), w)
    | none, some db => (.ok 1, { w with db := db })
    | none, none => (.ok 0, w)
  | .selectFile b k, w => (answer c (w.db.selectFile b k), w)
  | .selectFileByHash h, w => (answer c (w.db.selectFileByHash h c.rank), w)
  | .upsertFile f, w => statement c w (w.db.upsertFile f)
  | .updateAccess id, w => statement c w (w.db.updateAccess id w.now)
  | .selectFilePath b k, w => (answer c ((w.db.selectFile b k).map (·.filePath)), w)
  | .countOtherReferences p b k, w => (answer c (w.db.countOtherReferences p b k), w)
  | .deleteFileRow b k, w => statement c w (w.db.deleteFileRow b k)
  | .countReferences p, w => (answer c (w.db.countReferences p), w)
  | .selectBucketFiles b, w => (answer c (w.db.selectBucketFiles b c.rank), w)
  | .selectExpired, w => (answer c (w.db.selectExpired w.now c.rank), w)
  | .selectFiles b p limit offset, w =>
    (answerPage c (w.db.selectFiles c.rank b p limit offset), w)
  | .searchFiles b q limit, w => (answerPage c (w.db.searchFiles h.lower c.rank b q limit), w)
  | .selectKey id, w => (answer c (w.db.selectKey id), w)
  | .createDirAll p, w => execCreateDirAll h c p w
  | .writeFileAtomic p b, w => execWriteFileAtomic h c p b w
  | .readFile p, w => (execReadFile h c p w, w)
  | .readRange p start len, w => (execReadRange h c p start len w, w)
  | .fileExists p, w => (c.fault.isNone && (w.fs.node (h.target p)).isSome, w)
  | .removeFile p, w => execRemoveFile h c p w
  | .removeDirAll p, w => execRemoveDirAll h c p w
  | .getFileMetadata b k, w => (.ok (w.cache.getFileMetadata b k), w)
  | .setFileMetadata b k f, w => (.ok (), { w with cache := w.cache.setFileMetadata b k f })
  | .getFileContent b k, w => (.ok (w.cache.getFileContent b k), w)
  | .setFileContent b k x, w => (.ok (), { w with cache := w.cache.setFileContent b k x })
  | .invalidateFile b k, w => (.ok (), { w with cache := w.cache.invalidateFile b k })
  | .utcNow, w => (w.now + c.elapsed, { w with now := w.now + c.elapsed })
  | .newUuid, w => (c.uuid, w)
  | .randomNonce, w => (c.nonce, w)

end Exec

end LocalStorage
