import LocalStorage.World
import LocalStorage.Lib.Disk

namespace LocalStorage
open Lib Lib.Paths

/-! # The steps of an atomic write -/

/-- One call of a write to the file system. An open file is known by its number. -/
inductive FileAction where
  | create (path : Path)
  | write (file offset : Nat) (bytes : Bytes)
  | syncAll (file : Nat)
  | rename (src : Path) (dst : String)

abbrev FileAction.Answer : FileAction → Type
  | .create _ => Nat
  | .write .. => Nat
  | .syncAll _ => Unit
  | .rename .. => Unit

abbrev FileResponse (a : FileAction) : Type := Except IoError a.Answer

abbrev FileOp (α : Type) : Type := Prog FileAction FileResponse IoError α

def fileStep (a : FileAction) : FileOp a.Answer := (Prog.call a).bind Prog.ofExcept

/-- Write until nothing is left, each round as many bytes as the system takes. A round that
takes none is an error, so there are never more rounds than bytes. -/
def writeRounds (file : Nat) : Nat → Nat → Bytes → FileOp Unit
  | _, _, [] => return
  | 0, _, _ :: _ => .fail .writeZero
  | rounds + 1, offset, b :: bytes => do
    let taken ← fileStep (.write file offset (b :: bytes))
    if taken = 0 then .fail .writeZero
    else writeRounds file rounds (offset + taken) ((b :: bytes).drop taken)

/-- What the buffer passes on to the file comes in the order of the content. -/
def writeAll (file : Nat) (content : Bytes) : FileOp Unit :=
  writeRounds file content.length 0 content

def writeFileOptimized (path : Path) (content : Bytes) : FileOp Unit := do
  let file ← fileStep (.create path)
  writeAll file content
  fileStep (.syncAll file)

def writeFileAtomicOptimized (path : String) (content : Bytes) : FileOp Unit := do
  let tempPath := (parse path).withExtension "tmp".toList
  writeFileOptimized tempPath content
  fileStep (.rename tempPath path)

/-! ## On the disk -/

/-- What the environment decides at one call: whether it fails, and by how many bytes a
write falls short. -/
structure FileChoice where
  fault : Option IoError := none
  short : Nat := 0

section
variable (h : Host) (c : FileChoice)

def execCreate (path : Path) (d : Disk Name UInt8) : Except IoError Nat × Disk Name UInt8 :=
  match createError d.shown (h.place path), c.fault with
  | some e, _ => (.error e, d)
  | none, some e => (.error e, d)
  | none, none => (.ok (d.create (h.place path)).1, (d.create (h.place path)).2)

def execWrite (file offset : Nat) (bytes : Bytes) (d : Disk Name UInt8) :
    Except IoError Nat × Disk Name UInt8 :=
  match c.fault with
  | some e => (.error e, d)
  | none =>
    let taken := bytes.length - c.short
    (.ok taken, d.writeAt file offset (bytes.take taken))

def execSyncAll (d : Disk Name UInt8) : Except IoError Unit × Disk Name UInt8 :=
  match c.fault with
  | some e => (.error e, d)
  | none => (.ok (), d)

/-- Only files are renamed here: `src` was created as one. -/
def execRename (src : Path) (dst : String) (d : Disk Name UInt8) :
    Except IoError Unit × Disk Name UInt8 :=
  match c.fault with
  | some e => (.error e, d)
  | none =>
    if (d.shown.fileAt (h.place src)).isNone then (.error .noEntry, d)
    else if !namesFile dst then (.error .notDirectory, d)
    else if d.shown.isDir (h.target dst) then (.error .isDirectory, d)
    else (.ok (), d.rename (h.place src) (h.target dst))

def execFile : (a : FileAction) → Disk Name UInt8 → FileResponse a × Disk Name UInt8
  | .create path, d => execCreate h c path d
  | .write file offset bytes, d => execWrite c file offset bytes d
  | .syncAll _, d => execSyncAll c d
  | .rename src dst, d => execRename h c src dst d

end

end LocalStorage
