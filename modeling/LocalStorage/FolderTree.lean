import LocalStorage.Models
import LocalStorage.Lib.Text
import LocalStorage.Lib.Tallies

namespace LocalStorage.Web
open Lib Lib.Text

/-! # The folders of the web client

Keys are flat; what the client shows as folders it reads out of them. -/

structure FolderItem where
  name : List Char
  path : List Char
  fileCount : Nat
  totalSize : Int
deriving DecidableEq

structure FileEntry where
  name : List Char
  path : List Char
  file : FileInfo
deriving DecidableEq

/-- The immediate children of a path. -/
structure Level where
  folders : List FolderItem
  files : List FileEntry
deriving DecidableEq

def pathPrefix (currentPath : List Char) : List Char :=
  if currentPath = [] then [] else currentPath ++ ['/']

/-- One more file below an existing folder. -/
def countFile (file : FileInfo) (folder : FolderItem) : FolderItem :=
  { folder with fileCount := folder.fileCount + 1, totalSize := folder.totalSize + file.fileSize }

/-- A folder with its first file. -/
def newFolder (folderName folderPath : List Char) (file : FileInfo) : FolderItem :=
  ⟨folderName, folderPath, 1, file.fileSize⟩

/-- The body of the loop of `buildFileTree`. -/
def placeFile (start : List Char) (level : Level) (file : FileInfo) : Level :=
  match stripPrefix start file.key.toList with
  | none => level
  | some relative =>
    if relative = [] then level
    else
      match splitOnce '/' relative with
      | none => { level with files := level.files ++ [⟨relative, file.key.toList, file⟩] }
      | some (folderName, _) =>
        let folder := newFolder folderName (start ++ folderName) file
        { level with folders := Tallies.enter FolderItem.path (countFile file) folder level.folders }

def buildFileTree (files : List FileInfo) (currentPath : List Char) : Level :=
  files.foldl (placeFile (pathPrefix currentPath)) ⟨[], []⟩

/-- Names and paths from the root down. -/
def breadcrumbs (currentPath : List Char) : List (List Char × List Char) :=
  let parts := (currentPath.splitOn '/').filter (· ≠ [])
  ("Home".toList, []) ::
    parts.mapIdx fun index part => (part, ['/'].intercalate (parts.take (index + 1)))

/-- What `confirmDeleteFolder` deletes. -/
def filesToDelete (files : List FileInfo) (folder : FolderItem) : List FileInfo :=
  files.filter fun f => (folder.path ++ ['/']).isPrefixOf f.key.toList

end LocalStorage.Web
