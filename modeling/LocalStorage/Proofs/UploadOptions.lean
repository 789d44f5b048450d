import LocalStorage.Proofs.Upload
import LocalStorage.Sample

namespace LocalStorage.Proofs.UploadOptions
open Lib StorageManager Sample

/-! # What an upload records of its options -/

/-- The record has the content type, metadata and expiry of the call. -/
structure Says (contentType : String) (opts : StoreOptions) (file : StoredFile) : Prop where
  contentType : file.contentType = contentType
  metadata : file.metadata = opts.metadata
  expiresAt : file.expiresAt = opts.expiresAt

/-- The options of the call are in the row afterwards, and in the record that is returned. -/
structure Taken (b k : String) (contentType : String) (opts : StoreOptions) (t : World)
    (returned : StoredFile) : Prop where
  row : ∃ file, t.db.files.find (b, k) = some file ∧ Says contentType opts file
  returned : Says contentType opts returned

/-- The upload repeats what the key holds already: its row is handed back, and the table, the
cache and the files are as they were. -/
structure NoOp (sm : StorageManager) (b k : String) (content : Bytes) (w t : World)
    (returned : StoredFile) : Prop where
  dedup : sm.config.storage.enableDeduplication = true
  row : w.db.files.find (b, k) = some returned
  hash : returned.hashBlake3 = sm.lib.blake3 content
  kept : Kept [] w t

variable {sm : StorageManager} {b k : String} {content : Bytes} {contentType : String}
  {opts : StoreOptions} {w t : World} {file : StoredFile}

/-- Overwriting keeps the identity and the cache columns of a row, nothing else. -/
theorem Says.mergeRow {old : Option StoredFile} (hf : Says contentType opts file) :
    Says contentType opts (Database.mergeRow old file) := by
  cases old <;> exact ⟨hf.contentType, hf.metadata, hf.expiresAt⟩

theorem Says.taken (hident : file.ident = (b, k)) (hf : Says contentType opts file)
    (hfiles : t.db.files = w.db.files.put (Database.mergeRow (w.db.files.find file.ident) file)) :
    Taken b k contentType opts t file := by
  refine ⟨⟨Database.mergeRow (w.db.files.find file.ident) file, ?_, hf.mergeRow⟩, hf⟩
  have hrow : (Database.mergeRow (w.db.files.find file.ident) file).ident = (b, k) := by
    simpa using hident
  rw [hfiles, ← hrow]
  exact Table.find_put_self

/-- One byte as `a/k`, to expire at 10. -/
def expiring : World :=
  (manager.storeFile "a" "k" [120] (some "text/plain") { expiresAt := some 10 }).eval
    (exec manager.host) calm World.empty |>.2

end LocalStorage.Proofs.UploadOptions
