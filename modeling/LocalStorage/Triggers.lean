import LocalStorage.Proofs.Statements

namespace LocalStorage
open Lib

/-! # Statements on `files`

Every way the table can change, the two of the service that are more than that under their
own names. The statistics triggers fire once for each affected row, after the statement has
put all rows in place. -/

inductive FileStatement where
  | insert (rows : List StoredFile)
  /-- The upsert of `save_file`. -/
  | saveFile (file : StoredFile)
  | update (chosen : StoredFile → Bool) (change : StoredFile → StoredFile)
  | updateAccess (id : Uuid) (now : Time)
  | delete (chosen : StoredFile → Bool)
  /-- `DELETE FROM buckets`, which takes the bucket's rows along. -/
  | deleteBucket (name : String)

namespace Database

/-- One call of the trigger for each row, with the bucket the row is in now or was in. -/
def fireTriggers (db : Database) (affected : List StoredFile) : Except DbError Database :=
  affected.foldlM (fun db f => db.refreshStats f.bucket) db

def duplicateKey (name : String) : DbError :=
  ⟨"23505", s!"duplicate key value violates unique constraint \"{name}\""⟩

def unique (name : String) (holds : Bool) : Except DbError Unit :=
  if holds then .ok () else .error (duplicateKey name)

/-- Put `rows` in place of the table; `written` are the ones the constraints look at. -/
def replaceFiles (db : Database) (rows written : List StoredFile) : Except DbError Database := do
  written.forM checkRow
  unique "files_pkey" (rows.map (·.id)).Nodup
  written.forM fun f => foreignKey "files_bucket_fkey" (db.buckets.contains f.bucket)
  written.forM fun f => foreignKey "files_encryption_key_id_fkey"
    (f.encryptionKeyId.all (fun k => (db.encryptionKeys.find k).isSome))
  if h : (rows.map StoredFile.ident).Nodup then .ok { db with files := ⟨rows, h⟩ }
  else .error (duplicateKey "unique_bucket_key")

/-- The rows of an `UPDATE`: every chosen one changed, the others as they were. -/
def changedRows (chosen : StoredFile → Bool) (change : StoredFile → StoredFile)
    (rows : List StoredFile) : List StoredFile :=
  rows.map (fun f => if chosen f then change f else f)

def run (db : Database) : FileStatement → Except DbError Database
  | .insert rows => do (← db.replaceFiles (db.files.rows ++ rows) rows).fireTriggers rows
  | .saveFile file => db.upsertFile file
  | .update chosen change => do
    let changed := (db.files.rows.filter chosen).map change
    (← db.replaceFiles (changedRows chosen change db.files.rows) changed).fireTriggers changed
  | .updateAccess id now => db.updateAccess id now
  | .delete chosen =>
    fireTriggers { db with files := db.files.filter (fun f => !chosen f) }
      (db.files.rows.filter chosen)
  | .deleteBucket name =>
    if db.buckets.contains name then
      fireTriggers
        { db with buckets := db.buckets.filter (· ≠ name)
                  files := db.files.filter (fun f => f.bucket ≠ name) }
        (db.files.rows.filter (·.bucket = name))
    else .ok db

end Database

end LocalStorage
