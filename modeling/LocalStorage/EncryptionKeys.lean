import LocalStorage.System

namespace LocalStorage
open Lib

/-! # Encryption keys -/

namespace Database

/-- `create_key`: the other columns get their defaults. -/
def createKey (db : Database) (keyId : String) (keyData : Bytes) : Except DbError Database := do
  fits keyId 64
  if (db.encryptionKeys.find keyId).isSome then
    .error ⟨"23505",
      "duplicate key value violates unique constraint \"encryption_keys_key_id_key\""⟩
  else .ok { db with encryptionKeys := db.encryptionKeys.put ⟨keyId, keyData, some true⟩ }

def deactivated (keyId : String) (key : EncryptionKey) : EncryptionKey :=
  if key.keyId = keyId then { key with isActive := some false } else key

theorem deactivated_keyId (keyId : String) (key : EncryptionKey) :
    (deactivated keyId key).keyId = key.keyId := by
  unfold deactivated
  split <;> rfl

/-- `deactivate_key`: an id that no key has is no error. -/
def deactivateKey (db : Database) (keyId : String) : Database :=
  { db with encryptionKeys :=
      db.encryptionKeys.update (deactivated keyId) (deactivated_keyId keyId) }

end Database

/-- The id and the key are drawn at random. -/
def createEncryptionKey (algorithm keyId : String) (keyData : CipherKey) (c : Choice) (w : World) :
    Result EncryptionKey × World :=
  match EncryptionAlgorithm.fromStr algorithm with
  | .error e => (.error e, w)
  | .ok _ =>
    match statement c w (w.db.createKey keyId keyData.val) with
    | (.ok (), w') => (.ok ⟨keyId, keyData.val, some true⟩, w')
    | (.error e, w') => (.error (.ofSqlx e), w')

def deactivateEncryptionKey (keyId : String) (c : Choice) (w : World) : Result Unit × World :=
  match statement c w (.ok (w.db.deactivateKey keyId)) with
  | (.ok (), w') => (.ok (), w')
  | (.error e, w') => (.error (.ofSqlx e), w')

/-- The calls on objects, and those on keys. -/
inductive ServiceEvent where
  | call (e : Event)
  | createEncryptionKey (algorithm : String) (result : Result EncryptionKey)
  | deactivateEncryptionKey (keyId : String) (result : Result Unit)

def ServiceEvent.Transition (sm : StorageManager) : ServiceEvent → World → World → Prop
  | call e, w, w' => e.Transition sm w w'
  | createEncryptionKey algorithm x, w, w' =>
    ∃ keyId keyData c, LocalStorage.createEncryptionKey algorithm keyId keyData c w = (x, w')
  | deactivateEncryptionKey keyId x, w, w' =>
    ∃ c, LocalStorage.deactivateEncryptionKey keyId c w = (x, w')

/-- Calls on objects and keys one after another. -/
abbrev ServiceRun (sm : StorageManager) (P : World → ServiceEvent → Prop) :=
  Run (ServiceEvent.Transition sm) P

end LocalStorage
