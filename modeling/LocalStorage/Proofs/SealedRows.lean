import LocalStorage.Proofs.Restart
import LocalStorage.Proofs.StoredBytes

namespace LocalStorage.Proofs.SealedRows
open Lib StorageManager OneSource StoredBytes

/-! # Rows that say they are encrypted -/

/-- The key of the row: the one its id names, active or not, else the one of the process. -/
def KeyOf (sm : StorageManager) (db : Database) (f : StoredFile) (key : CipherKey) : Prop :=
  match f.encryptionKeyId with
  | some keyId => ∃ row, db.encryptionKeys.find keyId = some row ∧ row.keyData = key.val
  | none => ∃ random,
      CryptoManager.new sm.lib.toCiphers sm.config.crypto random = .ok sm.crypto ∧
      CryptoManager.keyBytes sm.lib.toCiphers sm.config.crypto random = .ok key.val

/-- A nonce, then what the row's algorithm and key make of the content in the form the row
claims, compressed or not. -/
def Sealed (sm : StorageManager) (db : Database) (f : StoredFile) (raw : Bytes) : Prop :=
  ∃ content opts alg key nonce ciphertext, sm.lib.blake3 content = f.hashBlake3 ∧
    f.isCompressed = some (sm.compressStage opts content).2 ∧
    f.encryptionAlgorithm = some alg.asStr ∧ KeyOf sm db f key ∧
    sm.lib.encrypt alg key nonce (sm.compressStage opts content).1 = .ok ciphertext ∧
    raw = nonce.val ++ ciphertext

/-- Encryption that is asked for has a key of its own, or the global switch is on. -/
def ReallyEncrypts (sm : StorageManager) (opts : StoreOptions) (_ : Bytes) : Prop :=
  sm.shouldEncrypt opts = true →
    opts.encryptionKeyId.isSome = true ∨ sm.config.crypto.enabled = true

instance (sm : StorageManager) (opts : StoreOptions) (content : Bytes) :
    Decidable (ReallyEncrypts sm opts content) := inferInstanceAs (Decidable (_ → _ ∨ _))

variable {sm : StorageManager} {w w' : World} {db before : Database} {opts : StoreOptions}
  {data raw : Bytes} {f : StoredFile}

theorem fromStr_eq_ok {s : String} {alg : EncryptionAlgorithm}
    (h : EncryptionAlgorithm.fromStr s = .ok alg) : s = alg.asStr := by
  unfold EncryptionAlgorithm.fromStr at h
  split at h
  · rename_i hs
    obtain rfl := Except.ok.inj h
    exact hs
  · split at h
    · rename_i hs
      obtain rfl := Except.ok.inj h
      exact hs
    · simp at h

theorem sealWith_eq_ok {lib : Ciphers} {alg : EncryptionAlgorithm} {key : CipherKey} {nonce : Nonce}
    (h : CryptoManager.sealWith lib alg key nonce data = .ok raw) :
    ∃ ciphertext, lib.encrypt alg key nonce data = .ok ciphertext ∧ raw = nonce.val ++ ciphertext := by
  unfold CryptoManager.sealWith at h
  split at h
  · rename_i ciphertext hcipher
    exact ⟨ciphertext, hcipher, (Except.ok.inj h).symm⟩
  · simp at h

/-- The cipher of the process has the key it was started with. -/
theorem cipherFor_started {alg : EncryptionAlgorithm} {key : CipherKey}
    (henabled : sm.config.crypto.enabled = true) (hkey : sm.crypto.cipherFor alg = some key) :
    ∃ random, CryptoManager.new sm.lib.toCiphers sm.config.crypto random = .ok sm.crypto ∧
      CryptoManager.keyBytes sm.lib.toCiphers sm.config.crypto random = .ok key.val := by
  obtain ⟨random, hstarted⟩ := sm.started
  obtain ⟨-, alg', key', -, hbytes, hcipher⟩ := Restart.new_enabled hstarted henabled
  rw [hcipher] at hkey
  split at hkey
  · obtain rfl := Option.some.inj hkey
    exact ⟨random, hstarted, hbytes⟩
  · simp at hkey

/-- What encryption stores is a nonce and a ciphertext under the key that is named. -/
theorem encrypted_sealed {content : Bytes} (hreally : ReallyEncrypts sm opts content)
    (henc : EncryptedAs sm before opts data raw true) (hkept : KeysKept before db)
    (hid : f.encryptionKeyId = opts.encryptionKeyId) :
    ∃ alg key nonce ciphertext, sm.config.crypto.algorithm = alg.asStr ∧ KeyOf sm db f key ∧
      sm.lib.encrypt alg key nonce data = .ok ciphertext ∧ raw = nonce.val ++ ciphertext := by
  unfold EncryptedAs at henc
  split at henc
  · rename_i hshould
    obtain ⟨-, alg, nonce, halg, henc⟩ := henc
    simp only [KeyOf, hid]
    cases hkeyId : opts.encryptionKeyId with
    | some keyId =>
      simp only [hkeyId] at henc
      obtain ⟨row, hrow, henc⟩ := henc
      obtain ⟨hfind, -⟩ := Option.filter_eq_some_iff.mp hrow
      obtain ⟨row', hrow', hdata⟩ := hkept keyId row hfind
      unfold CryptoManager.encryptWithKey at henc
      split at henc
      · rename_i hlen
        obtain ⟨ciphertext, hcipher, hraw⟩ := sealWith_eq_ok henc
        exact ⟨alg, ⟨row.keyData, hlen⟩, nonce, ciphertext, fromStr_eq_ok halg,
          ⟨row', hrow', hdata⟩, hcipher, hraw⟩
      · simp at henc
    | none =>
      simp only [hkeyId] at henc
      have henabled : sm.config.crypto.enabled = true := by
        have hor := hreally hshould
        simpa [hkeyId] using hor
      obtain ⟨random, hstarted⟩ := sm.started
      obtain ⟨hconfig, -⟩ := Restart.new_enabled hstarted henabled
      simp only [CryptoManager.encrypt, hconfig, henabled, CryptoManager.encryptGlobal, Bool.not_true,
        Bool.false_eq_true, ↓reduceIte] at henc
      split at henc
      · simp at henc
      · rename_i key hkey
        obtain ⟨ciphertext, hcipher, hraw⟩ := sealWith_eq_ok henc
        exact ⟨alg, key, nonce, ciphertext, fromStr_eq_ok halg, cipherFor_started henabled hkey,
          hcipher, hraw⟩
  · exact absurd henc.1 (by simp)

theorem stored_sealed (hs : StoredBy sm (ReallyEncrypts sm) db f raw)
    (henc : f.isEncrypted = some true) : Sealed sm db f raw := by
  obtain ⟨before, b, k, content, ct, opts, enc, id, now, hreally, hkept, hbytes, hsame⟩ := hs
  have hcompressed := congrArg Inherited.isCompressed hsame.source
  have hencrypted := congrArg Inherited.isEncrypted hsame.source
  have halgorithm := congrArg Inherited.encryptionAlgorithm hsame.source
  have hkeyId := congrArg Inherited.encryptionKeyId hsame.source
  simp only [inherited, freshFile] at hcompressed hencrypted halgorithm hkeyId
  obtain rfl : enc = true := by
    rw [henc, Option.some.injEq] at hencrypted
    exact hencrypted
  obtain ⟨alg, key, nonce, ciphertext, halg, hkey, hcipher, hraw⟩ :=
    encrypted_sealed (f := f) hreally hbytes hkept hkeyId.symm
  refine ⟨content, opts, alg, key, nonce, ciphertext, hsame.hash, hcompressed.symm, ?_, hkey,
    hcipher, hraw⟩
  rw [← halgorithm, ← halg]
  rfl

theorem Sealed.source {g : StoredFile} (hs : Sealed sm db f raw) (h : SameSource f g) :
    Sealed sm db g raw := by
  obtain ⟨content, opts, alg, key, nonce, ciphertext, hhash, hcomp, halg, hkey, hcipher, hraw⟩ := hs
  have hcompressed := congrArg Inherited.isCompressed h.source
  have halgorithm := congrArg Inherited.encryptionAlgorithm h.source
  have hkeyId := congrArg Inherited.encryptionKeyId h.source
  simp only [inherited] at hcompressed halgorithm hkeyId
  refine ⟨content, opts, alg, key, nonce, ciphertext, hhash.trans h.hash, hcompressed ▸ hcomp,
    halgorithm ▸ halg, ?_, hcipher, hraw⟩
  unfold KeyOf at hkey ⊢
  rwa [← hkeyId]

open Sample (manager keyedManager)

/-- The record a successful upload answers with. -/
def reported : Event → Option StoredFile
  | .storeFile _ _ _ _ _ (.ok file) => some file
  | _ => none

def uploadEncrypted (key : String) (content : Bytes) : Event × Choice :=
  (.storeFile "a" key content none { encrypt := some true } (.error (.io "")), { uuid := 1 })

def keyed : StorageManager := keyedManager true .aesGcm

end LocalStorage.Proofs.SealedRows
