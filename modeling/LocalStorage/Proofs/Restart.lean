import LocalStorage.Sample
import LocalStorage.Proofs.Answers
import LocalStorage.Proofs.Upload

namespace LocalStorage.Proofs.Restart
open Lib StorageManager

/-! # Reading under another configuration

The row remembers the algorithm it was written with, the process knows only the one it was
started with. -/

/-! ## What a manager is started with -/

variable {lib : Ciphers} {config : CryptoConfig} {random : CipherKey} {crypto : CryptoManager}

/-- With encryption off no cipher is set up. -/
theorem new_disabled (h : CryptoManager.new lib config random = .ok crypto)
    (he : config.enabled = false) : crypto = ⟨config, none, none⟩ := by
  simp only [CryptoManager.new, he, Bool.false_eq_true, ↓reduceIte, Except.ok.injEq] at h
  exact h.symm

/-- With encryption on the configured algorithm gets its cipher, and no other does. -/
theorem new_enabled (h : CryptoManager.new lib config random = .ok crypto)
    (he : config.enabled = true) :
    crypto.config = config ∧ ∃ alg key, config.algorithm = alg.asStr ∧
      CryptoManager.keyBytes lib config random = .ok key.val ∧
      ∀ a, crypto.cipherFor a = if a = alg then some key else none := by
  simp only [CryptoManager.new, he, ↓reduceIte, CryptoManager.initCipher] at h
  obtain ⟨bytes, hbytes, h⟩ := except_bind_ok.mp h
  split at h
  · rename_i hlen
    split at h
    · rename_i halg
      simp only [Except.ok.injEq] at h
      subst h
      refine ⟨rfl, .aesGcm, ⟨bytes, hlen⟩, halg, hbytes, fun a => ?_⟩
      cases a <;> rfl
    · split at h
      · rename_i halg
        simp only [Except.ok.injEq] at h
        subst h
        refine ⟨rfl, .chaCha20Poly1305, ⟨bytes, hlen⟩, halg, hbytes, fun a => ?_⟩
        cases a <;> rfl
      · simp at h
  · simp at h

/-- A configured key leaves nothing to chance. -/
theorem keyBytes_configured {config' : CryptoConfig} {random' : CipherKey} {s : String}
    (hk : config.key = some s) (hk' : config'.key = some s) :
    CryptoManager.keyBytes lib config' random' = CryptoManager.keyBytes lib config random := by
  simp only [CryptoManager.keyBytes, hk, hk']

/-! ## Two configurations with one key -/

/-- Both configurations name the same key. -/
structure SharesKey (writer reader : StorageManager) : Prop where
  lib : reader.lib.toCiphers = writer.lib.toCiphers
  key : ∃ s, writer.config.crypto.key = some s ∧ reader.config.crypto.key = some s

/-- The row of content that the global cipher of `writer` encrypted, neither compressed nor
under a key of its own. -/
structure EncryptedBy (writer : StorageManager) (content bytes : Bytes) (file : StoredFile) :
    Prop where
  enabled : writer.config.crypto.enabled = true
  encrypted : file.encrypted = true
  whole : file.compressed = false
  unkeyed : file.encryptionKeyId = none
  algorithm : file.encryptionAlgorithm = some writer.config.crypto.algorithm
  bytes : ∃ alg nonce, EncryptionAlgorithm.fromStr writer.config.crypto.algorithm = .ok alg ∧
    writer.crypto.encrypt writer.lib.toCiphers content alg nonce = .ok bytes

/-- The content or an error; with encryption enabled, the content. -/
def ReadsBack (reader : StorageManager) (file : StoredFile) (bytes content : Bytes) : Prop :=
  ∀ w x t, (reader.decodeContent file bytes).Runs (exec reader.host) w x t →
    (x = .ok content ∨ ∃ e, x = .error e) ∧
      (reader.config.crypto.enabled = true → x = .ok content)

variable {writer reader : StorageManager} {content bytes : Bytes} {file : StoredFile}

/-- Where the write went through the global cipher, its key is the configured one. -/
theorem EncryptedBy.sealed (he : EncryptedBy writer content bytes file) :
    ∃ alg key nonce random, writer.config.crypto.algorithm = alg.asStr ∧
      CryptoManager.keyBytes writer.lib.toCiphers writer.config.crypto random = .ok key.val ∧
      CryptoManager.sealWith writer.lib.toCiphers alg key nonce content = .ok bytes := by
  obtain ⟨random, hstart⟩ := writer.started
  obtain ⟨hconfig, alg, key, halg, hkey, hcipher⟩ := new_enabled hstart he.enabled
  obtain ⟨alg', nonce, hparse, hbytes⟩ := he.bytes
  rw [halg, EncryptionAlgorithm.fromStr_asStr, Except.ok.injEq] at hparse
  subst hparse
  refine ⟨alg, key, nonce, random, halg, hkey, ?_⟩
  simpa [CryptoManager.encrypt, CryptoManager.encryptGlobal, hconfig, he.enabled, hcipher]
    using hbytes

/-- Decoding such a row is one call of the reader's global cipher. -/
theorem decodeContent_eq (he : EncryptedBy writer content bytes file) {alg : EncryptionAlgorithm}
    (halg : writer.config.crypto.algorithm = alg.asStr) :
    reader.decodeContent file bytes =
      Prog.ofExcept (reader.crypto.decrypt reader.lib.toCiphers bytes alg) := by
  simp only [decodeContent, decryptContent, he.encrypted, he.whole, he.unkeyed, he.algorithm,
    Option.getD_some, halg, EncryptionAlgorithm.fromStr_asStr, Prog.bind_eq, Prog.pure_eq,
    ↓reduceIte, Prog.ofExcept_ok, Prog.ret_bind, Bool.false_eq_true]
  cases reader.crypto.decrypt reader.lib.toCiphers bytes alg <;> rfl

/-- A reader without encryption hands out what is stored. -/
theorem decrypt_disabled (hd : reader.config.crypto.enabled = false) (alg : EncryptionAlgorithm) :
    reader.crypto.decrypt reader.lib.toCiphers bytes alg = .ok bytes := by
  obtain ⟨random, hstart⟩ := reader.started
  simp [CryptoManager.decrypt, new_disabled hstart hd, hd]

/-- A reader set up for the other algorithm has no cipher for the row. -/
theorem decrypt_other (hd : reader.config.crypto.enabled = true) {alg : EncryptionAlgorithm}
    (halg : reader.config.crypto.algorithm ≠ alg.asStr) (hlen : ¬ bytes.length < 12) :
    reader.crypto.decrypt reader.lib.toCiphers bytes alg =
      .error (CryptoManager.notInitialized alg) := by
  obtain ⟨random, hstart⟩ := reader.started
  obtain ⟨hconfig, alg', key, halg', -, hcipher⟩ := new_enabled hstart hd
  have hne : alg ≠ alg' := by
    rintro rfl
    exact halg halg'
  simp [CryptoManager.decrypt, CryptoManager.decryptGlobal, hconfig, hd, hcipher, hne, hlen]

/-- A reader set up for the row's algorithm has the writer's key. -/
theorem decrypt_same (law : writer.lib.toCiphers.Lawful) (hs : SharesKey writer reader)
    (hd : reader.config.crypto.enabled = true) {alg : EncryptionAlgorithm} {key : CipherKey}
    {nonce : Nonce} {random : CipherKey} (halg : reader.config.crypto.algorithm = alg.asStr)
    (hkey : CryptoManager.keyBytes writer.lib.toCiphers writer.config.crypto random = .ok key.val)
    (hseal : CryptoManager.sealWith writer.lib.toCiphers alg key nonce content = .ok bytes) :
    reader.crypto.decrypt reader.lib.toCiphers bytes alg = .ok content := by
  obtain ⟨random', hstart⟩ := reader.started
  obtain ⟨hconfig, alg', key', halg', hkey', hcipher⟩ := new_enabled hstart hd
  obtain ⟨s, hw, hr⟩ := hs.key
  obtain rfl : alg = alg' := by
    have hparse := congrArg EncryptionAlgorithm.fromStr (halg.symm.trans halg')
    simpa [EncryptionAlgorithm.fromStr_asStr] using hparse
  obtain rfl : key = key' := by
    have hsame : CryptoManager.keyBytes writer.lib.toCiphers reader.config.crypto random' =
        CryptoManager.keyBytes writer.lib.toCiphers writer.config.crypto random :=
      keyBytes_configured hw hr
    rw [hs.lib, hsame, hkey] at hkey'
    exact Subtype.ext (Except.ok.inj hkey')
  have hlen : ¬ bytes.length < 12 := by
    rw [CryptoManager.sealWith_length law hseal]
    omega
  simp [CryptoManager.decrypt, CryptoManager.decryptGlobal, hconfig, hd, hcipher, hlen, hs.lib,
    CryptoManager.openWith_sealWith law hseal]

/-- What another configuration with the same key reads is right exactly when it has
encryption enabled and names the algorithm the row was written with. -/
theorem reads_back_iff (law : writer.lib.toCiphers.Lawful) (hs : SharesKey writer reader)
    (he : EncryptedBy writer content bytes file) :
    ReadsBack reader file bytes content ↔
      reader.config.crypto.enabled = true ∧
        reader.config.crypto.algorithm = writer.config.crypto.algorithm := by
  obtain ⟨alg, key, nonce, random, halg, hkey, hseal⟩ := he.sealed
  have hlen : bytes.length = content.length + 28 := CryptoManager.sealWith_length law hseal
  have hruns : ∀ w x t, (reader.decodeContent file bytes).Runs (exec reader.host) w x t ↔
      x = reader.crypto.decrypt reader.lib.toCiphers bytes alg ∧ t = w := by
    intro w x t
    rw [decodeContent_eq he halg, Prog.runs_ofExcept]
  constructor
  · intro hread
    have hx := hread World.empty _ _ ((hruns World.empty _ _).mpr ⟨rfl, rfl⟩)
    cases hd : reader.config.crypto.enabled with
    | false =>
      rw [decrypt_disabled hd] at hx
      obtain hsame | ⟨e, hfail⟩ := hx.1
      · have hne : bytes ≠ content := fun h => by simp [h] at hlen
        exact absurd (Except.ok.inj hsame) hne
      · simp at hfail
    | true =>
      refine ⟨rfl, ?_⟩
      by_contra hne
      rw [decrypt_other hd (halg ▸ hne) (by omega)] at hx
      simpa using hx.2 hd
  · intro ⟨hd, hsame⟩ w x t hx
    rw [hruns, decrypt_same law hs hd (hsame.trans halg) hkey hseal] at hx
    exact ⟨.inl hx.1, fun _ => hx.1⟩

/-- An upload through the global cipher leaves such a row. -/
theorem EncryptedBy.of_fresh {b k : String} {ct : Option String} {opts : StoreOptions}
    {db : Database} {n : Nat} {id : Uuid} {now : Time}
    (hon : writer.config.crypto.enabled = true) (hshould : writer.shouldEncrypt opts = true)
    (hkey : opts.encryptionKeyId = none)
    (henc : EncryptedAs writer db opts content bytes true) :
    EncryptedBy writer content bytes
      (writer.freshFile b k content ct opts false n bytes true id now) := by
  simp only [EncryptedAs, hshould, ↓reduceIte, hkey, true_and] at henc
  exact ⟨hon, rfl, rfl, hkey, by simp [freshFile], henc⟩

open Sample (keyedManager)

/-- What the service with the global cipher makes of the letter x. -/
def storedX (alg : EncryptionAlgorithm) : Bytes := Sample.nonce.val ++ Sample.sealedX alg

def rowX (alg : EncryptionAlgorithm) : StoredFile :=
  (keyedManager true alg).freshFile "a" "k" [120] none {} false 1 (storedX alg) true 0 0

theorem rowX_encrypted (alg : EncryptionAlgorithm) :
    EncryptedBy (keyedManager true alg) [120] (storedX alg) (rowX alg) where
  enabled := rfl
  encrypted := rfl
  whole := rfl
  unkeyed := rfl
  algorithm := rfl
  bytes := ⟨alg, Sample.nonce, EncryptionAlgorithm.fromStr_asStr alg, by cases alg <;> rfl⟩

theorem keyedManager_sharesKey (on on' : Bool) (alg alg' : EncryptionAlgorithm) :
    SharesKey (keyedManager on alg) (keyedManager on' alg') :=
  ⟨rfl, Sample.keyText, rfl, rfl⟩

theorem reads_back_same_configuration :
    ReadsBack (keyedManager true .aesGcm) (rowX .aesGcm) (storedX .aesGcm) [120] :=
  (reads_back_iff Sample.workingCiphers_lawful (keyedManager_sharesKey true true .aesGcm .aesGcm)
    (rowX_encrypted .aesGcm)).mpr ⟨rfl, rfl⟩

/-- Restarted with the other algorithm the service cannot read the row at all; restarted
with encryption off it hands out the ciphertext. -/
theorem restart_loses_content :
    (keyedManager true .aesGcm).lib.toCiphers.Lawful ∧
      EncryptedBy (keyedManager true .aesGcm) [120] (storedX .aesGcm) (rowX .aesGcm) ∧
      SharesKey (keyedManager true .aesGcm) (keyedManager true .chaCha20Poly1305) ∧
      SharesKey (keyedManager true .aesGcm) (keyedManager false .aesGcm) ∧
      (keyedManager true .chaCha20Poly1305).config.crypto.enabled = true ∧
      ((keyedManager true .chaCha20Poly1305).decodeContent (rowX .aesGcm) (storedX .aesGcm)).Runs
        (exec Sample.host) World.empty (.error (.encryption "AES cipher not initialized"))
        World.empty ∧
      ((keyedManager false .aesGcm).decodeContent (rowX .aesGcm) (storedX .aesGcm)).Runs
        (exec Sample.host) World.empty (.ok (storedX .aesGcm)) World.empty ∧
      storedX .aesGcm ≠ [120] :=
  ⟨Sample.workingCiphers_lawful, rowX_encrypted .aesGcm, keyedManager_sharesKey _ _ _ _,
    keyedManager_sharesKey _ _ _ _, rfl, ⟨rfl, rfl⟩, ⟨rfl, rfl⟩, by decide⟩

end LocalStorage.Proofs.Restart
