import LocalStorage.Models

namespace LocalStorage

inductive EncryptionAlgorithm where
  | aesGcm
  | chaCha20Poly1305
deriving DecidableEq, Repr

namespace EncryptionAlgorithm

def asStr : EncryptionAlgorithm → String
  | aesGcm => "aes-gcm"
  | chaCha20Poly1305 => "chacha20poly1305"

def fromStr (s : String) : Result EncryptionAlgorithm :=
  if s = "aes-gcm" then .ok aesGcm
  else if s = "chacha20poly1305" then .ok chaCha20Poly1305
  else .error (.invalidEncryptionAlgorithm s!"Unsupported algorithm: {s}")

/-- How the error messages name the cipher. -/
def label : EncryptionAlgorithm → String
  | aesGcm => "AES"
  | chaCha20Poly1305 => "ChaCha20"

theorem fromStr_asStr (a : EncryptionAlgorithm) : fromStr a.asStr = .ok a := by
  cases a <;> rfl

end EncryptionAlgorithm

/-- The keys both ciphers take are 32 bytes long. -/
abbrev CipherKey := { k : Bytes // k.length = 32 }

abbrev Nonce := { n : Bytes // n.length = 12 }

/-- The cipher libraries, and the hex decoder that reads the configured key. -/
structure Ciphers where
  encrypt : EncryptionAlgorithm → CipherKey → Nonce → Bytes → Except String Bytes
  decrypt : EncryptionAlgorithm → CipherKey → Nonce → Bytes → Except String Bytes
  hexDecode : String → Except String Bytes

/-- Decryption undoes encryption under the same key and nonce; the ciphertext carries a
tag of 16 bytes. -/
structure Ciphers.Lawful (lib : Ciphers) : Prop where
  decrypt_encrypt : ∀ alg key nonce data out, lib.encrypt alg key nonce data = .ok out →
    lib.decrypt alg key nonce out = .ok data
  encrypt_length : ∀ alg key nonce data out, lib.encrypt alg key nonce data = .ok out →
    out.length = data.length + 16

structure CryptoManager where
  config : CryptoConfig
  aesKey : Option CipherKey
  chachaKey : Option CipherKey
deriving DecidableEq, Repr

namespace CryptoManager

variable (lib : Ciphers)

/-- The configured key: 64 hex characters, 32 raw bytes, or the random one drawn when
none is configured. -/
def keyBytes (config : CryptoConfig) (random : CipherKey) : Result Bytes :=
  match config.key with
  | some s =>
    if s.utf8ByteSize = 64 then
      (lib.hexDecode s).mapError (fun e => .encryption s!"Invalid hex key: {e}")
    else if s.utf8ByteSize = 32 then .ok (s.toList.flatMap String.utf8EncodeChar)
    else .error (.encryption "Key must be 32 bytes or 64 hex characters")
  | none => .ok random

def initCipher (self : CryptoManager) (random : CipherKey) : Result CryptoManager := do
  let bytes ← keyBytes lib self.config random
  if h : bytes.length = 32 then
    if self.config.algorithm = "aes-gcm" then .ok { self with aesKey := some ⟨bytes, h⟩ }
    else if self.config.algorithm = "chacha20poly1305" then
      .ok { self with chachaKey := some ⟨bytes, h⟩ }
    else .error (.encryption s!"Unsupported encryption algorithm: {self.config.algorithm}")
  else .error (.encryption "Key must be exactly 32 bytes")

def new (config : CryptoConfig) (random : CipherKey) : Result CryptoManager :=
  let manager : CryptoManager := ⟨config, none, none⟩
  if config.enabled then manager.initCipher lib random else .ok manager

/-- The nonce goes in front of the ciphertext. -/
def sealWith (alg : EncryptionAlgorithm) (key : CipherKey) (nonce : Nonce) (data : Bytes) :
    Result Bytes :=
  match lib.encrypt alg key nonce data with
  | .ok ciphertext => .ok (nonce.val ++ ciphertext)
  | .error e => .error (.encryption s!"{alg.label} encryption failed: {e}")

def tooShort : StorageError := .encryption "Invalid encrypted data: too short"

def openWith (alg : EncryptionAlgorithm) (key : CipherKey) (data : Bytes) : Result Bytes :=
  if h : data.length < 12 then .error tooShort
  else
    match lib.decrypt alg key ⟨data.take 12, by simp; omega⟩ (data.drop 12) with
    | .ok plain => .ok plain
    | .error e => .error (.encryption s!"{alg.label} decryption failed: {e}")

def keyLength : StorageError := .encryption "Key must be exactly 32 bytes"

def encryptWithKey (data : Bytes) (alg : EncryptionAlgorithm) (key : Bytes) (nonce : Nonce) :
    Result Bytes :=
  if h : key.length = 32 then sealWith lib alg ⟨key, h⟩ nonce data else .error keyLength

def decryptWithKey (data : Bytes) (alg : EncryptionAlgorithm) (key : Bytes) : Result Bytes :=
  if h : key.length = 32 then openWith lib alg ⟨key, h⟩ data else .error keyLength

variable (self : CryptoManager)

def cipherFor : EncryptionAlgorithm → Option CipherKey
  | .aesGcm => self.aesKey
  | .chaCha20Poly1305 => self.chachaKey

def notInitialized (alg : EncryptionAlgorithm) : StorageError :=
  .encryption s!"{alg.label} cipher not initialized"

/-- `encrypt_aes` and `encrypt_chacha`. -/
def encryptGlobal (alg : EncryptionAlgorithm) (data : Bytes) (nonce : Nonce) : Result Bytes :=
  match self.cipherFor alg with
  | none => .error (notInitialized alg)
  | some key => sealWith lib alg key nonce data

/-- `decrypt_aes` and `decrypt_chacha`; the length is looked at before the cipher. -/
def decryptGlobal (alg : EncryptionAlgorithm) (data : Bytes) : Result Bytes :=
  if data.length < 12 then .error tooShort
  else
    match self.cipherFor alg with
    | none => .error (notInitialized alg)
    | some key => openWith lib alg key data

def encrypt (data : Bytes) (alg : EncryptionAlgorithm) (nonce : Nonce) : Result Bytes :=
  if !self.config.enabled then .ok data else self.encryptGlobal lib alg data nonce

def decrypt (data : Bytes) (alg : EncryptionAlgorithm) : Result Bytes :=
  if !self.config.enabled then .ok data else self.decryptGlobal lib alg data

variable {lib self}

theorem openWith_sealWith (law : lib.Lawful) {alg : EncryptionAlgorithm} {key : CipherKey}
    {nonce : Nonce} {data out : Bytes} (h : sealWith lib alg key nonce data = .ok out) :
    openWith lib alg key out = .ok data := by
  unfold sealWith at h
  cases hc : lib.encrypt alg key nonce data with
  | error e => simp [hc] at h
  | ok ciphertext =>
    simp only [hc, Except.ok.injEq] at h
    subst h
    simp [openWith, nonce.property, law.decrypt_encrypt _ _ _ _ _ hc]

theorem sealWith_length (law : lib.Lawful) {alg : EncryptionAlgorithm} {key : CipherKey}
    {nonce : Nonce} {data out : Bytes} (h : sealWith lib alg key nonce data = .ok out) :
    out.length = data.length + 28 := by
  unfold sealWith at h
  cases hc : lib.encrypt alg key nonce data with
  | error e => simp [hc] at h
  | ok ciphertext =>
    simp only [hc, Except.ok.injEq] at h
    subst h
    rw [List.length_append, nonce.property, law.encrypt_length _ _ _ _ _ hc]
    omega

theorem decryptWithKey_encryptWithKey (law : lib.Lawful) {alg : EncryptionAlgorithm} {key : Bytes}
    {nonce : Nonce} {data out : Bytes} (h : encryptWithKey lib data alg key nonce = .ok out) :
    decryptWithKey lib out alg key = .ok data := by
  unfold encryptWithKey at h
  split at h
  · rename_i hk
    simpa [decryptWithKey, hk] using openWith_sealWith law h
  · simp at h

theorem decrypt_encrypt (law : lib.Lawful) {alg : EncryptionAlgorithm} {nonce : Nonce}
    {data out : Bytes} (h : self.encrypt lib data alg nonce = .ok out) :
    self.decrypt lib out alg = .ok data := by
  cases he : self.config.enabled with
  | false =>
    simp only [encrypt, he, Bool.not_false, ↓reduceIte, Except.ok.injEq] at h
    simp [decrypt, he, h]
  | true =>
    simp only [encrypt, he, Bool.not_true, Bool.false_eq_true, ↓reduceIte, encryptGlobal] at h
    cases hk : self.cipherFor alg with
    | none => simp [hk] at h
    | some key =>
      simp only [hk] at h
      have hlen : ¬ out.length < 12 := by
        rw [sealWith_length law h]
        omega
      simp [decrypt, he, decryptGlobal, hk, hlen, openWith_sealWith law h]

theorem encryptWithKey_length (law : lib.Lawful) {alg : EncryptionAlgorithm} {key : Bytes}
    {nonce : Nonce} {data out : Bytes} (h : encryptWithKey lib data alg key nonce = .ok out) :
    out.length = data.length + 28 := by
  unfold encryptWithKey at h
  split at h
  · exact sealWith_length law h
  · simp at h

theorem encrypt_length (law : lib.Lawful) {alg : EncryptionAlgorithm} {nonce : Nonce}
    {data out : Bytes} (h : self.encrypt lib data alg nonce = .ok out) :
    out.length = if self.config.enabled then data.length + 28 else data.length := by
  cases he : self.config.enabled with
  | false =>
    simp only [encrypt, he, Bool.not_false, ↓reduceIte, Except.ok.injEq] at h
    simp [h]
  | true =>
    simp only [encrypt, he, Bool.not_true, Bool.false_eq_true, ↓reduceIte, encryptGlobal] at h
    cases hk : self.cipherFor alg with
    | none => simp [hk] at h
    | some key =>
      simp only [hk] at h
      exact sealWith_length law h

end CryptoManager

end LocalStorage
