import LocalStorage.System

namespace LocalStorage.Sample
open Lib Lib.Paths

/-! A service instance to compute with. The library functions agree with the real ones on
the contents used here; elsewhere they refuse, and the hash stays injective. -/

/-- Sixty-four times the letter a. -/
def letters : Bytes := List.replicate 64 97

/-- `zstd::bulk::compress(letters, 3)`. -/
def lettersFrame : Bytes :=
  [40, 181, 47, 253, 32, 64, 69, 0, 0, 16, 97, 97, 1, 0, 147, 0, 22]

def codecs : Codecs where
  gzip _ _ := .error "unavailable"
  gunzip data := ⟨data, some "invalid gzip header", []⟩
  zstd level data :=
    if level = 3 ∧ data = letters then .ok lettersFrame else .error "unavailable"
  unzstd data :=
    if data = lettersFrame then .ok ⟨letters, none, []⟩ else .error "Unknown frame descriptor"

theorem codecs_lawful : codecs.Lawful where
  gunzip_gzip _ _ _ h := by simp [codecs] at h
  unzstd_zstd level data out h := by
    simp only [codecs] at h ⊢
    split at h
    · rename_i hd
      simp only [Except.ok.injEq] at h
      subst h
      exact ⟨⟨letters, none, []⟩, by simp, hd.2.symm, rfl⟩
    · simp at h

def ciphers : Ciphers where
  encrypt _ _ _ _ := .error "aead::Error"
  decrypt _ _ _ _ := .error "aead::Error"
  hexDecode _ := .error "Odd number of digits"

theorem ciphers_lawful : ciphers.Lawful where
  decrypt_encrypt _ _ _ _ _ h := by simp [ciphers] at h
  encrypt_length _ _ _ _ _ h := by simp [ciphers] at h

def unhashed (b : Bytes) : String := String.ofList ('#' :: b.map Char.ofUInt8)

theorem unhashed_injective : Function.Injective unhashed := by
  intro a b h
  have h' := congrArg String.toList h
  simp only [unhashed, String.toList_ofList, List.cons.injEq, true_and] at h'
  refine List.map_injective_iff.mpr ?_ h'
  intro x y hxy
  have hv : x.toUInt32 = y.toUInt32 := congrArg Char.val hxy
  exact UInt8.toUInt32_inj.mp hv

def digests : List (Bytes × String) :=
  [([120], "3ae7d805f6789a6402acb70ad4096a85a56bf6804eaf25c0493ac697548d30b5"),
   ([121], "08112a9e334ce73042b531c25668cf5cb12a1ee040a4326afeac065461079a06"),
   (letters, "472c51290d607f100d2036fdcedd7590bba245e9adeb21364a063b7bb4ca81c7")]

def blake3 (b : Bytes) : String :=
  match digests.find? (·.1 = b) with
  | some d => d.2
  | none => unhashed b

def md5 (b : Bytes) : String :=
  if b = [120] then "9dd4e461268c8034f5c8564e155c67a6"
  else if b = [121] then "415290769594460e2e485922904f345d"
  else if b = letters then "014842d480b571495a4a0363793f7367"
  else ""

theorem blake3_injective : Function.Injective blake3 := by
  have hdigests : ∀ p ∈ digests, ∀ q ∈ digests, p.2 = q.2 → p.1 = q.1 := by decide
  have hhead : ∀ p ∈ digests, p.2.toList.head? ≠ some '#' := by decide
  have hnone : ∀ p ∈ digests, ∀ c, p.2 ≠ unhashed c := by
    intro p hp c hc
    apply hhead p hp
    simp [hc, unhashed]
  intro a b h
  unfold blake3 at h
  cases ha : digests.find? (·.1 = a) with
  | some p =>
    have hp := List.mem_of_find?_eq_some ha
    have hpa : p.1 = a := by simpa using List.find?_some ha
    cases hb : digests.find? (·.1 = b) with
    | some q =>
      have hqb : q.1 = b := by simpa using List.find?_some hb
      simp only [ha, hb] at h
      rw [← hpa, ← hqb]
      exact hdigests p hp q (List.mem_of_find?_eq_some hb) h
    | none =>
      simp only [ha, hb] at h
      exact absurd h (hnone p hp b)
  | none =>
    cases hb : digests.find? (·.1 = b) with
    | some q =>
      simp only [ha, hb] at h
      exact absurd h.symm (hnone q (List.mem_of_find?_eq_some hb) a)
    | none =>
      simp only [ha, hb] at h
      exact unhashed_injective h

def lib : Libraries := { codecs, ciphers with blake3 := blake3, md5 := md5 }

/-- The configuration a service without environment variables starts with. -/
def config : Config :=
  { storage := ⟨"/storage", 1073741824, true⟩
    crypto := ⟨false, "aes-gcm", none⟩
    compression := ⟨false, "zstd", 3, 1024⟩ }

def host : Host := ⟨[], id⟩

/-- A service whose global encryption is off. -/
def managerWith (compression : CompressionConfig) (dedup : Bool) : StorageManager where
  lib := lib
  config := { config with compression := compression
                          storage := { config.storage with enableDeduplication := dedup } }
  host := host
  crypto := ⟨config.crypto, none, none⟩
  started := ⟨⟨List.replicate 32 0, rfl⟩, rfl⟩

def manager : StorageManager := managerWith config.compression true

/-! ## Encryption -/

/-- Thirty-two characters, so the configured key is taken as it is. -/
def keyText : String := "0123456789abcdef0123456789abcdef"

def cipherKey : CipherKey := ⟨keyText.toList.flatMap String.utf8EncodeChar, by decide⟩

/-- The nonce of a calm run. -/
def nonce : Nonce := zeroNonce

/-- Ciphers that know one plain text and what the real ones make of it under `cipherKey`
and `nonce`. -/
def ciphersOf (plain : Bytes) (secret : EncryptionAlgorithm → Bytes) : Ciphers where
  encrypt alg key n data :=
    if key = cipherKey ∧ n = nonce ∧ data = plain then .ok (secret alg) else .error "aead::Error"
  decrypt alg key n data :=
    if key = cipherKey ∧ n = nonce ∧ data = secret alg then .ok plain else .error "aead::Error"
  hexDecode _ := .error "Odd number of digits"

theorem ciphersOf_lawful {plain : Bytes} {secret : EncryptionAlgorithm → Bytes}
    (hlength : ∀ alg, (secret alg).length = plain.length + 16) : (ciphersOf plain secret).Lawful where
  decrypt_encrypt alg key n data out h := by
    simp only [ciphersOf] at h ⊢
    split at h
    · rename_i hin
      simp only [Except.ok.injEq] at h
      simp [hin, h]
    · simp at h
  encrypt_length alg key n data out h := by
    simp only [ciphersOf] at h
    split at h
    · rename_i hin
      simp only [Except.ok.injEq] at h
      rw [← h, hin.2.2, hlength]
    · simp at h

/-- The letter x under `cipherKey` and `nonce`, with its tag. -/
def sealedX : EncryptionAlgorithm → Bytes
  | .aesGcm => [182, 103, 117, 240, 136, 155, 110, 198, 70, 124, 53, 103, 176, 16, 210, 110, 234]
  | .chaCha20Poly1305 =>
    [165, 142, 132, 171, 183, 15, 205, 81, 29, 164, 119, 160, 221, 188, 49, 239, 34]

def workingCiphers : Ciphers := ciphersOf [120] sealedX

theorem workingCiphers_lawful : workingCiphers.Lawful :=
  ciphersOf_lawful fun alg => by cases alg <;> rfl

def cryptoConfig (enabled : Bool) (alg : EncryptionAlgorithm) : CryptoConfig :=
  ⟨enabled, alg.asStr, some keyText⟩

def cryptoManager (enabled : Bool) (alg : EncryptionAlgorithm) : CryptoManager where
  config := cryptoConfig enabled alg
  aesKey := if enabled ∧ alg = .aesGcm then some cipherKey else none
  chachaKey := if enabled ∧ alg = .chaCha20Poly1305 then some cipherKey else none

/-- The same service with the key configured. -/
def keyedManager (enabled : Bool) (alg : EncryptionAlgorithm) : StorageManager where
  lib := { codecs, workingCiphers with blake3 := blake3, md5 := md5 }
  config := { config with crypto := cryptoConfig enabled alg }
  host := host
  crypto := cryptoManager enabled alg
  started := ⟨cipherKey, by cases enabled <;> cases alg <;> decide⟩

end LocalStorage.Sample
