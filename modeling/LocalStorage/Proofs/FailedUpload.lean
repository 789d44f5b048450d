import LocalStorage.Proofs.Upload
import LocalStorage.Proofs.Reading
import LocalStorage.Sample

namespace LocalStorage.Proofs.FailedUpload
open Lib Lib.Paths StorageManager

variable {sm : StorageManager} {w w' : World} {b k : String} {content : Bytes}
  {ct : Option String} {opts : StoreOptions}

/-- A record a read can go by: a row of the table or a cached copy of one. -/
def Readable (w : World) (f : StoredFile) : Prop :=
  f ∈ w.db.files ∨ ∃ slot, w.cache.metadata slot = some f

/-- Encryption is asked for, and its algorithm or its key is not to be had. -/
def CannotEncrypt (sm : StorageManager) (w : World) (opts : StoreOptions) : Prop :=
  sm.shouldEncrypt opts = true ∧
    ((EncryptionAlgorithm.fromStr sm.config.crypto.algorithm).isOk = false ∨
      ∃ keyId, opts.encryptionKeyId = some keyId ∧ w.db.selectKey keyId = none)

instance (sm : StorageManager) (w : World) (opts : StoreOptions) :
    Decidable (CannotEncrypt sm w opts) :=
  have : Decidable (∃ keyId, opts.encryptionKeyId = some keyId ∧ w.db.selectKey keyId = none) :=
    decidable_of_iff (opts.encryptionKeyId.any (fun keyId => (w.db.selectKey keyId).isNone) = true)
      (by cases opts.encryptionKeyId <;> simp)
  inferInstanceAs (Decidable (_ ∧ (_ ∨ _)))

/-- The upload cannot get as far as the disk, or no record names a place it touches. -/
def CleanFailure (sm : StorageManager) (w : World) (b k : String) (content : Bytes)
    (opts : StoreOptions) : Prop :=
  (sm.config.storage.enableDeduplication = true ∧
      ∃ f ∈ w.db.files, f.hashBlake3 = sm.lib.blake3 content) ∨
    CannotEncrypt sm w opts ∨
    ∀ f, Readable w f → sm.host.target f.filePath ∉ sm.places b k

/-- Every key answers as it did, whenever it is asked. -/
def SameReads (sm : StorageManager) (w w' : World) : Prop :=
  ∀ b k t, served sm { w' with now := t } b k = served sm { w with now := t } b k

theorem recordOf_readable {b k : String} {f : StoredFile} (h : recordOf w b k = some f) :
    Readable w f := by
  unfold recordOf at h
  cases hc : w.cache.getFileMetadata b k with
  | some g =>
    rw [hc] at h
    have hg : g = f := by simpa using h
    subst hg
    exact .inr ⟨Cache.metadataKey b k, hc⟩
  | none =>
    rw [hc] at h
    exact .inl (Table.find_mem (by simpa [Database.selectFile] using h))

/-- Changes on disk at places no record names are invisible to every read. -/
theorem Kept.sameReads {ls : List Loc} (hk : Kept ls w w')
    (hfree : ∀ f, Readable w f → sm.host.target f.filePath ∉ ls) : SameReads sm w w' := by
  intro b k t
  have hrec : recordOf { w' with now := t } b k = recordOf { w with now := t } b k := by
    simp only [recordOf, hk.cache, Database.selectFile, hk.files]
  apply served_congr
  · rw [hrec]
  · intro f g hf hg
    rw [hrec, hg] at hf
    obtain rfl := Option.some.inj hf
    have hread : Readable w g := recordOf_readable hg
    have hdisk := hk.disk _ (hfree g hread)
    simp only [rawOf, hk.cache]
    congr 1
    funext _
    exact World.bytesAt_congr hdisk
  · exact selectKey_congr hk.keys
  · rfl

theorem CannotEncrypt.not_encrypted {data out : Bytes} {enc : Bool}
    (h : CannotEncrypt sm w opts) : ¬ EncryptedAs sm w.db opts data out enc := by
  intro henc
  obtain ⟨hs, hbad⟩ := h
  unfold EncryptedAs at henc
  rw [if_pos hs] at henc
  obtain ⟨-, alg, nonce, ha, henc⟩ := henc
  rcases hbad with hbad | ⟨keyId, hid, hnone⟩
  · rw [ha] at hbad
    simp [Except.isOk, Except.toBool] at hbad
  · simp only [hid] at henc
    obtain ⟨key, hkey, -⟩ := henc
    rw [hnone] at hkey
    simp at hkey

/-- A failed upload under the condition changes no answer. -/
theorem failed_sameReads {e : StorageError}
    (hrun : (sm.storeFile b k content ct opts).Runs (exec sm.host) w (.error e) w')
    (hclean : CleanFailure sm w b k content opts) : SameReads sm w w' := by
  cases storeFile_spec _ _ hrun with
  | rejected _ hk => exact Kept.sameReads hk fun _ _ => List.not_mem_nil
  | broken _ hnew henc hk =>
    rcases hclean with ⟨hdedup, f, hf, hhash⟩ | hcannot | hfree
    · exact absurd hhash (hnew hdedup f hf)
    · obtain ⟨out, enc, henc⟩ := henc
      exact absurd henc hcannot.not_encrypted
    · exact Kept.sameReads hk hfree

/-- Every failing upload meets the condition. -/
def FailsClean (sm : StorageManager) (w : World) : Event → Prop
  | .storeFile b k content _ opts (.error _) => CleanFailure sm w b k content opts
  | _ => True

/-- The step, and, when it is a failed upload, that it changed no answer. -/
def KeepsReads (sm : StorageManager) (e : Event) (w w' : World) : Prop :=
  e.Transition sm w w' ∧
    match e with
    | .storeFile _ _ _ _ _ (.error _) => SameReads sm w w'
    | _ => True

open Sample (manager)

/-- An upload that names an unknown key without asking for encryption: the bytes are
written, and the foreign key then rejects the row. -/
def unknownKey (key : String) : Event × Choice :=
  (.storeFile "a" key [121] none { encryptionKeyId := some "missing" } (.error (.io "")), { uuid := 2 })

/-- One upload, after which the cache lets go of everything. -/
def uploadThenEvict : List (Event × Choice) :=
  [(.storeFile "a" "k1" [120] none {} (.error (.io "")), { uuid := 1 }),
   (.evict (fun _ => true), {})]

def uploaded : World := (replay manager uploadThenEvict ([], World.empty)).2

/-- The overwrite of an object by the rejected upload: its row stays, its bytes are gone. -/
def overwriting : Result StoredFile × World :=
  (manager.storeFile "a" "k1" [121] none { encryptionKeyId := some "missing" }).eval
    (exec manager.host) { uuid := 2 } uploaded

end LocalStorage.Proofs.FailedUpload
