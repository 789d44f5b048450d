import LocalStorage.Proofs.Upload
import LocalStorage.Proofs.Reading
import LocalStorage.Sample

namespace LocalStorage.Proofs.RoundTrip
open Lib Lib.Paths StorageManager

variable {sm : StorageManager} {w w' u : World} {b k : String} {content : Bytes}
  {ct : Option String} {opts : StoreOptions}

/-! ## Decoding undoes processing -/

theorem compressStage_kept (hc : (sm.compressStage opts content).2 = true) :
    (sm.compressor opts).compress sm.lib.toCodecs content = .ok (sm.compressStage opts content).1 ∧
      (sm.compressStage opts content).1.length < content.length := by
  unfold compressStage at hc ⊢
  split at hc
  · rename_i h
    simp only [h, ↓reduceIte]
    cases hz : (sm.compressor opts).compress sm.lib.toCodecs content with
    | error e => simp [hz] at hc
    | ok out =>
      simp only [hz] at hc ⊢
      split at hc
      · rename_i hlt
        simp [hlt]
      · simp at hc
  · simp at hc

/-- The columns the decoder goes by, as an upload sets them. -/
def uploadRecord (sm : StorageManager) (b k : String) (content : Bytes) (ct : Option String)
    (opts : StoreOptions) : StoredFile :=
  sm.freshFile b k content ct opts (sm.compressStage opts content).2
    (sm.compressStage opts content).1.length [] (sm.shouldEncrypt opts) 0 0

theorem encrypted_flag {db : Database} {processed : Bytes} {enc : Bool}
    (h : EncryptedAs sm db opts (sm.compressStage opts content).1 processed enc) :
    enc = sm.shouldEncrypt opts := by
  unfold EncryptedAs at h
  split at h
  · rename_i hs
    rw [h.1, hs]
  · rename_i hs
    rw [h.1]
    simpa using hs

theorem decrypted_processed (law : sm.lib.toCiphers.Lawful) {db : Database} {processed : Bytes}
    {enc : Bool}
    (h : EncryptedAs sm db opts (sm.compressStage opts content).1 processed enc) :
    sm.decrypted db (uploadRecord sm b k content ct opts) processed =
      .ok (sm.compressStage opts content).1 := by
  unfold EncryptedAs at h
  split at h
  · rename_i hs
    obtain ⟨-, alg, nonce, ha, h⟩ := h
    simp only [decrypted, uploadRecord, freshFile, StoredFile.encrypted, hs, Option.getD_some,
      ↓reduceIte, ha]
    cases hid : opts.encryptionKeyId with
    | none =>
      simp only [hid] at h
      exact CryptoManager.decrypt_encrypt law h
    | some keyId =>
      simp only [hid] at h
      obtain ⟨key, hkey, h⟩ := h
      simp only [hkey]
      exact CryptoManager.decryptWithKey_encryptWithKey law h
  · rename_i hs
    obtain ⟨-, rfl⟩ := h
    simp [decrypted, uploadRecord, freshFile, StoredFile.encrypted, hs]

/-- What a reader makes of the stored bytes: the content, unless the global switch keeps
it from decompressing. -/
theorem decoded_processed (lawC : sm.lib.toCodecs.Lawful) (lawE : sm.lib.toCiphers.Lawful)
    {db : Database} {processed : Bytes} {enc : Bool}
    (h : EncryptedAs sm db opts (sm.compressStage opts content).1 processed enc) :
    sm.decoded db (uploadRecord sm b k content ct opts) processed =
      if sm.config.compression.enabled = true ∨ (sm.compressStage opts content).2 = false then
        .ok content
      else .ok (sm.compressStage opts content).1 := by
  simp only [decoded, decrypted_processed lawE h]
  cases hc : (sm.compressStage opts content).2 with
  | false =>
    have hplain := compressStage_unchanged hc
    simp [uploadRecord, freshFile, StoredFile.compressed, hc, hplain]
  | true =>
    obtain ⟨hz, hlt⟩ := compressStage_kept hc
    have hne : (sm.compressStage opts content).1 ≠ content := by
      intro heq
      rw [heq] at hlt
      exact lt_irrefl _ hlt
    simp only [uploadRecord, freshFile, StoredFile.compressed, hc, Option.getD_some, ↓reduceIte]
    cases he : sm.config.compression.enabled with
    | true =>
      simp only [true_or, ↓reduceIte]
      exact CompressionManager.decompress_compress lawC he hz hne
    | false =>
      simp only [Bool.false_eq_true, Bool.true_eq_false, or_self, ↓reduceIte]
      exact CompressionManager.decompress_disabled he _

/-- How many bytes an upload stores. -/
def processedSize (sm : StorageManager) (opts : StoreOptions) (content : Bytes) : Nat :=
  let packed := (sm.compressStage opts content).1.length
  if sm.shouldEncrypt opts && (opts.encryptionKeyId.isSome || sm.crypto.config.enabled) then
    packed + 28
  else packed

theorem processed_length (law : sm.lib.toCiphers.Lawful) {db : Database} {processed : Bytes}
    {enc : Bool}
    (h : EncryptedAs sm db opts (sm.compressStage opts content).1 processed enc) :
    processed.length = processedSize sm opts content := by
  unfold EncryptedAs at h
  unfold processedSize
  split at h
  · rename_i hs
    obtain ⟨-, alg, nonce, -, h⟩ := h
    cases hid : opts.encryptionKeyId with
    | none =>
      simp only [hid] at h
      simpa [hs] using CryptoManager.encrypt_length law h
    | some keyId =>
      simp only [hid] at h
      obtain ⟨key, -, h⟩ := h
      simpa [hs] using CryptoManager.encryptWithKey_length law h
  · rename_i hs
    simp [hs, h.2]

/-! ## Reading an upload back -/

/-- `u` is a later moment: the row, its bytes and the keys are as the upload left them, the
object has not expired, and a cache entry is as it was left or gone. -/
structure Later (sm : StorageManager) (b k : String) (w' u : World) : Prop where
  row : (u.db.files.find (b, k)).map recipe = (w'.db.files.find (b, k)).map recipe
  disk : ∀ f ∈ w'.db.files, f.ident = (b, k) →
    u.bytesAt sm.host f.filePath = w'.bytesAt sm.host f.filePath
  keys : ∀ id, u.db.selectKey id = w'.db.selectKey id
  live : ∀ f ∈ w'.db.files, f.ident = (b, k) → past u.now f.expiresAt = false
  metadata : u.cache.getFileMetadata b k = none ∨
    (u.cache.getFileMetadata b k).map recipe = (w'.cache.getFileMetadata b k).map recipe
  content : u.cache.getFileContent b k = none ∨
    u.cache.getFileContent b k = w'.cache.getFileContent b k

/-- Later than a moment whose cache holds less is later than one whose cache holds more. -/
theorem Later.of_cache {v : World} (hu : Later sm b k v u) (hdb : v.db = w'.db) (hfs : v.fs = w'.fs)
    (hm : v.cache.getFileMetadata b k = none ∨
      (v.cache.getFileMetadata b k).map recipe = (w'.cache.getFileMetadata b k).map recipe)
    (hx : v.cache.getFileContent b k = none ∨
      v.cache.getFileContent b k = w'.cache.getFileContent b k) : Later sm b k w' u where
  row := hdb ▸ hu.row
  disk f hf hident := by
    rw [hu.disk f (hdb ▸ hf) hident]
    simp only [World.bytesAt, hfs]
  keys := hdb ▸ hu.keys
  live := hdb ▸ hu.live
  metadata := by
    rcases hu.metadata with hnone | hsame
    · exact .inl hnone
    · rcases hm with hnone | hm
      · rw [hnone, Option.map_none, Option.map_eq_none_iff] at hsame
        exact .inl hsame
      · exact .inr (hsame.trans hm)
  content := by
    rcases hu.content with hnone | hsame
    · exact .inl hnone
    · rcases hx with hnone | hx
      · exact .inl (hsame.trans hnone)
      · exact .inr (hsame.trans hx)

/-- Every later read returns the content. -/
def RoundTrips (sm : StorageManager) (b k : String) (content : Bytes) (w' : World) : Prop :=
  ∀ u, Later sm b k w' u → ∃ t, served sm u b k = .ok (content, t)

/-- The reader's global switch agrees with what the upload did, and bytes too large for the
cache do not leave other content cached under the key. -/
def Restores (sm : StorageManager) (w : World) (b k : String) (content : Bytes)
    (ct : Option String) (opts : StoreOptions) : Prop :=
  (sm.config.compression.enabled = true ∨ (sm.compressStage opts content).2 = false) ∧
    (processedSize sm opts content ≤ Cache.maxCacheSize ∨
      ∀ raw, w.cache.getFileContent b k = some raw →
        sm.decoded w.db (uploadRecord sm b k content ct opts) raw = .ok content)

/-- What a fresh upload leaves for its readers. -/
structure Warmed (sm : StorageManager) (w : World) (b k : String) (content : Bytes)
    (ct : Option String) (opts : StoreOptions) (w' : World) (processed : Bytes) : Prop where
  row : ∃ f, w'.db.files.find (b, k) = some f ∧
    recipe f = recipe (uploadRecord sm b k content ct opts)
  disk : w'.bytesAt sm.host (sm.getFilePath b k) = some processed
  keys : w'.db.encryptionKeys = w.db.encryptionKeys
  metadata : (w'.cache.getFileMetadata b k).map recipe =
    some (recipe (uploadRecord sm b k content ct opts))
  cached : w'.cache.getFileContent b k =
    if processed.length ≤ Cache.maxCacheSize then some processed else w.cache.getFileContent b k
  encrypted : EncryptedAs sm w.db opts (sm.compressStage opts content).1 processed
    (sm.shouldEncrypt opts)

theorem fresh_warmed {file : StoredFile}
    (hrun : (sm.storeFile b k content ct opts).Runs (exec sm.host) w (.ok file) w')
    (hfresh : sm.config.storage.enableDeduplication = true →
      ∀ f ∈ w.db.files, f.hashBlake3 ≠ sm.lib.blake3 content) :
    ∃ processed, Warmed sm w b k content ct opts w' processed := by
  cases storeFile_spec _ _ hrun with
  | identical _ hmem _ hhash hdedup => exact absurd hhash (hfresh hdedup _ hmem)
  | aliased existing _ _ hmem _ hhash hdedup => exact absurd hhash (hfresh hdedup _ hmem)
  | fresh processed enc id now _ henc hw =>
    obtain rfl := encrypted_flag henc
    refine ⟨processed, ?_⟩
    exact {
      row := ⟨_, hw.find, recipe_mergeRow _ _⟩
      disk := hw.bytesAt
      keys := hw.keys
      metadata := by
        rw [hw.cache, Cache.getFileMetadata_setFileContent,
          Cache.getFileMetadata_setFileMetadata]
        simp [freshFile, Cache.SameSlot, uploadRecord, recipe, StoredFile.compressed,
          StoredFile.encrypted]
      cached := by
        rw [hw.cache]
        split
        · rename_i hsize
          rw [Cache.getFileContent_setFileContent hsize]
          simp [freshFile, Cache.SameSlot]
        · rename_i hsize
          rw [Cache.setFileContent_large (Nat.lt_of_not_le hsize)]
          rfl
      encrypted := henc }

theorem Warmed.recordOf {processed : Bytes} (hw : Warmed sm w b k content ct opts w' processed)
    (hu : Later sm b k w' u) : ∃ f, recordOf u b k = some f ∧
      recipe f = recipe (uploadRecord sm b k content ct opts) := by
  obtain ⟨f, hf, hr⟩ := hw.row
  rcases hu.metadata with hnone | hsame
  · have hrow := hu.row
    rw [hf, Option.map_some, hr, Option.map_eq_some_iff] at hrow
    obtain ⟨g, hg, hgr⟩ := hrow
    exact ⟨g, by simp [StorageManager.recordOf, hnone, Database.selectFile, hg], hgr⟩
  · rw [hw.metadata, Option.map_eq_some_iff] at hsame
    obtain ⟨g, hg, hgr⟩ := hsame
    exact ⟨g, by simp [StorageManager.recordOf, hg], hgr⟩

theorem Warmed.live {processed : Bytes} (hw : Warmed sm w b k content ct opts w' processed)
    (hu : Later sm b k w' u) : past u.now opts.expiresAt = false := by
  obtain ⟨f, hf, hr⟩ := hw.row
  have hexp : f.expiresAt = opts.expiresAt := (recipe_eq.mp hr).2.2.2.2.2.2
  rw [← hexp]
  exact hu.live f (Table.find_mem hf) (Table.find_key hf)

theorem Warmed.rawOf {processed : Bytes} (hw : Warmed sm w b k content ct opts w' processed)
    (hu : Later sm b k w' u) {f : StoredFile}
    (hr : recipe f = recipe (uploadRecord sm b k content ct opts)) :
    rawOf sm.host u b k f = (u.cache.getFileContent b k <|> some processed) := by
  have hpath : f.filePath = sm.getFilePath b k := (recipe_eq.mp hr).1
  obtain ⟨g, hg, hgr⟩ := hw.row
  have hgpath : g.filePath = sm.getFilePath b k := (recipe_eq.mp hgr).1
  have hdisk := hu.disk g (Table.find_mem hg) (Table.find_key hg)
  rw [hgpath, hw.disk] at hdisk
  rw [StorageManager.rawOf, hpath, hdisk]

/-- A later read returns what its bytes decode to. -/
theorem Warmed.served {processed : Bytes} (hw : Warmed sm w b k content ct opts w' processed)
    (hu : Later sm b k w' u) {raw : Bytes}
    (hraw : (u.cache.getFileContent b k <|> some processed) = some raw) :
    ∃ t, StorageManager.served sm u b k =
      (sm.decoded w.db (uploadRecord sm b k content ct opts) raw).map fun out => (out, t) := by
  obtain ⟨f, hf, hr⟩ := hw.recordOf hu
  have hlive : past u.now f.expiresAt = false := by
    rw [(recipe_eq.mp hr).2.2.2.2.2.2]
    exact hw.live hu
  have hkeys : ∀ id, u.db.selectKey id = w.db.selectKey id := fun id =>
    (hu.keys id).trans (selectKey_congr hw.keys id)
  refine ⟨some f.contentType, ?_⟩
  rw [served_of_record hf hlive ((hw.rawOf hu hr).trans hraw), decoded_congr hr hkeys]

/-- The moment of the upload, with the cache let go of, at a time the object is alive. -/
theorem Warmed.later {processed : Bytes} (hw : Warmed sm w b k content ct opts w' processed)
    (gone : String → Bool) :
    ∃ now, Later sm b k w' { w' with cache := w'.cache.evict gone, now := now } := by
  obtain ⟨f, hf, hr⟩ := hw.row
  have hexp : f.expiresAt = opts.expiresAt := (recipe_eq.mp hr).2.2.2.2.2.2
  obtain ⟨now, hnow⟩ : ∃ now, past now opts.expiresAt = false := by
    cases opts.expiresAt with
    | none => exact ⟨0, rfl⟩
    | some t => exact ⟨t - 1, decide_eq_false (Int.not_le.mpr (Int.sub_one_lt_of_le (le_refl t)))⟩
  refine ⟨now, rfl, fun _ _ _ => rfl, fun _ => rfl, ?_, ?_, ?_⟩
  · intro g hg hident
    obtain rfl := Table.eq_of_key hg (Table.find_mem hf) (hident.trans (Table.find_key hf).symm)
    rw [hexp]
    exact hnow
  · simp only [Cache.evict, Cache.getFileMetadata]
    split <;> simp
  · simp only [Cache.evict, Cache.getFileContent]
    split <;> simp

theorem Warmed.round_trips_iff (lawC : sm.lib.toCodecs.Lawful) (lawE : sm.lib.toCiphers.Lawful)
    {processed : Bytes} (hw : Warmed sm w b k content ct opts w' processed) :
    RoundTrips sm b k content w' ↔ Restores sm w b k content ct opts := by
  have hdec : sm.decoded w.db (uploadRecord sm b k content ct opts) processed = _ :=
    decoded_processed lawC lawE hw.encrypted
  have hlen := processed_length lawE hw.encrypted
  constructor
  · intro h
    refine ⟨?_, ?_⟩
    · -- read from disk, with nothing cached
      by_contra hno
      rw [if_neg hno] at hdec
      obtain ⟨now, hu⟩ := hw.later (fun _ => true)
      obtain ⟨t, ht⟩ := hw.served hu (Option.none_or (o := some processed))
      obtain ⟨t', ht'⟩ := h _ hu
      rw [ht', hdec] at ht
      simp only [Except.map, Except.ok.injEq, Prod.mk.injEq] at ht
      simp only [not_or, Bool.not_eq_false] at hno
      have hlt := (compressStage_kept hno.2).2
      rw [← ht.1] at hlt
      exact lt_irrefl _ hlt
    · -- read from the cache as the upload left it
      by_cases hsize : processed.length ≤ Cache.maxCacheSize
      · exact .inl (hlen ▸ hsize)
      · refine .inr fun raw hraw => ?_
        obtain ⟨now, hu⟩ := hw.later (fun _ => false)
        have hcached : w'.cache.getFileContent b k = some raw := by
          rw [hw.cached, if_neg hsize, hraw]
        have hraw' : ((w'.cache.evict fun _ => false).getFileContent b k <|> some processed) =
            some raw := by
          have : (w'.cache.evict fun _ => false).getFileContent b k = some raw := hcached
          rw [this]
          rfl
        obtain ⟨t, ht⟩ := hw.served hu hraw'
        obtain ⟨t', ht'⟩ := h _ hu
        rw [ht'] at ht
        cases hd : sm.decoded w.db (uploadRecord sm b k content ct opts) raw with
        | error e => simp [hd, Except.map] at ht
        | ok out =>
          simp only [hd, Except.map, Except.ok.injEq, Prod.mk.injEq] at ht
          rw [ht.1]
  · rintro ⟨hswitch, hstale⟩ u hu
    rw [if_pos hswitch] at hdec
    have hread : ∀ raw, (u.cache.getFileContent b k <|> some processed) = some raw →
        sm.decoded w.db (uploadRecord sm b k content ct opts) raw = .ok content →
        ∃ t, StorageManager.served sm u b k = .ok (content, t) := by
      intro raw hraw hd
      obtain ⟨t, ht⟩ := hw.served hu hraw
      exact ⟨t, by rw [ht, hd]; rfl⟩
    rcases hu.content with hnone | hsame
    · exact hread processed (by rw [hnone]; rfl) hdec
    · rw [hw.cached] at hsame
      split at hsame
      · exact hread processed (by rw [hsame]; rfl) hdec
      · rename_i hsize
        cases hold : w.cache.getFileContent b k with
        | none => exact hread processed (by rw [hsame, hold]; rfl) hdec
        | some raw =>
          refine hread raw (by rw [hsame, hold]; rfl) ?_
          exact hstale.resolve_left (hlen ▸ hsize) raw hold

open Sample (managerWith letters lettersFrame codecs_lawful ciphers_lawful)

/-- A service with compression on or off globally. -/
def service (enabled : Bool) : StorageManager := managerWith ⟨enabled, "zstd", 3, 16⟩ true

/-- An upload of sixty-four letters that asks for compression. -/
def stored (enabled : Bool) : Result StoredFile × World :=
  ((service enabled).storeFile "a" "k" letters none { compress := some true }).eval
    (exec (service enabled).host) calm World.empty

end LocalStorage.Proofs.RoundTrip
