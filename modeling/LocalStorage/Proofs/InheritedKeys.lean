import LocalStorage.Proofs.CacheCoherence
import LocalStorage.Proofs.KeyEvents
import LocalStorage.Proofs.ReadFrames
import LocalStorage.Sample

namespace LocalStorage.Proofs.InheritedKeys
open Lib Lib.Paths StorageManager CacheCoherence

/-! # Keys that an object needs though its upload named none -/

/-- Reading the record takes the key. -/
def Needs (keyId : String) (f : StoredFile) : Prop :=
  f.encrypted = true ∧ f.encryptionKeyId = some keyId

instance (keyId : String) (f : StoredFile) : Decidable (Needs keyId f) :=
  inferInstanceAs (Decidable (_ ∧ _))

/-- The options of the last successful upload of the pair, after one more event. -/
def requestedBy (b k : String) (last : Option StoreOptions) : ServiceEvent → Option StoreOptions
  | .call (.storeFile b' k' _ _ opts (.ok _)) => if (b, k) = (b', k') then some opts else last
  | _ => last

/-- What the object's own upload asked for. -/
def requested (es : List ServiceEvent) (b k : String) : Option StoreOptions :=
  es.foldl (requestedBy b k) none

/-- The object's own upload named the key. -/
def Named (keyId : String) (es : List ServiceEvent) (b k : String) : Prop :=
  ∃ opts, requested es b k = some opts ∧ opts.encryptionKeyId = some keyId

/-- An upload names the key, for a pair with a cache entry of its own, or gets by without it:
where its content is recorded already, no row of the content needs the key, and neither does
what is cached for the pair. -/
def AsksForKey (sm : StorageManager) (keyId : String) (w : World) : ServiceEvent → Prop
  | .call (.storeFile b k content _ opts (.ok _)) =>
    opts.encryptionKeyId = some keyId ∧ PlainNames b k ∨
    opts.encryptionKeyId ≠ some keyId ∧ (Recorded sm w content →
      (∀ f ∈ w.db.files.rows, f.hashBlake3 = sm.lib.blake3 content → ¬ Needs keyId f) ∧
        ∀ f ∈ w.cache.getFileMetadata b k, ¬ Needs keyId f)
  | _ => True

instance AsksForKey.decide (sm : StorageManager) (keyId : String) (w : World) :
    (e : ServiceEvent) → Decidable (AsksForKey sm keyId w e)
  | .call (.storeFile b k _ _ _ (.ok _)) =>
    inferInstanceAs (Decidable (_ ∨ _ ∧ (_ → (∀ f ∈ w.db.files.rows, _) ∧
      ∀ f ∈ w.cache.getFileMetadata b k, _)))
  | .call (.storeFile _ _ _ _ _ (.error _)) | .call (.getFile ..) | .call (.getFileRangeIfPlain ..)
  | .call (.getCompressedFileRange ..) | .call (.deleteFile ..) | .call (.deleteBucket ..)
  | .call (.sweepExpiredFiles _) | .call (.evict _) | .call (.tick _)
  | .createEncryptionKey .. | .deactivateEncryptionKey .. => isTrue trivial

variable {sm : StorageManager} {h : Host} {u v w w' : World} {b k keyId : String}
  {content : Bytes} {ct : Option String} {opts : StoreOptions} {es : List ServiceEvent}
  {named : String → String → Prop}

theorem requested_snoc (es : List ServiceEvent) (e : ServiceEvent) :
    requested (es ++ [e]) b k = requestedBy b k (requested es b k) e := by
  simp [requested]

/-! ## Who needs the key -/

/-- Whatever needs the key, in the table or in the cache, is of a pair that named it. -/
structure Tied (keyId : String) (named : String → String → Prop) (w : World) : Prop where
  row : ∀ b k f, w.db.files.find (b, k) = some f → Needs keyId f → named b k ∧ PlainNames b k
  cached : ∀ b k f, w.cache.getFileMetadata b k = some f → Needs keyId f → named b k

theorem Needs.congr {f g : StoredFile} (hrecipe : recipe f = recipe g) (hf : Needs keyId f) :
    Needs keyId g := by
  obtain ⟨-, -, henc, -, hid, -⟩ := recipe_eq.mp hrecipe
  exact ⟨henc ▸ hf.1, hid ▸ hf.2⟩

namespace Tied

theorem initial (hfiles : w.db.files = Table.empty) (hcache : w.cache = Cache.empty) :
    Tied keyId named w := by
  constructor
  · intro b k f hf
    simp [hfiles] at hf
  · intro b k f hf
    simp [hcache, Cache.empty, Cache.getFileMetadata] at hf

/-- Rows and entries may go. -/
theorem shrink (ht : Tied keyId named w)
    (hrow : ∀ b k f, w'.db.files.find (b, k) = some f → w.db.files.find (b, k) = some f)
    (hcached : ∀ b k f, w'.cache.getFileMetadata b k = some f →
      w.cache.getFileMetadata b k = some f) : Tied keyId named w' :=
  ⟨fun b k f hf => ht.row b k f (hrow b k f hf), fun b k f hf => ht.cached b k f (hcached b k f hf)⟩

theorem same (ht : Tied keyId named w) (hfiles : w'.db.files = w.db.files)
    (hcache : w'.cache = w.cache) : Tied keyId named w' :=
  ht.shrink (fun _ _ _ hf => hfiles ▸ hf) fun _ _ _ hf => hcache ▸ hf

theorem quiet {c : Choice} {a : Action} (ht : Tied keyId named w) (ha : Quiet a) :
    Tied keyId named (exec h c a w).2 := by
  have htakes : Takes (exec h) w ⟨a, (exec h c a w).1⟩ (exec h c a w).2 := ⟨c, rfl⟩
  constructor
  · intro b k f hf hneeds
    have hrecipe := takes_recipe htakes ha.row b k
    rw [hf, Option.map_some] at hrecipe
    obtain ⟨g, hg, hgf⟩ := Option.map_eq_some_iff.mp hrecipe.symm
    exact ht.row b k g hg (hneeds.congr hgf.symm)
  · intro b k f hf
    rw [takes_getFileMetadata htakes ha.metadata] at hf
    exact ht.cached b k f hf

theorem looked_up {file : StoredFile} (ht : Tied keyId named w)
    (hrow : w.db.files.find (b, k) = some file) :
    Tied keyId named { w with cache := w.cache.setFileMetadata b k file } := by
  refine ⟨ht.row, fun b' k' f hf hneeds => ?_⟩
  rw [Cache.getFileMetadata_setFileMetadata] at hf
  split at hf
  · rename_i hslot
    obtain rfl := Option.some.inj hf
    obtain ⟨hnamed, hplain⟩ := ht.row b k file hrow hneeds
    obtain ⟨rfl, rfl⟩ := hslot.eq_of_plain hplain.1 hplain.2
    exact hnamed
  · exact ht.cached b' k' f hf hneeds

theorem deleted {file : StoredFile} (ht : Tied keyId named w) (hd : Deleted h b k file w w') :
    Tied keyId named w' := by
  refine ht.shrink (fun b' k' f hf => ?_) fun b' k' f hf => ?_
  · rw [hd.files] at hf
    exact Table.find_of_filter hf
  · rw [hd.cache, Cache.getFileMetadata_invalidateFile] at hf
    split at hf
    · simp at hf
    · exact hf

theorem bucketDeleted (ht : Tied keyId named w) (hd : BucketDeleted sm b w w') :
    Tied keyId named w' := by
  obtain ⟨ks, -, hcache⟩ := hd.cache
  refine ht.shrink (fun b' k' f hf => ?_) fun b' k' f hf => ?_
  · rw [hd.files] at hf
    exact Table.find_of_filter hf
  · rw [hcache, Cache.getFileMetadata_invalidateFiles] at hf
    split at hf
    · simp at hf
    · exact hf

theorem evict (ht : Tied keyId named w) (gone : String → Bool) :
    Tied keyId named { w with cache := w.cache.evict gone } :=
  ht.shrink (fun _ _ _ hf => hf) fun _ _ _ hf => Cache.getFileMetadata_of_evict hf

/-- A saved row ties its own pair, and so does the record cached for it. -/
theorem saved {row : StoredFile} {named' : String → String → Prop} (ht : Tied keyId named w)
    (hother : ∀ b' k', (b', k') ≠ (b, k) → named b' k' → named' b' k')
    (hfind : ∀ b' k', w'.db.files.find (b', k') =
      if (b', k') = (b, k) then some row else w.db.files.find (b', k'))
    (hrow : Needs keyId row → named' b k ∧ PlainNames b k)
    (hcached : ∀ b' k' f, w'.cache.getFileMetadata b' k' = some f → Needs keyId f →
      (b', k') = (b, k) ∧ named' b k ∨
        (b', k') ≠ (b, k) ∧ w.cache.getFileMetadata b' k' = some f) : Tied keyId named' w' := by
  constructor
  · intro b' k' f hf hneeds
    rw [hfind] at hf
    split at hf
    · rename_i heq
      obtain ⟨rfl, rfl⟩ := Prod.ext_iff.mp heq
      obtain rfl := Option.some.inj hf
      exact hrow hneeds
    · rename_i hne
      obtain ⟨hnamed, hplain⟩ := ht.row b' k' f hf hneeds
      exact ⟨hother b' k' hne hnamed, hplain⟩
  · intro b' k' f hf hneeds
    obtain ⟨heq, hnamed⟩ | ⟨hne, hold⟩ := hcached b' k' f hf hneeds
    · obtain ⟨rfl, rfl⟩ := Prod.ext_iff.mp heq
      exact hnamed
    · exact hother b' k' hne (ht.cached b' k' f hold hneeds)

end Tied

/-! ## Calls -/

def StaysTied (keyId : String) (named : String → String → Prop) (w w' : World) : Prop :=
  Tied keyId named w → Tied keyId named w'

theorem deleteFile_tied (b k : String) :
    (deleteFile b k).Relates (exec h) (StaysTied keyId named) := by
  intro w
  refine deleteFile_spec.mono fun x t hx ht => ?_
  cases x with
  | ok u =>
    obtain ⟨file, hd⟩ := hx
    exact ht.deleted hd
  | error e =>
    obtain rfl := hx
    exact ht

theorem readMetadata_tied (b k : String) :
    (readMetadata b k).Relates (exec h) (StaysTied keyId named) := by
  intro w
  exact readMetadata_frame (fun ht => ht) fun file hrow ht => ht.looked_up hrow

theorem reads_tied : KeptByReads h (StaysTied keyId named) where
  refl _ := id
  trans _ _ _ huv hvw ht := hvw (huv ht)
  quiet _ _ _ ha ht := ht.quiet ha
  deleteFile := deleteFile_tied
  readMetadata := readMetadata_tied

/-- What the pair's own upload named, after an upload that asked for `opts`. -/
def namedAfter (keyId b k : String) (opts : StoreOptions) (named : String → String → Prop)
    (b' k' : String) : Prop :=
  if (b', k') = (b, k) then opts.encryptionKeyId = some keyId else named b' k'

/-- A successful upload that meets the condition ties no pair that did not ask for it. -/
theorem storeFile_tied {file : StoredFile} (ht : Tied keyId named w)
    (hp : AsksForKey sm keyId w (.call (.storeFile b k content ct opts (.ok file))))
    (hrun : (sm.storeFile b k content ct opts).Runs (exec sm.host) w (.ok file) w') :
    Tied keyId (namedAfter keyId b k opts named) w' := by
  have hown : opts.encryptionKeyId = some keyId → namedAfter keyId b k opts named b k := by
    intro hid
    simpa [namedAfter] using hid
  have hother : ∀ b' k', (b', k') ≠ (b, k) → named b' k' → namedAfter keyId b k opts named b' k' := by
    intro b' k' hne hnamed
    simpa [namedAfter, hne] using hnamed
  -- where nothing is written, what is cached for the pair stays
  have hstays : ∀ f', Recorded sm w content → w.cache.getFileMetadata b k = some f' →
      Needs keyId f' → namedAfter keyId b k opts named b k := by
    intro f' hrec hf' hneeds
    obtain ⟨hid, -⟩ | ⟨-, hclear⟩ := hp
    · exact hown hid
    · exact absurd hneeds ((hclear hrec).2 f' hf')
  have hrecorded : ∀ f' ∈ w.db.files, f'.hashBlake3 = sm.lib.blake3 content →
      Recorded sm w content → Needs keyId f' →
        namedAfter keyId b k opts named b k ∧ PlainNames b k := by
    intro f' hf' hhash hrec hneeds
    obtain ⟨hid, hplain⟩ | ⟨-, hclear⟩ := hp
    · exact ⟨hown hid, hplain⟩
    · exact absurd hneeds ((hclear hrec).1 f' hf' hhash)
  cases storeFile_spec _ _ hrun with
  | identical file hmem hident hhash hdedup hk =>
    have hrec : Recorded sm w content := ⟨hdedup, file, hmem, hhash⟩
    have hfind : ∀ b' k', w'.db.files.find (b', k') =
        if (b', k') = (b, k) then some file else w.db.files.find (b', k') := by
      intro b' k'
      rw [hk.files]
      split
      · rename_i heq
        rw [heq, ← hident, Table.find_self hmem]
      · rfl
    refine ht.saved hother hfind (hrecorded file hmem hhash hrec) fun b' k' f hf hneeds => ?_
    · rw [hk.cache] at hf
      by_cases heq : (b', k') = (b, k)
      · obtain ⟨rfl, rfl⟩ := Prod.ext_iff.mp heq
        exact .inl ⟨rfl, hstays f hrec hf hneeds⟩
      · exact .inr ⟨heq, hf⟩
  | aliased existing id now hmem hident hhash hdedup ha =>
    have hrec : Recorded sm w content := ⟨hdedup, existing, hmem, hhash⟩
    refine ht.saved hother (fun b' k' => find_put_merged ha.files) (fun hneeds => ?_)
      fun b' k' f hf hneeds => ?_
    · refine hrecorded existing hmem hhash hrec ?_
      simpa [Needs, aliasedFile, StoredFile.encrypted] using hneeds
    · rw [ha.cache] at hf
      by_cases heq : (b', k') = (b, k)
      · obtain ⟨rfl, rfl⟩ := Prod.ext_iff.mp heq
        exact .inl ⟨rfl, hstays f hrec hf hneeds⟩
      · exact .inr ⟨heq, hf⟩
  | fresh processed enc id now hnone henc hw =>
    have hasked : ∀ f : StoredFile, Needs keyId f → f.encryptionKeyId = opts.encryptionKeyId →
        opts.encryptionKeyId = some keyId ∧ PlainNames b k := by
      intro f hneeds hsame
      have hid : opts.encryptionKeyId = some keyId := hsame.symm.trans hneeds.2
      obtain ⟨-, hplain⟩ | ⟨hne, -⟩ := hp
      · exact ⟨hid, hplain⟩
      · exact absurd hid hne
    refine ht.saved hother (fun b' k' => find_put_merged hw.files) (fun hneeds => ?_)
      fun b' k' f hf hneeds => ?_
    · obtain ⟨hid, hplain⟩ := hasked _ hneeds (by simp [freshFile])
      exact ⟨hown hid, hplain⟩
    · rw [hw.cache, Cache.getFileMetadata_setFileContent,
        Cache.getFileMetadata_setFileMetadata] at hf
      split at hf
      · rename_i hslot
        obtain rfl := Option.some.inj hf
        obtain ⟨hid, hplain⟩ := hasked _ hneeds rfl
        have heq : b' = b ∧ k' = k := Cache.SameSlot.eq_of_plain hplain.1 hplain.2 hslot
        exact .inl ⟨Prod.ext heq.1 heq.2, hown hid⟩
      · rename_i hslot
        refine .inr ⟨fun heq => hslot ?_, hf⟩
        obtain ⟨rfl, rfl⟩ := Prod.ext_iff.mp heq
        exact Cache.SameSlot.refl b' k'

theorem step_tied {e : ServiceEvent} (ht : Tied keyId (Named keyId es) w)
    (hp : AsksForKey sm keyId w e) (hstep : e.Transition sm w w') :
    Tied keyId (Named keyId (es ++ [e])) w' := by
  have hsame : (∀ b k last, requestedBy b k last e = last) → Tied keyId (Named keyId es) w' →
      Tied keyId (Named keyId (es ++ [e])) w' := by
    intro hkeep ht'
    have heq : Named keyId (es ++ [e]) = Named keyId es := by
      funext b k
      simp only [Named, requested_snoc, hkeep]
    rwa [heq]
  have honly : OnlyKeys w w' → Tied keyId (Named keyId es) w' := fun h => ht.same h.files h.cache
  cases e with
  | createEncryptionKey algorithm x =>
    obtain ⟨id, keyData, c, hc⟩ := hstep
    exact hsame (fun _ _ _ => rfl) (honly (createEncryptionKey_onlyKeys hc))
  | deactivateEncryptionKey id x =>
    obtain ⟨c, hc⟩ := hstep
    exact hsame (fun _ _ _ => rfl) (honly (deactivateEncryptionKey_onlyKeys hc))
  | call e =>
    cases e with
    | storeFile b k content ct opts x =>
      cases x with
      | ok file =>
        have heq : Named keyId (es ++ [.call (.storeFile b k content ct opts (.ok file))]) =
            namedAfter keyId b k opts (Named keyId es) := by
          funext b' k'
          simp only [Named, requested_snoc, requestedBy, namedAfter]
          split <;> simp
        rw [heq]
        exact storeFile_tied ht hp hstep
      | error e =>
        refine hsame (fun _ _ _ => rfl) ?_
        cases storeFile_spec _ _ hstep with
        | rejected e hk => exact ht.same hk.files hk.cache
        | broken e hnew henc hk => exact ht.same hk.files hk.cache
    | getFile b k x => exact hsame (fun _ _ _ => rfl) (reads_tied.getFile w x w' hstep ht)
    | getFileRangeIfPlain b k start stop x =>
      exact hsame (fun _ _ _ => rfl) (reads_tied.getFileRangeIfPlain start stop w x w' hstep ht)
    | getCompressedFileRange b k start stop x =>
      exact hsame (fun _ _ _ => rfl) (reads_tied.getCompressedFileRange start stop w x w' hstep ht)
    | deleteFile b k x => exact hsame (fun _ _ _ => rfl) (deleteFile_tied b k w x w' hstep ht)
    | deleteBucket b x =>
      refine hsame (fun _ _ _ => rfl) ?_
      have hx := deleteBucket_spec x w' hstep
      cases x with
      | ok u => exact ht.bucketDeleted hx
      | error e =>
        obtain rfl : w' = w := hx
        exact ht
    | sweepExpiredFiles x =>
      exact hsame (fun _ _ _ => rfl) (reads_tied.sweepExpiredFiles w x w' hstep ht)
    | evict gone =>
      obtain rfl := hstep
      exact hsame (fun _ _ _ => rfl) (ht.evict gone)
    | tick elapsed =>
      obtain rfl := hstep
      exact hsame (fun _ _ _ => rfl) (ht.same rfl rfl)

theorem run_tied (hfiles : w.db.files = Table.empty) (hcache : w.cache = Cache.empty)
    (hrun : ServiceRun sm (AsksForKey sm keyId) w es w') : Tied keyId (Named keyId es) w' := by
  induction hrun with
  | nil => exact Tied.initial hfiles hcache
  | snoc _ hp hstep ih => exact step_tied ih hp hstep

/-! ## Objects that go on being served -/

/-- The object has the same record and bytes, and every key its record needs. -/
structure Undisturbed (sm : StorageManager) (b k : String) (w w' : World) : Prop where
  record : recordOf w' b k = recordOf w b k
  raw : ∀ f, recordOf w b k = some f → rawOf sm.host w' b k f = rawOf sm.host w b k f
  keys : ∀ f, recordOf w b k = some f → ∀ id key, Needs id f → w.db.selectKey id = some key →
    w'.db.selectKey id = some key

theorem Undisturbed.refl (w : World) : Undisturbed sm b k w w :=
  ⟨rfl, fun _ _ => rfl, fun _ _ _ _ _ h => h⟩

theorem Undisturbed.trans (h : Undisturbed sm b k u v) (h' : Undisturbed sm b k v w) :
    Undisturbed sm b k u w where
  record := h'.record.trans h.record
  raw f hf := (h'.raw f (h.record.trans hf)).trans (h.raw f hf)
  keys f hf id key hneeds hkey :=
    h'.keys f (h.record.trans hf) id key hneeds (h.keys f hf id key hneeds hkey)

/-- A deactivation disturbs no object that does without the key. -/
theorem deactivated_undisturbed {c : Choice} {x : Result Unit}
    (hrun : deactivateEncryptionKey keyId c w = (x, w'))
    (hfree : ∀ f, recordOf w b k = some f → ¬ Needs keyId f) : Undisturbed sm b k w w' := by
  obtain rfl | rfl := deactivateEncryptionKey_world hrun
  · exact Undisturbed.refl w'
  · refine ⟨rfl, fun _ _ => rfl, fun f hf id key hneeds hkey => ?_⟩
    have hne : id ≠ keyId := by
      rintro rfl
      exact hfree f hf hneeds
    rw [Database.deactivateKey_selectKey_ne hne]
    exact hkey

theorem created_undisturbed {algorithm id : String} {keyData : CipherKey} {c : Choice}
    {x : Result EncryptionKey} (hrun : createEncryptionKey algorithm id keyData c w = (x, w')) :
    Undisturbed sm b k w w' := by
  obtain rfl | ⟨db, hdb, rfl⟩ := createEncryptionKey_world hrun
  · exact Undisturbed.refl w'
  · have hfiles := (Database.createKey_ok hdb).1
    refine ⟨?_, fun _ _ => rfl, fun _ _ _ _ _ hkey => Database.createKey_selectKey hdb hkey⟩
    simp only [recordOf, Database.selectFile, hfiles]

/-- Nothing is written where the object's bytes are read from. -/
def BytesClear (sm : StorageManager) (w : World) (b k b' k' : String) : Prop :=
  w.cache.getFileContent b k = none →
    ∀ f ∈ recordOf w b k, sm.host.target f.filePath ∉ sm.places b' k'

/-- Uploads of other objects that keep clear of this one's cache entry and bytes, and key
creations. -/
def KeepsClear (sm : StorageManager) (b k : String) (w : World) : ServiceEvent → Prop
  | .call (.storeFile b' k' content _ _ (.ok _)) =>
    (b, k) ≠ (b', k') ∧
      (Recorded sm w content ∨ ¬ Cache.SameSlot b k b' k' ∧ BytesClear sm w b k b' k')
  | .call (.storeFile b' k' content _ opts (.error _)) =>
    Recorded sm w content ∨ FailedUpload.CannotEncrypt sm w opts ∨ BytesClear sm w b k b' k'
  | .call (.tick _) => True
  | .createEncryptionKey _ _ => True
  | _ => False

instance (sm : StorageManager) (w : World) (b k b' k' : String) :
    Decidable (BytesClear sm w b k b' k') :=
  inferInstanceAs (Decidable (_ → ∀ f ∈ recordOf w b k, _))

instance KeepsClear.decide (sm : StorageManager) (b k : String) (w : World) :
    (e : ServiceEvent) → Decidable (KeepsClear sm b k w e)
  | .call (.storeFile _ _ _ _ _ (.ok _)) => inferInstanceAs (Decidable (_ ∧ (_ ∨ _ ∧ _)))
  | .call (.storeFile _ _ _ _ _ (.error _)) => inferInstanceAs (Decidable (_ ∨ _ ∨ _))
  | .call (.tick _) | .createEncryptionKey .. => isTrue trivial
  | .call (.getFile ..) | .call (.getFileRangeIfPlain ..) | .call (.getCompressedFileRange ..)
  | .call (.deleteFile ..) | .call (.deleteBucket ..) | .call (.sweepExpiredFiles _)
  | .call (.evict _) | .deactivateEncryptionKey .. => isFalse id

/-- An object stays as it is where its row, its cache entries and its bytes do. -/
theorem Undisturbed.of_frames (hrow : w'.db.files.find (b, k) = w.db.files.find (b, k))
    (hkeys : w'.db.encryptionKeys = w.db.encryptionKeys)
    (hmetadata : w'.cache.getFileMetadata b k = w.cache.getFileMetadata b k)
    (hcontent : w'.cache.getFileContent b k = w.cache.getFileContent b k)
    (hbytes : w.cache.getFileContent b k = none → ∀ f ∈ recordOf w b k,
      w'.bytesAt sm.host f.filePath = w.bytesAt sm.host f.filePath) :
    Undisturbed sm b k w w' := by
  refine ⟨?_, fun f hf => ?_, fun _ _ id key _ hkey => ?_⟩
  · simp only [recordOf, Database.selectFile, hrow, hmetadata]
  · unfold rawOf
    rw [hcontent]
    cases hc : w.cache.getFileContent b k with
    | some x => rfl
    | none => exact hbytes hc f hf
  · rw [selectKey_congr hkeys]
    exact hkey

theorem kept_undisturbed {ls : List Loc} (hk : Kept ls w w')
    (hbytes : w.cache.getFileContent b k = none →
      ∀ f ∈ recordOf w b k, sm.host.target f.filePath ∉ ls) : Undisturbed sm b k w w' :=
  Undisturbed.of_frames (by rw [hk.files]) hk.keys (by rw [hk.cache]) (by rw [hk.cache])
    fun hc f hf => World.bytesAt_congr (hk.disk _ (hbytes hc f hf))

theorem storeFile_undisturbed {b' k' : String} {x : Result StoredFile}
    (hp : KeepsClear sm b k w (.call (.storeFile b' k' content ct opts x)))
    (hrun : (sm.storeFile b' k' content ct opts).Runs (exec sm.host) w x w') :
    Undisturbed sm b k w w' := by
  cases storeFile_spec _ _ hrun with
  | rejected e hk => exact kept_undisturbed hk fun _ _ _ => List.not_mem_nil
  | identical file _ _ _ _ hk => exact kept_undisturbed hk fun _ _ _ => List.not_mem_nil
  | broken e hnew henc hk =>
    obtain ⟨hdedup, f, hf, hhash⟩ | hcannot | hclear := hp
    · exact absurd hhash (hnew hdedup f hf)
    · obtain ⟨out, enc, henc⟩ := henc
      exact absurd henc hcannot.not_encrypted
    · exact kept_undisturbed hk hclear
  | aliased existing id now hmem hident hhash hdedup ha =>
    refine Undisturbed.of_frames ?_ ha.keys (by rw [ha.cache]) (by rw [ha.cache])
      fun _ f _ => World.bytesAt_congr (ha.disk _)
    rw [find_put_merged ha.files, aliasedFile_ident, if_neg hp.1]
  | fresh processed enc id now hnew henc hw =>
    obtain ⟨hne, ⟨hdedup, f, hf, hhash⟩ | ⟨hslot, hclear⟩⟩ := hp
    · exact absurd hhash (hnew hdedup f hf)
    · have hfree : ∀ f ∈ recordOf w b k, w.cache.getFileContent b k = none →
          w'.bytesAt sm.host f.filePath = w.bytesAt sm.host f.filePath := by
        intro f hf hc
        have hout := hclear hc f hf
        simp only [places, List.mem_cons, List.not_mem_nil, or_false, not_or] at hout
        exact World.bytesAt_congr (hw.disk_ne hout.1 hout.2)
      refine Undisturbed.of_frames ?_ hw.keys ?_ ?_ fun hc f hf => hfree f hf hc
      · rw [find_put_merged hw.files, freshFile_ident, if_neg hne]
      · rw [hw.cache, Cache.getFileMetadata_setFileContent, Cache.getFileMetadata_setFileMetadata]
        exact if_neg hslot
      · rw [hw.cache]
        exact Cache.getFileContent_setFileContent_ne processed hslot

theorem run_undisturbed (hrun : ServiceRun sm (KeepsClear sm b k) w es w') :
    Undisturbed sm b k w w' := by
  refine hrun.invariant (I := fun u => Undisturbed sm b k w u) (Undisturbed.refl w)
    fun e _ u v hi hp hstep => hi.trans ?_
  cases e with
  | createEncryptionKey algorithm x =>
    obtain ⟨id, keyData, c, hc⟩ := hstep
    exact created_undisturbed hc
  | deactivateEncryptionKey id x => exact hp.elim
  | call e =>
    cases e with
    | storeFile b' k' content ct opts x => exact storeFile_undisturbed hp hstep
    | tick elapsed =>
      obtain rfl := hstep
      exact Undisturbed.of_frames rfl rfl rfl rfl fun _ _ _ => rfl
    | _ => exact hp.elim

/-- Decoding needs no other key than the one the record names. -/
theorem decoded_undisturbed {db db' : Database} {f : StoredFile} {raw : Bytes}
    (hkeys : ∀ id key, Needs id f → db.selectKey id = some key → db'.selectKey id = some key)
    (hok : sm.decoded db f raw = .ok content) : sm.decoded db' f raw = .ok content := by
  have hplain : ∀ plain, sm.decrypted db f raw = .ok plain → sm.decrypted db' f raw = .ok plain := by
    intro plain hplain
    unfold decrypted at hplain ⊢
    split at hplain
    · rename_i henc
      rw [if_pos henc]
      split at hplain
      · simp at hplain
      · split at hplain
        · rename_i id hid
          split at hplain
          · rename_i key hkey
            simpa only [hkeys id key ⟨henc, hid⟩ hkey] using hplain
          · simp at hplain
        · exact hplain
    · rename_i hclear
      rwa [if_neg hclear]
  unfold decoded at hok ⊢
  split at hok
  · simp at hok
  · rename_i plain hdec
    rw [hplain plain hdec]
    exact hok

/-- As long as it has not expired, an undisturbed object is served as before. -/
theorem Undisturbed.served {y : Bytes × Option String} (h : Undisturbed sm b k w w')
    (hlive : ∀ f, recordOf w' b k = some f → past w'.now f.expiresAt = false)
    (hy : served sm w b k = .ok y) : served sm w' b k = .ok y := by
  rw [served_eq] at hy ⊢
  unfold readResult at hy ⊢
  rw [h.record]
  cases hf : recordOf w b k with
  | none => simp [hf] at hy
  | some f =>
    simp only [hf] at hy ⊢
    split at hy
    · simp at hy
    · rw [hlive f (h.record.trans hf), h.raw f hf]
      cases hraw : rawOf sm.host w b k f with
      | none => simp [hraw] at hy
      | some raw =>
        simp only [hraw, Bool.false_eq_true, ↓reduceIte] at hy ⊢
        cases hdec : sm.decoded w.db f raw with
        | error e => simp [hdec, Except.map] at hy
        | ok content =>
          rw [decoded_undisturbed (h.keys f hf) hdec, ← hdec]
          exact hy

theorem served_live {y : Bytes × Option String} (hy : served sm w b k = .ok y) :
    ∃ f, recordOf w b k = some f ∧ past w.now f.expiresAt = false := by
  rw [served_eq] at hy
  unfold readResult at hy
  cases hf : recordOf w b k with
  | none => simp [hf] at hy
  | some f =>
    simp only [hf] at hy
    split at hy
    · simp at hy
    · rename_i hlive
      exact ⟨f, rfl, by simpa using hlive⟩

theorem Tied.recordOf {f : StoredFile} (ht : Tied keyId named w)
    (hrecord : StorageManager.recordOf w b k = some f) (hneeds : Needs keyId f) : named b k := by
  unfold StorageManager.recordOf at hrecord
  cases hc : w.cache.getFileMetadata b k with
  | some g =>
    rw [hc] at hrecord
    obtain rfl : g = f := by simpa using hrecord
    exact ht.cached b k g hc hneeds
  | none =>
    rw [hc] at hrecord
    have hrow : w.db.files.find (b, k) = some f := by simpa [Database.selectFile] using hrecord
    exact (ht.row b k f hrow hneeds).1

open Sample (keyedManager cipherKey)

def service : StorageManager := keyedManager false .aesGcm

/-- The key K has been created. -/
def created : Result EncryptionKey × World :=
  createEncryptionKey "aes-gcm" "K" cipherKey calm World.empty

def deactivated (w : World) : Result Unit × World := deactivateEncryptionKey "K" calm w

/-- The letter x is uploaded under the key, and `content` as another object without one. -/
def uploads (content : Bytes) : List Event × World :=
  replay service
    [(.storeFile "a" "k1" [120] none { encrypt := some true, encryptionKeyId := some "K" }
        (.error (.io "")), { uuid := 1 }),
      (.storeFile "a" "k2" content none {} (.error (.io "")), { uuid := 2 })] ([], created.2)

def history (content : Bytes) : List ServiceEvent :=
  [.createEncryptionKey "aes-gcm" created.1] ++ (uploads content).1.map .call

theorem history_run {content : Bytes} {P : World → ServiceEvent → Prop}
    (hcreate : P World.empty (.createEncryptionKey "aes-gcm" created.1))
    (hcalls : SystemRun service (fun u e => P u (.call e)) created.2 (uploads content).1
      (uploads content).2) :
    ServiceRun service P World.empty (history content) (uploads content).2 := by
  have hkey : ServiceRun service P World.empty [.createEncryptionKey "aes-gcm" created.1]
      created.2 := .snoc (.nil _) hcreate ⟨"K", cipherKey, calm, rfl⟩
  exact hkey.append (calls_run (fun _ _ h => h) hcalls)

/-- A third upload, once the key is inactive. -/
def later : List Event × World :=
  replay service [(.storeFile "a" "k3" [121] none {} (.error (.io "")), { uuid := 3 })]
    ([], (deactivated (uploads [121]).2).2)

end LocalStorage.Proofs.InheritedKeys
