import LocalStorage.Proofs.Isolation
import LocalStorage.Proofs.RoundTrip
import LocalStorage.Proofs.RowRecords

namespace LocalStorage.Proofs.UndisturbedUploads
open Lib StorageManager Service Isolation RoundTrip

/-! # An upload among requests for other objects -/

variable {sm : StorageManager} {app : App} {up : Upload} {w w' t : World} {there : Option Recipe}
  {ready placed : Option Bytes}

/-! ## How far the upload has come -/

/-- What the upload makes of its content before it is encrypted. -/
def packed (sm : StorageManager) (up : Upload) : Bytes := (sm.compressStage up.opts up.content).1

/-- The row that is there, the bytes that are ready to be stored and those in their place, as far
as there are any; what is cached belongs to them. -/
structure Standing (sm : StorageManager) (up : Upload) (there : Option Recipe)
    (ready placed : Option Bytes) (w : World) : Prop where
  tidy : AllTidy sm up w
  row : (w.db.files.find up.ident).map recipe = there
  form : ∀ x, ready = some x → EncryptedAs sm w.db up.opts (packed sm up) x (sm.shouldEncrypt up.opts)
  disk : ∀ x, placed = some x → w.bytesAt sm.host (home sm up) = some x
  metadata : ∀ f, w.cache.getFileMetadata up.bucket up.key = some f → there = some (recipe f)
  content : ∀ x, w.cache.getFileContent up.bucket up.key = some x → placed = some x

theorem encryptedAs_kept {db db' : Database} {opts : StoreOptions} {data out : Bytes} {enc : Bool}
    (hkey : ∀ id, opts.encryptionKeyId = some id → ∀ key, db.selectKey id = some key →
      db'.selectKey id = some key) (h : EncryptedAs sm db opts data out enc) :
    EncryptedAs sm db' opts data out enc := by
  unfold EncryptedAs at h ⊢
  split at h
  · rename_i hs
    rw [if_pos hs]
    obtain ⟨henc, alg, nonce, halg, h⟩ := h
    refine ⟨henc, alg, nonce, halg, ?_⟩
    cases hid : opts.encryptionKeyId with
    | none =>
      rw [hid] at h
      exact h
    | some id =>
      rw [hid] at h
      obtain ⟨key, hfound, hsealed⟩ := h
      exact ⟨key, hkey id hid key hfound, hsealed⟩
  · rename_i hs
    rw [if_neg hs]
    exact h

theorem Standing.untouched (h : Standing sm up there ready placed w)
    (htidy : AllTidy sm up w → AllTidy sm up w') (hu : Untouched sm up w w') :
    Standing sm up there ready placed w' where
  tidy := htidy h.tidy
  row := hu.row.trans h.row
  form x hx := encryptedAs_kept hu.key (h.form x hx)
  disk x hx := hu.disk.trans (h.disk x hx)
  metadata f hf := by
    obtain hnone | hsame := hu.metadata
    · rw [hnone] at hf
      simp at hf
    · exact h.metadata f (hsame ▸ hf)
  content x hx := by
    obtain hnone | hsame := hu.content
    · rw [hnone] at hx
      simp at hx
    · exact h.content x (hsame ▸ hx)

/-! ## The contracts -/

/-- What the others do leaves the object alone. -/
def Spared (sm : StorageManager) (up : Upload) (w w' : World) : Prop :=
  (AllTidy sm up w → AllTidy sm up w') ∧ Untouched sm up w w'

def StaysTidy (sm : StorageManager) (up : Upload) (w w' : World) : Prop :=
  AllTidy sm up w → AllTidy sm up w'

theorem Spared.refl (w : World) : Spared sm up w w := ⟨id, Untouched.refl w⟩

theorem Spared.trans (h : Spared sm up w w') (h' : Spared sm up w' t) : Spared sm up w t :=
  ⟨fun hw => h'.1 (h.1 hw), h.2.trans h'.2⟩

theorem Standing.spared (h : Spared sm up w w') (hw : Standing sm up there ready placed w) :
    Standing sm up there ready placed w' := hw.untouched h.1 h.2

theorem StaysTidy.refl (w : World) : StaysTidy sm up w w := id

theorem StaysTidy.trans (h : StaysTidy sm up w w') (h' : StaysTidy sm up w' t) :
    StaysTidy sm up w t := fun hw => h' (h hw)

theorem StaysTidy.stable (h : StaysTidy sm up w w') (hw : AllTidy sm up w) : AllTidy sm up w' := h hw

/-- The upload starts where there is nothing of its object, and counts on being left alone. -/
def uploader (sm : StorageManager) (up : Upload) : Contract World where
  Init := Standing sm up none none none
  Rely := Spared sm up
  Guar := StaysTidy sm up
  refl := Spared.refl
  trans := Spared.trans
  stable := Standing.spared

/-- The other requests count on little. -/
def bystander (sm : StorageManager) (up : Upload) : Contract World where
  Init := AllTidy sm up
  Rely := StaysTidy sm up
  Guar := Spared sm up
  refl := StaysTidy.refl
  trans := StaysTidy.trans
  stable := StaysTidy.stable

/-! ## The steps of the upload -/

section
variable {E α : Type} {P : α → World → Prop}

/-- In the midst of the others, the program has `P` where it succeeds. -/
abbrev Leaves (sm : StorageManager) (up : Upload) (w : World) (p : Prog Action Response E α)
    (P : α → World → Prop) : Prop :=
  p.Assures (exec sm.host) (uploader sm up) (Prog.OnSuccess P) w

theorem spared_asked {a : Action} (ha : Asked sm up a) (c : Choice) :
    Spared sm up w (exec sm.host c a w).2 :=
  ⟨fun h => tidy_asked h ha, untouched_asked ha⟩

/-- A step that leaves the object alone too. -/
theorem leaves_asked {a : Action} {k : Response a → Prog Action Response E α} (ha : Asked sm up a)
    (hk : ∀ c t, Spared sm up w t → Spared sm up t (exec sm.host c a t).2 →
      Leaves sm up (exec sm.host c a t).2 (k (exec sm.host c a t).1) P) :
    Leaves sm up w (.act a k) P :=
  fun t ht c => ⟨(spared_asked ha c).1, hk c t ht (spared_asked ha c)⟩

theorem leaves_ofExcept {x : Except E α} (h : ∀ a, x = .ok a → ∀ t, Spared sm up w t → P a t) :
    Leaves sm up w (Prog.ofExcept x) P :=
  Prog.assures_ofExcept h

end

theorem ensureBucketExists_leaves (hw : Standing sm up there ready placed w) :
    Leaves sm up w (sm.ensureBucketExists up.bucket)
      fun _ => Standing sm up there ready placed := by
  have hsteps : (sm.ensureBucketExists up.bucket).Uses (Asked sm up) :=
    ensureBucketExists_steps.mono fun a ha => by cases ha <;> trivial
  refine (hsteps.assures ?_ (fun _ _ => Standing.spared) hw).mono fun x t ht a ha => ht
  exact fun c a s hs ha => ⟨(spared_asked ha c).1, hs.spared (spared_asked ha c)⟩

/-- The bytes to be stored are known. -/
theorem Standing.sealed {x : Bytes} (hw : Standing sm up none none none w)
    (h : EncryptedAs sm w.db up.opts (packed sm up) x (sm.shouldEncrypt up.opts)) :
    Standing sm up none (some x) none w :=
  { hw with
    form := by
      rintro _ ⟨⟩
      exact h }

theorem encryptStage_leaves (hw : Standing sm up none none none w) :
    Leaves sm up w (sm.encryptStage up.opts (packed sm up))
      fun out t => out.2 = sm.shouldEncrypt up.opts ∧ Standing sm up none (some out.1) none t := by
  simp only [encryptStage, step_eq, Prog.bind_eq, Prog.act_bind, Prog.ret_bind, Prog.pure_eq]
  cases he : sm.shouldEncrypt up.opts with
  | false =>
    rintro t ht _ ⟨⟩
    exact ⟨rfl, (hw.spared ht).sealed (by simp [EncryptedAs, he])⟩
  | true =>
    simp only [↓reduceIte]
    cases halg : EncryptionAlgorithm.fromStr sm.config.crypto.algorithm with
    | error e => rintro t ht _ ⟨⟩
    | ok alg =>
      simp only [Prog.ofExcept_ok, Prog.ret_bind]
      cases hid : up.opts.encryptionKeyId with
      | none =>
        refine leaves_asked trivial fun c t ht hdrawn => ?_
        refine Prog.Assures.bind_ok (leaves_ofExcept fun x hx u hu => ?_)
        rintro v hv _ ⟨⟩
        refine ⟨rfl, (hw.spared (((ht.trans hdrawn).trans hu).trans hv)).sealed ?_⟩
        simp only [EncryptedAs, he, hid, ↓reduceIte]
        exact ⟨trivial, alg, _, halg, hx⟩
      | some keyId =>
        simp only [getKey, step_eq, Prog.bind_eq, Prog.act_bind, Prog.ret_bind, Prog.pure_eq,
          Prog.bind_assoc]
        refine leaves_asked trivial fun c t ht hlooked => ?_
        refine Prog.Assures.bind_ok (leaves_ofExcept fun found hfound u hu => ?_)
        cases found with
        | none => rintro v hv _ ⟨⟩
        | some key =>
          refine leaves_asked trivial fun c' v hv hdrawn => ?_
          refine Prog.Assures.bind_ok (leaves_ofExcept fun x hx y hy => ?_)
          rintro z hz _ ⟨⟩
          -- the key is the one that was found, whoever came between
          have hstart : t.db.selectKey keyId = some key :=
            (answer_eq_ok (Prog.mapError_eq_ok.mp hfound)).symm
          have hrest : Spared sm up t z :=
            ((((hlooked.trans hu).trans hv).trans hdrawn).trans hy).trans hz
          refine ⟨rfl, (hw.spared (ht.trans hrest)).sealed ?_⟩
          simp only [EncryptedAs, he, hid, ↓reduceIte]
          exact ⟨trivial, alg, _, halg, key, hrest.2.key keyId hid key hstart, hx⟩

theorem Standing.written {c : Choice} {x : Bytes} (hw : Standing sm up none (some x) none w)
    (hok : (exec sm.host c (.writeFileAtomic (home sm up) x) w).1 = .ok ()) :
    Standing sm up none (some x) (some x) (exec sm.host c (.writeFileAtomic (home sm up) x) w).2 := by
  have ht : Takes (exec sm.host) w ⟨.writeFileAtomic (home sm up) x, (.ok () : Except IoError Unit)⟩
      (exec sm.host c (.writeFileAtomic (home sm up) x) w).2 := ⟨c, Prod.ext hok rfl⟩
  exact {
    tidy := tidy_step hw.tidy fun f hf => by cases hf
    row := (takes_recipe ht rfl _ _).trans hw.row
    form := fun y hy => (hw.form y hy).congr (takes_encryptionKeys ht).symm
    disk := by
      rintro _ ⟨⟩
      exact takes_writeFileAtomic ht
    metadata := fun f hf => hw.metadata f ((takes_getFileMetadata ht rfl _ _).symm.trans hf)
    content := fun y hy => by
      have hnone := hw.content y ((takes_getFileContent ht rfl _ _).symm.trans hy)
      simp at hnone }

theorem writeBytes_leaves {x : Bytes} (hw : Standing sm up none (some x) none w) :
    Leaves sm up w (writeBytes (home sm up) x) fun _ => Standing sm up none (some x) (some x) := by
  have hwrite : ∀ u, Spared sm up w u → Leaves sm up u
      (.act (.writeFileAtomic (home sm up) x) fun r => (ofIo r).bind fun _ => .ret ())
      fun _ => Standing sm up none (some x) (some x) := by
    intro u hu t ht c
    refine ⟨fun h => tidy_step h fun f hf => (by cases hf), ?_⟩
    refine Prog.Assures.bind_ok (leaves_ofExcept fun _ hok v hv => ?_)
    rintro z hz _ -
    have hwritten := (hw.spared (hu.trans ht)).written (Prog.mapError_eq_ok.mp hok)
    exact (hwritten.spared hv).spared hz
  simp only [writeBytes, step_eq, Prog.bind_eq, Prog.act_bind, Prog.ret_bind, Prog.pure_eq]
  split
  · refine leaves_asked trivial fun c t ht hmade => ?_
    refine Prog.Assures.bind_ok (leaves_ofExcept fun _ _ u hu => ?_)
    exact hwrite u ((ht.trans hmade).trans hu)
  · exact hwrite w (Spared.refl w)

variable {file : StoredFile} {x : Bytes}

/-- The record is one of the upload. -/
structure RecordOf (sm : StorageManager) (up : Upload) (f : StoredFile) : Prop where
  ident : f.ident = up.ident
  expiresAt : f.expiresAt = none
  hash : f.hashBlake3 = sm.lib.blake3 up.content

theorem RecordOf.tidy (h : RecordOf sm up file) : Tidy sm up file :=
  ⟨fun _ => ⟨h.expiresAt, h.hash⟩, fun hne => absurd h.ident hne⟩

theorem Standing.recorded {c : Choice} (hfile : RecordOf sm up file)
    (hw : Standing sm up none (some x) (some x) w)
    (hok : (exec sm.host c (.upsertFile file) w).1 = .ok ()) :
    Standing sm up (some (recipe file)) (some x) (some x) (exec sm.host c (.upsertFile file) w).2 := by
  have ht : Takes (exec sm.host) w ⟨.upsertFile file, (.ok () : Query Unit)⟩
      (exec sm.host c (.upsertFile file) w).2 := ⟨c, Prod.ext hok rfl⟩
  exact {
    tidy := tidy_step hw.tidy fun f hf => by
      obtain rfl := Action.upsertFile.inj hf
      exact hfile.tidy
    row := by
      rw [← hfile.ident, takes_upsertFile ht, Option.map_some, recipe_mergeRow]
    form := fun y hy => (hw.form y hy).congr (takes_encryptionKeys ht).symm
    disk := fun y hy => (takes_bytesAt ht rfl _).trans (hw.disk y hy)
    metadata := fun f hf => by
      have hnone := hw.metadata f ((takes_getFileMetadata ht rfl _ _).symm.trans hf)
      simp at hnone
    content := fun y hy => hw.content y ((takes_getFileContent ht rfl _ _).symm.trans hy) }

theorem Standing.cachedMetadata {c : Choice}
    (hw : Standing sm up (some (recipe file)) (some x) (some x) w) :
    Standing sm up (some (recipe file)) (some x) (some x)
      (exec sm.host c (.setFileMetadata up.bucket up.key file) w).2 := by
  have ht : Takes (exec sm.host) w ⟨.setFileMetadata up.bucket up.key file,
      (exec sm.host c (.setFileMetadata up.bucket up.key file) w).1⟩
      (exec sm.host c (.setFileMetadata up.bucket up.key file) w).2 := ⟨c, rfl⟩
  exact {
    tidy := tidy_step hw.tidy fun f hf => by cases hf
    row := (takes_recipe ht rfl _ _).trans hw.row
    form := fun y hy => (hw.form y hy).congr (takes_encryptionKeys ht).symm
    disk := fun y hy => (takes_bytesAt ht rfl _).trans (hw.disk y hy)
    metadata := fun f hf => by
      rw [takes_cache ht, Action.onCache, Cache.getFileMetadata_setFileMetadata,
        if_pos (Cache.SameSlot.refl _ _)] at hf
      rw [Option.some.inj hf]
    content := fun y hy => hw.content y ((takes_getFileContent ht rfl _ _).symm.trans hy) }

theorem Standing.cachedContent {c : Choice} (hw : Standing sm up there (some x) (some x) w) :
    Standing sm up there (some x) (some x)
      (exec sm.host c (.setFileContent up.bucket up.key x) w).2 := by
  have ht : Takes (exec sm.host) w ⟨.setFileContent up.bucket up.key x,
      (exec sm.host c (.setFileContent up.bucket up.key x) w).1⟩
      (exec sm.host c (.setFileContent up.bucket up.key x) w).2 := ⟨c, rfl⟩
  exact {
    tidy := tidy_step hw.tidy fun f hf => by cases hf
    row := (takes_recipe ht rfl _ _).trans hw.row
    form := fun y hy => (hw.form y hy).congr (takes_encryptionKeys ht).symm
    disk := fun y hy => (takes_bytesAt ht rfl _).trans (hw.disk y hy)
    metadata := fun f hf => hw.metadata f ((takes_getFileMetadata ht rfl _ _).symm.trans hf)
    content := fun y hy => by
      rw [takes_cache ht, Action.onCache] at hy
      by_cases hsize : x.length ≤ Cache.maxCacheSize
      · rw [Cache.getFileContent_setFileContent hsize, if_pos (Cache.SameSlot.refl _ _)] at hy
        exact hy
      · rw [Cache.setFileContent_large (Nat.lt_of_not_le hsize)] at hy
        exact hw.content y hy }

theorem saveFile_leaves (hfile : RecordOf sm up file)
    (hw : Standing sm up none (some x) (some x) w) :
    Leaves sm up w (saveFile file) fun _ => Standing sm up (some (recipe file)) (some x) (some x) := by
  simp only [saveFile, step_eq, Prog.bind_eq, Prog.act_bind, Prog.ret_bind, Prog.pure_eq]
  intro t ht c
  refine ⟨fun h => tidy_step h fun f hf => ?_, ?_⟩
  · obtain rfl := Action.upsertFile.inj hf
    exact hfile.tidy
  · cases hsaved : (exec sm.host c (.upsertFile file) t).1 with
    | ok u =>
      rintro v hv _ -
      exact ((hw.spared ht).recorded hfile hsaved).spared hv
    | error e =>
      cases e with
      | other msg => rintro v hv _ ⟨⟩
      | database db =>
        dsimp only
        split <;> rintro v hv _ ⟨⟩

theorem recordFile_leaves (hfile : RecordOf sm up file)
    (hw : Standing sm up none (some x) (some x) w) :
    Leaves sm up w (recordFile file x)
      fun _ => Standing sm up (some (recipe file)) (some x) (some x) := by
  simp only [recordFile, step_eq, Prog.bind_eq, Prog.act_bind, Prog.ret_bind, Prog.pure_eq]
  refine Prog.Assures.bind (Prog.Assures.attempt ((saveFile_leaves hfile hw).mono fun saved t ht => ?_))
  cases saved with
  | error e =>
    -- no more is owed of a file that is taken away again
    intro u hu c
    refine ⟨fun h => tidy_step h fun f hf => (by cases hf), ?_⟩
    rintro v hv _ ⟨⟩
  | ok u =>
    have hbucket : file.bucket = up.bucket := congrArg Prod.fst hfile.ident
    have hkey : file.key = up.key := congrArg Prod.snd hfile.ident
    have hrecorded := ht u rfl
    intro v hv c
    refine ⟨fun h => tidy_step h fun f hf => (by cases hf), ?_⟩
    intro y hy c'
    refine ⟨fun h => tidy_step h fun f hf => (by cases hf), ?_⟩
    rintro z hz _ -
    rw [hbucket, hkey] at hy hz
    exact (((hrecorded.spared hv).cachedMetadata.spared hy).cachedContent).spared hz

/-- The upload is in the table, on the disk and nowhere else. -/
def Stored (sm : StorageManager) (up : Upload) (w : World) : Prop :=
  ∃ x, Standing sm up
    (some (recipe (uploadRecord sm up.bucket up.key up.content up.contentType up.opts)))
    (some x) (some x) w

theorem storeFresh_leaves (hexpires : up.opts.expiresAt = none)
    (hw : Standing sm up none none none w) :
    Leaves sm up w (sm.storeFresh up.bucket up.key up.content up.contentType up.opts)
      fun _ => Stored sm up := by
  simp only [storeFresh, step_eq, Prog.bind_eq, Prog.act_bind, Prog.ret_bind]
  refine Prog.Assures.bind_ok ((encryptStage_leaves hw).mono fun r u hr out hout => ?_)
  obtain ⟨x, enc⟩ := out
  obtain ⟨henc, hu⟩ := hr _ hout
  obtain rfl : enc = sm.shouldEncrypt up.opts := henc
  refine Prog.Assures.bind_ok ((writeBytes_leaves hu).mono fun r v hr _ hok => ?_)
  have hv := hr _ hok
  refine leaves_asked trivial fun c t ht hnamed => leaves_asked trivial fun c' t' ht' htimed => ?_
  have hlast := hv.spared (((ht.trans hnamed).trans ht').trans htimed)
  refine (recordFile_leaves ⟨rfl, hexpires, rfl⟩ hlast).mono fun r z hr f hf => ⟨x, ?_⟩
  exact hr f hf

/-- The lookup by hash finds nothing. -/
theorem Standing.unmatched {hash : String} {rank : StoredFile → Nat} {f : StoredFile}
    (hw : Standing sm up none ready placed w) (hhash : hash = sm.lib.blake3 up.content)
    (hdedup : sm.config.storage.enableDeduplication = true)
    (hf : w.db.selectFileByHash hash rank = some f) : False := by
  obtain ⟨hmem, hfound⟩ := Database.selectFileByHash_some hf
  by_cases hident : f.ident = up.ident
  · have hrow := hw.row
    rw [Option.map_eq_none_iff] at hrow
    exact Table.find_eq_none.mp hrow f hmem hident
  · exact ((hw.tidy f hmem).other hident).2 hdedup (hfound.trans hhash)

theorem storeFile_leaves (hexpires : up.opts.expiresAt = none)
    (hw : Standing sm up none none none w) :
    Leaves sm up w (sm.storeFile up.bucket up.key up.content up.contentType up.opts)
      fun _ => Stored sm up := by
  simp only [storeFile, step_eq, Prog.bind_eq, Prog.act_bind, Prog.ret_bind]
  refine Prog.Assures.bind_ok ((ensureBucketExists_leaves hw).mono fun r u hr _ hok => ?_)
  have hu := hr _ hok
  split
  · rename_i hdedup
    refine leaves_asked trivial fun c t ht hlooked => ?_
    refine Prog.Assures.bind_ok (leaves_ofExcept fun found hfound v hv => ?_)
    cases found with
    | none => exact storeFresh_leaves hexpires (hu.spared ((ht.trans hlooked).trans hv))
    | some existing =>
      have hmatch := answer_eq_ok (Prog.mapError_eq_ok.mp hfound)
      exact ((hu.spared ht).unmatched rfl hdedup hmatch.symm).elim
  · exact storeFresh_leaves hexpires hu

/-! ## Reading it -/

theorem Standing.recordOf {f : StoredFile} (hw : Standing sm up (some (recipe f)) ready placed w) :
    ∃ g, recordOf w up.bucket up.key = some g ∧ recipe g = recipe f := by
  unfold StorageManager.recordOf
  cases hcached : w.cache.getFileMetadata up.bucket up.key with
  | some g => exact ⟨g, rfl, (Option.some.inj (hw.metadata g hcached)).symm⟩
  | none =>
    obtain ⟨g, hg, hrecipe⟩ := Option.map_eq_some_iff.mp hw.row
    exact ⟨g, hg, hrecipe⟩

theorem Standing.rawOf {f : StoredFile} (hw : Standing sm up there ready (some x) w)
    (hpath : f.filePath = home sm up) : rawOf sm.host w up.bucket up.key f = some x := by
  unfold StorageManager.rawOf
  cases hcached : w.cache.getFileContent up.bucket up.key with
  | some y => exact (hw.content y hcached).symm ▸ rfl
  | none =>
    rw [hpath, hw.disk x rfl]
    rfl

/-- Where a reader undoes the compression of the upload, it gets the content. -/
theorem Stored.served (lawC : sm.lib.toCodecs.Lawful) (lawE : sm.lib.toCiphers.Lawful)
    (hexpires : up.opts.expiresAt = none) (hw : Stored sm up w)
    (hreads : sm.config.compression.enabled = true ∨
      (sm.compressStage up.opts up.content).2 = false) :
    served sm w up.bucket up.key =
      .ok (up.content, some (up.contentType.getD "application/octet-stream")) := by
  obtain ⟨x, hx⟩ := hw
  obtain ⟨g, hrecord, hrecipe⟩ := hx.recordOf
  obtain ⟨hpath, -, -, -, -, htype, hexp⟩ := recipe_eq.mp hrecipe
  have hlive : past w.now g.expiresAt = false := by
    rw [hexp]
    show past w.now up.opts.expiresAt = false
    rw [hexpires]
    rfl
  rw [served_of_record hrecord hlive (hx.rawOf hpath), decoded_congr hrecipe (fun _ => rfl),
    decoded_processed lawC lawE (hx.form x rfl), if_pos hreads, htype]
  rfl

/-! ## The requests that upload -/

/-- What a request uploads that is no copy and asks for no lifetime. -/
def uploadOf (app : App) : Call → Option Upload
  | .uploadFile bucket query headers body =>
    match extractFilenameFromContentDisposition app.text headers,
        readBody body (maxFileSize app.storage), query.ttlSeconds with
    | some key, .ok content, none => some
        { bucket := bucket
          key := key
          content := content
          contentType := some ((headers.text "content-type").getD "application/octet-stream")
          opts :=
            { compress := query.compress
              encrypt := query.encrypt
              compressionAlgorithm := query.compressionAlgorithm
              compressionLevel := query.compressionLevel
              encryptionKeyId := query.encryptionKeyId } }
    | _, _, _ => none
  | .v2 _ (.putObject bucket key headers body) =>
    match headers.text "x-amz-copy-source", S3.ttlSeconds headers with
    | none, .ok none => some
        { bucket := bucket
          key := key
          content := body
          contentType := headers.text "content-type"
          opts := {} }
    | _, _ => none
  | _ => none

theorem Stored.spared (h : Spared sm up w w') (hw : Stored sm up w) : Stored sm up w' := by
  obtain ⟨x, hx⟩ := hw
  exact ⟨x, hx.spared h⟩

theorem uploadFile_leaves {bucket : String} {query : UploadQuery} {headers : HeaderMap}
    {body : Incoming} (h : uploadOf app (.uploadFile bucket query headers body) = some up)
    (hw : Standing app.storage up none none none w) :
    Leaves app.storage up w (LocalStorage.uploadFile app.storage app.text bucket query headers body)
      fun _ => Stored app.storage up := by
  simp only [uploadOf] at h
  split at h
  · rename_i key content hname hbody httl
    obtain rfl := Option.some.inj h
    simp only [LocalStorage.uploadFile, uploadName, hname, hbody, httl, expiryAfter, Prog.bind_eq,
      Prog.pure_eq, Prog.ret_bind, orFail_ok]
    cases hdeclared : checkDeclared headers (maxFileSize app.storage) with
    | error e => rintro t ht _ ⟨⟩
    | ok u =>
      simp only [orFail_ok, Prog.ret_bind]
      refine Prog.Assures.bind_ok ((storeFile_leaves rfl hw).mapError_ok.mono fun r t hr _ hok => ?_)
      rintro v hv _ -
      exact (hr _ hok).spared hv
  · simp at h

theorem putObject_leaves {verified : Except S3.S3Error Unit} {bucket key : String}
    {headers : HeaderMap} {body : Bytes}
    (h : uploadOf app (.v2 verified (.putObject bucket key headers body)) = some up)
    (hw : Standing app.storage up none none none w) :
    Leaves app.storage up w (S3.putObject app.storage verified bucket key headers body)
      fun _ => Stored app.storage up := by
  simp only [uploadOf] at h
  split at h
  · rename_i hcopy httl
    obtain rfl := Option.some.inj h
    simp only [S3.putObject, S3.putBody, S3.orS3, hcopy, httl, expiryAfter, Prog.bind_eq,
      Prog.pure_eq, Prog.ret_bind, orFail_ok]
    cases verified with
    | error e => rintro t ht _ ⟨⟩
    | ok u =>
      simp only [orFail_ok, Prog.ret_bind]
      refine Prog.Assures.bind_ok ((storeFile_leaves rfl hw).mapError_ok.mapError_ok.mono
        fun r t hr _ hok => ?_)
      rintro v hv _ -
      exact (hr _ hok).spared hv
  · simp at h

theorem uploadOf_expiresAt {call : Call} (h : uploadOf app call = some up) :
    up.opts.expiresAt = none := by
  unfold uploadOf at h
  repeat' split at h
  all_goals first
    | (obtain rfl := Option.some.inj h; rfl)
    | simp at h

/-- In the service, among whatever spares it. -/
theorem upload_leaves {call : Call} (hup : uploadOf app call = some up)
    (hw : Standing app.storage up none none none w) :
    (call.task app).Assures (execService app.storage.host) (uploader app.storage up)
      (Prog.OnSuccess fun _ => Stored app.storage up) w := by
  have hrelayed : ∀ p, objectPart app call = some p →
      p.Assures (exec app.storage.host) (uploader app.storage up)
        (Prog.OnSuccess fun _ => Stored app.storage up) w →
      (call.task app).Assures (execService app.storage.host) (uploader app.storage up)
        (Prog.OnSuccess fun _ => Stored app.storage up) w := by
    intro p hp hassures
    rw [task_onObjects hp]
    exact hassures.relay fun c _ _ => ⟨c.toChoice, rfl⟩
  cases call with
  | uploadFile bucket query headers body =>
    exact hrelayed _ rfl (uploadFile_leaves hup hw).discard_ok
  | v2 verified call =>
    cases call with
    | putObject bucket key headers body =>
      exact hrelayed _ rfl (putObject_leaves hup hw).discard_ok
    | _ => simp [uploadOf] at hup
  | _ => simp [uploadOf] at hup

/-! ## Among the others -/

/-- One request uploads, the others are bystanders. -/
def contracts (sm : StorageManager) (up : Upload) (i j : Nat) : Contract World :=
  if j = i then uploader sm up else bystander sm up

def promised (sm : StorageManager) (up : Upload) (i j : Nat) (x : Except Unit Unit) (w : World) :
    Prop :=
  j = i → x = .ok () → Stored sm up w

theorem drift_spared {d : Drift} (hd : d.Transition w w') : Spared sm up w w' := by
  refine ⟨fun hw => ?_, drift_untouched hd⟩
  cases d with
  | evict gone =>
    obtain rfl : w' = { w with cache := w.cache.evict gone } := hd
    exact hw
  | tick elapsed =>
    obtain rfl : w' = { w with now := w.now + elapsed } := hd
    exact hw

theorem Spared.relied {i j : Nat} (h : Spared sm up w w') : (contracts sm up i j).Rely w w' := by
  unfold contracts
  split
  · exact h
  · exact h.1

theorem contracts_compatible (i : Nat) :
    Compatible Drift.Transition (contracts sm up i) where
  others := by
    intro j k s t hjk hguar
    unfold contracts at hguar
    split at hguar
    · rename_i hj
      have hk : k ≠ i := fun hk => hjk (hj.trans hk.symm)
      simp only [contracts, if_neg hk]
      exact hguar
    · exact Spared.relied hguar
  environment := fun henv => (drift_spared henv).relied

theorem call_spares {call : Call} (h : Spares app up call) (hw : AllTidy app.storage up w) :
    (call.task app).Assures (execService app.storage.host) (bystander app.storage up)
      (fun _ => AllTidy app.storage up) w := by
  refine (call_keeps h).assures (fun c a s hs ha => ?_) (fun c a s hs => server_heard hs)
    (fun _ _ hst hs => hst hs) hw
  have htidy : AllTidy app.storage up s →
      AllTidy app.storage up (execService app.storage.host c a s).2 := by
    refine fun hs => server_tidy hs ?_
    rintro f rfl
    exact ha.2
  exact ⟨⟨htidy, server_untouched ha⟩, htidy hs⟩

/-- Nothing of the object is there, and what is there of others is apart from it. -/
structure Absent (sm : StorageManager) (up : Upload) (w : World) : Prop where
  tidy : AllTidy sm up w
  row : w.db.files.find up.ident = none
  metadata : w.cache.getFileMetadata up.bucket up.key = none
  content : w.cache.getFileContent up.bucket up.key = none

theorem Absent.standing (h : Absent sm up w) : Standing sm up none none none w where
  tidy := h.tidy
  row := by rw [h.row]; rfl
  form := nofun
  disk := nofun
  metadata f hf := by simp [h.metadata] at hf
  content x hx := by simp [h.content] at hx

open RequestLimit (app₀)
open RowRecords (put single put_served)

def other : Call := .v2 (.ok ()) (.putObject "b" "j" [] [121])

/-- The first one is done, the second one has come. -/
def crossed : Server :=
  ⟨maxConcurrentRequests, [.running put false (.ret ()), .running other false (other.task app₀)], single⟩

theorem other_spares : Spares app₀ ⟨"a", "k", [120], none, {}⟩ other :=
  ⟨⟨⟨by decide, by decide⟩, by decide⟩, fun _ => by decide⟩

end LocalStorage.Proofs.UndisturbedUploads
