import LocalStorage.Proofs.CacheCoherence
import LocalStorage.Proofs.KeyEvents
import LocalStorage.Proofs.OneSource
import LocalStorage.Proofs.ReadFrames
import LocalStorage.Proofs.SharedBytes

namespace LocalStorage.Proofs.StoredBytes
open Lib Lib.Paths StorageManager OneSource SharedBytes CacheCoherence

/-! # The bytes behind the rows -/

/-- One content, over the same bytes, decoded the same way. -/
structure SameSource (g f : StoredFile) : Prop where
  hash : g.hashBlake3 = f.hashBlake3
  source : inherited g = inherited f

/-- Every row repeats the source of an earlier one, whose bytes are as they were. -/
def Reduces (sm : StorageManager) (w w' : World) : Prop :=
  ∀ f ∈ w'.db.files, ∃ g ∈ w.db.files, SameSource g f ∧
    w'.fs.fileAt (sm.host.target f.filePath) = w.fs.fileAt (sm.host.target g.filePath)

/-- No place on disk is recorded under two spellings of its path. -/
def WellSpelled (sm : StorageManager) (w : World) : Prop :=
  ∀ f ∈ w.db.files, ∀ g ∈ w.db.files,
    sm.host.target f.filePath = sm.host.target g.filePath → f.filePath = g.filePath

variable {sm : StorageManager} {f g : StoredFile} {u v w w' : World} {b k : String}

theorem SameSource.trans {e : StoredFile} (h : SameSource e g) (h' : SameSource g f) : SameSource e f :=
  ⟨h.hash.trans h'.hash, h.source.trans h'.source⟩

theorem SameSource.filePath (h : SameSource g f) : g.filePath = f.filePath :=
  congrArg Inherited.filePath h.source

theorem Reduces.of_files (hfiles : w'.db.files = w.db.files)
    (hdisk : ∀ f ∈ w.db.files, w'.fs.fileAt (sm.host.target f.filePath) =
      w.fs.fileAt (sm.host.target f.filePath)) : Reduces sm w w' := by
  intro f hf
  rw [hfiles] at hf
  exact ⟨f, hf, ⟨rfl, rfl⟩, hdisk f hf⟩

theorem Reduces.refl (w : World) : Reduces sm w w := Reduces.of_files rfl fun _ _ => rfl

theorem Reduces.trans (h : Reduces sm u v) (h' : Reduces sm v w) : Reduces sm u w := by
  intro f hf
  obtain ⟨g, hg, hgf, hdisk⟩ := h' f hf
  obtain ⟨e, he, heg, hdisk'⟩ := h g hg
  exact ⟨e, he, heg.trans hgf, hdisk.trans hdisk'⟩

theorem WellSpelled.reduced (hs : WellSpelled sm w) (h : Reduces sm w w') : WellSpelled sm w' := by
  intro f hf g hg htarget
  obtain ⟨f', hf', hff, -⟩ := h f hf
  obtain ⟨g', hg', hgg, -⟩ := h g hg
  rw [← hff.filePath, ← hgg.filePath] at htarget ⊢
  exact hs f' hf' g' hg' htarget

/-! ## Steps that write no file -/

/-- The step leaves every file alone and inserts no row. -/
def Spare (a : Action) : Prop := addsRow a = false ∧ a.writesFile = false

theorem takes_reduces {st : Taken Response} (ha : Spare st.1) (ht : Takes (exec sm.host) w st w') :
    Reduces sm w w' := by
  intro f hf
  obtain ⟨g, hg, hhash, hsource⟩ := takes_drawn ht ha.1 f hf
  have hsame : SameSource g f := ⟨hhash, hsource⟩
  exact ⟨g, hg, hsame, by rw [takes_fileAt ht ha.2, hsame.filePath]⟩

/-- A well spelled table stays backed. -/
def Shrinks (sm : StorageManager) (w w' : World) : Prop := WellSpelled sm w → Reduces sm w w'

theorem Shrinks.refl (w : World) : Shrinks sm w w := fun _ => Reduces.refl w

theorem Shrinks.trans (u v w : World) (h : Shrinks sm u v) (h' : Shrinks sm v w) : Shrinks sm u w :=
  fun hs => (h hs).trans (h' (hs.reduced (h hs)))

/-- The program shrinks whatever state it is started in. -/
def Shrinking {α : Type} (sm : StorageManager) (p : Op α) : Prop :=
  ∀ w, p.Ensures (exec sm.host) (fun _ t => Shrinks sm w t) w

/-! ## Deletions and reads -/

/-- The unlinked file is no remaining row's, under whatever spelling. -/
theorem Reduces.deleted {file : StoredFile} (hs : WellSpelled sm w)
    (hd : Deleted sm.host b k file w w') : Reduces sm w w' := by
  intro f hf
  rw [hd.files, Table.mem_erase] at hf
  obtain ⟨hf, hne⟩ := hf
  refine ⟨f, hf, ⟨rfl, rfl⟩, ?_⟩
  cases hd.disk with
  | inl hsame => exact hsame _
  | inr hlost =>
    obtain ⟨halone, hdisk⟩ := hlost
    rw [hdisk, if_neg]
    intro htarget
    exact hne (halone f hf (hs f hf file (Table.find_mem hd.row) htarget))

theorem deleteFile_shrinking : Shrinking sm (deleteFile b k) := by
  intro w
  refine deleteFile_spec.mono fun x t hx hs => ?_
  cases x with
  | ok u =>
    obtain ⟨file, hd⟩ := hx
    exact Reduces.deleted hs hd
  | error e =>
    obtain rfl := hx
    exact Reduces.refl t

theorem takes_shrinks (c : Choice) (a : Action) (w : World) (ha : Spare a) :
    Shrinks sm w (exec sm.host c a w).2 := by
  have ht : Takes (exec sm.host) w ⟨a, (exec sm.host c a w).1⟩ (exec sm.host c a w).2 := ⟨c, rfl⟩
  exact fun _ => takes_reduces ha ht

theorem Quiet.spare {a : Action} (ha : Quiet a) : Spare a := by
  refine ⟨?_, ha.file⟩
  cases a with
  | upsertFile f => exact absurd ha.row (by simp [Action.writesRow])
  | _ => rfl

theorem readMetadata_shrinking : Shrinking sm (readMetadata b k) := by
  intro w
  exact readMetadata_frame (Shrinks.refl w) fun _ _ _ => Reduces.of_files rfl fun _ _ => rfl

theorem reads_shrink : KeptByReads sm.host (Shrinks sm) where
  refl := Shrinks.refl
  trans := Shrinks.trans
  quiet c a w ha := takes_shrinks c a w (Quiet.spare ha)
  deleteFile _ _ := deleteFile_shrinking
  readMetadata _ _ := readMetadata_shrinking

/-! ## Uploads and the removal of buckets -/

/-- The removal of a bucket takes no bytes of the other buckets' rows. -/
def SparesOthers (sm : StorageManager) (w : World) (b : String) : Prop :=
  ∀ g ∈ w.db.files.rows, g.bucket ≠ b →
    (w.fs.isDir (bucketDir sm b) = true → ¬ bucketDir sm b <+: sm.host.target g.filePath) ∧
      ∀ f ∈ w.db.files.rows, f.bucket = b →
        sm.host.target g.filePath ≠ sm.host.target f.filePath

/-- An upload finds its content recorded, or writes where no other row has its bytes; one
that fails writes where no row at all has them, if it gets as far as the disk. -/
def Spares (sm : StorageManager) (w : World) : Event → Prop
  | .storeFile b k content _ _ (.ok _) =>
    Recorded sm w content ∨ ∀ f ∈ w.db.files.rows, ¬ InTheWay sm b k f
  | .storeFile b k content _ opts (.error _) =>
    Recorded sm w content ∨ FailedUpload.CannotEncrypt sm w opts ∨
      ∀ f ∈ w.db.files.rows, sm.host.target f.filePath ∉ sm.places b k
  | .deleteBucket b (.ok _) => SparesOthers sm w b
  | _ => True

section Decidable
variable (sm : StorageManager) (w : World)

instance (b : String) : Decidable (SparesOthers sm w b) :=
  inferInstanceAs (Decidable (∀ g ∈ w.db.files.rows, _))

instance Spares.decide : (e : Event) → Decidable (Spares sm w e)
  | .storeFile _ _ _ _ _ (.ok _) => inferInstanceAs (Decidable (_ ∨ ∀ f ∈ w.db.files.rows, _))
  | .storeFile _ _ _ _ _ (.error _) =>
    inferInstanceAs (Decidable (_ ∨ _ ∨ ∀ f ∈ w.db.files.rows, _))
  | .deleteBucket _ (.ok _) => inferInstanceAs (Decidable (SparesOthers ..))
  | .deleteBucket _ (.error _) | .getFile .. | .getFileRangeIfPlain .. | .getCompressedFileRange ..
  | .deleteFile .. | .sweepExpiredFiles .. | .evict _ | .tick _ => isTrue trivial

end Decidable

theorem Reduces.bucketDeleted (hd : BucketDeleted sm b w w') (hspare : SparesOthers sm w b) :
    Reduces sm w w' := by
  intro f hf
  rw [hd.files, Table.mem_filter] at hf
  obtain ⟨hf, hother⟩ := hf
  obtain ⟨hdir, hplace⟩ := hspare f hf (by simpa using hother)
  refine ⟨f, hf, ⟨rfl, rfl⟩, ?_⟩
  obtain hsame | ⟨-, ⟨g, hg, hgb, hl⟩ | ⟨hisDir, hl⟩⟩ := hd.disk (sm.host.target f.filePath)
  · exact hsame
  · exact absurd hl (hplace g hg hgb)
  · exact absurd hl (hdir hisDir)

/-- What an upload adds to the rows there were. -/
inductive Adds (sm : StorageManager) (b k : String) (content : Bytes) (ct : Option String)
    (opts : StoreOptions) (w w' : World) (x : Result StoredFile) : Prop where
  | nothing (h : Reduces sm w w')
  | fresh (processed : Bytes) (enc : Bool) (id : Uuid) (now : Time)
    (hok : ∃ file, x = .ok file) (hnew : ¬ Recorded sm w content)
    (henc : EncryptedAs sm w.db opts (sm.compressStage opts content).1 processed enc)
    (hw : Written sm.host w w' (sm.freshFile b k content ct opts (sm.compressStage opts content).2
      (sm.compressStage opts content).1.length processed enc id now) processed)

variable {content : Bytes} {ct : Option String} {opts : StoreOptions}

/-- An alias repeats the source of the row it was made from. -/
theorem Reduces.aliased {existing : StoredFile} {id : Uuid} {now : Time}
    (hmem : existing ∈ w.db.files) (hhash : existing.hashBlake3 = sm.lib.blake3 content)
    (ha : Aliased w w' (sm.aliasedFile b k content ct opts existing id now)) : Reduces sm w w' := by
  intro f hf
  rw [ha.files, Table.mem_put] at hf
  cases hf with
  | inl hnew =>
    have hsame : SameSource existing f := by
      refine ⟨?_, ?_⟩
      · rw [hnew, Database.mergeRow_hashBlake3, aliasedFile_hashBlake3, hhash]
      · rw [hnew, inherited_mergeRow]
        rfl
    exact ⟨existing, hmem, hsame, by rw [ha.disk, hsame.filePath]⟩
  | inr hold => exact ⟨f, hold.1, ⟨rfl, rfl⟩, ha.disk _⟩

theorem storeFile_adds {x : Result StoredFile} (hspare : Spares sm w (.storeFile b k content ct opts x))
    (hx : StoreOutcome sm b k content ct opts w w' x) : Adds sm b k content ct opts w w' x := by
  have hkept : Kept [] w w' → Reduces sm w w' := fun hk =>
    Reduces.of_files hk.files fun f _ => hk.disk _ (by simp)
  have hnew : (sm.config.storage.enableDeduplication = true →
      ∀ f ∈ w.db.files, f.hashBlake3 ≠ sm.lib.blake3 content) → ¬ Recorded sm w content := by
    intro hno hrec
    obtain ⟨hdedup, f, hf, hhash⟩ := hrec
    exact hno hdedup f hf hhash
  cases hx with
  | rejected e hk => exact .nothing (hkept hk)
  | broken e hno henc hk =>
    refine .nothing (Reduces.of_files hk.files fun f hf => hk.disk _ ?_)
    obtain hrec | hcannot | hfree := hspare
    · exact absurd hrec (hnew hno)
    · obtain ⟨out, enc, henc⟩ := henc
      exact absurd henc hcannot.not_encrypted
    · exact hfree f hf
  | identical file _ _ _ _ hk => exact .nothing (hkept hk)
  | aliased existing id now hmem _ hhash _ ha => exact .nothing (Reduces.aliased hmem hhash ha)
  | fresh processed enc id now hno henc hw =>
    exact .fresh processed enc id now ⟨_, rfl⟩ (hnew hno) henc hw

/-! ## What the bytes are -/

/-- The row and its bytes are those of an upload that satisfies `Q`. -/
def StoredBy (sm : StorageManager) (Q : StoreOptions → Bytes → Prop) (db : Database)
    (f : StoredFile) (raw : Bytes) : Prop :=
  ∃ before b k content ct opts enc id now, Q opts content ∧ KeysKept before db ∧
    EncryptedAs sm before opts (sm.compressStage opts content).1 raw enc ∧
    SameSource (sm.freshFile b k content ct opts (sm.compressStage opts content).2
      (sm.compressStage opts content).1.length raw enc id now) f

structure Backed (sm : StorageManager) (Q : StoreOptions → Bytes → Prop) (w : World) : Prop where
  bytes : ∀ f ∈ w.db.files, ∃ raw, w.bytesAt sm.host f.filePath = some raw ∧
    StoredBy sm Q w.db f raw
  spelled : WellSpelled sm w

/-- Every upload that writes satisfies `Q`. -/
def Writes (sm : StorageManager) (Q : StoreOptions → Bytes → Prop) (w : World) : Event → Prop
  | .storeFile _ _ content _ opts (.ok _) => Recorded sm w content ∨ Q opts content
  | _ => True

instance Writes.decide (sm : StorageManager) (Q : StoreOptions → Bytes → Prop)
    [∀ opts content, Decidable (Q opts content)] (w : World) :
    (e : Event) → Decidable (Writes sm Q w e)
  | .storeFile _ _ _ _ _ (.ok _) => inferInstanceAs (Decidable (_ ∨ _))
  | .storeFile _ _ _ _ _ (.error _) | .getFile .. | .getFileRangeIfPlain ..
  | .getCompressedFileRange .. | .deleteFile .. | .deleteBucket .. | .sweepExpiredFiles ..
  | .evict _ | .tick _ => isTrue trivial

/-- The condition on each step, in the state it starts in. -/
def Meets (sm : StorageManager) (Q : StoreOptions → Bytes → Prop) (w : World) : ServiceEvent → Prop
  | .call e => Spares sm w e ∧ Writes sm Q w e
  | _ => True

variable {Q : StoreOptions → Bytes → Prop}

theorem Backed.reduced (hb : Backed sm Q w) (h : Reduces sm w w') (hkeys : KeysKept w.db w'.db) :
    Backed sm Q w' := by
  refine ⟨fun f hf => ?_, hb.spelled.reduced h⟩
  obtain ⟨g, hg, hgf, hdisk⟩ := h f hf
  obtain ⟨raw, hraw, before, b, k, content, ct, opts, enc, id, now, hq, hkept, henc, hsame⟩ :=
    hb.bytes g hg
  refine ⟨raw, ?_, before, b, k, content, ct, opts, enc, id, now, hq, hkept.trans hkeys, henc,
    hsame.trans hgf⟩
  rw [← hraw, ← hgf.filePath]
  apply World.bytesAt_congr
  rw [hgf.filePath, hdisk, hgf.filePath]

theorem Backed.written {processed : Bytes} {enc : Bool} {id : Uuid} {now : Time}
    (hb : Backed sm Q w) (hclear : ∀ f ∈ w.db.files, ¬ InTheWay sm b k f) (hq : Q opts content)
    (henc : EncryptedAs sm w.db opts (sm.compressStage opts content).1 processed enc)
    (hw : Written sm.host w w' (sm.freshFile b k content ct opts (sm.compressStage opts content).2
      (sm.compressStage opts content).1.length processed enc id now) processed) :
    Backed sm Q w' := by
  have hplaces : ∀ f ∈ w.db.files, f.ident ≠ (b, k) →
      sm.host.target f.filePath ≠ sm.host.target (sm.getFilePath b k) ∧
        sm.host.target f.filePath ≠ sm.host.temp (sm.getFilePath b k) := by
    intro f hf hne
    have hfree : sm.host.target f.filePath ∉ sm.places b k := fun hin => hclear f hf ⟨hne, hin⟩
    simpa [places] using hfree
  have hrows : ∀ f ∈ w'.db.files, f.filePath = sm.getFilePath b k ∧
        SameSource (sm.freshFile b k content ct opts (sm.compressStage opts content).2
          (sm.compressStage opts content).1.length processed enc id now) f ∨
      f ∈ w.db.files ∧ f.ident ≠ (b, k) := by
    intro f hf
    rw [hw.files, Table.mem_put] at hf
    cases hf with
    | inl hnew =>
      rw [hnew]
      exact .inl ⟨by simp, by simp, (inherited_mergeRow _ _).symm⟩
    | inr hold => exact .inr ⟨hold.1, by simpa using hold.2⟩
  have hkept : KeysKept w.db w'.db := KeysKept.of_eq hw.keys
  constructor
  · intro f hf
    obtain ⟨hpath, hsame⟩ | ⟨hold, hne⟩ := hrows f hf
    · refine ⟨processed, ?_, w.db, b, k, content, ct, opts, enc, id, now, hq, hkept, henc, hsame⟩
      rw [hpath]
      exact hw.bytesAt
    · obtain ⟨raw, hraw, before, b', k', content', ct', opts', enc', id', now', hq', hkept', henc',
        hsame⟩ := hb.bytes f hold
      refine ⟨raw, ?_, before, b', k', content', ct', opts', enc', id', now', hq',
        hkept'.trans hkept, henc', hsame⟩
      rw [← hraw]
      exact World.bytesAt_congr (hw.disk_ne (hplaces f hold hne).1 (hplaces f hold hne).2)
  · intro f hf g hg htarget
    obtain ⟨hpath, -⟩ | ⟨hold, hne⟩ := hrows f hf
    · obtain ⟨hpath', -⟩ | ⟨hold', hne'⟩ := hrows g hg
      · rw [hpath, hpath']
      · rw [hpath] at htarget
        exact absurd htarget.symm (hplaces g hold' hne').1
    · obtain ⟨hpath', -⟩ | ⟨hold', -⟩ := hrows g hg
      · rw [hpath'] at htarget
        exact absurd htarget (hplaces f hold hne).1
      · exact hb.spelled f hold g hold' htarget

/-! ## Whole runs -/

theorem call_backed {e : Event} (hb : Backed sm Q w) (hspare : Spares sm w e)
    (hq : Writes sm Q w e) (ht : e.Transition sm w w') : Backed sm Q w' := by
  have hkeys : KeysKept w.db w'.db := KeysKept.of_eq (Event.encryptionKeys ht)
  have hshrinks : Shrinks sm w w' → Backed sm Q w' := fun h => hb.reduced (h hb.spelled) hkeys
  cases e with
  | storeFile b k content ct opts x =>
    cases storeFile_adds hspare (storeFile_spec x w' ht) with
    | nothing h => exact hb.reduced h hkeys
    | fresh processed enc id now hok hnew henc hw =>
      obtain ⟨file, rfl⟩ := hok
      exact hb.written (hspare.resolve_left hnew) (hq.resolve_left hnew) henc hw
  | getFile b k x => exact hshrinks (reads_shrink.getFile w x w' ht)
  | getFileRangeIfPlain b k start stop x =>
    exact hshrinks (reads_shrink.getFileRangeIfPlain start stop w x w' ht)
  | getCompressedFileRange b k start stop x =>
    exact hshrinks (reads_shrink.getCompressedFileRange start stop w x w' ht)
  | deleteFile b k x => exact hshrinks (deleteFile_shrinking w x w' ht)
  | deleteBucket b x =>
    have hx := deleteBucket_spec x w' ht
    cases x with
    | ok u => exact hb.reduced (Reduces.bucketDeleted hx hspare) hkeys
    | error e =>
      obtain rfl : w' = w := hx
      exact hb
  | sweepExpiredFiles x => exact hshrinks (reads_shrink.sweepExpiredFiles w x w' ht)
  | evict gone =>
    obtain rfl := ht
    exact hb.reduced (Reduces.of_files rfl fun _ _ => rfl) hkeys
  | tick elapsed =>
    obtain rfl := ht
    exact hb.reduced (Reduces.of_files rfl fun _ _ => rfl) hkeys

theorem step_backed {e : ServiceEvent} (hb : Backed sm Q w) (hmeets : Meets sm Q w e)
    (ht : e.Transition sm w w') : Backed sm Q w' := by
  have honly : OnlyKeys w w' → Backed sm Q w' := fun h =>
    hb.reduced (Reduces.of_files h.files fun _ _ => by rw [h.disk]) h.keys
  cases e with
  | call e => exact call_backed hb hmeets.1 hmeets.2 ht
  | createEncryptionKey algorithm x =>
    obtain ⟨keyId, keyData, c, hc⟩ := ht
    exact honly (createEncryptionKey_onlyKeys hc)
  | deactivateEncryptionKey keyId x =>
    obtain ⟨c, hc⟩ := ht
    exact honly (deactivateEncryptionKey_onlyKeys hc)

theorem Backed.initial (hfiles : w.db.files = Table.empty) : Backed sm Q w := by
  have hnone : ∀ f, f ∉ w.db.files := fun f hf => Table.not_mem_empty (hfiles ▸ hf)
  exact ⟨fun f hf => absurd hf (hnone f), fun f hf => absurd hf (hnone f)⟩

/-- Through any run from a store without rows whose steps meet the condition, every row has
the bytes its upload made. -/
theorem run_backed {es : List ServiceEvent} (hfiles : w.db.files = Table.empty)
    (hrun : ServiceRun sm (Meets sm Q) w es w') : Backed sm Q w' :=
  hrun.invariant (Backed.initial hfiles) fun _ _ _ _ hb hm ht => step_backed hb hm ht

theorem service_run {es : List Event}
    (hrun : SystemRun sm (fun u e => Spares sm u e ∧ Writes sm Q u e) w es w') :
    ServiceRun sm (Meets sm Q) w (es.map .call) w' :=
  calls_run (fun _ _ h => h) hrun

/-- The record a successful upload answers with is that of a row, but for its id. -/
theorem reported_row {file : StoredFile} (hx : StoreOutcome sm b k content ct opts w w' (.ok file)) :
    ∃ f ∈ w'.db.files, f.ident = (b, k) ∧ SameSource f file := by
  have hput : ∀ old, w'.db.files = w.db.files.put (Database.mergeRow old file) → file.ident = (b, k) →
      ∃ f ∈ w'.db.files, f.ident = (b, k) ∧ SameSource f file := by
    intro old hfiles hident
    refine ⟨Database.mergeRow old file, hfiles ▸ Table.mem_put.mpr (.inl rfl), by simpa using hident, ?_⟩
    exact ⟨Database.mergeRow_hashBlake3 _ _, inherited_mergeRow _ _⟩
  cases hx with
  | identical file hmem hident _ _ hk => exact ⟨file, hk.files ▸ hmem, hident, rfl, rfl⟩
  | aliased existing id now _ _ _ _ ha => exact hput _ ha.files (aliasedFile_ident ..)
  | fresh processed enc id now _ _ hw => exact hput _ hw.files (freshFile_ident ..)

end LocalStorage.Proofs.StoredBytes
