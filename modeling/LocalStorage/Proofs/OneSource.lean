import LocalStorage.Sample
import LocalStorage.Proofs.Effects
import LocalStorage.Proofs.Upload
import LocalStorage.Proofs.Vocabulary

namespace LocalStorage.Proofs.OneSource
open Lib Lib.Paths StorageManager

/-- The bytes behind a row and how to decode them: what an alias takes over. -/
structure Inherited where
  filePath : String
  fileSize : Int
  originalSize : Int
  isCompressed : Option Bool
  isEncrypted : Option Bool
  compressionAlgorithm : Option String
  encryptionAlgorithm : Option String
  encryptionKeyId : Option String
deriving DecidableEq

def inherited (f : StoredFile) : Inherited where
  filePath := f.filePath
  fileSize := f.fileSize
  originalSize := f.originalSize
  isCompressed := f.isCompressed
  isEncrypted := f.isEncrypted
  compressionAlgorithm := f.compressionAlgorithm
  encryptionAlgorithm := f.encryptionAlgorithm
  encryptionKeyId := f.encryptionKeyId

/-- Rows of one hash have one source. -/
def OneSourced (files : Table StoredFile.ident) : Prop :=
  ∀ f ∈ files, ∀ g ∈ files, f.hashBlake3 = g.hashBlake3 → inherited f = inherited g

/-- Every row of the second world repeats the hash and the source of a row of the first. -/
def Drawn (w w' : World) : Prop :=
  ∀ f ∈ w'.db.files, ∃ g ∈ w.db.files, g.hashBlake3 = f.hashBlake3 ∧ inherited g = inherited f

variable {sm : StorageManager} {t : Table StoredFile.ident} {u w w' : World} {es : List Event}
  {b k : String} {content : Bytes} {ct : Option String} {opts : StoreOptions}

theorem Drawn.of_subset (h : ∀ f ∈ w'.db.files, f ∈ w.db.files) : Drawn w w' :=
  fun f hf => ⟨f, h f hf, rfl, rfl⟩

theorem Drawn.refl (w : World) : Drawn w w := Drawn.of_subset fun _ hf => hf

theorem Drawn.trans (h : Drawn u w) (h' : Drawn w w') : Drawn u w' := by
  intro f hf
  obtain ⟨g, hg, hhash, hsource⟩ := h' f hf
  obtain ⟨e, he, hhash', hsource'⟩ := h g hg
  exact ⟨e, he, hhash'.trans hhash, hsource'.trans hsource⟩

theorem OneSourced.drawn (ho : OneSourced w.db.files) (h : Drawn w w') :
    OneSourced w'.db.files := by
  intro f hf g hg heq
  obtain ⟨f', hf', hhash, hsource⟩ := h f hf
  obtain ⟨g', hg', hhash', hsource'⟩ := h g hg
  rw [← hsource, ← hsource']
  apply ho f' hf' g' hg'
  rw [hhash, hhash', heq]

/-! ## Everything but an upload -/

def addsRow : Action → Bool
  | .upsertFile _ => true
  | _ => false

theorem takes_drawn {h : Host} {st : Taken Response} (ht : Takes (exec h) w st w')
    (ha : addsRow st.1 = false) : Drawn w w' := by
  obtain ⟨a, r⟩ := st
  have hsubset : a.countsAccess = false → Drawn w w' := by
    intro hc
    apply Drawn.of_subset
    intro f hf
    apply takes_files_subset ht _ hc hf
    rintro g rfl
    simp [addsRow] at ha
  cases a with
  | updateAccess id =>
    rcases takes_db ht with hdb | hdb
    · exact Drawn.of_subset fun f hf => hdb ▸ hf
    · rcases (Database.updateAccess_ok hdb).1 with hf | hf
      · exact Drawn.of_subset fun f hmem => hf ▸ hmem
      · intro f hmem
        rw [hf] at hmem
        obtain ⟨g, hg, rfl⟩ := Table.mem_update.mp hmem
        refine ⟨g, hg, ?_⟩
        unfold Database.touch
        split <;> exact ⟨rfl, rfl⟩
  | _ => exact hsubset rfl

/-- A step that inserts no row. -/
abbrev AddsNone (a : Action) : Prop := addsRow a = false

theorem Drawn.of_uses {h : Host} {α : Type} {p : Op α} {x : Result α} (hp : p.Uses AddsNone)
    (hr : p.Runs (exec h) w x w') : Drawn w w' := by
  have hstep : ∀ c a u, AddsNone a → Drawn u (exec h c a u).2 :=
    fun c a u ha => takes_drawn (show Takes (exec h) u ⟨a, (exec h c a u).1⟩ _ from ⟨c, rfl⟩) ha
  exact Prog.Runs.frame Drawn.refl (fun _ _ _ => Drawn.trans) hstep hp hr

theorem DeleteStep.addsNone {a : Action} (h : DeleteStep b k a) : AddsNone a := by
  cases h <;> rfl

theorem ReadStep.addsNone {a : Action} (h : ReadStep b k a) : AddsNone a := by
  cases h with
  | delete h => exact DeleteStep.addsNone h
  | _ => rfl

theorem DeleteBucketStep.addsNone {a : Action} (h : DeleteBucketStep b a) : AddsNone a := by
  cases h <;> rfl

theorem Drawn.of_read {h : Host} {α : Type} {p : Op α} {x : Result α} (hp : p.Uses (ReadStep b k))
    (hr : p.Runs (exec h) w x w') : Drawn w w' :=
  Drawn.of_uses (hp.mono fun _ => ReadStep.addsNone) hr

theorem sweepExpiredFiles_addsNone : sweepExpiredFiles.Uses AddsNone := by
  apply sweepExpiredFiles_steps.mono
  rintro a (rfl | ⟨f, ha⟩)
  · rfl
  · exact DeleteStep.addsNone ha

/-! ## Uploads -/

theorem inherited_mergeRow (old : Option StoredFile) (f : StoredFile) :
    inherited (Database.mergeRow old f) = inherited f := by
  cases old <;> rfl

/-- A row whose hash the others do not record, or record with the same source. -/
theorem OneSourced.put {row : StoredFile} (ho : OneSourced t)
    (h : ∀ f ∈ t, f.hashBlake3 = row.hashBlake3 → inherited f = inherited row) :
    OneSourced (t.put row) := by
  intro f hf g hg heq
  cases Table.mem_put.mp hf with
  | inl hfr =>
    cases Table.mem_put.mp hg with
    | inl hgr => rw [hfr, hgr]
    | inr hg' =>
      rw [hfr]
      exact (h g hg'.1 (by rw [← heq, hfr])).symm
  | inr hf' =>
    cases Table.mem_put.mp hg with
    | inl hgr =>
      rw [hgr]
      exact h f hf'.1 (by rw [heq, hgr])
    | inr hg' => exact ho f hf'.1 g hg'.1 heq

theorem OneSourced.aliased {existing : StoredFile} {id : Uuid} {now : Time}
    (ho : OneSourced w.db.files) (hmem : existing ∈ w.db.files)
    (hhash : existing.hashBlake3 = sm.lib.blake3 content)
    (ha : Aliased w w' (sm.aliasedFile b k content ct opts existing id now)) :
    OneSourced w'.db.files := by
  rw [ha.files]
  apply ho.put
  intro f hf heq
  rw [Database.mergeRow_hashBlake3, aliasedFile_hashBlake3] at heq
  rw [inherited_mergeRow]
  exact ho f hf existing hmem (heq.trans hhash.symm)

theorem OneSourced.written {h : Host} {file : StoredFile} {processed : Bytes}
    (ho : OneSourced w.db.files) (hnew : ∀ f ∈ w.db.files, f.hashBlake3 ≠ file.hashBlake3)
    (hw : Written h w w' file processed) : OneSourced w'.db.files := by
  rw [hw.files]
  apply ho.put
  intro f hf heq
  rw [Database.mergeRow_hashBlake3] at heq
  exact absurd heq (hnew f hf)

theorem OneSourced.stored {x : Result StoredFile}
    (hdedup : sm.config.storage.enableDeduplication = true) (ho : OneSourced w.db.files)
    (hx : StoreOutcome sm b k content ct opts w w' x) : OneSourced w'.db.files := by
  cases hx with
  | rejected e hk => rwa [hk.files]
  | broken e _ _ hk => rwa [hk.files]
  | identical file _ _ _ _ hk => rwa [hk.files]
  | aliased existing id now hmem _ hhash _ ha => exact ho.aliased hmem hhash ha
  | fresh processed enc id now hnew _ hw => exact ho.written (hnew hdedup) hw

/-! ## Whole runs -/

/-- Every call but an upload leaves only rows drawn from the ones before. -/
theorem drawn_or_stored {e : Event} (ht : e.Transition sm w w') :
    Drawn w w' ∨ ∃ b k content ct opts x, e = .storeFile b k content ct opts x ∧
      StoreOutcome sm b k content ct opts w w' x := by
  cases e with
  | storeFile b k content ct opts x =>
    exact .inr ⟨b, k, content, ct, opts, x, rfl, storeFile_spec x w' ht⟩
  | getFile b k x => exact .inl (Drawn.of_read getFile_steps ht)
  | getFileRangeIfPlain b k start stop x =>
    exact .inl (Drawn.of_read (getFileRangeIfPlain_steps start stop) ht)
  | getCompressedFileRange b k start stop x =>
    exact .inl (Drawn.of_read (getCompressedFileRange_steps start stop) ht)
  | deleteFile b k x =>
    exact .inl (Drawn.of_uses (deleteFile_steps.mono fun _ => DeleteStep.addsNone) ht)
  | deleteBucket b x =>
    exact .inl (Drawn.of_uses (deleteBucket_steps.mono fun _ => DeleteBucketStep.addsNone) ht)
  | sweepExpiredFiles x => exact .inl (Drawn.of_uses sweepExpiredFiles_addsNone ht)
  | evict gone =>
    obtain rfl := ht
    exact .inl (Drawn.refl w)
  | tick elapsed =>
    obtain rfl := ht
    exact .inl (Drawn.refl w)

theorem step_oneSourced (hdedup : sm.config.storage.enableDeduplication = true) {e : Event}
    (ht : e.Transition sm w w') (ho : OneSourced w.db.files) : OneSourced w'.db.files := by
  cases drawn_or_stored ht with
  | inl hd => exact ho.drawn hd
  | inr hs =>
    obtain ⟨b, k, content, ct, opts, x, rfl, hx⟩ := hs
    exact ho.stored hdedup hx

/-! ## Where rows come from -/

/-- A row after an upload was there, repeats the source of one that was, or is the upload's
own. -/
theorem stored_row {x : Result StoredFile} (hx : StoreOutcome sm b k content ct opts w w' x)
    {f : StoredFile} (hf : f ∈ w'.db.files) :
    f ∈ w.db.files ∨
    (∃ g ∈ w.db.files, g.hashBlake3 = f.hashBlake3 ∧ inherited f = inherited g) ∨
    ∃ processed enc id now old, EncryptedAs sm w.db opts (sm.compressStage opts content).1
        processed enc ∧
      f = Database.mergeRow old (sm.freshFile b k content ct opts (sm.compressStage opts content).2
        (sm.compressStage opts content).1.length processed enc id now) := by
  cases hx with
  | rejected e hk => exact .inl (hk.files ▸ hf)
  | broken e _ _ hk => exact .inl (hk.files ▸ hf)
  | identical file _ _ _ _ hk => exact .inl (hk.files ▸ hf)
  | aliased existing id now hmem _ hhash _ ha =>
    rw [ha.files, Table.mem_put] at hf
    cases hf with
    | inl hnew =>
      refine .inr (.inl ⟨existing, hmem, ?_, ?_⟩)
      · rw [hnew, hhash, Database.mergeRow_hashBlake3, aliasedFile_hashBlake3]
      · rw [hnew, inherited_mergeRow]
        rfl
    | inr hold => exact .inl hold.1
  | fresh processed enc id now _ henc hw =>
    rw [hw.files, Table.mem_put] at hf
    cases hf with
    | inl hnew => exact .inr (.inr ⟨processed, enc, id, now, _, henc, hnew⟩)
    | inr hold => exact .inl hold.1

/-- What a fresh upload's row satisfies, every row does through any run. -/
theorem rows_invariant {I : Inherited → Prop} {P : World → Event → Prop}
    (hfresh : ∀ u b k content ct opts x processed enc id now,
      P u (.storeFile b k content ct opts x) →
      EncryptedAs sm u.db opts (sm.compressStage opts content).1 processed enc →
      I (inherited (sm.freshFile b k content ct opts (sm.compressStage opts content).2
        (sm.compressStage opts content).1.length processed enc id now)))
    (hstart : ∀ f ∈ w.db.files, I (inherited f)) (hrun : SystemRun sm P w es w') :
    ∀ f ∈ w'.db.files, I (inherited f) := by
  refine hrun.invariant (I := fun u => ∀ f ∈ u.db.files, I (inherited f)) hstart ?_
  intro e _ u v hu hp ht f hf
  cases drawn_or_stored ht with
  | inl hd =>
    obtain ⟨g, hg, -, hsource⟩ := hd f hf
    exact hsource ▸ hu g hg
  | inr hs =>
    obtain ⟨b, k, content, ct, opts, x, rfl, hx⟩ := hs
    obtain hold | ⟨g, hg, -, hsource⟩ | ⟨processed, enc, id, now, old, henc, rfl⟩ := stored_row hx hf
    · exact hu f hold
    · exact hsource ▸ hu g hg
    · rw [inherited_mergeRow]
      exact hfresh u b k content ct opts x processed enc id now hp henc

/-- It does not matter which row of a hash the lookup returns. -/
theorem OneSourced.lookup {db : Database} (ho : OneSourced db.files) (hash : String)
    (rank rank' : StoredFile → Nat) :
    (db.selectFileByHash hash rank).map inherited =
      (db.selectFileByHash hash rank').map inherited := by
  have hnone : ∀ r r' : StoredFile → Nat, db.selectFileByHash hash r = none →
      db.selectFileByHash hash r' = none := by
    intro r r' hn
    cases hs : db.selectFileByHash hash r' with
    | none => rfl
    | some f =>
      obtain ⟨hf, hhash⟩ := Database.selectFileByHash_some hs
      exact absurd hhash (Database.selectFileByHash_none hn f hf)
  cases hf : db.selectFileByHash hash rank with
  | none => rw [hnone rank rank' hf]
  | some f =>
    cases hg : db.selectFileByHash hash rank' with
    | none => rw [hnone rank' rank hg] at hf; simp at hf
    | some g =>
      obtain ⟨hfm, hfh⟩ := Database.selectFileByHash_some hf
      obtain ⟨hgm, hgh⟩ := Database.selectFileByHash_some hg
      exact congrArg some (ho f hfm g hgm (hfh.trans hgh.symm))

/-- With deduplication on, through any run of calls from a store without rows, rows of one
hash share their bytes and their decode flags, whichever of them a lookup returns. -/
theorem rows_of_one_hash_agree (hdedup : sm.config.storage.enableDeduplication = true)
    (hempty : w.db.files = Table.empty) (hrun : SystemRun sm (fun _ _ => True) w es w') :
    (∀ f ∈ w'.db.files, ∀ g ∈ w'.db.files, f.hashBlake3 = g.hashBlake3 →
      inherited f = inherited g) ∧
    ∀ hash rank rank', (w'.db.selectFileByHash hash rank).map inherited =
      (w'.db.selectFileByHash hash rank').map inherited := by
  have hinit : OneSourced w.db.files := by
    intro f hf
    rw [hempty] at hf
    exact absurd hf Table.not_mem_empty
  have hend : OneSourced w'.db.files :=
    hrun.invariant (I := fun u => OneSourced u.db.files) hinit
      fun e _ u v hu _ ht => step_oneSourced hdedup ht hu
  exact ⟨hend, hend.lookup⟩

/-! ## Two keys of one content -/

open Sample (manager)

def upload (key : String) (content : Bytes) (id : Uuid) : Event × Choice :=
  (.storeFile "a" key content none {} (.error (.io "")), { uuid := id })

/-- The second key aliases the first; the third is a row of its own. -/
def threeUploads : List Event × World :=
  replay manager [upload "k1" [120] 1, upload "k2" [120] 2, upload "k3" [121] 3] ([], World.empty)

theorem rows_of_one_hash_agree_alias :
    (∃ f ∈ threeUploads.2.db.files, ∃ g ∈ threeUploads.2.db.files,
      f.ident ≠ g.ident ∧ f.hashBlake3 = g.hashBlake3) ∧
    (∀ f ∈ threeUploads.2.db.files, ∀ g ∈ threeUploads.2.db.files, f.hashBlake3 = g.hashBlake3 →
      inherited f = inherited g) ∧
    ∀ hash rank rank', (threeUploads.2.db.selectFileByHash hash rank).map inherited =
      (threeUploads.2.db.selectFileByHash hash rank').map inherited := by
  have hrun : SystemRun manager (fun _ _ => True) World.empty threeUploads.1 threeUploads.2 :=
    replay_run (.nil World.empty) ⟨trivial, trivial, trivial, trivial⟩
  refine ⟨?_, rows_of_one_hash_agree rfl rfl hrun⟩
  have hrows : ∃ f ∈ threeUploads.2.db.files.rows, ∃ g ∈ threeUploads.2.db.files.rows,
      f.ident ≠ g.ident ∧ f.hashBlake3 = g.hashBlake3 := by decide
  exact hrows

end LocalStorage.Proofs.OneSource
