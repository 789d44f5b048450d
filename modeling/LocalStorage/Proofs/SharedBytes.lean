import LocalStorage.Sample
import LocalStorage.Proofs.Deletion

namespace LocalStorage.Proofs.SharedBytes
open Lib Lib.Paths StorageManager

/-- `bytes` is what processing makes of `content` under the flags and the key the row
records. -/
def ProcessedBytes (sm : StorageManager) (db : Database) (content bytes : Bytes)
    (file : StoredFile) : Prop :=
  ∃ opts enc, file.isCompressed = some (sm.compressStage opts content).2 ∧
    file.isEncrypted = some enc ∧
    EncryptedAs sm db opts (sm.compressStage opts content).1 bytes enc ∧
    (enc = true → file.encryptionAlgorithm = some sm.config.crypto.algorithm ∧
      file.encryptionKeyId = opts.encryptionKeyId)

/-- The row's path holds the processed bytes of the content whose hash it records. -/
def RowIntact (sm : StorageManager) (w : World) (file : StoredFile) : Prop :=
  ∃ content bytes, sm.lib.blake3 content = file.hashBlake3 ∧
    w.bytesAt sm.host file.filePath = some bytes ∧ ProcessedBytes sm w.db content bytes file

def uploaded : Event → Option (String × String)
  | .storeFile b k _ _ _ _ => some (b, k)
  | _ => none

/-- The pairs a run uploads to. -/
def uploads (es : List Event) : List (String × String) := es.filterMap uploaded

/-- Different pairs are kept at different places on disk. -/
def DistinctPlaces (sm : StorageManager) (es : List Event) : Prop :=
  ∀ p ∈ uploads es, ∀ q ∈ uploads es,
    sm.host.target (sm.getFilePath p.1 p.2) = sm.host.target (sm.getFilePath q.1 q.2) → p = q

instance (sm : StorageManager) (es : List Event) : Decidable (DistinctPlaces sm es) :=
  inferInstanceAs (Decidable (∀ p ∈ uploads es, ∀ q ∈ uploads es, _ → _))

/-- A successful upload or deletion. -/
def Succeeds : Event → Prop
  | .storeFile _ _ _ _ _ x => x.isOk = true
  | .deleteFile _ _ x => x.isOk = true
  | _ => False

instance : (e : Event) → Decidable (Succeeds e)
  | .storeFile _ _ _ _ _ x => inferInstanceAs (Decidable (x.isOk = true))
  | .deleteFile _ _ x => inferInstanceAs (Decidable (x.isOk = true))
  | .getFile .. | .getFileRangeIfPlain .. | .getCompressedFileRange .. | .deleteBucket ..
  | .sweepExpiredFiles .. | .evict .. | .tick .. => isFalse id

/-- The bytes of another row are in the way of a fresh write to `(b, k)`: at its file or
at its temporary file. -/
def InTheWay (sm : StorageManager) (b k : String) (file : StoredFile) : Prop :=
  file.ident ≠ (b, k) ∧ sm.host.target file.filePath ∈ sm.places b k

instance (sm : StorageManager) (b k : String) (f : StoredFile) :
    Decidable (InTheWay sm b k f) := inferInstanceAs (Decidable (_ ∧ _))

/-- An upload either finds its content recorded already, or writes where no other row's
bytes are. -/
def WritesClear (sm : StorageManager) (w : World) : Event → Prop
  | .storeFile b k content _ _ _ =>
    (∃ f ∈ w.db.files.rows, f.hashBlake3 = sm.lib.blake3 content) ∨
      ∀ f ∈ w.db.files.rows, ¬ InTheWay sm b k f
  | _ => True

instance (sm : StorageManager) (w : World) : (e : Event) → Decidable (WritesClear sm w e)
  | .storeFile _ _ _ _ _ _ => inferInstanceAs (Decidable (_ ∨ _))
  | .getFile .. | .getFileRangeIfPlain .. | .getCompressedFileRange .. | .deleteFile ..
  | .deleteBucket .. | .sweepExpiredFiles .. | .evict .. | .tick .. => isTrue trivial

variable {sm : StorageManager} {w w' : World} {es : List Event} {b k : String}

theorem ProcessedBytes.congr {db db' : Database} {content bytes : Bytes} {file : StoredFile}
    (h : db'.encryptionKeys = db.encryptionKeys) (hp : ProcessedBytes sm db content bytes file) :
    ProcessedBytes sm db' content bytes file := by
  obtain ⟨opts, enc, hc, he, henc, hkey⟩ := hp
  exact ⟨opts, enc, hc, he, henc.congr h.symm, hkey⟩

theorem RowIntact.congr {file : StoredFile} (hi : RowIntact sm w file)
    (hk : w'.db.encryptionKeys = w.db.encryptionKeys)
    (hd : w'.fs.fileAt (sm.host.target file.filePath) = w.fs.fileAt (sm.host.target file.filePath)) :
    RowIntact sm w' file := by
  obtain ⟨content, bytes, hh, hb, hp⟩ := hi
  exact ⟨content, bytes, hh, (World.bytesAt_congr hd).trans hb, hp.congr hk⟩

/-- Every row is intact, and its path is the one of a pair that was uploaded. -/
def Intact (sm : StorageManager) (es : List Event) (w : World) : Prop :=
  ∀ f ∈ w.db.files, RowIntact sm w f ∧ ∃ p ∈ uploads es, f.filePath = sm.getFilePath p.1 p.2

theorem Intact.kept (hi : Intact sm es w) (hk : Kept [] w w') : Intact sm es w' := by
  intro f hf
  rw [hk.files] at hf
  obtain ⟨hrow, hpath⟩ := hi f hf
  exact ⟨hrow.congr hk.keys (hk.disk _ (by simp)), hpath⟩

/-- An alias points at the bytes of the row it was made from. -/
theorem Intact.aliased {content : Bytes} {ct : Option String} {opts : StoreOptions}
    {existing : StoredFile} {id : Uuid} {now : Time} (hi : Intact sm es w)
    (hmem : existing ∈ w.db.files) (hhash : existing.hashBlake3 = sm.lib.blake3 content)
    (ha : Aliased w w' (sm.aliasedFile b k content ct opts existing id now)) :
    Intact sm es w' := by
  intro f hf
  rw [ha.files, Table.mem_put] at hf
  rcases hf with rfl | ⟨hf, -⟩
  · obtain ⟨hrow, hpath⟩ := hi existing hmem
    have hrow' : RowIntact sm w' existing := hrow.congr ha.keys (ha.disk _)
    obtain ⟨content', bytes, hh, hb, hp⟩ := hrow'
    refine ⟨⟨content', bytes, ?_, ?_, ?_⟩, ?_⟩
    · simpa [aliasedFile] using hh.trans hhash
    · simpa [aliasedFile] using hb
    · simpa [ProcessedBytes, aliasedFile] using hp
    · simpa [aliasedFile] using hpath
  · obtain ⟨hrow, hpath⟩ := hi f hf
    exact ⟨hrow.congr ha.keys (ha.disk _), hpath⟩

theorem Intact.fresh {content processed : Bytes} {ct : Option String} {opts : StoreOptions}
    {enc : Bool} {id : Uuid} {now : Time} (hi : Intact sm es w) (hup : (b, k) ∈ uploads es)
    (hclear : ∀ f ∈ w.db.files, ¬ InTheWay sm b k f)
    (henc : EncryptedAs sm w.db opts (sm.compressStage opts content).1 processed enc)
    (hw : Written sm.host w w' (sm.freshFile b k content ct opts (sm.compressStage opts content).2
      (sm.compressStage opts content).1.length processed enc id now) processed) :
    Intact sm es w' := by
  intro f hf
  rw [hw.files, Table.mem_put] at hf
  rcases hf with rfl | ⟨hf, hne⟩
  · refine ⟨⟨content, processed, by simp, by simpa using hw.bytesAt, ?_⟩, (b, k), hup, by simp⟩
    refine ⟨opts, enc, by simp [freshFile], by simp [freshFile], henc.congr hw.keys.symm, ?_⟩
    intro h
    simp [freshFile, h]
  · obtain ⟨hrow, hpath⟩ := hi f hf
    have hfree : sm.host.target f.filePath ∉ sm.places b k :=
      fun hin => hclear f hf ⟨by simpa using hne, hin⟩
    simp only [places, List.mem_cons, List.not_mem_nil, or_false, not_or] at hfree
    exact ⟨hrow.congr hw.keys (hw.disk_ne hfree.1 hfree.2), hpath⟩

/-- A deletion unlinks bytes only when no remaining row has their path. -/
theorem Intact.deleted {file : StoredFile} (hdist : DistinctPlaces sm es) (hi : Intact sm es w)
    (hd : Deleted sm.host b k file w w') : Intact sm es w' := by
  intro f hf
  rw [hd.files, Table.mem_erase] at hf
  obtain ⟨hf, hne⟩ := hf
  obtain ⟨hrow, hpath⟩ := hi f hf
  refine ⟨hrow.congr hd.keys ?_, hpath⟩
  rcases hd.disk with hsame | ⟨halone, hdisk⟩
  · exact hsame _
  · rw [hdisk, if_neg]
    intro heq
    obtain ⟨p, hp, hfp⟩ := hpath
    obtain ⟨-, q, hq, hfq⟩ := hi file (Table.find_mem hd.row)
    rw [hfp, hfq] at heq
    obtain rfl := hdist p hp q hq heq
    exact hne (halone f hf (hfp.trans hfq.symm))

/-- One successful upload or deletion keeps every row intact. -/
theorem step_intact (hdedup : sm.config.storage.enableDeduplication = true)
    (hdist : DistinctPlaces sm es) {e : Event} (he : e ∈ es)
    (hok : Succeeds e) (hclear : WritesClear sm w e) (ht : e.Transition sm w w')
    (hi : Intact sm es w) : Intact sm es w' := by
  cases e with
  | storeFile b k content ct opts x =>
    have hup : (b, k) ∈ uploads es := List.mem_filterMap.mpr ⟨_, he, rfl⟩
    cases storeFile_spec x w' ht with
    | rejected e hk => exact hi.kept hk
    | broken e => simp [Succeeds, Except.isOk, Except.toBool] at hok
    | identical file _ _ _ _ hk => exact hi.kept hk
    | aliased existing id now hmem _ hhash _ ha => exact hi.aliased hmem hhash ha
    | fresh processed enc id now hnew henc hw =>
      refine hi.fresh hup (hclear.resolve_left ?_) henc hw
      rintro ⟨f, hf, hhash⟩
      exact hnew hdedup f hf hhash
  | deleteFile b k x =>
    have hx := deleteFile_spec x w' ht
    cases x with
    | ok u =>
      obtain ⟨file, hd⟩ := hx
      exact hi.deleted hdist hd
    | error e => simp [Succeeds, Except.isOk, Except.toBool] at hok
  | _ => exact hok.elim

/-- With deduplication on, and with every fresh write clear of other rows' bytes, every
row stays intact through any run of successful uploads and deletions. -/
theorem rows_stay_intact (hdedup : sm.config.storage.enableDeduplication = true)
    (hempty : w.db.files = Table.empty) (hdist : DistinctPlaces sm es)
    (hrun : SystemRun sm (fun u e => Succeeds e ∧ WritesClear sm u e) w es w') :
    ∀ f ∈ w'.db.files, RowIntact sm w' f := by
  have hinit : Intact sm es w := by
    intro f hf
    rw [hempty] at hf
    exact absurd hf Table.not_mem_empty
  have hend := hrun.invariant hinit fun e he u v hu hg ht =>
    step_intact hdedup hdist he hg.1 hg.2 ht hu
  exact fun f hf => (hend f hf).1

/-! ## Two keys over the same bytes -/

open Sample (manager)

def upload (key : String) (content : Bytes) (id : Uuid) : Event × Choice :=
  (.storeFile "a" key content none {} (.error (.io "")), { uuid := id })

/-- The second key aliases the bytes of the first, which is then deleted. -/
def aliasThenDelete : List (Event × Choice) :=
  [upload "k1" [120] 1, upload "k2" [120] 2, (.deleteFile "a" "k1" (.error (.io "")), {})]

theorem rows_stay_intact_alias :
    DistinctPlaces manager (replay manager aliasThenDelete ([], World.empty)).1 ∧
      ∀ f ∈ (replay manager aliasThenDelete ([], World.empty)).2.db.files,
        RowIntact manager (replay manager aliasThenDelete ([], World.empty)).2 f :=
  have hdist : DistinctPlaces manager (replay manager aliasThenDelete ([], World.empty)).1 := by
    decide
  ⟨hdist, rows_stay_intact rfl rfl hdist (replay_run (.nil _) (by decide))⟩

/-- Bytes stored as they came are the content itself. -/
theorem RowIntact.plain {file : StoredFile} (hi : RowIntact sm w file)
    (hc : file.isCompressed = some false) (he : file.isEncrypted = some false) :
    ∃ content, sm.lib.blake3 content = file.hashBlake3 ∧
      w.bytesAt sm.host file.filePath = some content := by
  obtain ⟨content, bytes, hh, hb, opts, enc, hc', he', henc, -⟩ := hi
  simp only [he, Option.some.injEq] at he'
  subst he'
  simp only [hc, Option.some.injEq] at hc'
  have hbytes : bytes = (sm.compressStage opts content).1 := by
    unfold EncryptedAs at henc
    split at henc
    · exact absurd henc.1 (by simp)
    · exact henc.2
  exact ⟨content, hh, by rw [hb, hbytes, compressStage_unchanged hc'.symm]⟩

/-- The first key is uploaded again with other content while the second aliases its file. -/
def aliasThenOverwrite : List (Event × Choice) :=
  [upload "k1" [120] 1, upload "k2" [120] 2, upload "k1" [121] 3]

def overwritten : List Event × World := replay manager aliasThenOverwrite ([], World.empty)

/-- The alias's row still records the old hash, but its file holds the new bytes. -/
theorem overwrite_breaks_alias :
    manager.config.storage.enableDeduplication = true ∧
      Function.Injective manager.lib.blake3 ∧
      DistinctPlaces manager overwritten.1 ∧
      SystemRun manager (fun _ e => Succeeds e) World.empty overwritten.1 overwritten.2 ∧
      ∃ f ∈ overwritten.2.db.files, ¬ RowIntact manager overwritten.2 f := by
  refine ⟨rfl, Sample.blake3_injective, by decide, replay_run (.nil _) (by decide), ?_⟩
  have hrow : ∃ f ∈ overwritten.2.db.files.rows, f.isCompressed = some false ∧
      f.isEncrypted = some false ∧ f.hashBlake3 = Sample.blake3 [120] ∧
      overwritten.2.bytesAt manager.host f.filePath = some [121] := by decide
  obtain ⟨f, hf, hc, he, hhash, hbytes⟩ := hrow
  refine ⟨f, hf, fun hi => ?_⟩
  obtain ⟨content, hh, hb⟩ := hi.plain hc he
  have hcontent : content = [120] := Sample.blake3_injective (hh.trans hhash)
  rw [hbytes, hcontent] at hb
  exact absurd hb (by decide)

end LocalStorage.Proofs.SharedBytes
