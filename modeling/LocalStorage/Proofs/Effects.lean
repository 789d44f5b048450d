import LocalStorage.Proofs.Statements
import LocalStorage.Proofs.Reading
import LocalStorage.Lib.Interleave

namespace LocalStorage
open Lib Lib.Paths StorageManager

namespace Action

/-! ## Which steps touch what -/

def writesFile : Action → Bool
  | writeFileAtomic _ _ => true
  | removeFile _ => true
  | removeDirAll _ => true
  | _ => false

/-- The access counters are written apart from the rest of a row. -/
def writesRow : Action → Bool
  | upsertFile _ => true
  | deleteFileRow _ _ => true
  | deleteBucketRow _ => true
  | _ => false

def countsAccess : Action → Bool
  | updateAccess _ => true
  | _ => false

def writesMetadata : Action → Bool
  | setFileMetadata _ _ _ => true
  | invalidateFile _ _ => true
  | _ => false

/-- Oversized content is not written. -/
def writesContent : Action → Bool
  | setFileContent _ _ x => x.length ≤ Cache.maxCacheSize
  | invalidateFile _ _ => true
  | _ => false

/-! ## What a step does to tables and cache -/

/-- The statement behind the step accepts `db` and leaves `db'`. -/
def Accepted (now : Time) (db db' : Database) : Action → Prop
  | insertBucket name => db.insertBucket name = .ok db'
  | deleteBucketRow name => db.deleteBucketRow name = some db'
  | upsertFile f => db.upsertFile f = .ok db'
  | updateAccess id => db.updateAccess id now = .ok db'
  | deleteFileRow b k => db.deleteFileRow b k = .ok db'
  | _ => False

def onCache (c : Cache) : Action → Cache
  | setFileMetadata b k f => c.setFileMetadata b k f
  | setFileContent b k x => c.setFileContent b k x
  | invalidateFile b k => c.invalidateFile b k
  | _ => c

end Action

section Inversion
variable {h : Host} {w w' : World} {st : Taken Response}

theorem statement_world {c : Choice} {x : Except DbError Database} :
    (statement c w x).2 = w ∨ ∃ db, x = .ok db ∧ (statement c w x).2 = { w with db := db } := by
  unfold statement
  cases c.fault with
  | some e => exact .inl rfl
  | none =>
    cases x with
    | ok db => exact .inr ⟨db, rfl, rfl⟩
    | error e => exact .inl rfl

@[simp] theorem statement_cache {c : Choice} {x : Except DbError Database} :
    (statement c w x).2.cache = w.cache := by
  rcases statement_world (c := c) (w := w) (x := x) with h | ⟨db, -, h⟩ <;> rw [h]

@[simp] theorem statement_fs {c : Choice} {x : Except DbError Database} :
    (statement c w x).2.fs = w.fs := by
  rcases statement_world (c := c) (w := w) (x := x) with h | ⟨db, -, h⟩ <;> rw [h]

/-- Disk operations touch the disk only. -/
theorem exec_onDisk {c : Choice} {a : Action}
    (ha : (∃ p, a = .createDirAll p) ∨ a.writesFile = true) :
    ∃ fs, (exec h c a w).2 = { w with fs := fs } := by
  rcases ha with ⟨p, rfl⟩ | ha
  · simp only [exec, execCreateDirAll]
    repeat' split
    all_goals exact ⟨_, rfl⟩
  · cases a with
    | writeFileAtomic p x =>
      simp only [exec, execWriteFileAtomic]
      repeat' split
      all_goals exact ⟨_, rfl⟩
    | removeFile p =>
      simp only [exec, execRemoveFile]
      repeat' split
      all_goals exact ⟨_, rfl⟩
    | removeDirAll p =>
      simp only [exec, execRemoveDirAll]
      repeat' split
      all_goals exact ⟨_, rfl⟩
    | _ => simp [Action.writesFile] at ha

theorem takes_cache (ht : Takes (exec h) w st w') : w'.cache = st.1.onCache w.cache := by
  obtain ⟨c, hc⟩ := ht
  suffices hcache : (exec h c st.1 w).2.cache = st.1.onCache w.cache by rwa [hc] at hcache
  obtain ⟨a, r⟩ := st
  have hdisk : (∃ p, a = .createDirAll p) ∨ a.writesFile = true →
      (exec h c a w).2.cache = w.cache := by
    intro ha
    obtain ⟨fs, hfs⟩ := exec_onDisk (h := h) (w := w) (c := c) ha
    rw [hfs]
  cases a with
  | createDirAll p => exact hdisk (.inl ⟨p, rfl⟩)
  | writeFileAtomic p x => exact hdisk (.inr rfl)
  | removeFile p => exact hdisk (.inr rfl)
  | removeDirAll p => exact hdisk (.inr rfl)
  | deleteBucketRow b =>
    simp only [exec, Action.onCache]
    split <;> rfl
  | _ => simp [exec, Action.onCache]

theorem takes_db (ht : Takes (exec h) w st w') :
    w'.db = w.db ∨ st.1.Accepted w.now w.db w'.db := by
  obtain ⟨c, hc⟩ := ht
  suffices hdb : (exec h c st.1 w).2.db = w.db ∨
      st.1.Accepted w.now w.db (exec h c st.1 w).2.db by rwa [hc] at hdb
  obtain ⟨a, r⟩ := st
  have hdisk : (∃ p, a = .createDirAll p) ∨ a.writesFile = true →
      (exec h c a w).2.db = w.db := by
    intro ha
    obtain ⟨fs, hfs⟩ := exec_onDisk (h := h) (w := w) (c := c) ha
    rw [hfs]
  have hstatement : ∀ x : Except DbError Database, (statement c w x).2.db = w.db ∨
      x = .ok (statement c w x).2.db := by
    intro x
    rcases statement_world (c := c) (w := w) (x := x) with hw | ⟨db, hx, hw⟩
    · exact .inl (by rw [hw])
    · exact .inr (by rw [hw, hx])
  cases a with
  | createDirAll p => exact .inl (hdisk (.inl ⟨p, rfl⟩))
  | writeFileAtomic p x => exact .inl (hdisk (.inr rfl))
  | removeFile p => exact .inl (hdisk (.inr rfl))
  | removeDirAll p => exact .inl (hdisk (.inr rfl))
  | deleteBucketRow b =>
    simp only [exec, Action.Accepted]
    split
    · exact .inl rfl
    · rename_i db hdb
      exact .inr hdb
    · exact .inl rfl
  | insertBucket b => exact hstatement _
  | upsertFile f => exact hstatement _
  | updateAccess id => exact hstatement _
  | deleteFileRow b k => exact hstatement _
  | _ => exact .inl rfl

/-- The clock does not go back. -/
theorem takes_now (ht : Takes (exec h) w st w') : w.now ≤ w'.now := by
  obtain ⟨c, hc⟩ := ht
  suffices hnow : w.now ≤ (exec h c st.1 w).2.now by rwa [hc] at hnow
  obtain ⟨a, r⟩ := st
  have hdisk : (∃ p, a = .createDirAll p) ∨ a.writesFile = true →
      w.now ≤ (exec h c a w).2.now := by
    intro ha
    obtain ⟨fs, hfs⟩ := exec_onDisk (h := h) (w := w) (c := c) ha
    rw [hfs]
  have hstatement : ∀ x : Except DbError Database, w.now ≤ (statement c w x).2.now := by
    intro x
    rcases statement_world (c := c) (w := w) (x := x) with hw | ⟨db, -, hw⟩ <;> rw [hw]
  cases a with
  | createDirAll p => exact hdisk (.inl ⟨p, rfl⟩)
  | writeFileAtomic p x => exact hdisk (.inr rfl)
  | removeFile p => exact hdisk (.inr rfl)
  | removeDirAll p => exact hdisk (.inr rfl)
  | deleteBucketRow b =>
    simp only [exec]
    split <;> exact Int.le_refl _
  | insertBucket b => exact hstatement _
  | upsertFile f => exact hstatement _
  | updateAccess id => exact hstatement _
  | deleteFileRow b k => exact hstatement _
  | utcNow => exact Int.le.intro c.elapsed rfl
  | _ => exact Int.le_refl _

theorem takes_fileAt (ht : Takes (exec h) w st w') (ha : st.1.writesFile = false) (l : Loc) :
    w'.fs.fileAt l = w.fs.fileAt l := by
  obtain ⟨c, hc⟩ := ht
  suffices hfs : (exec h c st.1 w).2.fs.fileAt l = w.fs.fileAt l by rwa [hc] at hfs
  obtain ⟨a, r⟩ := st
  cases a with
  | writeFileAtomic p x => simp [Action.writesFile] at ha
  | removeFile p => simp [Action.writesFile] at ha
  | removeDirAll p => simp [Action.writesFile] at ha
  | createDirAll p =>
    simp only [exec, execCreateDirAll]
    cases c.fault with
    | some e => exact FileTree.fileAt_mkdirs _ l
    | none =>
      have hkeep := FileTree.fileAt_mkdirs (t := w.fs) (p.passed h.cwd) l
      dsimp only
      split <;> rename_i hm <;> simpa [hm] using hkeep
  | deleteBucketRow b =>
    simp only [exec]
    split <;> rfl
  | _ => simp [exec]

end Inversion

/-! ## Frames -/

section Frames
variable {h : Host} {w w' : World} {st : Taken Response}

theorem takes_bytesAt (ht : Takes (exec h) w st w') (ha : st.1.writesFile = false) (p : String) :
    w'.bytesAt h p = w.bytesAt h p :=
  World.bytesAt_congr (takes_fileAt ht ha _)

theorem takes_encryptionKeys (ht : Takes (exec h) w st w') :
    w'.db.encryptionKeys = w.db.encryptionKeys := by
  obtain ⟨a, r⟩ := st
  rcases takes_db ht with hdb | hdb
  · rw [hdb]
  · cases a with
    | insertBucket b => exact (Database.insertBucket_ok hdb).2.1
    | deleteBucketRow b => exact (Database.deleteBucketRow_some hdb).2.2
    | upsertFile f => exact (Database.upsertFile_ok hdb).2.2
    | updateAccess id => exact (Database.updateAccess_ok hdb).2.2
    | deleteFileRow b k => exact (Database.deleteFileRow_ok hdb).2.2
    | _ => exact hdb.elim

/-- What counting an access leaves of a row only changes with the row. -/
theorem takes_row {β : Type} {g : StoredFile → β} (hg : ∀ id now f, g (Database.touch id now f) = g f)
    (ht : Takes (exec h) w st w') (ha : st.1.writesRow = false) (b k : String) :
    (w'.db.files.find (b, k)).map g = (w.db.files.find (b, k)).map g := by
  obtain ⟨a, r⟩ := st
  rcases takes_db ht with hdb | hdb
  · rw [hdb]
  · cases a with
    | insertBucket b => rw [(Database.insertBucket_ok hdb).1]
    | deleteBucketRow b => simp [Action.writesRow] at ha
    | upsertFile f => simp [Action.writesRow] at ha
    | deleteFileRow b k => simp [Action.writesRow] at ha
    | updateAccess id =>
      rcases (Database.updateAccess_ok hdb).1 with hf | hf
      · rw [hf]
      · rw [hf, Table.find_update, Option.map_map]
        congr 1
        funext f
        exact hg id w.now f
    | _ => exact hdb.elim

theorem takes_recipe (ht : Takes (exec h) w st w') (ha : st.1.writesRow = false) (b k : String) :
    (w'.db.files.find (b, k)).map recipe = (w.db.files.find (b, k)).map recipe :=
  takes_row recipe_touch ht ha b k

theorem takes_files (ht : Takes (exec h) w st w') (ha : st.1.writesRow = false)
    (hc : st.1.countsAccess = false) : w'.db.files = w.db.files := by
  obtain ⟨a, r⟩ := st
  rcases takes_db ht with hdb | hdb
  · rw [hdb]
  · cases a with
    | insertBucket b => exact (Database.insertBucket_ok hdb).1
    | deleteBucketRow b => simp [Action.writesRow] at ha
    | upsertFile f => simp [Action.writesRow] at ha
    | deleteFileRow b k => simp [Action.writesRow] at ha
    | updateAccess id => simp [Action.countsAccess] at hc
    | _ => exact hdb.elim

/-- A step that inserts no row and counts no access only removes rows. -/
theorem takes_files_subset (ht : Takes (exec h) w st w') (ha : ∀ f, st.1 ≠ .upsertFile f)
    (hc : st.1.countsAccess = false) {f : StoredFile} (hf : f ∈ w'.db.files) : f ∈ w.db.files := by
  obtain ⟨a, r⟩ := st
  cases a with
  | upsertFile g => exact absurd rfl (ha g)
  | deleteBucketRow b =>
    rcases takes_db ht with hdb | hdb
    · rwa [← hdb]
    · rw [(Database.deleteBucketRow_some hdb).2.1] at hf
      exact (Table.mem_filter.mp hf).1
  | deleteFileRow b k =>
    rcases takes_db ht with hdb | hdb
    · rwa [← hdb]
    · rw [(Database.deleteFileRow_ok hdb).1] at hf
      exact (Table.mem_erase.mp hf).1
  | _ => rwa [← takes_files ht rfl hc]

/-- What is true of every row and does not depend on the access counters stays true when the row
that is saved has it. -/
theorem takes_rows {P : StoredFile → Prop} (ht : Takes (exec h) w st w')
    (htouch : ∀ id now f, P f → P (Database.touch id now f))
    (hsaved : ∀ f, st.1 = .upsertFile f → P (Database.mergeRow (w.db.files.find f.ident) f))
    (hw : ∀ f ∈ w.db.files, P f) : ∀ f ∈ w'.db.files, P f := by
  intro f hf
  obtain ⟨a, r⟩ := st
  cases hcounts : a.countsAccess with
  | true =>
    cases a with
    | updateAccess id =>
      rcases takes_db ht with hdb | hdb
      · exact hw f (hdb ▸ hf)
      · rcases (Database.updateAccess_ok hdb).1 with hfiles | hfiles
        · exact hw f (hfiles ▸ hf)
        · rw [hfiles] at hf
          obtain ⟨g, hg, rfl⟩ := Table.mem_update.mp hf
          exact htouch id w.now g (hw g hg)
    | _ => simp [Action.countsAccess] at hcounts
  | false =>
    by_cases hsaves : ∃ g, a = .upsertFile g
    · obtain ⟨g, rfl⟩ := hsaves
      rcases takes_db ht with hdb | hdb
      · exact hw f (hdb ▸ hf)
      · rw [(Database.upsertFile_ok hdb).1] at hf
        obtain rfl | ⟨hf, -⟩ := Table.mem_put.mp hf
        · exact hsaved g rfl
        · exact hw f hf
    · exact hw f (takes_files_subset ht (fun g hg => hsaves ⟨g, hg⟩) hcounts hf)

theorem takes_getFileMetadata (ht : Takes (exec h) w st w') (ha : st.1.writesMetadata = false)
    (b k : String) : w'.cache.getFileMetadata b k = w.cache.getFileMetadata b k := by
  obtain ⟨a, r⟩ := st
  rw [takes_cache ht]
  cases a with
  | setFileMetadata b k f => simp [Action.writesMetadata] at ha
  | invalidateFile b k => simp [Action.writesMetadata] at ha
  | setFileContent b k x => exact Cache.getFileMetadata_setFileContent b k x _ _
  | _ => rfl

theorem takes_getFileContent (ht : Takes (exec h) w st w') (ha : st.1.writesContent = false)
    (b k : String) : w'.cache.getFileContent b k = w.cache.getFileContent b k := by
  obtain ⟨a, r⟩ := st
  rw [takes_cache ht]
  cases a with
  | setFileContent b k x =>
    simp only [Action.writesContent, decide_eq_false_iff_not, Nat.not_le] at ha
    simp only [Action.onCache, Cache.setFileContent_large ha]
  | invalidateFile b k => simp [Action.writesContent] at ha
  | _ => rfl

end Frames

/-! ## Answers -/

section Answers
variable {h : Host} {w w' : World} {b k p : String}

theorem answer_eq_ok {α : Type} {c : Choice} {x y : α} (hx : answer c x = .ok y) : y = x := by
  unfold answer at hx
  split at hx
  · simp at hx
  · simpa using hx.symm

theorem statement_eq_ok {c : Choice} {x : Except DbError Database}
    (hx : statement c w x = (.ok (), w')) : ∃ db, x = .ok db ∧ w' = { w with db := db } := by
  unfold statement at hx
  cases hc : c.fault with
  | some e => simp [hc] at hx
  | none =>
    cases x with
    | ok db =>
      simp only [hc, Prod.mk.injEq, true_and] at hx
      exact ⟨db, rfl, hx.symm⟩
    | error e => simp [hc] at hx

theorem statement_eq_error {c : Choice} {x : Except DbError Database} {e : SqlxError}
    (hx : statement c w x = (.error e, w')) : w' = w := by
  unfold statement at hx
  repeat' split at hx
  all_goals
    simp only [Prod.mk.injEq] at hx
    obtain ⟨hr, rfl⟩ := hx
    simp at hr ⊢

theorem takes_selectFile {r : Option StoredFile}
    (ht : Takes (exec h) w ⟨.selectFile b k, (.ok r : Query (Option StoredFile))⟩ w') :
    r = w.db.selectFile b k := by
  obtain ⟨c, hc⟩ := ht
  exact answer_eq_ok (congrArg Prod.fst hc)

theorem takes_selectKey {r : Option EncryptionKey}
    (ht : Takes (exec h) w ⟨.selectKey k, (.ok r : Query (Option EncryptionKey))⟩ w') :
    r = w.db.selectKey k := by
  obtain ⟨c, hc⟩ := ht
  exact answer_eq_ok (congrArg Prod.fst hc)

theorem takes_upsertFile {f : StoredFile}
    (ht : Takes (exec h) w ⟨.upsertFile f, (.ok () : Query Unit)⟩ w') :
    w'.db.files.find f.ident = some (Database.mergeRow (w.db.files.find f.ident) f) := by
  obtain ⟨c, hc⟩ := ht
  obtain ⟨db, hdb, rfl⟩ := statement_eq_ok hc
  rw [(Database.upsertFile_ok hdb).1]
  simpa using Table.find_put_self (t := w.db.files)
    (r := Database.mergeRow (w.db.files.find f.ident) f)

theorem takes_deleteFileRow
    (ht : Takes (exec h) w ⟨.deleteFileRow b k, (.ok () : Query Unit)⟩ w') :
    w'.db.files.find (b, k) = none := by
  obtain ⟨c, hc⟩ := ht
  obtain ⟨db, hdb, rfl⟩ := statement_eq_ok hc
  rw [(Database.deleteFileRow_ok hdb).1]
  exact Table.find_erase_self

theorem takes_selectFilePath {r : Option String}
    (ht : Takes (exec h) w ⟨.selectFilePath b k, (.ok r : Query (Option String))⟩ w') :
    r = (w.db.selectFile b k).map (·.filePath) := by
  obtain ⟨c, hc⟩ := ht
  exact answer_eq_ok (congrArg Prod.fst hc)

/-- Whatever row a deletion takes, no row appears. -/
theorem takes_deleteFileRow_none {b' k' : String} {r : Query Unit}
    (ht : Takes (exec h) w ⟨.deleteFileRow b' k', r⟩ w') (hn : w.db.files.find (b, k) = none) :
    w'.db.files.find (b, k) = none := by
  rcases takes_db ht with hdb | hdb
  · rw [hdb, hn]
  · rw [(Database.deleteFileRow_ok hdb).1]
    by_cases hbk : (b, k) = (b', k')
    · rw [hbk]
      exact Table.find_erase_self
    · rw [Table.find_erase_ne hbk, hn]

theorem takes_removeFile_world {r : Except IoError Unit}
    (ht : Takes (exec h) w ⟨.removeFile p, r⟩ w') :
    w' = w ∧ r ≠ .ok () ∨ w' = { w with fs := w.fs.erase (h.target p) } := by
  obtain ⟨c, hc⟩ := ht
  simp only [exec, execRemoveFile] at hc
  repeat' split at hc
  all_goals
    simp only [Prod.mk.injEq] at hc
    obtain ⟨rfl, rfl⟩ := hc
    simp

theorem takes_removeFile
    (ht : Takes (exec h) w ⟨.removeFile p, (.ok () : Except IoError Unit)⟩ w') :
    w'.bytesAt h p = none := by
  rcases takes_removeFile_world ht with ⟨-, hr⟩ | rfl
  · exact absurd rfl hr
  · simp [World.bytesAt, FileTree.fileAt_erase_self]

/-- Whatever file a removal takes, no file appears. -/
theorem takes_removeFile_none {p' : String} {r : Except IoError Unit}
    (ht : Takes (exec h) w ⟨.removeFile p', r⟩ w') (hn : w.bytesAt h p = none) :
    w'.bytesAt h p = none := by
  rcases takes_removeFile_world ht with ⟨rfl, -⟩ | rfl
  · exact hn
  · by_cases hp : h.target p = h.target p'
    · simp [World.bytesAt, hp, FileTree.fileAt_erase_self]
    · rw [← hn]
      exact World.bytesAt_congr (FileTree.fileAt_erase_ne hp)

theorem takes_removeFile_error {e : IoError}
    (ht : Takes (exec h) w ⟨.removeFile p, (.error e : Except IoError Unit)⟩ w') : w' = w := by
  obtain ⟨c, hc⟩ := ht
  simp only [exec, execRemoveFile] at hc
  repeat' split at hc
  all_goals
    simp only [Prod.mk.injEq] at hc
    obtain ⟨hr, rfl⟩ := hc
    simp at hr ⊢

theorem takes_removeFile_ne {p' : String} {r : Except IoError Unit}
    (ht : Takes (exec h) w ⟨.removeFile p', r⟩ w') (hp : h.target p' ≠ h.target p) :
    w'.bytesAt h p = w.bytesAt h p := by
  rcases takes_removeFile_world ht with ⟨rfl, -⟩ | rfl
  · rfl
  · exact World.bytesAt_congr (FileTree.fileAt_erase_ne (Ne.symm hp))

theorem takes_deleteFileRow_error {e : SqlxError}
    (ht : Takes (exec h) w ⟨.deleteFileRow b k, (.error e : Query Unit)⟩ w') : w' = w := by
  obtain ⟨c, hc⟩ := ht
  exact statement_eq_error hc

theorem takes_upsertFile_error {f : StoredFile} {e : SqlxError}
    (ht : Takes (exec h) w ⟨.upsertFile f, (.error e : Query Unit)⟩ w') : w' = w := by
  obtain ⟨c, hc⟩ := ht
  exact statement_eq_error hc

theorem takes_countOtherReferences {n : Nat}
    (ht : Takes (exec h) w ⟨.countOtherReferences p b k, (.ok n : Query Nat)⟩ w') :
    n = w.db.countOtherReferences p b k := by
  obtain ⟨c, hc⟩ := ht
  exact answer_eq_ok (congrArg Prod.fst hc)

theorem takes_selectFileByHash {hash : String} {f : StoredFile}
    (ht : Takes (exec h) w
      ⟨.selectFileByHash hash, (.ok (some f) : Query (Option StoredFile))⟩ w') :
    f ∈ w.db.files ∧ f.hashBlake3 = hash := by
  obtain ⟨c, hc⟩ := ht
  have hf : some f = w.db.selectFileByHash hash c.rank := answer_eq_ok (congrArg Prod.fst hc)
  exact Database.selectFileByHash_some hf.symm

/-- An upsert touches the row of its own key only. -/
theorem takes_upsertFile_ne {f : StoredFile} {r : Query Unit}
    (ht : Takes (exec h) w ⟨.upsertFile f, r⟩ w') (hne : (b, k) ≠ f.ident) :
    w'.db.files.find (b, k) = w.db.files.find (b, k) := by
  rcases takes_db ht with hdb | hdb
  · rw [hdb]
  · rw [(Database.upsertFile_ok hdb).1]
    apply Table.find_put_ne
    rwa [Database.mergeRow_ident]

theorem takes_deleteFileRow_ne {b' k' : String} {r : Query Unit}
    (ht : Takes (exec h) w ⟨.deleteFileRow b' k', r⟩ w') (hne : (b, k) ≠ (b', k')) :
    w'.db.files.find (b, k) = w.db.files.find (b, k) := by
  rcases takes_db ht with hdb | hdb
  · rw [hdb]
  · rw [(Database.deleteFileRow_ok hdb).1]
    exact Table.find_erase_ne hne

/-- Whatever a removal of a directory takes, no file appears, and none outside is lost. -/
theorem takes_removeDirAll {d : String} {r : Except IoError Unit}
    (ht : Takes (exec h) w ⟨.removeDirAll d, r⟩ w') :
    (w.bytesAt h p = none → w'.bytesAt h p = none) ∧
      (¬ h.target d <+: h.target p → w'.bytesAt h p = w.bytesAt h p) ∧
      (r = .ok () → h.target d <+: h.target p → w'.bytesAt h p = none) := by
  have hprune : ∀ gone : Loc → Bool,
      (w.fs.prune (h.target d) gone).fileAt (h.target p) = w.fs.fileAt (h.target p) ∨
        (w.fs.prune (h.target d) gone).fileAt (h.target p) = none := by
    intro gone
    by_cases hp : h.target d <+: h.target p ∧ gone (h.target p) = true
    · exact .inr (FileTree.fileAt_prune_of hp.1 hp.2)
    · exact .inl (FileTree.fileAt_prune_of_not hp)
  have hnone : ∀ gone, w.bytesAt h p = none →
      ({ w with fs := w.fs.prune (h.target d) gone } : World).bytesAt h p = none := by
    intro gone hn
    rcases hprune gone with hs | hs
    · exact (World.bytesAt_congr hs).trans hn
    · simp [World.bytesAt, hs]
  obtain ⟨c, hc⟩ := ht
  simp only [exec, execRemoveDirAll] at hc
  repeat' split at hc
  all_goals
    simp only [Prod.mk.injEq] at hc
    obtain ⟨hr, rfl⟩ := hc
    subst hr
  · simp
  · simp
  · exact ⟨hnone _, fun hp => World.bytesAt_congr (FileTree.fileAt_prune_of_not fun hg => hp hg.1),
      by simp⟩
  · refine ⟨hnone _, fun hp => World.bytesAt_congr (FileTree.fileAt_prune_of_not fun hg => hp hg.1),
      fun _ hp => ?_⟩
    simp [World.bytesAt, FileTree.fileAt_prune_of hp]

theorem takes_utcNow {now : Time} (ht : Takes (exec h) w ⟨.utcNow, now⟩ w') : w'.now = now := by
  obtain ⟨c, hc⟩ := ht
  simp only [exec, Prod.mk.injEq] at hc
  rw [← hc.1, ← hc.2]

theorem takes_selectExpired {files : List (String × String)}
    (ht : Takes (exec h) w ⟨.selectExpired, (.ok files : Query (List (String × String)))⟩ w') :
    ∃ rank, files = w.db.selectExpired w.now rank := by
  obtain ⟨c, hc⟩ := ht
  exact ⟨c.rank, answer_eq_ok (congrArg Prod.fst hc)⟩

theorem takes_selectBucketFiles {files : List (String × String)}
    (ht : Takes (exec h) w
      ⟨.selectBucketFiles b, (.ok files : Query (List (String × String)))⟩ w') :
    ∃ rank, files = w.db.selectBucketFiles b rank := by
  obtain ⟨c, hc⟩ := ht
  exact ⟨c.rank, answer_eq_ok (congrArg Prod.fst hc)⟩

/-- A bucket row that is deleted takes the bucket's rows along. -/
theorem takes_deleteBucketRow {n : Nat} (hn : n ≠ 0)
    (ht : Takes (exec h) w ⟨.deleteBucketRow b, (.ok n : Query Nat)⟩ w') :
    w'.db.files.find (b, k) = none := by
  obtain ⟨c, hc⟩ := ht
  simp only [exec] at hc
  split at hc
  · simp at hc
  · rename_i db _ hdb
    simp only [Prod.mk.injEq] at hc
    obtain ⟨-, rfl⟩ := hc
    rw [(Database.deleteBucketRow_some hdb).2.1]
    apply Table.find_filter_not
    intro f _ hf
    simp only [StoredFile.ident, Prod.mk.injEq] at hf
    simp [hf.1]
  · simp only [Prod.mk.injEq, Except.ok.injEq] at hc
    exact absurd hc.1.symm hn

theorem takes_cached {r : Result (Option StoredFile)}
    (ht : Takes (exec h) w ⟨.getFileMetadata b k, r⟩ w') : r = .ok (w.cache.getFileMetadata b k) := by
  obtain ⟨c, hc⟩ := ht
  exact (congrArg Prod.fst hc).symm

theorem takes_cachedContent {r : Result (Option Bytes)}
    (ht : Takes (exec h) w ⟨.getFileContent b k, r⟩ w') : r = .ok (w.cache.getFileContent b k) := by
  obtain ⟨c, hc⟩ := ht
  exact (congrArg Prod.fst hc).symm

theorem takes_readFile {x : Bytes}
    (ht : Takes (exec h) w ⟨.readFile p, (.ok x : Except IoError Bytes)⟩ w') :
    w.bytesAt h p = some x := by
  obtain ⟨c, hc⟩ := ht
  exact execReadFile_ok (congrArg Prod.fst hc)

theorem takes_writeFileAtomic {x : Bytes}
    (ht : Takes (exec h) w ⟨.writeFileAtomic p x, (.ok () : Except IoError Unit)⟩ w') :
    w'.bytesAt h p = some x := by
  obtain ⟨c, hc⟩ := ht
  have hrun : (Prog.act (.writeFileAtomic p x) (fun r => (ofIo r).bind fun _ => .ret ()) :
      Op Unit).Runs (exec h) w (.ok ()) w' := by
    refine ⟨c, ?_⟩
    rw [show (exec h c (.writeFileAtomic p x) w) = (.ok (), w') from hc]
    exact ⟨rfl, rfl⟩
  have hwrite : (Prog.act (.writeFileAtomic p x) (fun r => (ofIo r).bind fun _ => .ret ()) :
      Op Unit).Ensures (exec h) (fun y t => y = .ok () → t.bytesAt h p = some x) w := by
    refine ensures_writeFileAtomic (fun hn hp => ?_) (by simp)
    simp [World.bytesAt, hn, afterWrite, FileTree.fileAt_putFile_self hp]
  exact hwrite _ _ hrun rfl

end Answers

end LocalStorage
