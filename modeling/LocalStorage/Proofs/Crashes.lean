import LocalStorage.Crashes
import LocalStorage.Proofs.OneSource

namespace LocalStorage.Proofs.Crashes
open Lib Lib.Paths StorageManager OneSource

/-! # A killed call is a failing one -/

/-- Everything fails at once, and no time passes. -/
def stalled : Choice := { fault := some .noEntry }

/-- All but the cache is the same. -/
structure SameButCache (w w' : World) : Prop where
  db : w'.db = w.db
  fs : w'.fs = w.fs
  now : w'.now = w.now

variable {sm : StorageManager} {w w' t : World} {b k : String} {content : Bytes}
  {ct : Option String} {opts : StoreOptions}

theorem SameButCache.refl (w : World) : SameButCache w w := ⟨rfl, rfl, rfl⟩

theorem SameButCache.trans {u : World} (h : SameButCache w u) (h' : SameButCache u w') :
    SameButCache w w' :=
  ⟨h'.db.trans h.db, h'.fs.trans h.fs, h'.now.trans h.now⟩

theorem prune_none (fs : FileTree Name Bytes) (l : Loc) : fs.prune l (fun _ => false) = fs := by
  funext k
  simp [FileTree.prune]

theorem stalled_writeFileAtomic (h : Host) (path : String) (bytes : Bytes) (w : World) :
    (execWriteFileAtomic h stalled path bytes w).2 = w := by
  simp only [execWriteFileAtomic, stalled]
  cases createError w.fs (h.temp path) <;> rfl

theorem stalled_removeDirAll (h : Host) (path : String) (w : World) :
    (execRemoveDirAll h stalled path w).2 = w := by
  simp only [execRemoveDirAll, stalled, prune_none]
  cases w.fs.node (h.target path) with
  | none => rfl
  | some n => cases n <;> rfl

theorem stalled_step (h : Host) (a : Action) (w : World) :
    SameButCache w (exec h stalled a w).2 := by
  cases a with
  | writeFileAtomic path bytes =>
    simp only [exec, stalled_writeFileAtomic]
    exact SameButCache.refl w
  | removeDirAll path =>
    simp only [exec, stalled_removeDirAll]
    exact SameButCache.refl w
  | utcNow => exact ⟨rfl, rfl, Int.add_zero w.now⟩
  | _ => exact ⟨rfl, rfl, rfl⟩

/-- Wherever a call is stopped, the tables, the disk and the clock are those after a complete
run of the same program. -/
theorem stopped_fails {α : Type} {p : Op α} (h : p.Cut (exec sm.host) w t) :
    ∃ x u, p.Runs (exec sm.host) w x u ∧ SameButCache t u :=
  h.completes SameButCache.refl (fun _ _ _ => SameButCache.trans)
    fun a s => ⟨stalled, stalled_step sm.host a s⟩

/-- What a killed call leaves, some answer of the same call leaves too. -/
theorem Stopped.completes {e : Event} (h : e.Stopped sm w t) :
    ∃ e' u, e.SameCall e' ∧ e'.Transition sm w u ∧ SameButCache t u := by
  cases e with
  | storeFile b k content ct opts x =>
    obtain ⟨y, u, hrun, hsame⟩ := stopped_fails h
    exact ⟨.storeFile b k content ct opts y, u, .storeFile .., hrun, hsame⟩
  | getFile b k x =>
    obtain ⟨y, u, hrun, hsame⟩ := stopped_fails h
    exact ⟨.getFile b k y, u, .getFile .., hrun, hsame⟩
  | getFileRangeIfPlain b k start stop x =>
    obtain ⟨y, u, hrun, hsame⟩ := stopped_fails h
    exact ⟨.getFileRangeIfPlain b k start stop y, u, .getFileRangeIfPlain .., hrun, hsame⟩
  | getCompressedFileRange b k start stop x =>
    obtain ⟨y, u, hrun, hsame⟩ := stopped_fails h
    exact ⟨.getCompressedFileRange b k start stop y, u, .getCompressedFileRange .., hrun, hsame⟩
  | deleteFile b k x =>
    have hcut : (deleteFile b k).Cut (exec sm.host) w t := h
    obtain ⟨y, u, hrun, hsame⟩ := stopped_fails hcut
    exact ⟨.deleteFile b k y, u, .deleteFile .., hrun, hsame⟩
  | deleteBucket b x =>
    obtain ⟨y, u, hrun, hsame⟩ := stopped_fails h
    exact ⟨.deleteBucket b y, u, .deleteBucket .., hrun, hsame⟩
  | sweepExpiredFiles x =>
    have hcut : sweepExpiredFiles.Cut (exec sm.host) w t := h
    obtain ⟨y, u, hrun, hsame⟩ := stopped_fails hcut
    exact ⟨.sweepExpiredFiles y, u, .sweepExpiredFiles .., hrun, hsame⟩
  | evict gone =>
    obtain rfl : t = w := h
    exact ⟨.evict gone, _, .evict gone, rfl, ⟨rfl, rfl, rfl⟩⟩
  | tick elapsed =>
    obtain rfl : t = w := h
    exact ⟨.tick 0, _, .tick elapsed 0, rfl, ⟨rfl, rfl, Int.add_zero t.now⟩⟩

/-! ## Uploads -/

/-- Neither a row nor a byte outside the key's own two places has changed. -/
structure NotBegun (sm : StorageManager) (b k : String) (w t : World) : Prop where
  files : t.db.files = w.db.files
  disk : ∀ l, l ∉ sm.places b k → t.fs.fileAt l = w.fs.fileAt l

/-- The row is there, and with it the bytes it promises: those of an older row of the same
content, or the processed ones. -/
structure Complete (sm : StorageManager) (b k : String) (content : Bytes) (opts : StoreOptions)
    (w t : World) (file : StoredFile) : Prop where
  ident : file.ident = (b, k)
  hash : file.hashBlake3 = sm.lib.blake3 content
  expiry : file.expiresAt = opts.expiresAt
  files : t.db.files = w.db.files.put (Database.mergeRow (w.db.files.find (b, k)) file)
  bytes : (∃ existing ∈ w.db.files, existing.hashBlake3 = sm.lib.blake3 content ∧
      inherited file = inherited existing ∧ ∀ l, t.fs.fileAt l = w.fs.fileAt l) ∨
    ∃ processed enc, EncryptedAs sm w.db opts (sm.compressStage opts content).1 processed enc ∧
      file.filePath = sm.getFilePath b k ∧ t.bytesAt sm.host file.filePath = some processed ∧
      ∀ l, l ∉ sm.places b k → t.fs.fileAt l = w.fs.fileAt l

/-- An upload to an empty service after six of its steps. -/
def midUpload : World :=
  (Sample.manager.storeFile "b" "k" [120] none {}).after (exec Sample.host)
    (List.replicate 6 calm) World.empty

end LocalStorage.Proofs.Crashes
