import LocalStorage.Storage

namespace LocalStorage
open Lib Lib.Paths

/-! # What one step can do

A rule for each action: what must hold after every answer the environment can give.
`herr` covers the answers that end the program. -/

@[simp] theorem ofSqlx_ok {β : Type} (x : β) : (ofSqlx (.ok x) : Op β) = .ret x := rfl
@[simp] theorem ofSqlx_error {β : Type} (e : SqlxError) :
    (ofSqlx (.error e) : Op β) = .fail (.ofSqlx e) := rfl
@[simp] theorem ofIo_ok {β : Type} (x : β) : (ofIo (.ok x) : Op β) = .ret x := rfl
@[simp] theorem ofIo_error {β : Type} (e : IoError) :
    (ofIo (.error e) : Op β) = .fail (.ofIo e) := rfl

section Queries
variable {h : Host} {w : World} {α β : Type} {Q : Except StorageError α → World → Prop}

theorem ensures_answer {c : Choice} {x : β} {f : β → Op α} (hok : (f x).Ensures (exec h) Q w)
    (herr : ∀ e, Q (.error e) w) :
    (Prog.bind (ofSqlx (answer c x)) f).Ensures (exec h) Q w := by
  unfold answer
  cases c.fault <;> simp [hok, herr]

/-- A statement is rejected or lost and changes nothing, or takes effect. -/
theorem ensures_statement {c : Choice} {x : Except DbError Database} {f : Query Unit → Op α}
    (hok : ∀ db, x = .ok db → (f (.ok ())).Ensures (exec h) Q { w with db := db })
    (herr : ∀ e, (f (.error e)).Ensures (exec h) Q w) :
    (f (statement c w x).1).Ensures (exec h) Q (statement c w x).2 := by
  unfold statement
  cases c.fault with
  | some e => exact herr _
  | none =>
    cases x with
    | ok db => exact hok db rfl
    | error e => exact herr _

variable {b k : String} (herr : ∀ e, Q (.error e) w)
include herr

theorem ensures_bucketExists {f : Bool → Op α}
    (hok : (f (w.db.bucketExists b)).Ensures (exec h) Q w) :
    (Prog.act (.bucketExists b) (fun r => (ofSqlx r).bind f)).Ensures (exec h) Q w :=
  Prog.ensures_act.mpr fun _ => ensures_answer hok herr

theorem ensures_insertBucket {f : Unit → Op α}
    (hok : ∀ db, w.db.insertBucket b = .ok db → (f ()).Ensures (exec h) Q { w with db := db }) :
    (Prog.act (.insertBucket b) (fun r => (ofSqlx r).bind f)).Ensures (exec h) Q w :=
  Prog.ensures_act.mpr fun _ =>
    ensures_statement (f := fun r => (ofSqlx r).bind f) hok (fun e => by simp [herr])

theorem ensures_selectFile {f : Option StoredFile → Op α}
    (hok : (f (w.db.selectFile b k)).Ensures (exec h) Q w) :
    (Prog.act (.selectFile b k) (fun r => (ofSqlx r).bind f)).Ensures (exec h) Q w :=
  Prog.ensures_act.mpr fun _ => ensures_answer hok herr

theorem ensures_selectFileByHash {hash : String} {f : Option StoredFile → Op α}
    (hok : ∀ rank, (f (w.db.selectFileByHash hash rank)).Ensures (exec h) Q w) :
    (Prog.act (.selectFileByHash hash) (fun r => (ofSqlx r).bind f)).Ensures (exec h) Q w :=
  Prog.ensures_act.mpr fun c => ensures_answer (hok c.rank) herr

theorem ensures_selectFilePath {f : Option String → Op α}
    (hok : (f ((w.db.selectFile b k).map (·.filePath))).Ensures (exec h) Q w) :
    (Prog.act (.selectFilePath b k) (fun r => (ofSqlx r).bind f)).Ensures (exec h) Q w :=
  Prog.ensures_act.mpr fun _ => ensures_answer hok herr

theorem ensures_countOtherReferences {p : String} {f : Nat → Op α}
    (hok : (f (w.db.countOtherReferences p b k)).Ensures (exec h) Q w) :
    (Prog.act (.countOtherReferences p b k) (fun r => (ofSqlx r).bind f)).Ensures (exec h) Q w :=
  Prog.ensures_act.mpr fun _ => ensures_answer hok herr

theorem ensures_deleteFileRow {f : Unit → Op α}
    (hok : ∀ db, w.db.deleteFileRow b k = .ok db → (f ()).Ensures (exec h) Q { w with db := db }) :
    (Prog.act (.deleteFileRow b k) (fun r => (ofSqlx r).bind f)).Ensures (exec h) Q w :=
  Prog.ensures_act.mpr fun _ =>
    ensures_statement (f := fun r => (ofSqlx r).bind f) hok (fun e => by simp [herr])

theorem ensures_selectBucketFiles {f : List (String × String) → Op α}
    (hok : ∀ rank, (f (w.db.selectBucketFiles b rank)).Ensures (exec h) Q w) :
    (Prog.act (.selectBucketFiles b) (fun r => (ofSqlx r).bind f)).Ensures (exec h) Q w :=
  Prog.ensures_act.mpr fun c => ensures_answer (hok c.rank) herr

theorem ensures_selectExpired {f : List (String × String) → Op α}
    (hok : ∀ rank, (f (w.db.selectExpired w.now rank)).Ensures (exec h) Q w) :
    (Prog.act .selectExpired (fun r => (ofSqlx r).bind f)).Ensures (exec h) Q w :=
  Prog.ensures_act.mpr fun c => ensures_answer (hok c.rank) herr

theorem ensures_selectKey {f : Option EncryptionKey → Op α}
    (hok : (f (w.db.selectKey k)).Ensures (exec h) Q w) :
    (Prog.act (.selectKey k) (fun r => (ofSqlx r).bind f)).Ensures (exec h) Q w :=
  Prog.ensures_act.mpr fun _ => ensures_answer hok herr

theorem ensures_deleteBucketRow {f : Nat → Op α} (hnone : (f 0).Ensures (exec h) Q w)
    (hsome : ∀ db, w.db.deleteBucketRow b = some db →
      (f 1).Ensures (exec h) Q { w with db := db }) :
    (Prog.act (.deleteBucketRow b) (fun r => (ofSqlx r).bind f)).Ensures (exec h) Q w := by
  refine Prog.ensures_act.mpr fun c => ?_
  cases hc : c.fault with
  | some e => simp [exec, hc, herr]
  | none =>
    cases hd : w.db.deleteBucketRow b with
    | none => simpa [exec, hc, hd] using hnone
    | some db => simpa [exec, hc, hd] using hsome db hd

end Queries

section Steps
variable {h : Host} {w : World} {α : Type} {Q : Except StorageError α → World → Prop}

theorem ensures_upsertFile {file : StoredFile} {f : Query Unit → Op α}
    (hok : ∀ db, w.db.upsertFile file = .ok db → (f (.ok ())).Ensures (exec h) Q { w with db := db })
    (herr : ∀ e, (f (.error e)).Ensures (exec h) Q w) :
    (Prog.act (.upsertFile file) f).Ensures (exec h) Q w :=
  Prog.ensures_act.mpr fun _ => ensures_statement hok herr

/-- The answer is ignored: the access counters may or may not have been written. -/
theorem ensures_updateAccess {id : Uuid} {p : Op α} (hkeep : p.Ensures (exec h) Q w)
    (hdone : ∀ db, w.db.updateAccess id w.now = .ok db → p.Ensures (exec h) Q { w with db := db }) :
    (Prog.act (.updateAccess id) (fun _ => p)).Ensures (exec h) Q w :=
  Prog.ensures_act.mpr fun _ =>
    ensures_statement (f := fun _ => p) hdone (fun _ => hkeep)

/-- The answer is ignored: the file is gone or the disk is as it was. -/
theorem ensures_removeFile {path : String} {p : Op α} (hkeep : p.Ensures (exec h) Q w)
    (hgone : p.Ensures (exec h) Q { w with fs := w.fs.erase (h.target path) }) :
    (Prog.act (.removeFile path) (fun _ => p)).Ensures (exec h) Q w := by
  refine Prog.ensures_act.mpr fun c => ?_
  simp only [exec, execRemoveFile]
  cases c.fault with
  | some e => exact hkeep
  | none =>
    cases lookup h path w with
    | ok x => exact hgone
    | error e => exact hkeep

/-- The answer is ignored: any part of the directory may be gone. -/
theorem ensures_removeDirAll {path : String} {p : Op α} (hkeep : p.Ensures (exec h) Q w)
    (hgone : w.fs.isDir (h.target path) = true → ∀ gone,
      p.Ensures (exec h) Q { w with fs := w.fs.prune (h.target path) gone }) :
    (Prog.act (.removeDirAll path) (fun _ => p)).Ensures (exec h) Q w := by
  refine Prog.ensures_act.mpr fun c => ?_
  simp only [exec, execRemoveDirAll]
  cases hn : w.fs.node (h.target path) with
  | none => exact hkeep
  | some n =>
    cases n with
    | file b => exact hkeep
    | dir =>
      have hdir := FileTree.isDir_iff.mpr hn
      cases c.fault with
      | some e => exact hgone hdir _
      | none => exact hgone hdir _

/-- A count that fails reads as zero. -/
theorem ensures_countReferences {path : String} {f : Query Nat → Op α}
    (hok : (f (.ok (w.db.countReferences path))).Ensures (exec h) Q w)
    (herr : ∀ e, (f (.error e)).Ensures (exec h) Q w) :
    (Prog.act (.countReferences path) f).Ensures (exec h) Q w := by
  refine Prog.ensures_act.mpr fun c => ?_
  simp only [exec, answer]
  cases c.fault with
  | some e => exact herr _
  | none => exact hok

theorem ensures_createDirAll {path : Path} {f : Unit → Op α}
    (hok : ∀ fs, (∀ l, fs.fileAt l = w.fs.fileAt l) → (f ()).Ensures (exec h) Q { w with fs := fs })
    (herr : ∀ e fs, (∀ l, fs.fileAt l = w.fs.fileAt l) → Q (.error e) { w with fs := fs }) :
    (Prog.act (.createDirAll path) (fun r => (ofIo r).bind f)).Ensures (exec h) Q w := by
  refine Prog.ensures_act.mpr fun c => ?_
  simp only [exec, execCreateDirAll]
  cases c.fault with
  | some e => simpa using herr _ _ (fun l => FileTree.fileAt_mkdirs _ l)
  | none =>
    have hkeep := FileTree.fileAt_mkdirs (t := w.fs) (path.passed h.cwd)
    cases hm : w.fs.mkdirs (path.passed h.cwd) with
    | mk made fs =>
      rw [hm] at hkeep
      cases made with
      | true => simpa using hok fs hkeep
      | false => simpa using herr _ fs hkeep

/-- The bytes an atomic write leaves behind when it succeeds. -/
def afterWrite (h : Host) (path : String) (content : Bytes) (fs : FileTree Name Bytes) :
    FileTree Name Bytes :=
  (fs.erase (h.temp path)).putFile (h.target path) content

/-- A failing write can leave bytes at the temporary place only. -/
theorem ensures_writeFileAtomic {path : String} {content : Bytes} {f : Unit → Op α}
    (hok : namesFile path = true → h.target path ≠ [] →
      (f ()).Ensures (exec h) Q { w with fs := afterWrite h path content w.fs })
    (herr : ∀ e fs, (∀ l, l ≠ h.temp path → fs.fileAt l = w.fs.fileAt l) →
      Q (.error e) { w with fs := fs }) :
    (Prog.act (.writeFileAtomic path content) (fun r => (ofIo r).bind f)).Ensures (exec h) Q w := by
  have hput : ∀ b e, Q (.error e) { w with fs := w.fs.putFile (h.temp path) b } :=
    fun b e => herr e _ fun l hl => FileTree.fileAt_putFile_ne hl
  have hkeep : ∀ e, Q (.error e) w := fun e => herr e w.fs fun _ _ => rfl
  refine Prog.ensures_act.mpr fun c => ?_
  simp only [exec, execWriteFileAtomic]
  cases createError w.fs (h.temp path) with
  | some e => simpa using hkeep _
  | none =>
    cases c.fault with
    | some e => cases c.stage <;> simp [hkeep, hput]
    | none =>
      by_cases hn : namesFile path = true
      · by_cases hd : w.fs.isDir (h.target path) = true
        · simp [hn, hd, hput]
        · have hne : h.target path ≠ [] := by
            intro ht
            simp [ht, FileTree.isDir_iff] at hd
          simpa [hn, hd, afterWrite] using hok hn hne
      · simp [hn, hput]

theorem ensures_utcNow {f : Time → Op α}
    (hp : ∀ now, w.now ≤ now → (f now).Ensures (exec h) Q { w with now := now }) :
    (Prog.act .utcNow f).Ensures (exec h) Q w :=
  Prog.ensures_act.mpr fun c => hp (w.now + c.elapsed) (Int.le.intro c.elapsed rfl)

theorem ensures_newUuid {f : Uuid → Op α} (hp : ∀ id, (f id).Ensures (exec h) Q w) :
    (Prog.act .newUuid f).Ensures (exec h) Q w :=
  Prog.ensures_act.mpr fun c => hp c.uuid

theorem ensures_randomNonce {f : Nonce → Op α} (hp : ∀ nonce, (f nonce).Ensures (exec h) Q w) :
    (Prog.act .randomNonce f).Ensures (exec h) Q w :=
  Prog.ensures_act.mpr fun c => hp c.nonce

theorem ensures_setFileMetadata {b k : String} {file : StoredFile} {f : Result Unit → Op α} :
    (Prog.act (.setFileMetadata b k file) f).Ensures (exec h) Q w ↔
      (f (.ok ())).Ensures (exec h) Q { w with cache := w.cache.setFileMetadata b k file } :=
  Prog.ensures_act.trans ⟨fun hc => hc calm, fun hp _ => hp⟩

theorem ensures_setFileContent {b k : String} {x : Bytes} {f : Result Unit → Op α} :
    (Prog.act (.setFileContent b k x) f).Ensures (exec h) Q w ↔
      (f (.ok ())).Ensures (exec h) Q { w with cache := w.cache.setFileContent b k x } :=
  Prog.ensures_act.trans ⟨fun hc => hc calm, fun hp _ => hp⟩

theorem ensures_invalidateFile {b k : String} {f : Result Unit → Op α} :
    (Prog.act (.invalidateFile b k) f).Ensures (exec h) Q w ↔
      (f (.ok ())).Ensures (exec h) Q { w with cache := w.cache.invalidateFile b k } :=
  Prog.ensures_act.trans ⟨fun hc => hc calm, fun hp _ => hp⟩

theorem ensures_getFileMetadata {b k : String} {f : Result (Option StoredFile) → Op α} :
    (Prog.act (.getFileMetadata b k) f).Ensures (exec h) Q w ↔
      (f (.ok (w.cache.getFileMetadata b k))).Ensures (exec h) Q w :=
  Prog.ensures_act.trans ⟨fun hc => hc calm, fun hp _ => hp⟩

theorem ensures_getFileContent {b k : String} {f : Result (Option Bytes) → Op α} :
    (Prog.act (.getFileContent b k) f).Ensures (exec h) Q w ↔
      (f (.ok (w.cache.getFileContent b k))).Ensures (exec h) Q w :=
  Prog.ensures_act.trans ⟨fun hc => hc calm, fun hp _ => hp⟩

theorem lookup_eq_ok {path : String} {x : Bytes} :
    lookup h path w = .ok x ↔ w.bytesAt h path = some x := by
  unfold lookup World.bytesAt FileTree.fileAt
  rcases w.fs.node (h.target path) with _ | _ | _ <;> cases namesFile path <;> simp

theorem execReadFile_ok {c : Choice} {path : String} {x : Bytes}
    (hx : execReadFile h c path w = .ok x) : w.bytesAt h path = some x := by
  unfold execReadFile at hx
  split at hx
  · simp at hx
  · exact lookup_eq_ok.mp hx

theorem ensures_readFile {path : String} {f : Except IoError Bytes → Op α}
    (hok : ∀ x, w.bytesAt h path = some x → (f (.ok x)).Ensures (exec h) Q w)
    (herr : ∀ e, (f (.error e)).Ensures (exec h) Q w) :
    (Prog.act (.readFile path) f).Ensures (exec h) Q w := by
  refine Prog.ensures_act.mpr fun c => ?_
  simp only [exec, execReadFile]
  cases c.fault with
  | some e => exact herr e
  | none =>
    cases hl : lookup h path w with
    | ok x => exact hok x (lookup_eq_ok.mp hl)
    | error e => exact herr e

/-- A range read changes nothing. -/
theorem ensures_readRange {path : String} {start len : Nat} {f : Except IoError Bytes → Op α}
    (hp : ∀ r, (f r).Ensures (exec h) Q w) :
    (Prog.act (.readRange path start len) f).Ensures (exec h) Q w :=
  Prog.ensures_act.mpr fun _ => hp _

end Steps

end LocalStorage
