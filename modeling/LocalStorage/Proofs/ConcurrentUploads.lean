import LocalStorage.Proofs.Dialogues
import LocalStorage.Sample

namespace LocalStorage.Proofs.ConcurrentUploads
open Lib Lib.Paths StorageManager

/-! # Uploads to one key at the same time -/

structure Upload where
  content : Bytes
  contentType : Option String := none
  opts : StoreOptions := {}

def Upload.op (sm : StorageManager) (b k : String) (up : Upload) : Op StoredFile :=
  sm.storeFile b k up.content up.contentType up.opts

/-- The call wrote a file. -/
def TookFreshPath (l : List (Taken Response)) : Prop := ∃ st ∈ l, st.1.writesFile = true

/-- `file` and `processed` are what the upload makes of its content. -/
def StoredAs (sm : StorageManager) (db : Database) (b k : String) (up : Upload)
    (file : StoredFile) (processed : Bytes) : Prop :=
  ∃ enc id now,
    file = sm.freshFile b k up.content up.contentType up.opts
      (sm.compressStage up.opts up.content).2 (sm.compressStage up.opts up.content).1.length
      processed enc id now ∧
    EncryptedAs sm db up.opts (sm.compressStage up.opts up.content).1 processed enc

/-- What an upload leaves behind under its key. -/
inductive Resource where
  | bytes
  | row
  | metadata
  | content
deriving DecidableEq

namespace Resource

def written : Resource → Action → Bool
  | bytes => Action.writesFile
  | row => Action.writesRow
  | metadata => Action.writesMetadata
  | content => Action.writesContent

/-- The resource is as the upload behind `file` and `processed` leaves it. -/
def StemsFrom (sm : StorageManager) (b k : String) (file : StoredFile) (processed : Bytes)
    (t : World) : Resource → Prop
  | bytes => t.bytesAt sm.host (sm.getFilePath b k) = some processed
  | row => ∃ old, t.db.files.find (b, k) = some (Database.mergeRow old file)
  | metadata => t.cache.getFileMetadata b k = some file
  | content => t.cache.getFileContent b k = some processed

end Resource

section
variable {sm : StorageManager} {b k : String} {ι : Type} [DecidableEq ι] {uploads : ι → Upload}
  {w t : World} {tr : List (ι × Taken Response)} {file : ι → StoredFile}

/-- All threads are uploads of the key that succeed and write. -/
structure Race (sm : StorageManager) (b k : String) (uploads : ι → Upload) (w : World)
    (tr : List (ι × Taken Response)) (file : ι → StoredFile) (processed : ι → Bytes)
    (t : World) : Prop where
  run : Interleaving (exec sm.host) (fun i => (uploads i).op sm b k) w tr (fun i => .ok (file i)) t
  landed : ∀ i, Landed sm b k (uploads i).content (uploads i).contentType (uploads i).opts (file i)
    (processed i) (project i tr)

namespace Race

variable {processed : ι → Bytes} {i : ι}

theorem bytes (h : Race sm b k uploads w tr file processed t)
    (hlast : lastAt (fun st => st.1.writesFile) tr = some i) :
    t.bytesAt sm.host (sm.getFilePath b k) = some (processed i) := by
  obtain ⟨-, u, v, hv, hobs⟩ := h.run.last_sole
    (fun w => w.bytesAt sm.host (sm.getFilePath b k)) hlast (h.landed i).wrote
    fun e _ hk u v huv => takes_bytesAt huv hk _
  exact hobs.trans (takes_writeFileAtomic hv)

theorem row (h : Race sm b k uploads w tr file processed t)
    (hlast : lastAt (fun st => st.1.writesRow) tr = some i) :
    ∃ old, t.db.files.find (b, k) = some (Database.mergeRow old (file i)) := by
  obtain ⟨-, u, v, hv, hobs⟩ := h.run.last_sole (fun w => w.db.files) hlast (h.landed i).upserted
    fun e he hk u v huv =>
      takes_files huv hk ((h.landed e.1).uncounted _ (mem_project.mpr he))
  have hident : (file i).ident = (b, k) := by
    obtain ⟨enc, id, now, hfile, -⟩ := (h.landed i).record
    rw [hfile]
    rfl
  have hrow := takes_upsertFile hv
  rw [hident] at hrow
  exact ⟨u.db.files.find (b, k), (congrArg (fun files => files.find (b, k)) hobs).trans hrow⟩

theorem metadata (h : Race sm b k uploads w tr file processed t)
    (hlast : lastAt (fun st => st.1.writesMetadata) tr = some i) :
    t.cache.getFileMetadata b k = some (file i) := by
  obtain ⟨r, hsole⟩ := (h.landed i).cachedMetadata
  obtain ⟨-, u, v, hv, hobs⟩ := h.run.last_sole (fun w => w.cache.getFileMetadata b k) hlast hsole
    fun e _ hk u v huv => takes_getFileMetadata huv hk b k
  refine hobs.trans ?_
  simp [takes_cache hv, Action.onCache, Cache.getFileMetadata_setFileMetadata,
    Cache.SameSlot.refl]

theorem content (h : Race sm b k uploads w tr file processed t)
    (hlast : lastAt (fun st => st.1.writesContent) tr = some i) :
    t.cache.getFileContent b k = some (processed i) := by
  obtain ⟨r, hsole⟩ := (h.landed i).cachedContent
  obtain ⟨hsize, u, v, hv, hobs⟩ := h.run.last_sole (fun w => w.cache.getFileContent b k) hlast
    hsole fun e _ hk u v huv => takes_getFileContent huv hk b k
  refine hobs.trans ?_
  have hfits : (processed i).length ≤ Cache.maxCacheSize := by
    simpa [Action.writesContent] using hsize
  simp [takes_cache hv, Action.onCache, Cache.getFileContent_setFileContent hfits,
    Cache.SameSlot.refl]

/-- Every upload takes a step on every resource, but for cached content that is too large. -/
theorem takes_step (h : Race sm b k uploads w tr file processed t) (r : Resource)
    (hsize : r = .content → (processed i).length ≤ Cache.maxCacheSize) :
    ∃ st, (i, st) ∈ tr ∧ r.written st.1 = true := by
  cases r with
  | bytes => exact ⟨_, mem_project.mp (h.landed i).wrote.mem, rfl⟩
  | row => exact ⟨_, mem_project.mp (h.landed i).upserted.mem, rfl⟩
  | metadata =>
    obtain ⟨r, hsole⟩ := (h.landed i).cachedMetadata
    exact ⟨_, mem_project.mp hsole.mem, rfl⟩
  | content =>
    obtain ⟨r, hsole⟩ := (h.landed i).cachedContent
    refine ⟨_, mem_project.mp hsole.mem, ?_⟩
    simpa [Resource.written, Action.writesContent] using hsize rfl

end Race

/-- Each resource stems from the upload that took the last step on it. -/
theorem last_step_decides
    (hrun : Interleaving (exec sm.host) (fun i => (uploads i).op sm b k) w tr
      (fun i => .ok (file i)) t)
    (hfresh : ∀ i, TookFreshPath (project i tr)) :
    ∃ processed : ι → Bytes,
      (∀ i, StoredAs sm w.db b k (uploads i) (file i) (processed i)) ∧
      ∀ r : Resource,
        (∀ i, lastAt (fun st => r.written st.1) tr = some i →
          r.StemsFrom sm b k (file i) (processed i) t) ∧
        ∀ i, (r = .content → (processed i).length ≤ Cache.maxCacheSize) →
          (lastAt (fun st => r.written st.1) tr).isSome = true := by
  have hlanded : ∀ i, ∃ processed, Landed sm b k (uploads i).content (uploads i).contentType
      (uploads i).opts (file i) processed (project i tr) :=
    fun i => storeFile_landed (hrun.thread i) (hfresh i)
  choose processed hl using hlanded
  have hrace : Race sm b k uploads w tr file processed t := ⟨hrun, hl⟩
  refine ⟨processed, fun i => ?_, fun r => ⟨fun i hlast => ?_, fun i hsize => ?_⟩⟩
  · obtain ⟨enc, id, now, hfile, henc⟩ := (hl i).record
    exact ⟨enc, id, now, hfile, henc w.db (keysFrom_project hrun i)⟩
  · cases r with
    | bytes => exact hrace.bytes hlast
    | row => exact hrace.row hlast
    | metadata => exact hrace.metadata hlast
    | content => exact hrace.content hlast
  · obtain ⟨st, hst, hk⟩ := hrace.takes_step r hsize
    exact lastAt_isSome (e := (i, st)) hst hk

end

/-! ## Two uploads, one after the other and nested -/

open Sample (manager)

/-- Two uploads of different content. -/
def pair (first : Bool) : Upload := { content := if first then [120] else [121] }

def woven (schedule : List Bool) :=
  weave (exec manager.host) calm schedule (fun i => (pair i).op manager "a" "k") World.empty

/-- The first upload runs to its end before the second starts. -/
def inTurn : List Bool := List.replicate 11 true ++ List.replicate 9 false

/-- The second upload runs while the first has written its file but not its row. -/
def nested : List Bool := List.replicate 6 true ++ List.replicate 9 false ++ List.replicate 5 true

theorem uploads_in_turn : ∃ (file : StoredFile) (processed : Bytes),
    StoredAs manager World.empty.db "a" "k" (pair false) file processed ∧
      ∀ r : Resource, r.StemsFrom manager "a" "k" file processed (woven inTurn).2.2 := by
  have hok : ∀ i, ((woven inTurn).2.1 i).result.any (·.isOk) = true := by decide
  obtain ⟨file, hrun⟩ := weave_ok calm inTurn hok
  have hfresh : ∀ i, ((project i (woven inTurn).1).any fun st => st.1.writesFile) = true := by decide
  have hlast : ∀ r : Resource, lastAt (fun st => r.written st.1) (woven inTurn).1 = some false := by
    intro r
    cases r <;> decide
  obtain ⟨processed, hstored, hr⟩ := last_step_decides hrun fun i => List.any_eq_true.mp (hfresh i)
  exact ⟨file false, processed false, hstored false, fun r => (hr r).1 false (hlast r)⟩

/-- The bytes are the second upload's; row and cache are the first's. -/
theorem nested_uploads_mix : ∃ file : Bool → StoredFile,
    Interleaving (exec manager.host) (fun i => (pair i).op manager "a" "k") World.empty
      (woven nested).1 (fun i => .ok (file i)) (woven nested).2.2 ∧
    (∀ i, TookFreshPath (project i (woven nested).1)) ∧
    ¬ ∃ i processed, ∀ r : Resource,
      r.StemsFrom manager "a" "k" (file i) processed (woven nested).2.2 := by
  have hok : ∀ i, ((woven nested).2.1 i).result.any (·.isOk) = true := by decide
  obtain ⟨file, hrun⟩ := weave_ok calm nested hok
  have hfresh : ∀ i, ((project i (woven nested).1).any fun st => st.1.writesFile) = true := by decide
  have hbytes : (woven nested).2.2.bytesAt manager.host (manager.getFilePath "a" "k") =
      some [121] := by decide
  have hcached : (woven nested).2.2.cache.getFileContent "a" "k" = some [120] := by decide
  refine ⟨file, hrun, fun i => List.any_eq_true.mp (hfresh i), ?_⟩
  rintro ⟨i, processed, hr⟩
  have hdisk := hbytes.symm.trans (hr .bytes)
  have hcache := hcached.symm.trans (hr .content)
  simp only [Option.some.injEq] at hdisk hcache
  rw [← hdisk] at hcache
  exact absurd hcache (by decide)

end LocalStorage.Proofs.ConcurrentUploads
