import LocalStorage.Sample
import LocalStorage.Proofs.Vocabulary
import LocalStorage.Proofs.Effects

namespace LocalStorage.Proofs.CacheSlots
open Lib Lib.Paths StorageManager

/-- A write to the cache entries of one pair. -/
inductive CacheWrite where
  | setFileMetadata (file : StoredFile)
  | setFileContent (content : Bytes)
  | invalidateFile

def CacheWrite.apply (b k : String) (c : Cache) : CacheWrite → Cache
  | setFileMetadata file => c.setFileMetadata b k file
  | setFileContent content => c.setFileContent b k content
  | invalidateFile => c.invalidateFile b k

/-- Writes to the entries of `(b₁, k₁)` never show at `(b₂, k₂)`: not in what the cache
returns there, and not in any answer of `getFile`. -/
structure Untouched (sm : StorageManager) (b₁ k₁ b₂ k₂ : String) : Prop where
  metadata : ∀ (e : CacheWrite) (c : Cache),
    (e.apply b₁ k₁ c).getFileMetadata b₂ k₂ = c.getFileMetadata b₂ k₂
  content : ∀ (e : CacheWrite) (c : Cache),
    (e.apply b₁ k₁ c).getFileContent b₂ k₂ = c.getFileContent b₂ k₂
  answers : ∀ (e : CacheWrite) (w : World) (x : Result (Bytes × Option String)),
    (∃ t, (sm.getFile b₂ k₂).Runs (exec sm.host) { w with cache := e.apply b₁ k₁ w.cache } x t) ↔
      ∃ t, (sm.getFile b₂ k₂).Runs (exec sm.host) w x t

variable {sm : StorageManager} {h : Host} {b k b₁ k₁ b₂ k₂ : String} {w w' : World}

/-! ## What a read can tell apart -/

/-- The same but for the cache entries of other pairs. -/
structure AlikeAt (b k : String) (w w' : World) : Prop where
  db : w'.db = w.db
  fs : w'.fs = w.fs
  now : w'.now = w.now
  metadata : w'.cache.getFileMetadata b k = w.cache.getFileMetadata b k
  content : w'.cache.getFileContent b k = w.cache.getFileContent b k

theorem AlikeAt.symm (h : AlikeAt b k w w') : AlikeAt b k w' w :=
  ⟨h.db.symm, h.fs.symm, h.now.symm, h.metadata.symm, h.content.symm⟩

/-- A step that does not ask the cache answers and acts alike over every cache. -/
theorem AlikeAt.of_deaf {c : Choice} {a : Action} (hw : AlikeAt b k w w')
    (ha : ∀ cache : Cache, exec h c a { w with cache := cache } =
      ((exec h c a w).1, { (exec h c a w).2 with cache := cache }))
    (hkeep : (exec h c a w).2.cache = w.cache) :
    (exec h c a w').1 = (exec h c a w).1 ∧ AlikeAt b k (exec h c a w).2 (exec h c a w').2 := by
  have hw' : w' = { w with cache := w'.cache } := by
    cases w
    cases w'
    simp only [World.mk.injEq]
    exact ⟨hw.db, hw.fs, trivial, hw.now⟩
  have hexec : exec h c a w' = ((exec h c a w).1, { (exec h c a w).2 with cache := w'.cache }) :=
    (congrArg (exec h c a) hw').trans (ha w'.cache)
  rw [hexec]
  refine ⟨rfl, rfl, rfl, rfl, ?_, ?_⟩
  · rw [hkeep]
    exact hw.metadata
  · rw [hkeep]
    exact hw.content

theorem deaf_statement {c : Choice} {x : Except DbError Database} (cache : Cache) :
    statement c { w with cache := cache } x =
      ((statement c w x).1, { (statement c w x).2 with cache := cache }) := by
  unfold statement
  cases c.fault with
  | some e => rfl
  | none => cases x <;> rfl

theorem deleteStep_alike {c : Choice} {a : Action} (ha : DeleteStep b k a)
    (hw : AlikeAt b k w w') :
    (exec h c a w').1 = (exec h c a w).1 ∧ AlikeAt b k (exec h c a w).2 (exec h c a w').2 := by
  cases ha with
  | selectFilePath => exact hw.of_deaf (fun _ => rfl) rfl
  | countOtherReferences path => exact hw.of_deaf (fun _ => rfl) rfl
  | deleteFileRow => exact hw.of_deaf (fun cache => deaf_statement cache) statement_cache
  | removeFile path =>
    have hlookup : ∀ cache, lookup h path { w with cache := cache } = lookup h path w := fun _ => rfl
    refine hw.of_deaf (fun cache => ?_) ?_
    · simp only [exec, execRemoveFile, hlookup]
      repeat' split
      all_goals rfl
    · simp only [exec, execRemoveFile]
      repeat' split
      all_goals rfl
  | invalidateFile =>
    refine ⟨rfl, hw.db, hw.fs, hw.now, ?_, ?_⟩
    · simp only [exec, Cache.getFileMetadata_invalidateFile, hw.metadata]
    · simp only [exec, Cache.getFileContent_invalidateFile, hw.content]

/-- A reader of `(b, k)` cannot tell alike worlds apart. -/
theorem readStep_alike {c : Choice} {a : Action} (ha : ReadStep b k a) (hw : AlikeAt b k w w') :
    (exec h c a w').1 = (exec h c a w).1 ∧ AlikeAt b k (exec h c a w).2 (exec h c a w').2 := by
  cases ha with
  | delete hd => exact deleteStep_alike hd hw
  | getFileMetadata => exact ⟨congrArg Except.ok hw.metadata, hw⟩
  | selectFile => exact hw.of_deaf (fun _ => rfl) rfl
  | setFileMetadata file =>
    refine ⟨rfl, hw.db, hw.fs, hw.now, ?_, ?_⟩
    · simp only [exec, Cache.getFileMetadata_setFileMetadata, hw.metadata]
    · simp only [exec, Cache.getFileContent_setFileMetadata, hw.content]
  | utcNow => exact hw.of_deaf (fun _ => rfl) rfl
  | getFileContent => exact ⟨congrArg Except.ok hw.content, hw⟩
  | readFile path => exact hw.of_deaf (fun _ => rfl) rfl
  | readRange path start len => exact hw.of_deaf (fun _ => rfl) rfl
  | setFileContent content =>
    refine ⟨rfl, hw.db, hw.fs, hw.now, ?_, ?_⟩
    · simp only [exec, Cache.getFileMetadata_setFileContent, hw.metadata]
    · simp only [exec]
      by_cases hx : content.length ≤ Cache.maxCacheSize
      · simp only [Cache.getFileContent_setFileContent hx, hw.content]
      · rw [Cache.setFileContent_large (by omega), Cache.setFileContent_large (by omega), hw.content]
  | selectKey keyId => exact hw.of_deaf (fun _ => rfl) rfl
  | updateAccess id => exact hw.of_deaf (fun cache => deaf_statement cache) statement_cache

theorem AlikeAt.getFile {x : Result (Bytes × Option String)} {t : World}
    (hw : AlikeAt b k w w') (hr : (sm.getFile b k).Runs (exec sm.host) w x t) :
    ∃ t', (sm.getFile b k).Runs (exec sm.host) w' x t' := by
  have hstep : ∀ c a u u', ReadStep b k a → AlikeAt b k u u' →
      (exec sm.host c a u').1 = (exec sm.host c a u).1 ∧
        AlikeAt b k (exec sm.host c a u).2 (exec sm.host c a u').2 :=
    fun c a u u' ha hu => readStep_alike ha hu
  obtain ⟨t', ht', -⟩ := Prog.Runs.simulate hstep getFile_steps hr hw
  exact ⟨t', ht'⟩

/-! ## Entries under other joined keys -/

theorem apply_metadata (hs : ¬ Cache.SameSlot b₂ k₂ b₁ k₁) (e : CacheWrite) (c : Cache) :
    (e.apply b₁ k₁ c).getFileMetadata b₂ k₂ = c.getFileMetadata b₂ k₂ := by
  cases e with
  | setFileMetadata file =>
    exact (Cache.getFileMetadata_setFileMetadata b₁ k₁ file b₂ k₂).trans (if_neg hs)
  | setFileContent content => exact Cache.getFileMetadata_setFileContent b₁ k₁ content b₂ k₂
  | invalidateFile => exact (Cache.getFileMetadata_invalidateFile b₁ k₁ b₂ k₂).trans (if_neg hs)

theorem apply_content (hs : ¬ Cache.SameSlot b₂ k₂ b₁ k₁) (e : CacheWrite) (c : Cache) :
    (e.apply b₁ k₁ c).getFileContent b₂ k₂ = c.getFileContent b₂ k₂ := by
  cases e with
  | setFileMetadata file => exact Cache.getFileContent_setFileMetadata b₁ k₁ file b₂ k₂
  | setFileContent content => exact Cache.getFileContent_setFileContent_ne content hs
  | invalidateFile => exact (Cache.getFileContent_invalidateFile b₁ k₁ b₂ k₂).trans (if_neg hs)

theorem untouched_of_slots (hs : ¬ Cache.SameSlot b₂ k₂ b₁ k₁) : Untouched sm b₁ k₁ b₂ k₂ := by
  refine ⟨apply_metadata hs, apply_content hs, fun e w x => ?_⟩
  have hw : AlikeAt b₂ k₂ w { w with cache := e.apply b₁ k₁ w.cache } :=
    ⟨rfl, rfl, rfl, apply_metadata hs e w.cache, apply_content hs e w.cache⟩
  constructor
  · rintro ⟨t, ht⟩
    exact hw.symm.getFile ht
  · rintro ⟨t, ht⟩
    exact hw.getFile ht

/-- Two pairs are kept apart by the cache exactly when their joined keys differ. -/
theorem untouched_iff :
    Untouched sm b₁ k₁ b₂ k₂ ↔ b₁ ++ ":" ++ k₁ ≠ b₂ ++ ":" ++ k₂ := by
  constructor
  · intro hu hs
    have hslot : Cache.SameSlot b₂ k₂ b₁ k₁ := hs.symm
    have hset := hu.content (.setFileContent []) Cache.empty
    have hempty : ([] : Bytes).length ≤ Cache.maxCacheSize := Nat.zero_le _
    rw [CacheWrite.apply, Cache.getFileContent_setFileContent hempty, if_pos hslot] at hset
    exact absurd hset (by simp [Cache.empty, Cache.getFileContent])
  · exact fun hne => untouched_of_slots (Ne.symm hne)

/-- Bucket names without a colon are enough. -/
theorem untouched_of_buckets (hb₁ : ':' ∉ b₁.toList) (hb₂ : ':' ∉ b₂.toList)
    (hne : (b₁, k₁) ≠ (b₂, k₂)) : Untouched sm b₁ k₁ b₂ k₂ := by
  apply untouched_iff.mpr
  intro hs
  obtain ⟨rfl, rfl⟩ := Cache.SameSlot.eq hb₁ hb₂ hs
  exact hne rfl

/-! ## A colon in a bucket name -/

open Sample (manager)

/-- One object, in the bucket `a:b`. -/
def colonBucket : World :=
  (replay manager [(.storeFile "a:b" "c" [120] none {} (.error (.io "")), { uuid := 1 })]
    ([], World.empty)).2

/-- The object is served as `b:c` of the bucket `a`, where nothing is stored. -/
theorem colon_crosses_buckets :
    ("a:b", "c") ≠ ("a", "b:c") ∧ colonBucket.db.files.find ("a", "b:c") = none ∧
      served manager colonBucket "a" "b:c" = .ok ([120], some "application/octet-stream") ∧
      ¬ Untouched manager "a:b" "c" "a" "b:c" := by
  refine ⟨by decide, by decide, by decide, fun hu => ?_⟩
  exact untouched_iff.mp hu (by decide)

end LocalStorage.Proofs.CacheSlots
