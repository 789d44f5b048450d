import LocalStorage.Proofs.FailedUpload
import LocalStorage.Proofs.RoundTrip
import LocalStorage.Proofs.BucketRemoval

namespace LocalStorage.Proofs.CacheCoherence
open Lib Lib.Paths StorageManager

/-- Names without the separator of the cache keys. -/
def PlainNames (b k : String) : Prop := ':' ∉ b.toList ∧ ':' ∉ k.toList

/-- Every cache entry agrees with table and disk, and every row has an entry of its own. -/
structure Sound (sm : StorageManager) (w : World) : Prop where
  coherent : ∀ b k, Coherent sm.host w b k
  plain : ∀ f ∈ w.db.files, PlainNames f.bucket f.key

/-- The content of the row is cached. -/
def Warm (w : World) (g : StoredFile) : Prop :=
  (w.cache.getFileContent g.bucket g.key).isSome = true

instance (w : World) (g : StoredFile) : Decidable (Warm w g) := inferInstanceAs (Decidable (_ = _))

instance (b k : String) : Decidable (PlainNames b k) := inferInstanceAs (Decidable (_ ∧ _))

variable {sm : StorageManager} {w w' : World} {b k : String}

/-- Cache entries may go, and the disk may change where no cached row has its file. -/
theorem Coherent.keep {h : Host} (hc : Coherent h w b k)
    (hrow : (w'.db.files.find (b, k)).map recipe = (w.db.files.find (b, k)).map recipe)
    (hbytes : ∀ g, w.db.files.find (b, k) = some g → Warm w g →
      w'.bytesAt h g.filePath = w.bytesAt h g.filePath)
    (hm : ∀ f, w'.cache.getFileMetadata b k = some f → w.cache.getFileMetadata b k = some f)
    (hx : ∀ x, w'.cache.getFileContent b k = some x → w.cache.getFileContent b k = some x) :
    Coherent h w' b k := by
  have hrow' : ∀ g, w.db.files.find (b, k) = some g →
      ∃ g', w'.db.files.find (b, k) = some g' ∧ recipe g' = recipe g := by
    intro g hg
    rw [hg, Option.map_some, Option.map_eq_some_iff] at hrow
    exact hrow
  constructor
  · intro f hf
    obtain ⟨g, hg, hfg⟩ := hc.metadata f (hm f hf)
    obtain ⟨g', hg', hgg⟩ := hrow' g hg
    exact ⟨g', hg', hfg.trans hgg.symm⟩
  · intro x hcx
    have hcx' := hx x hcx
    obtain ⟨g, hg, hgx⟩ := hc.content x hcx'
    obtain ⟨g', hg', hgg⟩ := hrow' g hg
    have hwarm : Warm w g := by
      obtain ⟨rfl, rfl⟩ := Database.find_names hg
      simp [Warm, hcx']
    refine ⟨g', hg', ?_⟩
    rw [(recipe_eq.mp hgg).1, hbytes g hg hwarm, hgx]

/-- No entry, nothing to disagree with. -/
theorem Coherent.of_none {h : Host} (hm : w.cache.getFileMetadata b k = none)
    (hx : w.cache.getFileContent b k = none) : Coherent h w b k := by
  constructor
  · intro f hf
    simp [hm] at hf
  · intro x hcx
    simp [hx] at hcx

/-! ## What the calls do to it -/

theorem Sound.kept {ls : List Loc} (hs : Sound sm w) (hk : Kept ls w w')
    (hclear : ∀ g ∈ w.db.files, Warm w g → sm.host.target g.filePath ∉ ls) : Sound sm w' := by
  constructor
  · intro b k
    apply Coherent.keep (hs.coherent b k)
    · rw [hk.files]
    · intro g hg hwarm
      exact World.bytesAt_congr (hk.disk _ (hclear g (Table.find_mem hg) hwarm))
    · rw [hk.cache]
      exact fun _ hf => hf
    · rw [hk.cache]
      exact fun _ hx => hx
  · rw [hk.files]
    exact hs.plain

theorem Sound.put_plain {file : StoredFile} {old : Option StoredFile} (hs : Sound sm w)
    (hplain : PlainNames file.bucket file.key)
    (hf : w'.db.files = w.db.files.put (Database.mergeRow old file)) :
    ∀ f ∈ w'.db.files, PlainNames f.bucket f.key := by
  intro f hmem
  rw [hf, Table.mem_put] at hmem
  rcases hmem with rfl | ⟨hmem, -⟩
  · simpa using hplain
  · exact hs.plain f hmem

theorem find_put_merged {file : StoredFile} {old : Option StoredFile}
    (hf : w'.db.files = w.db.files.put (Database.mergeRow old file)) {b k : String} :
    w'.db.files.find (b, k) =
      if (b, k) = file.ident then some (Database.mergeRow old file)
      else w.db.files.find (b, k) := by
  rw [hf]
  split
  · rename_i h
    rw [h, ← Database.mergeRow_ident old file]
    exact Table.find_put_self
  · rename_i h
    exact Table.find_put_ne (by simpa using h)

/-- An alias is sound when what is cached under its key already says the same. -/
theorem Sound.aliased {file : StoredFile} (hs : Sound sm w) (ha : Aliased w w' file)
    (hplain : PlainNames file.bucket file.key)
    (hm : ∀ f ∈ w.cache.getFileMetadata file.bucket file.key, recipe f = recipe file)
    (hx : ∀ x ∈ w.cache.getFileContent file.bucket file.key,
      w.bytesAt sm.host file.filePath = some x) : Sound sm w' := by
  refine ⟨fun b k => ?_, hs.put_plain hplain ha.files⟩
  have hbytes : ∀ path, w'.bytesAt sm.host path = w.bytesAt sm.host path :=
    fun path => World.bytesAt_congr (ha.disk _)
  by_cases hbk : (b, k) = file.ident
  · obtain ⟨hb, hk⟩ : b = file.bucket ∧ k = file.key := Prod.ext_iff.mp hbk
    subst hb hk
    have hrow := find_put_merged ha.files (b := file.bucket) (k := file.key)
    rw [if_pos hbk] at hrow
    constructor
    · intro f hf
      rw [ha.cache] at hf
      exact ⟨_, hrow, by simpa using hm f hf⟩
    · intro x hcx
      rw [ha.cache] at hcx
      exact ⟨_, hrow, by simpa [hbytes] using hx x hcx⟩
  · apply Coherent.keep (hs.coherent b k)
    · rw [find_put_merged ha.files, if_neg hbk]
    · exact fun g _ _ => hbytes _
    · rw [ha.cache]
      exact fun _ hf => hf
    · rw [ha.cache]
      exact fun _ hx => hx

theorem not_sameSlot {b k b' k' : String} (hplain : PlainNames b k) (h : (b', k') ≠ (b, k)) :
    ¬ Cache.SameSlot b' k' b k := by
  intro hs
  obtain ⟨rfl, rfl⟩ := hs.eq_of_plain hplain.1 hplain.2
  exact h rfl

/-- A fresh write is sound when it misses the files of the other cached rows, and when its
content fits the cache or finds nothing cached. -/
theorem Sound.written {file : StoredFile} {processed : Bytes} (hs : Sound sm w)
    (hw : Written sm.host w w' file processed) (hplain : PlainNames file.bucket file.key)
    (hclear : ∀ g ∈ w.db.files, g.ident ≠ file.ident → Warm w g →
      sm.host.target g.filePath ∉ [sm.host.target file.filePath, sm.host.temp file.filePath])
    (hsize : processed.length ≤ Cache.maxCacheSize ∨
      w.cache.getFileContent file.bucket file.key = none) : Sound sm w' := by
  refine ⟨fun b k => ?_, hs.put_plain hplain hw.files⟩
  by_cases hbk : (b, k) = file.ident
  · obtain ⟨hb, hk⟩ : b = file.bucket ∧ k = file.key := Prod.ext_iff.mp hbk
    subst hb hk
    have hrow := find_put_merged hw.files (b := file.bucket) (k := file.key)
    rw [if_pos hbk] at hrow
    constructor
    · intro f hf
      have hset : w'.cache.getFileMetadata file.bucket file.key = some file := by
        rw [hw.cache, Cache.getFileMetadata_setFileContent, Cache.getFileMetadata_setFileMetadata,
          if_pos (Cache.SameSlot.refl _ _)]
      obtain rfl := Option.some.inj (hset.symm.trans hf)
      exact ⟨_, hrow, by simp⟩
    · intro x hcx
      refine ⟨_, hrow, ?_⟩
      have hbytes := hw.bytesAt
      rw [hw.cache] at hcx
      by_cases hlarge : processed.length ≤ Cache.maxCacheSize
      · rw [Cache.getFileContent_setFileContent hlarge, if_pos (Cache.SameSlot.refl _ _)] at hcx
        obtain rfl := Option.some.inj hcx
        simpa using hbytes
      · rw [Cache.setFileContent_large (Nat.not_le.mp hlarge),
          Cache.getFileContent_setFileMetadata] at hcx
        exact absurd (hcx.symm.trans (hsize.resolve_left hlarge)) (by simp)
  · have hslot : ¬ Cache.SameSlot b k file.bucket file.key := not_sameSlot hplain hbk
    apply Coherent.keep (hs.coherent b k)
    · rw [find_put_merged hw.files, if_neg hbk]
    · intro g hg hwarm
      have hne : g.ident ≠ file.ident := by
        rw [Table.find_key hg]
        exact hbk
      have hfree := hclear g (Table.find_mem hg) hne hwarm
      simp only [List.mem_cons, List.not_mem_nil, or_false, not_or] at hfree
      exact World.bytesAt_congr (hw.disk_ne hfree.1 hfree.2)
    · intro f hf
      rwa [hw.cache, Cache.getFileMetadata_setFileContent, Cache.getFileMetadata_setFileMetadata,
        if_neg hslot] at hf
    · intro x hcx
      rwa [hw.cache, Cache.getFileContent_setFileContent_ne _ hslot,
        Cache.getFileContent_setFileMetadata] at hcx

/-- No cached row has its file at the place of `f` under another spelling of the path. -/
def SpelledAlike (sm : StorageManager) (w : World) (f : StoredFile) : Prop :=
  ∀ g ∈ w.db.files.rows, Warm w g → sm.host.target g.filePath = sm.host.target f.filePath →
    g.filePath = f.filePath

instance (sm : StorageManager) (w : World) (f : StoredFile) : Decidable (SpelledAlike sm w f) :=
  inferInstanceAs (Decidable (∀ g ∈ w.db.files.rows, _))

theorem SpelledAlike.mono {f : StoredFile} (h : SpelledAlike sm w f)
    (hrows : ∀ g ∈ w'.db.files, g ∈ w.db.files) (hwarm : ∀ g, Warm w' g → Warm w g) :
    SpelledAlike sm w' f :=
  fun g hg hw => h g (hrows g hg) (hwarm g hw)

theorem Sound.deleted {file : StoredFile} (hs : Sound sm w) (hd : Deleted sm.host b k file w w')
    (hspell : SpelledAlike sm w file) : Sound sm w' := by
  have hdropped : ∀ b' k', w'.cache = w.cache.invalidateFile b k ∧
      (∀ f, w'.cache.getFileMetadata b' k' = some f → w.cache.getFileMetadata b' k' = some f) ∧
      ∀ x, w'.cache.getFileContent b' k' = some x → w.cache.getFileContent b' k' = some x := by
    intro b' k'
    rw [hd.cache]
    refine ⟨rfl, fun f hf => ?_, fun x hx => ?_⟩
    · rw [Cache.getFileMetadata_invalidateFile] at hf
      split at hf
      · simp at hf
      · exact hf
    · rw [Cache.getFileContent_invalidateFile] at hx
      split at hx
      · simp at hx
      · exact hx
  constructor
  · intro b' k'
    obtain ⟨hcache, hm, hx⟩ := hdropped b' k'
    by_cases hbk : (b', k') = (b, k)
    · obtain ⟨rfl, rfl⟩ := Prod.mk.inj hbk
      apply Coherent.of_none
      · rw [hcache, Cache.getFileMetadata_invalidateFile, if_pos (Cache.SameSlot.refl _ _)]
      · rw [hcache, Cache.getFileContent_invalidateFile, if_pos (Cache.SameSlot.refl _ _)]
    · refine Coherent.keep (hs.coherent b' k') ?_ (fun g hg hwarm => ?_) hm hx
      · rw [hd.files, Table.find_erase_ne hbk]
      · apply World.bytesAt_congr
        rcases hd.disk with hsame | ⟨halone, hdisk⟩
        · exact hsame _
        · rw [hdisk, if_neg]
          intro hplace
          have hmem := Table.find_mem hg
          have hident := halone g hmem (hspell g hmem hwarm hplace)
          rw [Table.find_key hg] at hident
          exact hbk hident
  · intro f hf
    rw [hd.files, Table.mem_erase] at hf
    exact hs.plain f hf.1

/-- The removal of a bucket misses every cached row of the others. -/
def MissesOthers (sm : StorageManager) (b : String) (w : World) : Prop :=
  ∀ g ∈ w.db.files.rows, g.bucket ≠ b → Warm w g →
    (w.fs.isDir (bucketDir sm b) = true → ¬ bucketDir sm b <+: sm.host.target g.filePath) ∧
      ∀ f ∈ w.db.files.rows, f.bucket = b →
        sm.host.target g.filePath ≠ sm.host.target f.filePath

instance (sm : StorageManager) (b : String) (w : World) : Decidable (MissesOthers sm b w) :=
  inferInstanceAs (Decidable (∀ g ∈ w.db.files.rows, _))

theorem Sound.bucketDeleted (hs : Sound sm w) (hd : BucketDeleted sm b w w')
    (hmiss : MissesOthers sm b w) : Sound sm w' := by
  obtain ⟨ks, hks, hcache⟩ := hd.cache
  have hm : ∀ b' k' f, w'.cache.getFileMetadata b' k' = some f →
      w.cache.getFileMetadata b' k' = some f ∧ ∀ k ∈ ks, ¬ Cache.SameSlot b' k' b k := by
    intro b' k' f hf
    rw [hcache, Cache.getFileMetadata_invalidateFiles] at hf
    split at hf
    · simp at hf
    · rename_i hno
      exact ⟨hf, fun k hk hslot => hno ⟨k, hk, hslot⟩⟩
  have hx : ∀ b' k' x, w'.cache.getFileContent b' k' = some x →
      w.cache.getFileContent b' k' = some x ∧ ∀ k ∈ ks, ¬ Cache.SameSlot b' k' b k := by
    intro b' k' x hx
    rw [hcache, Cache.getFileContent_invalidateFiles] at hx
    split at hx
    · simp at hx
    · rename_i hno
      exact ⟨hx, fun k hk hslot => hno ⟨k, hk, hslot⟩⟩
  constructor
  · intro b' k'
    by_cases hb : b' = b
    · -- an entry of the bucket has a row, whose key is among those dropped
      subst hb
      have hnone : ∀ g, w.db.files.find (b', k') = some g →
          ¬ ∀ k ∈ ks, ¬ Cache.SameSlot b' k' b' k := by
        intro g hg hno
        exact hno k' ((hks k').mpr ⟨g, Table.find_mem hg, Table.find_key hg⟩) (Cache.SameSlot.refl _ _)
      constructor
      · intro f hf
        obtain ⟨hf', hno⟩ := hm _ _ f hf
        obtain ⟨g, hg, -⟩ := (hs.coherent b' k').metadata f hf'
        exact absurd hno (hnone g hg)
      · intro x hcx
        obtain ⟨hx', hno⟩ := hx _ _ x hcx
        obtain ⟨g, hg, -⟩ := (hs.coherent b' k').content x hx'
        exact absurd hno (hnone g hg)
    · refine Coherent.keep (hs.coherent b' k') ?_ (fun g hg hwarm => ?_) (fun f hf => (hm _ _ f hf).1)
        (fun x hcx => (hx _ _ x hcx).1)
      · rw [hd.files]
        congr 1
        apply Table.find_filter_of
        intro r _ hr
        have hrb : r.bucket = b' := congrArg Prod.fst hr
        simpa [hrb] using hb
      · apply World.bytesAt_congr
        have hmem := Table.find_mem hg
        have hgb : g.bucket ≠ b := by
          rw [(Database.find_names hg).1]
          exact hb
        obtain ⟨hdir, hplace⟩ := hmiss g hmem hgb hwarm
        rcases hd.disk (sm.host.target g.filePath) with hsame | ⟨-, ⟨f, hf, hfb, hl⟩ | ⟨hd', hl⟩⟩
        · exact hsame
        · exact absurd hl (hplace f hf hfb)
        · exact absurd hl (hdir hd')
  · intro f hf
    rw [hd.files, Table.mem_filter] at hf
    exact hs.plain f hf.1

/-- Caching a record that reads like the row. -/
theorem Sound.setMetadata {f g : StoredFile} (hs : Sound sm w)
    (hg : w.db.files.find (b, k) = some g) (hfg : recipe f = recipe g) :
    Sound sm { w with cache := w.cache.setFileMetadata b k f } := by
  refine ⟨fun b' k' => ?_, hs.plain⟩
  obtain ⟨hb, hk⟩ := Database.find_names hg
  have hplain : PlainNames b k := by
    have h := hs.plain g (Table.find_mem hg)
    rwa [hb, hk] at h
  refine ⟨fun f' hf' => ?_, (hs.coherent b' k').content⟩
  dsimp only at hf'
  rw [Cache.getFileMetadata_setFileMetadata] at hf'
  split at hf'
  · rename_i hslot
    obtain ⟨rfl, rfl⟩ := hslot.eq_of_plain hplain.1 hplain.2
    obtain rfl := Option.some.inj hf'
    exact ⟨g, hg, hfg⟩
  · exact (hs.coherent b' k').metadata f' hf'

/-- Caching the bytes that lie under the row. -/
theorem Sound.setContent {g : StoredFile} {x : Bytes} (hs : Sound sm w)
    (hg : w.db.files.find (b, k) = some g) (hx : w.bytesAt sm.host g.filePath = some x) :
    Sound sm { w with cache := w.cache.setFileContent b k x } := by
  refine ⟨fun b' k' => ?_, hs.plain⟩
  obtain ⟨hb, hk⟩ := Database.find_names hg
  have hplain : PlainNames b k := by
    have h := hs.plain g (Table.find_mem hg)
    rwa [hb, hk] at h
  refine ⟨fun f hf => (hs.coherent b' k').metadata f (by simpa using hf), fun x' hx' => ?_⟩
  dsimp only at hx'
  by_cases hslot : Cache.SameSlot b' k' b k
  · by_cases hlarge : x.length ≤ Cache.maxCacheSize
    · rw [Cache.getFileContent_setFileContent hlarge, if_pos hslot] at hx'
      obtain rfl := Option.some.inj hx'
      obtain ⟨rfl, rfl⟩ := hslot.eq_of_plain hplain.1 hplain.2
      exact ⟨g, hg, hx⟩
    · rw [Cache.setFileContent_large (Nat.not_le.mp hlarge)] at hx'
      exact (hs.coherent b' k').content x' hx'
  · rw [Cache.getFileContent_setFileContent_ne _ hslot] at hx'
    exact (hs.coherent b' k').content x' hx'

theorem Sound.touched {db : Database} {id : Uuid} {now : Time} (hs : Sound sm w)
    (h : w.db.updateAccess id now = .ok db) : Sound sm { w with db := db } := by
  obtain ⟨hf, -, -⟩ := Database.updateAccess_ok h
  have hrow : ∀ b k, (db.files.find (b, k)).map recipe = (w.db.files.find (b, k)).map recipe := by
    intro b k
    rcases hf with hf | hf
    · rw [hf]
    · rw [hf, Table.find_update, Option.map_map]
      congr 1
      funext f
      exact recipe_touch id now f
  constructor
  · intro b k
    exact Coherent.keep (hs.coherent b k) (hrow b k) (fun _ _ _ => rfl) (fun _ hf => hf)
      (fun _ hx => hx)
  · intro f hmem
    rcases hf with hf | hf
    · rw [hf] at hmem
      exact hs.plain f hmem
    · rw [hf, Table.mem_update] at hmem
      obtain ⟨q, hq, rfl⟩ := hmem
      have hident := Prod.ext_iff.mp (Database.touch_ident id now q)
      have hplain := hs.plain q hq
      rwa [← show (Database.touch id now q).bucket = q.bucket from hident.1,
        ← show (Database.touch id now q).key = q.key from hident.2] at hplain

theorem Sound.clock (hs : Sound sm w) (now : Time) : Sound sm { w with now := now } := by
  refine ⟨fun b k => ?_, hs.plain⟩
  have hc := hs.coherent b k
  exact ⟨hc.metadata, hc.content⟩

theorem Sound.evict (hs : Sound sm w) (gone : String → Bool) :
    Sound sm { w with cache := w.cache.evict gone } := by
  refine ⟨fun b k => ?_, hs.plain⟩
  exact Coherent.keep (hs.coherent b k) rfl (fun _ _ _ => rfl)
    (fun f hf => Cache.getFileMetadata_of_evict hf) fun x hx => Cache.getFileContent_of_evict hx

/-! ## Reads and deletions -/

/-- The pair's row, if it has one, is spelled like every cached row at its place. -/
def RowSpelledAlike (sm : StorageManager) (w : World) (b k : String) : Prop :=
  ∀ f ∈ w.db.files.rows, f.ident = (b, k) → SpelledAlike sm w f

instance (sm : StorageManager) (w : World) (b k : String) : Decidable (RowSpelledAlike sm w b k) :=
  inferInstanceAs (Decidable (∀ f ∈ w.db.files.rows, _))

theorem deleteFile_sound (hs : Sound sm w) (hspell : RowSpelledAlike sm w b k) :
    (deleteFile b k).Ensures (exec sm.host) (fun _ t => Sound sm t) w := by
  refine deleteFile_spec.mono fun x t hx => ?_
  cases x with
  | ok u =>
    obtain ⟨file, hd⟩ := hx
    exact hs.deleted hd (hspell file (Table.find_mem hd.row) (Table.find_key hd.row))
  | error e =>
    subst hx
    exact hs

/-- A record that reads like the row of the pair. -/
def RowRecord (w : World) (b k : String) (f : StoredFile) : Prop :=
  ∃ g, w.db.files.find (b, k) = some g ∧ recipe f = recipe g

theorem readMetadata_sound (hs : Sound sm w) :
    (readMetadata b k).Ensures (exec sm.host) (fun x t => Sound sm t ∧ t.db = w.db ∧
      t.cache.content = w.cache.content ∧ ∀ f, x = .ok f → RowRecord w b k f) w := by
  simp only [readMetadata, dbGetFile, step_eq, Prog.bind_eq, Prog.act_bind, Prog.ret_bind,
    Prog.pure_eq]
  rw [ensures_getFileMetadata]
  cases hm : w.cache.getFileMetadata b k with
  | some f =>
    simp only [Prog.ensures_ret, true_and]
    refine ⟨hs, fun f' hf' => ?_⟩
    obtain rfl := Except.ok.inj hf'
    exact (hs.coherent b k).metadata f hm
  | none =>
    simp only [Prog.bind_assoc]
    refine ensures_selectFile (fun e => ⟨hs, rfl, rfl, by simp⟩) ?_
    simp only [Database.selectFile]
    cases hg : w.db.files.find (b, k) with
    | none => simpa using hs
    | some g =>
      simp only [Prog.ret_bind, ensures_setFileMetadata, Prog.ensures_ret, true_and]
      refine ⟨hs.setMetadata hg rfl, rfl, fun f' hf' => ?_⟩
      obtain rfl := Except.ok.inj hf'
      exact ⟨g, hg, rfl⟩

theorem expireFile_sound {file : StoredFile} (hs : Sound sm w) (hspell : RowSpelledAlike sm w b k) :
    (expireFile b k file).Ensures (exec sm.host) (fun x t => Sound sm t ∧
      (x = .ok () → t.db = w.db ∧ t.cache = w.cache)) w := by
  simp only [expireFile, step_eq, Prog.bind_eq, Prog.act_bind, Prog.ret_bind, Prog.pure_eq]
  cases file.expiresAt with
  | none => simpa using hs
  | some expiresAt =>
    refine ensures_utcNow fun now _ => ?_
    split
    · rw [Prog.ensures_bind, Prog.ensures_attempt]
      refine (deleteFile_sound (hs.clock now) hspell).mono fun x t hx => ?_
      simpa using hx
    · simpa using hs.clock now

theorem readContent_sound {file : StoredFile} (hs : Sound sm w) (hfile : RowRecord w b k file)
    (hspell : RowSpelledAlike sm w b k) :
    (readContent b k file).Ensures (exec sm.host) (fun _ t => Sound sm t) w := by
  obtain ⟨g, hg, hfg⟩ := hfile
  simp only [readContent, step_eq, Prog.bind_eq, Prog.act_bind, Prog.ret_bind, Prog.pure_eq]
  rw [ensures_getFileContent]
  cases w.cache.getFileContent b k with
  | some x => simpa using hs
  | none =>
    apply ensures_readFile
    · intro x hx
      simp only [ensures_setFileContent, Prog.ensures_ret]
      rw [(recipe_eq.mp hfg).1] at hx
      exact hs.setContent hg hx
    · intro e
      dsimp only
      split
      · rw [Prog.ensures_bind, Prog.ensures_attempt]
        refine (deleteFile_sound hs hspell).mono fun x t hx => ?_
        simpa using hx
      · simpa using hs

theorem decodeContent_keeps {file : StoredFile} {raw : Bytes} :
    (sm.decodeContent file raw).Ensures (exec sm.host) (fun _ t => t = w) w := by
  intro x t hrun
  have hstep : ∀ c a s, (∃ keyId, a = .selectKey keyId) → s = (exec sm.host c a s).2 := by
    rintro c a s ⟨keyId, rfl⟩
    rfl
  have hsame : w = t :=
    Prog.Runs.frame Eq.refl (fun _ _ _ => Eq.trans) hstep (decodeContent_uses sm file raw) hrun
  exact hsame.symm

theorem getFile_sound (hs : Sound sm w) (hspell : RowSpelledAlike sm w b k) :
    (sm.getFile b k).Ensures (exec sm.host) (fun _ t => Sound sm t) w := by
  simp only [getFile, step_eq, Prog.bind_eq, Prog.act_bind, Prog.ret_bind, Prog.pure_eq]
  rw [Prog.ensures_bind]
  refine (readMetadata_sound hs).mono fun x u hx => ?_
  obtain ⟨hu, hdb, hcontent, hfile⟩ := hx
  cases x with
  | error e => exact hu
  | ok file =>
    have hspell' : RowSpelledAlike sm u b k := by
      intro f hf hident
      rw [hdb] at hf
      refine (hspell f hf hident).mono (fun g hg => ?_) (fun g hg => ?_)
      · rwa [hdb] at hg
      · rwa [Warm, Cache.getFileContent, hcontent] at hg
    dsimp only
    rw [Prog.ensures_bind]
    refine (expireFile_sound hu hspell').mono fun y v hy => ?_
    obtain ⟨hv, hsame⟩ := hy
    cases y with
    | error e => exact hv
    | ok _ =>
      obtain ⟨hdb', hcache⟩ := hsame rfl
      have hspell'' : RowSpelledAlike sm v b k := by
        intro f hf hident
        rw [hdb'] at hf
        refine (hspell' f hf hident).mono (fun g hg => ?_) (fun g hg => ?_)
        · rwa [hdb'] at hg
        · rwa [Warm, hcache] at hg
      obtain ⟨g, hg, hfg⟩ := hfile file rfl
      dsimp only
      rw [Prog.ensures_bind]
      refine (readContent_sound hv ⟨g, by rw [hdb', hdb, hg], hfg⟩ hspell'').mono fun z x hz => ?_
      cases z with
      | error e => exact hz
      | ok raw =>
        dsimp only
        rw [Prog.ensures_bind]
        refine decodeContent_keeps.mono fun y t ht => ?_
        subst ht
        cases y with
        | error e => exact hz
        | ok content =>
          apply ensures_updateAccess
          · simpa using hz
          · intro db hdb
            simpa using hz.touched hdb

/-- Reading a byte range caches the record at most. -/
theorem getFileRangeIfPlain_sound {start stop : Nat} (hs : Sound sm w) :
    (getFileRangeIfPlain b k start stop).Ensures (exec sm.host) (fun _ t => Sound sm t) w := by
  simp only [getFileRangeIfPlain, step_eq, Prog.bind_eq, Prog.act_bind, Prog.ret_bind, Prog.pure_eq]
  rw [Prog.ensures_bind]
  refine (readMetadata_sound hs).mono fun x u hx => ?_
  obtain ⟨hu, -, -, -⟩ := hx
  cases x with
  | error e => exact hu
  | ok file =>
    dsimp only
    split
    · simpa using hu
    · split
      · simpa using hu
      · apply ensures_readRange
        intro r
        cases r with
        | error e => simpa using hu
        | ok buf =>
          simp only [ofIo_ok, Prog.ret_bind]
          apply ensures_updateAccess
          · simpa using hu
          · intro db hdb
            simpa using hu.touched hdb

theorem getCompressedFileRange_sound {start stop : Nat} (hs : Sound sm w) :
    (sm.getCompressedFileRange b k start stop).Ensures (exec sm.host) (fun _ t => Sound sm t) w := by
  simp only [getCompressedFileRange, step_eq, Prog.bind_eq, Prog.act_bind, Prog.ret_bind,
    Prog.pure_eq]
  rw [Prog.ensures_bind]
  refine (readMetadata_sound hs).mono fun x u hx => ?_
  obtain ⟨hu, -, -, -⟩ := hx
  cases x with
  | error e => exact hu
  | ok file =>
    dsimp only
    split
    · simpa using hu
    · split
      · simpa using hu
      · apply ensures_readFile
        · intro bytes _
          simp only [ofIo_ok, Prog.ret_bind]
          cases CompressionManager.decompressRange sm.lib.toCodecs bytes start
              (min stop (asU64 file.originalSize - 1) - start + 1) with
          | error e => simpa using hu
          | ok out =>
            simp only [Prog.ofExcept_ok, Prog.ret_bind]
            cases out with
            | none => simpa using hu
            | some buf =>
              apply ensures_updateAccess
              · simpa using hu
              · intro db hdb
                simpa using hu.touched hdb
        · intro e
          simpa using hu

theorem sweepFiles_sound {files : List (String × String)} (hs : Sound sm w)
    (hspell : ∀ p ∈ files, RowSpelledAlike sm w p.1 p.2) :
    (sweepFiles files).Ensures (exec sm.host) (fun _ t => Sound sm t) w := by
  induction files generalizing w with
  | nil => simpa [sweepFiles] using hs
  | cons p files ih =>
    obtain ⟨b, k⟩ := p
    simp only [sweepFiles, Prog.bind_eq, Prog.pure_eq]
    rw [Prog.ensures_bind, Prog.ensures_attempt]
    refine deleteFile_spec.mono fun x t hx => ?_
    have hrest : Sound sm t ∧ ∀ p ∈ files, RowSpelledAlike sm t p.1 p.2 := by
      cases x with
      | error e =>
        subst hx
        exact ⟨hs, fun p hp => hspell p (List.mem_cons_of_mem _ hp)⟩
      | ok u =>
        obtain ⟨file, hd⟩ := hx
        refine ⟨hs.deleted hd (hspell (b, k) (by simp) file (Table.find_mem hd.row)
          (Table.find_key hd.row)), fun p hp f hf hident => ?_⟩
        have hrows : ∀ g ∈ t.db.files, g ∈ w.db.files := by
          intro g hg
          rw [hd.files, Table.mem_erase] at hg
          exact hg.1
        refine (hspell p (List.mem_cons_of_mem _ hp) f (hrows f hf) hident).mono hrows fun g hg => ?_
        rw [Warm, hd.cache, Cache.getFileContent_invalidateFile] at hg
        split at hg
        · simp at hg
        · exact hg
    cases x with
    | error e => exact ih hrest.1 hrest.2
    | ok u =>
      dsimp only
      rw [Prog.ensures_bind]
      refine (ih hrest.1 hrest.2).mono fun y v hy => ?_
      cases y with
      | error e => exact hy
      | ok n => simpa using hy

/-! ## Runs -/

/-- The content is stored already, so that nothing is written. -/
def Recorded (sm : StorageManager) (w : World) (content : Bytes) : Prop :=
  sm.config.storage.enableDeduplication = true ∧
    ∃ f ∈ w.db.files.rows, f.hashBlake3 = sm.lib.blake3 content

/-- What is cached under the key already reads like the alias. -/
def AliasFits (sm : StorageManager) (w : World) (b k : String) (content : Bytes)
    (ct : Option String) (opts : StoreOptions) (existing : StoredFile) : Prop :=
  (∀ f ∈ w.cache.getFileMetadata b k,
    recipe f = recipe (sm.aliasedFile b k content ct opts existing 0 0)) ∧
  ∀ x ∈ w.cache.getFileContent b k, w.bytesAt sm.host existing.filePath = some x

/-- The write misses the files of other cached rows, and its bytes fit the cache or find
nothing cached under the key. -/
def FreshFits (sm : StorageManager) (w : World) (b k : String) (content : Bytes)
    (opts : StoreOptions) : Prop :=
  (∀ g ∈ w.db.files.rows, g.ident ≠ (b, k) → Warm w g →
    sm.host.target g.filePath ∉ sm.places b k) ∧
  (RoundTrip.processedSize sm opts content ≤ Cache.maxCacheSize ∨ w.cache.getFileContent b k = none)

/-- A successful upload is to a pair with cache entries of its own, and fits. -/
def UploadFits (sm : StorageManager) (w : World) (b k : String) (content : Bytes)
    (ct : Option String) (opts : StoreOptions) : Prop :=
  PlainNames b k ∧
  (∀ existing ∈ w.db.files.rows, existing.hashBlake3 = sm.lib.blake3 content →
    sm.config.storage.enableDeduplication = true → existing.ident ≠ (b, k) →
      AliasFits sm w b k content ct opts existing) ∧
  (Recorded sm w content ∨ FreshFits sm w b k content opts)

/-- A failing upload does not get as far as the disk, or misses the files of cached rows. -/
def FailureFits (sm : StorageManager) (w : World) (b k : String) (content : Bytes)
    (opts : StoreOptions) : Prop :=
  Recorded sm w content ∨ FailedUpload.CannotEncrypt sm w opts ∨
    ∀ g ∈ w.db.files.rows, Warm w g → sm.host.target g.filePath ∉ sm.places b k

/-- The condition on each call, in the state it starts in. -/
def StaysCoherent (sm : StorageManager) (w : World) : Event → Prop
  | .storeFile b k content ct opts (.ok _) => UploadFits sm w b k content ct opts
  | .storeFile b k content _ opts (.error _) => FailureFits sm w b k content opts
  | .getFile b k _ => RowSpelledAlike sm w b k
  | .deleteFile b k _ => RowSpelledAlike sm w b k
  | .deleteBucket b (.ok _) => MissesOthers sm b w
  | .sweepExpiredFiles _ =>
    ∀ f ∈ w.db.files.rows, Database.expired w.now f = true → SpelledAlike sm w f
  | _ => True

section Decidable
variable (sm : StorageManager) (w : World) (b k : String) (content : Bytes) (ct : Option String)
  (opts : StoreOptions)

instance : Decidable (Recorded sm w content) :=
  inferInstanceAs (Decidable (_ ∧ ∃ f ∈ w.db.files.rows, _))
instance (existing : StoredFile) : Decidable (AliasFits sm w b k content ct opts existing) :=
  inferInstanceAs (Decidable ((∀ f ∈ w.cache.getFileMetadata b k, _) ∧
    ∀ x ∈ w.cache.getFileContent b k, _))
instance : Decidable (FreshFits sm w b k content opts) :=
  inferInstanceAs (Decidable ((∀ g ∈ w.db.files.rows, _) ∧ _))
instance : Decidable (UploadFits sm w b k content ct opts) :=
  inferInstanceAs (Decidable (_ ∧ (∀ existing ∈ w.db.files.rows, _) ∧ _))
instance : Decidable (FailureFits sm w b k content opts) :=
  inferInstanceAs (Decidable (_ ∨ _ ∨ ∀ g ∈ w.db.files.rows, _))

instance StaysCoherent.decide : (e : Event) → Decidable (StaysCoherent sm w e)
  | .storeFile _ _ _ _ _ (.ok _) => inferInstanceAs (Decidable (UploadFits ..))
  | .storeFile _ _ _ _ _ (.error _) => inferInstanceAs (Decidable (FailureFits ..))
  | .getFile .. | .deleteFile .. => inferInstanceAs (Decidable (RowSpelledAlike ..))
  | .deleteBucket _ (.ok _) => inferInstanceAs (Decidable (MissesOthers ..))
  | .sweepExpiredFiles _ => inferInstanceAs (Decidable (∀ f ∈ w.db.files.rows, _))
  | .deleteBucket _ (.error _) | .getFileRangeIfPlain .. | .getCompressedFileRange ..
  | .evict _ | .tick _ => isTrue trivial

end Decidable

theorem storeFile_sound {content : Bytes} {ct : Option String} {opts : StoreOptions}
    {x : Result StoredFile} (law : sm.lib.toCiphers.Lawful) (hs : Sound sm w)
    (hp : StaysCoherent sm w (.storeFile b k content ct opts x))
    (hrun : (sm.storeFile b k content ct opts).Runs (exec sm.host) w x w') : Sound sm w' := by
  have hrecorded : Recorded sm w content →
      ¬ (sm.config.storage.enableDeduplication = true →
        ∀ f ∈ w.db.files, f.hashBlake3 ≠ sm.lib.blake3 content) := by
    rintro ⟨hdedup, f, hf, hhash⟩ hnew
    exact hnew hdedup f hf hhash
  cases storeFile_spec _ _ hrun with
  | rejected e hk => exact hs.kept hk fun _ _ _ => List.not_mem_nil
  | broken e hnew henc hk =>
    rcases hp with hrec | hcannot | hfree
    · exact absurd hnew (hrecorded hrec)
    · obtain ⟨out, enc, henc⟩ := henc
      exact absurd henc hcannot.not_encrypted
    · exact hs.kept hk hfree
  | identical file _ _ _ _ hk => exact hs.kept hk fun _ _ _ => List.not_mem_nil
  | aliased existing id now hmem hident hhash hdedup ha =>
    obtain ⟨hplain, halias, -⟩ := hp
    obtain ⟨hm, hx⟩ := halias existing hmem hhash hdedup hident
    exact hs.aliased ha hplain hm hx
  | fresh processed enc id now hnew henc hw =>
    obtain ⟨hplain, -, hrec | ⟨hclear, hsize⟩⟩ := hp
    · exact absurd hnew (hrecorded hrec)
    · apply hs.written hw hplain hclear
      rwa [RoundTrip.processed_length law henc]

theorem step_sound {e : Event} (law : sm.lib.toCiphers.Lawful) (hs : Sound sm w)
    (hp : StaysCoherent sm w e) (ht : e.Transition sm w w') : Sound sm w' := by
  cases e with
  | storeFile b k content ct opts x => exact storeFile_sound law hs hp ht
  | getFile b k x => exact getFile_sound hs hp _ _ ht
  | getFileRangeIfPlain b k start stop x => exact getFileRangeIfPlain_sound hs _ _ ht
  | getCompressedFileRange b k start stop x => exact getCompressedFileRange_sound hs _ _ ht
  | deleteFile b k x => exact deleteFile_sound hs hp _ _ ht
  | deleteBucket b x =>
    have hx := deleteBucket_spec _ _ ht
    cases x with
    | ok u => exact hs.bucketDeleted hx hp
    | error e =>
      obtain rfl : w' = w := hx
      exact hs
  | sweepExpiredFiles x =>
    have hsweep : sweepExpiredFiles.Ensures (exec sm.host) (fun _ t => Sound sm t) w := by
      simp only [sweepExpiredFiles, step_eq, Prog.bind_eq, Prog.act_bind, Prog.ret_bind]
      refine ensures_selectExpired (fun _ => hs) fun rank => ?_
      refine sweepFiles_sound hs fun p hmem f hf hident => ?_
      obtain ⟨g, hg, hexp⟩ := Database.mem_selectExpired.mp hmem
      have hfg : f = g := Table.eq_of_key hf (Table.find_mem hg) (hident.trans (Table.find_key hg).symm)
      exact hp f hf (hfg ▸ hexp)
    exact hsweep _ _ ht
  | evict gone =>
    obtain rfl := ht
    exact hs.evict gone
  | tick elapsed =>
    obtain rfl := ht
    exact hs.clock _

theorem Sound.initial (hfiles : w.db.files = Table.empty) (hcache : w.cache = Cache.empty) :
    Sound sm w := by
  constructor
  · intro b k
    apply Coherent.of_none <;> simp [hcache, Cache.empty, Cache.getFileMetadata, Cache.getFileContent]
  · intro f hf
    rw [hfiles] at hf
    exact absurd hf Table.not_mem_empty

theorem run_sound {es : List Event} (law : sm.lib.toCiphers.Lawful)
    (hfiles : w.db.files = Table.empty) (hcache : w.cache = Cache.empty)
    (hrun : SystemRun sm (StaysCoherent sm) w es w') : Sound sm w' :=
  hrun.invariant (Sound.initial hfiles hcache) fun _ _ _ _ hs hp ht => step_sound law hs hp ht

/-- The row an upload answers with is the row of its pair. -/
theorem stored_row {content : Bytes} {ct : Option String} {opts : StoreOptions} {file : StoredFile}
    (hrun : (sm.storeFile b k content ct opts).Runs (exec sm.host) w (.ok file) w') :
    (w'.db.files.find (b, k)).map recipe = some (recipe file) := by
  cases storeFile_spec _ _ hrun with
  | identical file hmem hident hhash hdedup hk =>
    rw [hk.files, ← hident, Table.find_self hmem, Option.map_some]
  | aliased existing id now hmem hident hhash hdedup ha =>
    have hrow := find_put_merged ha.files (b := b) (k := k)
    rw [hrow, aliasedFile_ident, if_pos rfl, Option.map_some, recipe_mergeRow]
  | fresh processed enc id now hnew henc hw =>
    have hrow := find_put_merged hw.files (b := b) (k := k)
    rw [hrow, freshFile_ident, if_pos rfl, Option.map_some, recipe_mergeRow]

open Sample (manager)

def upload (key : String) (content : Bytes) (id : Uuid) : Event × Choice :=
  (.storeFile "a" key content none {} (.error (.io "")), { uuid := id })

def read (key : String) : Event × Choice := (.getFile "a" key (.error (.io "")), {})

/-- An alias is read, and read again after its source is gone. -/
def aliasRead : List (Event × Choice) :=
  [upload "k1" [120] 1, upload "k2" [120] 2, read "k2",
   (.deleteFile "a" "k1" (.error (.io "")), {}), read "k2", upload "k3" [120] 3]

/-- A cached object is overwritten with content that another key already has. -/
def overwriteByAlias : List (Event × Choice) :=
  [upload "k1" [120] 1, upload "k2" [121] 2, upload "k2" [120] 3]

def overwritten : List Event × World := replay manager overwriteByAlias ([], World.empty)

def succeeded : Event → Bool
  | .storeFile _ _ _ _ _ x => x.isOk
  | _ => false

end LocalStorage.Proofs.CacheCoherence
