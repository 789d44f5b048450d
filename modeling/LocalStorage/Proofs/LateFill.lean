import LocalStorage.Proofs.Dialogues
import LocalStorage.Proofs.RoundTrip

namespace LocalStorage.Proofs.LateFill
open Lib Lib.Paths StorageManager RoundTrip

/-! # A reader that fills the cache while a writer changes the key -/

inductive Writer where
  | storeFile (content : Bytes) (contentType : Option String) (opts : StoreOptions)
  | deleteFile

inductive Reader where
  | getFile
  | getFileRangeIfPlain (start stop : Nat)
  | getCompressedFileRange (start stop : Nat)
  | cacheFileFromDisk (file : StoredFile)

namespace Writer

abbrev Answer : Writer → Type
  | storeFile _ _ _ => StoredFile
  | deleteFile => Unit

def op (sm : StorageManager) (b k : String) : (wr : Writer) → Op wr.Answer
  | storeFile content ct opts => sm.storeFile b k content ct opts
  | deleteFile => StorageManager.deleteFile b k

end Writer

namespace Reader

abbrev Answer : Reader → Type
  | getFile => Bytes × Option String
  | getFileRangeIfPlain _ _ => Option (Bytes × String × Nat)
  | getCompressedFileRange _ _ => Option (Bytes × String × Nat)
  | cacheFileFromDisk _ => Nat

def op (sm : StorageManager) (b k : String) : (rd : Reader) → Op rd.Answer
  | getFile => sm.getFile b k
  | getFileRangeIfPlain start stop => StorageManager.getFileRangeIfPlain b k start stop
  | getCompressedFileRange start stop => sm.getCompressedFileRange b k start stop
  | cacheFileFromDisk file => LocalStorage.cacheFileFromDisk file

/-- The preload service hands over a record of the key. -/
def About (b k : String) : Reader → Prop
  | cacheFileFromDisk file => file.bucket = b ∧ file.key = k
  | _ => True

end Reader

abbrev Answer (wr : Writer) (rd : Reader) : Bool → Type
  | true => wr.Answer
  | false => rd.Answer

/-- The writer is thread `true`, the reader thread `false`. -/
def calls (sm : StorageManager) (b k : String) (wr : Writer) (rd : Reader) :
    ∀ i, Op (Answer wr rd i)
  | true => wr.op sm b k
  | false => rd.op sm b k

/-! ## Fills that come in time -/

def byWriter (kind : Action → Bool) (e : Bool × Taken Response) : Bool := e.1 && kind e.2.1

def byReader (kind : Action → Bool) (e : Bool × Taken Response) : Bool := !e.1 && kind e.2.1

def selectsFile : Action → Bool
  | .selectFile _ _ => true
  | _ => false

def readsFile : Action → Bool
  | .readFile _ => true
  | _ => false

def readsElsewhere (path : String) : Action → Bool
  | .readFile p => p ≠ path
  | _ => false

def fillsMetadata : Action → Bool
  | .setFileMetadata _ _ _ => true
  | _ => false

def fillsContent : Action → Bool
  | .setFileContent _ _ _ => true
  | _ => false

/-- No record selected before the writer changed the row is cached after the writer's own
cache step. -/
def MetadataInTime (tr : List (Bool × Taken Response)) : Prop :=
  before (byReader selectsFile) (byWriter Action.writesRow) tr = false ∨
    before (byWriter Action.writesMetadata) (byReader fillsMetadata) tr = false

/-- Content is cached before the writer caches its own, or is read from the written path
after the write. -/
def ContentInTime (path : String) (tr : List (Bool × Taken Response)) : Prop :=
  (before (byReader readsFile) (byWriter Action.writesFile) tr = false ∧
      ∀ e ∈ tr, byReader (readsElsewhere path) e = false) ∨
    before (byWriter fillsContent) (byReader fillsContent) tr = false

/-- The reader neither takes away what the writer stored nor fills the cache too late. -/
structure StoreInTime (path : String) (tr : List (Bool × Taken Response)) : Prop where
  bytes : before (byWriter Action.writesFile) (byReader Action.writesFile) tr = false
  row : before (byWriter Action.writesRow) (byReader Action.writesRow) tr = false
  metadata : MetadataInTime tr
  content : ContentInTime path tr

/-- The writer removed the file. -/
def Unlinked (tr : List (Bool × Taken Response)) : Prop :=
  ∃ path, (true, (⟨.removeFile path, (.ok () : Except IoError Unit)⟩ : Taken Response)) ∈ tr

def InTime (sm : StorageManager) (b k : String) (tr : List (Bool × Taken Response)) :
    Writer → Prop
  | .storeFile _ _ _ => StoreInTime (sm.getFilePath b k) tr
  | .deleteFile => MetadataInTime tr ∨ Unlinked tr

/-- An upload that writes a file, which readers can decode and the cache can hold. -/
def Plain (sm : StorageManager) (tr : List (Bool × Taken Response)) : Writer → Prop
  | .storeFile content _ opts =>
    (∃ st ∈ project true tr, st.1.writesFile = true) ∧
      (sm.config.compression.enabled = true ∨ (sm.compressStage opts content).2 = false) ∧
      processedSize sm opts content ≤ Cache.maxCacheSize
  | .deleteFile => True

/-- Every later read goes by what the writer did. -/
def Settled (sm : StorageManager) (b k : String) (t : World) : Writer → Prop
  | .storeFile content _ _ => RoundTrips sm b k content t
  | .deleteFile => ∀ u, Later sm b k t u → (∀ l, u.fs.fileAt l = t.fs.fileAt l) →
      served sm u b k = .error (.notFound b k)

section
variable {sm : StorageManager} {b k : String} {wr : Writer} {rd : Reader} {w t u : World}
  {tr t₁ t₂ : List (Bool × Taken Response)} {x : ∀ i, Result (Answer wr rd i)}

/-! ## What the reader fetched -/

theorem reader_dialogue (hrd : rd.About b k) :
    (rd.op sm b k).Throughout record (ReaderStep b k) [] := by
  cases rd with
  | getFile => exact getFile_dialogue
  | getFileRangeIfPlain start stop => exact getFileRangeIfPlain_dialogue start stop
  | getCompressedFileRange start stop => exact getCompressedFileRange_dialogue start stop
  | cacheFileFromDisk file =>
    obtain ⟨rfl, rfl⟩ := hrd
    exact cacheFileFromDisk_dialogue file

theorem reader_step (hrun : Interleaving (exec sm.host) (calls sm b k wr rd) w tr x t)
    (hrd : rd.About b k) {st : Taken Response} (htr : tr = t₁ ++ (false, st) :: t₂) :
    ReaderStep b k st.1 (project false t₁) := by
  have hsplit : project false tr = project false t₁ ++ st :: project false t₂ := by
    rw [htr, project_append, project_cons_self]
  exact (hrun.thread false).at (reader_dialogue hrd) hsplit

/-- A record goes into the cache after it was selected. -/
theorem fill_selected (hrun : Interleaving (exec sm.host) (calls sm b k wr rd) w tr x t)
    (hrd : rd.About b k) {b' k' : String} {f : StoredFile} {r : Result Unit}
    (htr : tr = t₁ ++ (false, ⟨.setFileMetadata b' k' f, r⟩) :: t₂) :
    b' = b ∧ k' = k ∧ ∃ a c, t₁ = a ++ (false, ⟨.selectFile b k,
      (.ok (some f) : Query (Option StoredFile))⟩) :: c := by
  obtain ⟨hb, hk, r', hpast⟩ := reader_step hrun hrd htr
  have hsplit : project false t₁ = [⟨.getFileMetadata b k, r'⟩] ++
      ⟨.selectFile b k, (.ok (some f) : Query (Option StoredFile))⟩ :: [] := hpast
  obtain ⟨a, c, ha, -, -⟩ := project_split hsplit
  exact ⟨hb, hk, a, c, ha⟩

/-- Content goes into the cache after it was read. -/
theorem fill_read (hrun : Interleaving (exec sm.host) (calls sm b k wr rd) w tr x t)
    (hrd : rd.About b k) {b' k' : String} {raw : Bytes} {r : Result Unit}
    (htr : tr = t₁ ++ (false, ⟨.setFileContent b' k' raw, r⟩) :: t₂) :
    b' = b ∧ k' = k ∧ ∃ a p c,
      t₁ = a ++ (false, ⟨.readFile p, (.ok raw : Except IoError Bytes)⟩) :: c ∧
      ∀ f r, (false, (⟨.setFileMetadata b k f, r⟩ : Taken Response)) ∈ a → p = f.filePath := by
  obtain ⟨hb, hk, l, p, hpast, hpath⟩ := reader_step hrun hrd htr
  have hsplit : project false t₁ = l ++ ⟨.readFile p, (.ok raw : Except IoError Bytes)⟩ :: [] := hpast
  obtain ⟨a, c, ha, hl, -⟩ := project_split hsplit
  refine ⟨hb, hk, a, p, c, ha, fun f r hm => hpath f r ?_⟩
  rw [← hl]
  exact mem_project.mpr hm

/-! ## What holds from a writer's step on -/

/-- What the writer's only step of a kind establishes stays when the reader takes no step of
that kind after it. -/
theorem kept_after {kind : Action → Bool} {I : World → Prop} {st : Taken Response}
    (hsole : Sole kind st (project true tr))
    (hbefore : before (byWriter kind) (byReader kind) tr = false) (hk : kind st.1 = true)
    (hest : ∀ u v, Takes (exec sm.host) u st v → I v)
    (hframe : ∀ (st' : Taken Response) u v, Takes (exec sm.host) u st' v → kind st'.1 = false →
      I u → I v)
    (hpre : t₁ <+: tr) (hmem : (true, st) ∈ t₁)
    (hsteps : Steps (exec sm.host) w (t₁.map Prod.snd) u) : I u := by
  obtain ⟨t₂, rfl⟩ := hpre
  refine hsteps.established hmem hest fun l₁ e l₂ hsplit hin u v huv hu => ?_
  subst hsplit
  obtain ⟨i, st'⟩ := e
  cases hkind : kind st'.1 with
  | false => exact hframe st' u v huv hkind hu
  | true =>
    cases i with
    | true =>
      have hst : st' = st := hsole.only st' (mem_project.mpr (by simp)) hkind
      exact hest u v (hst ▸ huv)
    | false =>
      obtain ⟨p, q, rfl⟩ := List.append_of_mem hin
      simp only [List.append_assoc, List.cons_append] at hbefore
      have hlate : before (byWriter kind) (byReader kind)
          (p ++ (true, st) :: (q ++ (false, st') :: (l₂ ++ t₂))) = true :=
        before_of_split (y := (false, st')) (by simp [byWriter, hk]) (by simp)
          (by simp [byReader, hkind])
      simp [hlate] at hbefore

/-- A fill that comes after the writer's last cache step is late. -/
theorem fills_late {settle fill : Action → Bool} {put set : Taken Response}
    (hput : fill put.1 = true) (hset : (true, set) ∈ t₁ ++ (false, put) :: t₂)
    (hlast : (true, set) ∉ t₂) (hsettle : settle set.1 = true) :
    before (byWriter settle) (byReader fill) (t₁ ++ (false, put) :: t₂) = true := by
  have hleft : (true, set) ∈ t₁ := by simpa [hlast] using hset
  obtain ⟨l₁, l₂, rfl⟩ := List.append_of_mem hleft
  have hput' : byReader fill (false, put) = true := by simp [byReader, hput]
  rw [List.append_assoc, List.cons_append]
  exact before_of_split (by simp [byWriter, hsettle]) (by simp) hput'

/-- What is fetched when nothing is fetched before the change is fetched after it. -/
theorem fetched_after {fetch change : Action → Bool} {p q : List (Bool × Taken Response)}
    {got st : Taken Response}
    (hin : before (byReader fetch) (byWriter change) ((p ++ (false, got) :: q) ++ t₂) = false)
    (hgot : fetch got.1 = true) (hst : (true, st) ∈ (p ++ (false, got) :: q) ++ t₂)
    (hchange : change st.1 = true) : (true, st) ∈ p := by
  rw [List.append_assoc, List.cons_append] at hin hst
  exact mem_left_of_not_before hin (by simp [byReader, hgot]) hst (by simp [byWriter, hchange])
    (by simp)

/-! ## An upload and a reader -/

section Stores
variable {content : Bytes} {ct : Option String} {opts : StoreOptions} {file : StoredFile}
  {processed : Bytes} {y : ∀ i, Result (Answer (.storeFile content ct opts) rd i)}

theorem row_after (hl : Landed sm b k content ct opts file processed (project true tr))
    (hin : StoreInTime (sm.getFilePath b k) tr) (hpre : t₁ <+: tr)
    (hmem : (true, (⟨.upsertFile file, (.ok () : Query Unit)⟩ : Taken Response)) ∈ t₁)
    (hsteps : Steps (exec sm.host) w (t₁.map Prod.snd) u) :
    (u.db.files.find (b, k)).map recipe = some (recipe file) := by
  have hident : file.ident = (b, k) := by
    obtain ⟨enc, id, now, rfl, -⟩ := hl.record
    rfl
  refine kept_after (I := fun u => (u.db.files.find (b, k)).map recipe = some (recipe file))
    hl.upserted hin.row rfl ?_ ?_ hpre hmem hsteps
  · intro u v huv
    rw [← hident, takes_upsertFile huv, Option.map_some, recipe_mergeRow]
  · intro st u v huv hk hu
    rw [takes_recipe huv hk]
    exact hu

theorem bytes_after (hl : Landed sm b k content ct opts file processed (project true tr))
    (hin : StoreInTime (sm.getFilePath b k) tr) (hpre : t₁ <+: tr)
    (hmem : (true, (⟨.writeFileAtomic (sm.getFilePath b k) processed,
      (.ok () : Except IoError Unit)⟩ : Taken Response)) ∈ t₁)
    (hsteps : Steps (exec sm.host) w (t₁.map Prod.snd) u) :
    u.bytesAt sm.host (sm.getFilePath b k) = some processed := by
  refine kept_after (I := fun u => u.bytesAt sm.host (sm.getFilePath b k) = some processed)
    hl.wrote hin.bytes rfl (fun u v huv => takes_writeFileAtomic huv) ?_ hpre hmem hsteps
  intro st u v huv hk hu
  rw [takes_bytesAt huv hk]
  exact hu

/-- What is cached at the end is nothing or reads like the upload's record. -/
theorem metadata_settled
    (hrun : Interleaving (exec sm.host) (calls sm b k (.storeFile content ct opts) rd) w tr y t)
    (hrd : rd.About b k) (hl : Landed sm b k content ct opts file processed (project true tr))
    (hin : StoreInTime (sm.getFilePath b k) tr) :
    t.cache.getFileMetadata b k = none ∨
      (t.cache.getFileMetadata b k).map recipe = some (recipe file) := by
  obtain ⟨r, hsole⟩ := hl.cachedMetadata
  have hmem := mem_project.mp hsole.mem
  rcases exists_last (fun e => e.2.1.writesMetadata) tr with hnone | ⟨t₁, e, t₂, rfl, he, hlast⟩
  · simpa [Action.writesMetadata] using hnone _ hmem
  obtain ⟨u, v, hu, hv, hkeep⟩ := hrun.steps.after (fun w => w.cache.getFileMetadata b k)
    fun e' he' u v huv => takes_getFileMetadata huv (hlast e' he') b k
  rw [hkeep, takes_cache hv]
  obtain ⟨i, a, ra⟩ := e
  cases i with
  | true =>
    have hst := hsole.only ⟨a, ra⟩ (mem_project.mpr (by simp)) he
    obtain rfl : a = .setFileMetadata b k file := congrArg Sigma.fst hst
    refine .inr ?_
    simp [Action.onCache, Cache.getFileMetadata_setFileMetadata, Cache.SameSlot.refl]
  | false =>
    cases a with
    | invalidateFile b' k' =>
      obtain ⟨rfl, rfl⟩ := reader_step hrun hrd rfl
      refine .inl ?_
      simp [Action.onCache, Cache.getFileMetadata_invalidateFile, Cache.SameSlot.refl]
    | setFileMetadata b' k' f =>
      obtain ⟨rfl, rfl, p, q, rfl⟩ := fill_selected hrun hrd rfl
      refine .inr ?_
      simp only [Action.onCache, Cache.getFileMetadata_setFileMetadata, Cache.SameSlot.refl,
        ↓reduceIte, Option.map_some]
      have hlate := fills_late (rfl : fillsMetadata _ = true) hmem
        (fun hm => by simpa [Action.writesMetadata] using hlast _ hm)
        (rfl : Action.writesMetadata _ = true)
      have hselect := hin.metadata.resolve_right (by rw [hlate]; decide)
      have hleft := fetched_after hselect rfl (mem_project.mp hl.upserted.mem) rfl
      obtain ⟨v', u', hv', hu', -⟩ := hu.at_split
      have hrow := row_after hl hin ((List.prefix_append p _).trans (List.prefix_append _ _)) hleft hv'
      rwa [← Database.selectFile, ← takes_selectFile hu', Option.map_some] at hrow
    | _ => simp [Action.writesMetadata] at he

/-- What is cached at the end is nothing or the upload's bytes. -/
theorem content_settled
    (hrun : Interleaving (exec sm.host) (calls sm b k (.storeFile content ct opts) rd) w tr y t)
    (hrd : rd.About b k) (hl : Landed sm b k content ct opts file processed (project true tr))
    (hin : StoreInTime (sm.getFilePath b k) tr) (hsize : processed.length ≤ Cache.maxCacheSize) :
    t.cache.getFileContent b k = none ∨ t.cache.getFileContent b k = some processed := by
  obtain ⟨r, hsole⟩ := hl.cachedContent
  have hmem := mem_project.mp hsole.mem
  have hkind : (Action.setFileContent b k processed).writesContent = true := by
    simpa [Action.writesContent] using hsize
  rcases exists_last (fun e => e.2.1.writesContent) tr with hnone | ⟨t₁, e, t₂, rfl, he, hlast⟩
  · simpa [hkind] using hnone _ hmem
  obtain ⟨u, v, hu, hv, hkeep⟩ := hrun.steps.after (fun w => w.cache.getFileContent b k)
    fun e' he' u v huv => takes_getFileContent huv (hlast e' he') b k
  rw [hkeep, takes_cache hv]
  obtain ⟨i, a, ra⟩ := e
  cases i with
  | true =>
    have hst := hsole.only ⟨a, ra⟩ (mem_project.mpr (by simp)) he
    obtain rfl : a = .setFileContent b k processed := congrArg Sigma.fst hst
    refine .inr ?_
    simp [Action.onCache, Cache.getFileContent_setFileContent hsize, Cache.SameSlot.refl]
  | false =>
    cases a with
    | invalidateFile b' k' =>
      obtain ⟨rfl, rfl⟩ := reader_step hrun hrd rfl
      refine .inl ?_
      simp [Action.onCache, Cache.getFileContent_invalidateFile, Cache.SameSlot.refl]
    | setFileContent b' k' raw =>
      obtain ⟨rfl, rfl, p, path, q, rfl, -⟩ := fill_read hrun hrd rfl
      refine .inr ?_
      have hfits : raw.length ≤ Cache.maxCacheSize := by simpa [Action.writesContent] using he
      simp only [Action.onCache, Cache.getFileContent_setFileContent hfits, Cache.SameSlot.refl,
        ↓reduceIte, Option.some.injEq]
      have hlate := fills_late (rfl : fillsContent _ = true) hmem
        (fun hm => by simpa [hkind] using hlast _ hm) (rfl : fillsContent _ = true)
      obtain ⟨hread, helse⟩ := hin.content.resolve_right (by rw [hlate]; decide)
      have hleft := fetched_after hread rfl (mem_project.mp hl.wrote.mem) rfl
      have hpath : path = sm.getFilePath b' k' := by
        simpa [byReader, readsElsewhere] using
          helse (false, ⟨.readFile path, (.ok raw : Except IoError Bytes)⟩) (by simp)
      obtain ⟨v', u', hv', hu', -⟩ := hu.at_split
      have hbytes := bytes_after hl hin ((List.prefix_append p _).trans (List.prefix_append _ _))
        hleft hv'
      rw [← hpath, takes_readFile hu'] at hbytes
      simpa using hbytes
    | _ => simp [Action.writesContent] at he

theorem settled_store (lawC : sm.lib.toCodecs.Lawful) (lawE : sm.lib.toCiphers.Lawful)
    (hrun : Interleaving (exec sm.host) (calls sm b k (.storeFile content ct opts) rd) w tr y t)
    (hok : y true = .ok file) (hrd : rd.About b k) (hplain : Plain sm tr (.storeFile content ct opts))
    (hin : StoreInTime (sm.getFilePath b k) tr) : RoundTrips sm b k content t := by
  obtain ⟨hwrites, hswitch, hsize⟩ := hplain
  have hwriter : (sm.storeFile b k content ct opts).Runs record [] (.ok file) (project true tr) := by
    have hthread := hrun.thread true
    rwa [hok] at hthread
  obtain ⟨processed, hl⟩ := storeFile_landed hwriter hwrites
  obtain ⟨enc, id, now, hfile, henc⟩ := hl.record
  have henc := henc w.db (keysFrom_project hrun true)
  obtain rfl := encrypted_flag henc
  have hrecipe : recipe file = recipe (uploadRecord sm b k content ct opts) := by
    rw [hfile]
    rfl
  have hlen : processed.length ≤ Cache.maxCacheSize := by rwa [processed_length lawE henc]
  have hrow := row_after hl hin (List.prefix_refl tr) (mem_project.mp hl.upserted.mem) hrun.steps
  have hbytes := bytes_after hl hin (List.prefix_refl tr) (mem_project.mp hl.wrote.mem) hrun.steps
  have hkeys : t.db.encryptionKeys = w.db.encryptionKeys :=
    hrun.steps.keep (fun w => w.db.encryptionKeys) fun _ _ _ _ ht => takes_encryptionKeys ht
  -- the world with both entries as the upload set them
  let warm : World :=
    { t with cache := (t.cache.setFileMetadata b k file).setFileContent b k processed }
  have hmeta : warm.cache.getFileMetadata b k = some file := by
    simp [warm, Cache.getFileMetadata_setFileMetadata, Cache.SameSlot.refl]
  have hcontent : warm.cache.getFileContent b k = some processed := by
    simp [warm, Cache.getFileContent_setFileContent hlen, Cache.SameSlot.refl]
  have hwarmed : Warmed sm w b k content ct opts warm processed := {
    row := by
      rw [hrecipe, Option.map_eq_some_iff] at hrow
      exact hrow
    disk := hbytes
    keys := hkeys
    metadata := by rw [hmeta, Option.map_some, hrecipe]
    cached := by rw [hcontent, if_pos hlen]
    encrypted := henc }
  have hround := (hwarmed.round_trips_iff lawC lawE).mpr ⟨hswitch, .inl hsize⟩
  have hdb : t.db = warm.db := rfl
  have hfs : t.fs = warm.fs := rfl
  intro u hu
  apply hround u
  apply hu.of_cache hdb hfs
  · rw [hmeta]
    exact metadata_settled hrun hrd hl hin
  · rw [hcontent]
    exact content_settled hrun hrd hl hin hlen

end Stores

/-! ## A deletion and a reader -/

section Deletes
variable {path : String} {y : ∀ i, Result (Answer .deleteFile rd i)}

/-- A reader writes no row. -/
theorem row_gone
    (hrun : Interleaving (exec sm.host) (calls sm b k .deleteFile rd) w tr y t)
    (hrd : rd.About b k) (hr : Removed b k path (project true tr)) (hpre : t₁ <+: tr)
    (hmem : (true, (⟨.deleteFileRow b k, (.ok () : Query Unit)⟩ : Taken Response)) ∈ t₁)
    (hsteps : Steps (exec sm.host) w (t₁.map Prod.snd) u) : u.db.files.find (b, k) = none := by
  obtain ⟨t₂, rfl⟩ := hpre
  refine hsteps.established hmem (fun u v huv => takes_deleteFileRow huv) ?_
  rintro l₁ ⟨i, a, r⟩ l₂ rfl - u v huv hu
  cases hk : a.writesRow with
  | false =>
    have hrow := takes_recipe huv hk b k
    rwa [hu, Option.map_none, Option.map_eq_none_iff] at hrow
  | true =>
    cases i with
    | true =>
      have hst := hr.deleted.only ⟨a, r⟩ (mem_project.mpr (by simp)) hk
      exact takes_deleteFileRow (hst ▸ huv)
    | false =>
      have hstep := reader_step hrun hrd (List.append_assoc l₁ ((false, ⟨a, r⟩) :: l₂) t₂)
      cases a with
      | upsertFile f => exact hstep.elim
      | deleteBucketRow b' => exact hstep.elim
      | deleteFileRow b' k' => exact takes_deleteFileRow_none huv hu
      | _ => simp [Action.writesRow] at hk

/-- A reader writes no file. -/
theorem bytes_gone
    (hrun : Interleaving (exec sm.host) (calls sm b k .deleteFile rd) w tr y t)
    (hrd : rd.About b k) (hr : Removed b k path (project true tr)) (hpre : t₁ <+: tr)
    (hmem : (true, (⟨.removeFile path, (.ok () : Except IoError Unit)⟩ : Taken Response)) ∈ t₁)
    (hsteps : Steps (exec sm.host) w (t₁.map Prod.snd) u) : u.bytesAt sm.host path = none := by
  obtain ⟨t₂, rfl⟩ := hpre
  refine hsteps.established hmem (fun u v huv => takes_removeFile huv) ?_
  rintro l₁ ⟨i, a, r⟩ l₂ rfl - u v huv hu
  cases hk : a.writesFile with
  | false => rwa [takes_bytesAt huv hk]
  | true =>
    cases i with
    | true =>
      obtain rfl : a = .removeFile path := hr.unlinks ⟨a, r⟩ (mem_project.mpr (by simp)) hk
      exact takes_removeFile_none huv hu
    | false =>
      have hstep := reader_step hrun hrd (List.append_assoc l₁ ((false, ⟨a, r⟩) :: l₂) t₂)
      cases a with
      | writeFileAtomic p x => exact hstep.elim
      | removeDirAll p => exact hstep.elim
      | removeFile p => exact takes_removeFile_none huv hu
      | _ => simp [Action.writesFile] at hk

/-- A record still cached at the end was selected before the row was deleted and cached
after the entries were dropped. -/
structure Stale (b k : String) (f : StoredFile) (tr p q t₂ : List (Bool × Taken Response)) : Prop where
  split : ∃ r, tr = (p ++ (false, ⟨.selectFile b k,
    (.ok (some f) : Query (Option StoredFile))⟩) :: q) ++ (false, ⟨.setFileMetadata b k f, r⟩) :: t₂
  asked : ∃ r, project false p = [⟨.getFileMetadata b k, r⟩]
  next : project false q = []
  undeleted : (true, (⟨.deleteFileRow b k, (.ok () : Query Unit)⟩ : Taken Response)) ∉ p
  last : ∀ e ∈ t₂, e.2.1.writesMetadata = false

theorem metadata_removed
    (hrun : Interleaving (exec sm.host) (calls sm b k .deleteFile rd) w tr y t)
    (hrd : rd.About b k) (hr : Removed b k path (project true tr)) :
    t.cache.getFileMetadata b k = none ∨
      ∃ f p q t₂, Stale b k f tr p q t₂ ∧ t.cache.getFileMetadata b k = some f := by
  obtain ⟨r, hsole⟩ := hr.invalidated
  have hmem := mem_project.mp hsole.mem
  rcases exists_last (fun e => e.2.1.writesMetadata) tr with hnone | ⟨t₁, e, t₂, rfl, he, hlast⟩
  · simpa [Action.writesMetadata] using hnone _ hmem
  obtain ⟨u, v, hu, hv, hkeep⟩ := hrun.steps.after (fun w => w.cache.getFileMetadata b k)
    fun e' he' u v huv => takes_getFileMetadata huv (hlast e' he') b k
  rw [hkeep, takes_cache hv]
  obtain ⟨i, a, ra⟩ := e
  cases i with
  | true =>
    have hst := hsole.only ⟨a, ra⟩ (mem_project.mpr (by simp)) he
    obtain rfl : a = .invalidateFile b k := congrArg Sigma.fst hst
    refine .inl ?_
    simp [Action.onCache, Cache.getFileMetadata_invalidateFile, Cache.SameSlot.refl]
  | false =>
    cases a with
    | invalidateFile b' k' =>
      obtain ⟨rfl, rfl⟩ := reader_step hrun hrd rfl
      refine .inl ?_
      simp [Action.onCache, Cache.getFileMetadata_invalidateFile, Cache.SameSlot.refl]
    | setFileMetadata b' k' f =>
      obtain ⟨rfl, rfl, r', hpast⟩ := reader_step hrun hrd rfl
      have hsplit : project false t₁ = [⟨.getFileMetadata b' k', r'⟩] ++
          ⟨.selectFile b' k', (.ok (some f) : Query (Option StoredFile))⟩ :: [] := hpast
      obtain ⟨p, q, rfl, hp, hq⟩ := project_split hsplit
      obtain ⟨v', u', hv', hu', -⟩ := hu.at_split
      refine .inr ⟨f, p, q, t₂, ⟨⟨ra, rfl⟩, ⟨r', hp⟩, hq, fun hdel => ?_, hlast⟩, ?_⟩
      · have hgone := row_gone hrun hrd hr ((List.prefix_append p _).trans (List.prefix_append _ _))
          hdel hv'
        have hsel := takes_selectFile hu'
        simp [Database.selectFile, hgone] at hsel
      · simp [Action.onCache, Cache.getFileMetadata_setFileMetadata, Cache.SameSlot.refl]
    | _ => simp [Action.writesMetadata] at he

namespace Stale

variable {f : StoredFile} {p q : List (Bool × Taken Response)}

theorem late (h : Stale b k f tr p q t₂) (hr : Removed b k path (project true tr)) :
    ¬ MetadataInTime tr := by
  intro hin
  obtain ⟨r, hsole⟩ := hr.invalidated
  have hmem := mem_project.mp hsole.mem
  have hdel := mem_project.mp hr.deleted.mem
  obtain ⟨r', rfl⟩ := h.split
  have hlate := fills_late (rfl : fillsMetadata _ = true) hmem
    (fun hm => by simpa [Action.writesMetadata] using h.last _ hm)
    (rfl : Action.writesMetadata _ = true)
  have hselect := hin.resolve_right (by rw [hlate]; decide)
  exact h.undeleted (fetched_after hselect rfl hdel rfl)

/-- What the reader has done up to the late fill. -/
theorem reader (h : Stale b k f tr p q t₂) : ∃ r r', tr = (p ++ (false, ⟨.selectFile b k,
      (.ok (some f) : Query (Option StoredFile))⟩) :: q ++ [(false, ⟨.setFileMetadata b k f, r⟩)]) ++ t₂ ∧
    project false (p ++ (false, ⟨.selectFile b k,
      (.ok (some f) : Query (Option StoredFile))⟩) :: q ++ [(false, ⟨.setFileMetadata b k f, r⟩)]) =
      [⟨.getFileMetadata b k, r'⟩, ⟨.selectFile b k, (.ok (some f) : Query (Option StoredFile))⟩,
        ⟨.setFileMetadata b k f, r⟩] := by
  obtain ⟨r, hr⟩ := h.split
  obtain ⟨r', hp⟩ := h.asked
  refine ⟨r, r', by simp [hr], ?_⟩
  rw [project_append, project_append, project_cons_self, hp, h.next, project_cons_self]
  rfl

/-- Before the deletion only access counters change in the row. -/
theorem row_before (hr : Removed b k path (project true tr)) {l : List (Bool × Taken Response)}
    (hpre : l <+: tr)
    (hdel : (true, (⟨.deleteFileRow b k, (.ok () : Query Unit)⟩ : Taken Response)) ∉ l)
    (hreader : ∀ st ∈ project false l, st.1.writesRow = false)
    (hsteps : Steps (exec sm.host) w (l.map Prod.snd) u) :
    (u.db.files.find (b, k)).map recipe = (w.db.files.find (b, k)).map recipe := by
  refine hsteps.keep (fun w => (w.db.files.find (b, k)).map recipe) fun st hst u v huv => ?_
  obtain ⟨⟨i, st⟩, he, rfl⟩ := List.mem_map.mp hst
  refine takes_recipe huv ?_ b k
  cases hk : st.1.writesRow with
  | false => rfl
  | true =>
    cases i with
    | false => simp [hreader st (mem_project.mpr he)] at hk
    | true =>
      have hst := hr.deleted.only st (mem_project.mpr (hpre.subset he)) hk
      exact absurd (hst ▸ he) hdel

theorem dropped (hr : Removed b k path (project true tr)) (h : Stale b k f tr p q t₂) :
    ∃ r, (true, (⟨.invalidateFile b k, r⟩ : Taken Response)) ∈ p ++ (false, ⟨.selectFile b k,
      (.ok (some f) : Query (Option StoredFile))⟩) :: q := by
  obtain ⟨r, hsole⟩ := hr.invalidated
  have hmem := mem_project.mp hsole.mem
  have hlast : (true, (⟨.invalidateFile b k, r⟩ : Taken Response)) ∉ t₂ := by
    intro hm
    simpa [Action.writesMetadata] using h.last _ hm
  obtain ⟨r', rfl⟩ := h.split
  refine ⟨r, ?_⟩
  simpa [hlast] using hmem

/-- The stale record is of the file the deletion goes by. -/
theorem filePath
    (hrun : Interleaving (exec sm.host) (calls sm b k .deleteFile rd) w tr y t)
    (hr : Removed b k path (project true tr)) (h : Stale b k f tr p q t₂) : f.filePath = path := by
  obtain ⟨r, hsplit⟩ := h.split
  -- where the reader selects the row
  have hsel : tr = p ++ (false, ⟨.selectFile b k, (.ok (some f) : Query (Option StoredFile))⟩) ::
      (q ++ (false, ⟨.setFileMetadata b k f, r⟩) :: t₂) := by simp [hsplit]
  obtain ⟨u, u', hu, hu', -⟩ := Steps.at_split (hsel ▸ hrun.steps)
  have hrow : (u.db.files.find (b, k)).map recipe = (w.db.files.find (b, k)).map recipe := by
    obtain ⟨r', hp⟩ := h.asked
    refine row_before hr ⟨_, hsel.symm⟩ h.undeleted ?_ hu
    rw [hp]
    simp [Action.writesRow]
  rw [← Database.selectFile, ← takes_selectFile hu', Option.map_some] at hrow
  -- where the writer selects the path
  obtain ⟨l, hl⟩ := hr.first
  obtain ⟨a, c, hpath, ha, -⟩ := project_split hl
  obtain ⟨v, v', hv, hv', -⟩ := Steps.at_split (hpath ▸ hrun.steps)
  have hnone : ∀ st, (true, st) ∉ a := fun st hm => by simpa [ha] using mem_project.mpr hm
  have hleft : a <+: p ++ (false, ⟨.selectFile b k,
      (.ok (some f) : Query (Option StoredFile))⟩) :: q := by
    obtain ⟨r', hdropped⟩ := h.dropped hr
    obtain ⟨j₁, j₂, hj⟩ := List.append_of_mem hdropped
    have hwhole : tr = j₁ ++ (true, ⟨.invalidateFile b k, r'⟩) ::
        (j₂ ++ (false, ⟨.setFileMetadata b k f, r⟩) :: t₂) := by simp [hsplit, hj]
    have hj₁ := prefix_of_not_mem ⟨_, hpath.symm⟩ hwhole (hnone _)
    rw [hj]
    exact hj₁.trans (List.prefix_append _ _)
  have hrow' : (v.db.files.find (b, k)).map recipe = (w.db.files.find (b, k)).map recipe := by
    refine row_before hr ⟨_, hpath.symm⟩ (hnone _) ?_ hv
    intro st hst
    have hin := mem_project.mpr (hleft.subset (mem_project.mp hst))
    obtain ⟨r', hp⟩ := h.asked
    rw [project_append, project_cons_self, hp, h.next] at hin
    simp only [List.cons_append, List.nil_append, List.mem_cons, List.not_mem_nil, or_false] at hin
    rcases hin with rfl | rfl <;> rfl
  rw [← hrow, Option.map_eq_some_iff] at hrow'
  obtain ⟨g, hg, hgf⟩ := hrow'
  have hgpath := takes_selectFilePath hv'
  rw [Database.selectFile, hg, Option.map_some, Option.some.injEq] at hgpath
  rw [hgpath, (recipe_eq.mp hgf).1]

/-- Where the file is unlinked, that happens before the late fill. -/
theorem unlinked (hr : Removed b k path (project true tr)) (h : Stale b k f tr p q t₂)
    {st : Taken Response} (hst : (true, st) ∈ tr) (hne : st.1 ≠ .invalidateFile b k) :
    (true, st) ∈ p ++ (false, ⟨.selectFile b k,
      (.ok (some f) : Query (Option StoredFile))⟩) :: q := by
  obtain ⟨r, hsplit⟩ := h.split
  obtain ⟨r', hdropped⟩ := h.dropped hr
  obtain ⟨j₁, j₂, hj⟩ := List.append_of_mem hdropped
  have hwhole : tr = j₁ ++ (true, ⟨.invalidateFile b k, r'⟩) ::
      (j₂ ++ (false, ⟨.setFileMetadata b k f, r⟩) :: t₂) := by simp [hsplit, hj]
  have hafter : project true (j₂ ++ (false, ⟨.setFileMetadata b k f, r⟩) :: t₂) = [] := by
    have hlast : project true tr = project true j₁ ++ ⟨.invalidateFile b k, r'⟩ ::
        project true (j₂ ++ (false, ⟨.setFileMetadata b k f, r⟩) :: t₂) := by
      rw [hwhole, project_append, project_cons_self]
    exact hr.last hlast
  rw [hwhole] at hst
  rcases List.mem_append.mp hst with hst | hst
  · rw [hj]
    exact List.mem_append_left _ hst
  · exfalso
    rcases List.mem_cons.mp hst with hst | hst
    · simp only [Prod.mk.injEq, true_and] at hst
      exact hne (congrArg Sigma.fst hst)
    · have hin := mem_project.mpr hst
      rw [hafter] at hin
      exact absurd hin List.not_mem_nil

/-- With the file gone the reader had no content left to cache. -/
theorem uncached
    (hrun : Interleaving (exec sm.host) (calls sm b k .deleteFile rd) w tr y t)
    (hrd : rd.About b k) (hr : Removed b k path (project true tr)) (h : Stale b k f tr p q t₂)
    (hun : (true, (⟨.removeFile path, (.ok () : Except IoError Unit)⟩ : Taken Response)) ∈ tr) :
    t.cache.getFileContent b k = none := by
  rcases exists_last (fun e => e.2.1.writesContent) tr with hnone | ⟨l, e, l', htr, he, hlast⟩
  · obtain ⟨r, hsole⟩ := hr.invalidated
    simpa [Action.writesContent] using hnone _ (mem_project.mp hsole.mem)
  have hsteps := hrun.steps
  rw [htr] at hsteps
  obtain ⟨u, v, hu, hv, hkeep⟩ := hsteps.after (fun w : World => w.cache.getFileContent b k)
    fun e' he' u v huv => takes_getFileContent huv (hlast e' he') b k
  rw [hkeep, takes_cache hv]
  obtain ⟨i, a, ra⟩ := e
  cases i with
  | true =>
    obtain rfl : a = .invalidateFile b k := hr.invalidates ⟨a, ra⟩ (mem_project.mpr (by simp [htr])) he
    simp [Action.onCache, Cache.getFileContent_invalidateFile, Cache.SameSlot.refl]
  | false =>
    cases a with
    | invalidateFile b' k' =>
      obtain ⟨rfl, rfl⟩ := reader_step hrun hrd htr
      simp [Action.onCache, Cache.getFileContent_invalidateFile, Cache.SameSlot.refl]
    | setFileContent b' k' raw =>
      exfalso
      obtain ⟨rfl, rfl, a, p', c, rfl, hpath⟩ := fill_read hrun hrd htr
      obtain ⟨r, r', hupto, hreader⟩ := h.reader
      have hread : tr = a ++ (false, ⟨.readFile p', (.ok raw : Except IoError Bytes)⟩) ::
          (c ++ (false, ⟨.setFileContent b' k' raw, ra⟩) :: l') := by simp [htr]
      -- the late fill comes before the content is read
      have hbefore := prefix_of_not_mem ⟨_, hupto.symm⟩ hread (by
        intro hm
        have hin := mem_project.mpr hm
        rw [hreader] at hin
        simp at hin)
      have hfile : p' = path := by
        rw [hpath f r (hbefore.subset (by simp)), h.filePath hrun hr]
      have hgone : (true, (⟨.removeFile path, (.ok () : Except IoError Unit)⟩ : Taken Response)) ∈ a :=
        hbefore.subset (List.mem_append_left _ (h.unlinked hr hun (by simp)))
      obtain ⟨v, v', hv, hv', -⟩ := hu.at_split
      have hnone := bytes_gone hrun hrd hr ⟨_, hread.symm⟩ hgone hv
      have hsome := takes_readFile hv'
      rw [hfile, hnone] at hsome
      simp at hsome
    | _ => simp [Action.writesContent] at he

end Stale

theorem settled_delete
    (hrun : Interleaving (exec sm.host) (calls sm b k .deleteFile rd) w tr y t)
    (hok : y true = .ok ()) (hrd : rd.About b k) (hin : MetadataInTime tr ∨ Unlinked tr)
    (hu : Later sm b k t u) (hdisk : ∀ l, u.fs.fileAt l = t.fs.fileAt l) :
    served sm u b k = .error (.notFound b k) := by
  have hwriter : (deleteFile b k).Runs record [] (.ok ()) (project true tr) := by
    have hthread := hrun.thread true
    rwa [hok] at hthread
  obtain ⟨path, hr⟩ := deleteFile_removed hwriter
  have hrow := row_gone hrun hrd hr (List.prefix_refl tr) (mem_project.mp hr.deleted.mem) hrun.steps
  have hurow : u.db.files.find (b, k) = none := by
    have hsame := hu.row
    rwa [hrow, Option.map_none, Option.map_eq_none_iff] at hsame
  have hempty : u.cache.getFileMetadata b k = none →
      served sm u b k = .error (.notFound b k) := by
    intro hm
    simp [served_eq, readResult, recordOf, hm, Database.selectFile, hurow]
  rcases metadata_removed hrun hrd hr with hnone | ⟨f, p, q, t₂, hstale, hf⟩
  · refine hempty ?_
    rcases hu.metadata with hm | hm
    · exact hm
    · rwa [hnone, Option.map_none, Option.map_eq_none_iff] at hm
  · rcases hin with hin | ⟨path', hun⟩
    · exact absurd hin (hstale.late hr)
    · obtain rfl : path' = path := by
        simpa using hr.unlinks _ (mem_project.mpr hun) rfl
      have hbytes := bytes_gone hrun hrd hr (List.prefix_refl tr) hun hrun.steps
      have hcontent := hstale.uncached hrun hrd hr hun
      rcases hu.metadata with hm | hm
      · exact hempty hm
      · rw [hf, Option.map_some, Option.map_eq_some_iff] at hm
        obtain ⟨g, hg, hgf⟩ := hm
        have hpath : g.filePath = path' := by
          rw [(recipe_eq.mp hgf).1, hstale.filePath hrun hr]
        have hucontent : u.cache.getFileContent b k = none := by
          rcases hu.content with hx | hx
          · exact hx
          · exact hx.trans hcontent
        have hubytes : u.bytesAt sm.host path' = none := by
          rw [World.bytesAt_congr (hdisk _), hbytes]
        simp [served_eq, readResult, recordOf, hg, rawOf, hucontent, hpath, hubytes]

end Deletes

end

/-! ## A read around an upload, and around a deletion -/

open Sample (manager codecs_lawful ciphers_lawful)

/-- The world after an upload of one byte, with the cache let go of. -/
def stored (key : String) (id : Uuid) (w : World) : World :=
  ((manager.storeFile "a" key [120] none {}).eval (exec manager.host) { uuid := id } w).2.cold

/-- One object, and the same with an alias. -/
def single : World := stored "k" 1 World.empty
def shared : World := stored "l" 2 single

def upload : Writer := .storeFile [121] none {}

def woven (wr : Writer) (w : World) (schedule : List Bool) :=
  weave (exec manager.host) calm schedule (calls manager "a" "k" wr .getFile) w

/-- The reader selects its record first; the content it asks for after the upload. -/
def early : List Bool := List.replicate 3 false ++ List.replicate 9 true ++ List.replicate 2 false

/-- The reader reads the old bytes before the upload and caches them after it. -/
def aroundUpload : List Bool :=
  List.replicate 5 false ++ List.replicate 9 true ++ List.replicate 2 false

/-- The reader selects the row before the deletion and caches it after. -/
def aroundDeletion : List Bool :=
  List.replicate 2 false ++ List.replicate 4 true ++ List.replicate 5 false

end LocalStorage.Proofs.LateFill
