import LocalStorage.Proofs.CacheCoherence
import LocalStorage.Proofs.ReadFrames
import LocalStorage.Proofs.RequestKeys
import LocalStorage.Proofs.Statistics

namespace LocalStorage.Proofs.RowIdentity
open Lib Lib.Paths StorageManager CacheCoherence Statistics

/-! # The id of a row in every record that names it -/

/-! ## The table by itself -/

/-- The statistics trigger accepts the rows of the bucket. -/
def Accountable (db : Database) (b : String) : Prop := ∃ u, db.refreshStats b = .ok u

/-- Ids are unique, and no bucket is in the way of a counted access. -/
structure Consistent (db : Database) : Prop where
  ids : ∀ f ∈ db.files, ∀ g ∈ db.files, f.id = g.id → f = g
  accountable : ∀ f ∈ db.files, Accountable db f.bucket

section Tables
open Database
variable {db db' : Database} {f : StoredFile} {b k : String} {id : Uuid} {now : Time}

/-- The trigger looks at nothing but the statistics of the rows. -/
theorem Accountable.congr (h : Accountable db b)
    (hsame : statsOf (members StoredFile.bucket db'.files.rows b) =
      statsOf (members StoredFile.bucket db.files.rows b)) : Accountable db' b := by
  obtain ⟨u, hu⟩ := h
  have hlength := congrArg BucketStats.totalFiles hsame
  simp only [statsOf, Int.natCast_inj] at hlength
  simp only [members] at hsame hlength
  simp only [refreshStats] at hu
  simp only [Accountable, refreshStats]
  split
  · exact ⟨_, rfl⟩
  · rename_i hrows
    have hold : db.files.rows.filter (·.bucket = b) ≠ [] := by
      intro hnil
      rw [hnil, List.length_nil] at hlength
      exact hrows (List.length_eq_zero_iff.mp hlength)
    rw [if_neg hold] at hu
    simp only [except_bind_ok] at hu ⊢
    obtain ⟨_, hsize, _, hratio, _, hvalid, -⟩ := hu
    rw [hsame]
    exact ⟨_, _, hsize, _, hratio, _, hvalid, rfl⟩

theorem refreshStats_accountable (h : db.refreshStats b = .ok db') : Accountable db' b :=
  Accountable.congr ⟨db', h⟩ (by rw [(refreshStats_ok h).1])

theorem touch_of_ne (h : f.id ≠ id) : touch id now f = f := if_neg h

theorem statsOf_touched (id : Uuid) (now : Time) (rows : List StoredFile) :
    statsOf (rows.map (touch id now)) = statsOf rows := by
  simp only [statsOf, List.map_map, List.filter_map, List.length_map, Function.comp_def,
    touch_fileSize, touch_compressed, touch_encrypted, touch_originalSize]

/-- The statistics of a bucket are those of its rows, however often they were read. -/
theorem accountable_touched (h : Accountable db b)
    (hfiles : db'.files = db.files.update (touch id now) (touch_ident id now)) :
    Accountable db' b := by
  apply h.congr
  have hrows : db'.files.rows = db.files.rows.map (touch id now) := by
    rw [hfiles]
    rfl
  rw [hrows, members_touched, statsOf_touched]

/-- A row that is new to the table brings an id that is new to it. -/
theorem upsertFile_checked (h : db.upsertFile f = .ok db') :
    (db.files.find f.ident = none → ∀ g ∈ db.files, g.id ≠ f.id) ∧ Accountable db' f.bucket := by
  unfold upsertFile at h
  simp only [except_bind_ok] at h
  obtain ⟨-, -, h⟩ := h
  split at h
  · simp [bind, Except.bind] at h
  · rename_i hkey
    simp only [except_bind_ok] at h
    obtain ⟨-, -, -, -, h⟩ := h
    refine ⟨fun hnone g hg hid => hkey ?_, refreshStats_accountable h⟩
    rw [hnone]
    simpa using ⟨g, hg, hid⟩

theorem Consistent.initial (hfiles : db.files = Table.empty) : Consistent db := by
  have hnone : ∀ f, f ∉ db.files := fun f hf => Table.not_mem_empty (hfiles ▸ hf)
  exact ⟨fun f hf => absurd hf (hnone f), fun f hf => absurd hf (hnone f)⟩

/-- A row stays accountable where the rows of its bucket stay. -/
theorem Consistent.members_kept (h : Consistent db) {g : StoredFile} (hg : g ∈ db.files)
    (hsame : members StoredFile.bucket db'.files.rows g.bucket =
      members StoredFile.bucket db.files.rows g.bucket) : Accountable db' g.bucket :=
  (h.accountable g hg).congr (by rw [hsame])

theorem Consistent.kept (h : Consistent db) (hfiles : db'.files = db.files) : Consistent db' := by
  constructor
  · rw [hfiles]
    exact h.ids
  · intro g hg
    rw [hfiles] at hg
    exact h.members_kept hg (by rw [hfiles])

/-- The upserted row keeps the id of the row it replaces, or has one of its own. -/
theorem Consistent.merged_id (h : Consistent db) (hrun : db.upsertFile f = .ok db')
    {g : StoredFile} (hg : g ∈ db.files) (hne : g.ident ≠ f.ident) :
    g.id ≠ (mergeRow (db.files.find f.ident) f).id := by
  cases hold : db.files.find f.ident with
  | none => exact (upsertFile_checked hrun).1 hold g hg
  | some o =>
    intro hid
    have hgo : g = o := h.ids g hg o (Table.find_mem hold) hid
    exact hne (hgo ▸ Table.find_key hold)

theorem Consistent.saved (h : Consistent db) (hrun : db.upsertFile f = .ok db') :
    Consistent db' := by
  have hfiles := (upsertFile_ok hrun).1
  constructor
  · intro g hg g' hg' hid
    rw [hfiles, Table.mem_put, mergeRow_ident] at hg hg'
    cases hg with
    | inl hg =>
      cases hg' with
      | inl hg' => rw [hg, hg']
      | inr hg' => exact absurd (hid.symm.trans (congrArg _ hg)) (h.merged_id hrun hg'.1 hg'.2)
    | inr hg =>
      cases hg' with
      | inl hg' => exact absurd (hid.trans (congrArg _ hg')) (h.merged_id hrun hg.1 hg.2)
      | inr hg' => exact h.ids g hg.1 g' hg'.1 hid
  · intro g hg
    by_cases hb : g.bucket = f.bucket
    · rw [hb]
      exact (upsertFile_checked hrun).2
    · rw [hfiles, Table.mem_put] at hg
      cases hg with
      | inl hg => exact absurd (by simp [hg]) hb
      | inr hg =>
        refine h.members_kept hg.1 ?_
        rw [hfiles]
        exact members_put_ne (by simpa using hb)

theorem Consistent.accessed (h : Consistent db)
    (hfiles : db'.files = db.files.update (touch id now) (touch_ident id now)) :
    Consistent db' := by
  constructor
  · intro f hf g hg hid
    rw [hfiles, Table.mem_update] at hf hg
    obtain ⟨f, hf, rfl⟩ := hf
    obtain ⟨g, hg, rfl⟩ := hg
    rw [touch_id, touch_id] at hid
    rw [h.ids f hf g hg hid]
  · intro g hg
    rw [hfiles, Table.mem_update] at hg
    obtain ⟨f, hf, rfl⟩ := hg
    rw [touch_bucket]
    exact accountable_touched (h.accountable f hf) hfiles

theorem Consistent.erased (h : Consistent db) (hrun : db.deleteFileRow b k = .ok db') :
    Consistent db' := by
  have hfiles := (deleteFileRow_ok hrun).1
  have hold : ∀ g ∈ db'.files, g ∈ db.files := by
    intro g hg
    rw [hfiles, Table.mem_erase] at hg
    exact hg.1
  constructor
  · intro f hf g hg
    exact h.ids f (hold f hf) g (hold g hg)
  · intro g hg
    by_cases hb : g.bucket = b
    · unfold deleteFileRow at hrun
      split at hrun
      · simp only [Except.ok.injEq] at hrun
        exact hrun ▸ h.accountable g (hold g hg)
      · rw [hb]
        exact refreshStats_accountable hrun
    · refine h.members_kept (hold g hg) ?_
      rw [hfiles]
      exact members_erase_ne hb

theorem Consistent.bucketErased (h : Consistent db)
    (hfiles : db'.files = db.files.filter (fun f => f.bucket ≠ b)) : Consistent db' := by
  constructor
  · intro f hf g hg
    rw [hfiles, Table.mem_filter] at hf hg
    exact h.ids f hf.1 g hg.1
  · intro g hg
    rw [hfiles, Table.mem_filter] at hg
    obtain ⟨hg, hother⟩ := hg
    refine h.members_kept hg ?_
    rw [hfiles]
    simp only [members, Table.filter, List.filter_filter]
    apply List.filter_congr
    intro f _
    by_cases hf : f.bucket = g.bucket
    · simpa [hf] using hother
    · simp [hf]

theorem Consistent.accepted {a : Action} (h : Consistent db) (ha : a.Accepted now db db') :
    Consistent db' := by
  cases a with
  | insertBucket name => exact h.kept (insertBucket_ok ha).1
  | deleteBucketRow name => exact h.bucketErased (deleteBucketRow_some ha).2.1
  | upsertFile f => exact h.saved ha
  | updateAccess id =>
    cases (updateAccess_ok ha).1 with
    | inl hfiles => exact h.kept hfiles
    | inr hfiles => exact h.accessed hfiles
  | deleteFileRow b k => exact h.erased ha
  | _ => exact ha.elim

end Tables

variable {sm : StorageManager} {h : Host} {u v w w' : World} {b k : String} {content : Bytes}
  {ct : Option String} {opts : StoreOptions}

/-- Whatever a call does, it does by accepted statements. -/
theorem runs_consistent {α : Type} {p : Op α} {x : Result α} (hr : p.Runs (exec h) w x w')
    (hc : Consistent w.db) : Consistent w'.db := by
  have hstep : ∀ c a s, Consistent s.db → Consistent (exec h c a s).2.db := by
    intro c a s hs
    have ht : Takes (exec h) s ⟨a, (exec h c a s).1⟩ (exec h c a s).2 := ⟨c, rfl⟩
    cases takes_db ht with
    | inl hdb => rwa [hdb]
    | inr hacc => exact hs.accepted hacc
  exact hr.invariant hstep hc

/-! ## Cached records and rows -/

/-- The id of the row of a key. -/
def rowId (w : World) (b k : String) : Option Uuid := (w.db.files.find (b, k)).map (·.id)

/-- Every cached record has the id of its row, and every row a cache entry of its own. -/
structure Identified (w : World) : Prop where
  cached : ∀ b k f, w.cache.getFileMetadata b k = some f → rowId w b k = some f.id
  plain : ∀ b k, w.db.files.find (b, k) ≠ none → PlainNames b k

namespace Identified

theorem initial (hfiles : w.db.files = Table.empty) (hcache : w.cache = Cache.empty) :
    Identified w := by
  constructor
  · intro b k f hf
    simp [hcache, Cache.empty, Cache.getFileMetadata] at hf
  · intro b k hrow
    simp [hfiles] at hrow

/-- A record that is read is that of the row, as far as the id goes. -/
theorem recordOf (hi : Identified w) {file : StoredFile}
    (hrecord : StorageManager.recordOf w b k = some file) : rowId w b k = some file.id := by
  unfold StorageManager.recordOf at hrecord
  cases hc : w.cache.getFileMetadata b k with
  | some f =>
    rw [hc] at hrecord
    obtain rfl : f = file := by simpa using hrecord
    exact hi.cached b k f hc
  | none =>
    rw [hc] at hrecord
    have hrow : w.db.files.find (b, k) = some file := by simpa [Database.selectFile] using hrecord
    rw [rowId, hrow, Option.map_some]

theorem kept {ls : List Loc} (hi : Identified w) (hk : Kept ls w w') : Identified w' := by
  constructor
  · intro b k f hf
    rw [hk.cache] at hf
    rw [rowId, hk.files]
    exact hi.cached b k f hf
  · rw [hk.files]
    exact hi.plain

theorem quiet {c : Choice} {a : Action} (hi : Identified w) (ha : Quiet a) :
    Identified (exec h c a w).2 := by
  have ht : Takes (exec h) w ⟨a, (exec h c a w).1⟩ (exec h c a w).2 := ⟨c, rfl⟩
  constructor
  · intro b k f hf
    rw [takes_getFileMetadata ht ha.metadata] at hf
    rw [rowId, takes_row (g := (·.id)) Database.touch_id ht ha.row]
    exact hi.cached b k f hf
  · intro b k hrow
    refine hi.plain b k fun hnone => hrow ?_
    have hsame := takes_row (g := fun _ => ()) (fun _ _ _ => rfl) ht ha.row b k
    simpa [hnone] using hsame

theorem deleted {file : StoredFile} (hi : Identified w) (hd : Deleted h b k file w w') :
    Identified w' := by
  constructor
  · intro b' k' f hf
    rw [hd.cache, Cache.getFileMetadata_invalidateFile] at hf
    split at hf
    · simp at hf
    · rename_i hslot
      have hne : (b', k') ≠ (b, k) := by
        intro heq
        obtain ⟨rfl, rfl⟩ := Prod.ext_iff.mp heq
        exact hslot (Cache.SameSlot.refl b' k')
      rw [rowId, hd.files, Table.find_erase_ne hne]
      exact hi.cached b' k' f hf
  · intro b' k' hrow
    apply hi.plain b' k'
    rw [hd.files] at hrow
    by_cases heq : (b', k') = (b, k)
    · rw [heq, Table.find_erase_self] at hrow
      exact absurd rfl hrow
    · rwa [Table.find_erase_ne heq] at hrow

/-- The row that was looked up is cached under its own key. -/
theorem looked_up {file : StoredFile} (hi : Identified w)
    (hrow : w.db.files.find (b, k) = some file) :
    Identified { w with cache := w.cache.setFileMetadata b k file } := by
  have hplain : PlainNames b k := hi.plain b k (by simp [hrow])
  refine ⟨fun b' k' f hf => ?_, hi.plain⟩
  rw [Cache.getFileMetadata_setFileMetadata] at hf
  split at hf
  · rename_i hslot
    obtain ⟨rfl, rfl⟩ := hslot.eq_of_plain hplain.1 hplain.2
    obtain rfl := Option.some.inj hf
    simp [rowId, hrow]
  · exact hi.cached b' k' f hf

theorem saved {file : StoredFile} (hi : Identified w) (hnew : rowId w b k = none)
    (hplain : PlainNames b k) (hident : file.ident = (b, k))
    (hfiles : w'.db.files = w.db.files.put (Database.mergeRow (w.db.files.find file.ident) file))
    (hcached : ∀ b' k' f, w'.cache.getFileMetadata b' k' = some f →
      (b', k') = (b, k) ∧ f = file ∨ w.cache.getFileMetadata b' k' = some f) :
    Identified w' ∧ rowId w' b k = some file.id := by
  have hnone : w.db.files.find file.ident = none := by simpa [rowId, hident] using hnew
  have hfind : ∀ b' k', w'.db.files.find (b', k') =
      if (b', k') = (b, k) then some (Database.mergeRow none file)
      else w.db.files.find (b', k') := by
    intro b' k'
    have hrow := find_put_merged hfiles (b := b') (k := k')
    rwa [hident, ← hident, hnone, hident] at hrow
  have hown : rowId w' b k = some file.id := by
    rw [rowId, hfind, if_pos rfl]
    rfl
  refine ⟨⟨fun b' k' f hf => ?_, fun b' k' hrow => ?_⟩, hown⟩
  · obtain ⟨heq, rfl⟩ | hold := hcached b' k' f hf
    · obtain ⟨rfl, rfl⟩ := Prod.ext_iff.mp heq
      exact hown
    · have hid := hi.cached b' k' f hold
      have hne : (b', k') ≠ (b, k) := by
        intro heq
        obtain ⟨rfl, rfl⟩ := Prod.ext_iff.mp heq
        rw [hnew] at hid
        simp at hid
      rw [rowId, hfind, if_neg hne]
      exact hid
  · by_cases heq : (b', k') = (b, k)
    · obtain ⟨rfl, rfl⟩ := Prod.ext_iff.mp heq
      exact hplain
    · rw [hfind, if_neg heq] at hrow
      exact hi.plain b' k' hrow

theorem bucketDeleted (hi : Identified w) (hd : BucketDeleted sm b w w') : Identified w' := by
  obtain ⟨ks, hks, hcache⟩ := hd.cache
  have hfind : ∀ b' k', b' ≠ b → w'.db.files.find (b', k') = w.db.files.find (b', k') := by
    intro b' k' hne
    rw [hd.files]
    apply Table.find_filter_of
    intro f _ hident
    have hb : f.bucket = b' := congrArg Prod.fst hident
    simpa [hb] using hne
  constructor
  · intro b' k' f hf
    rw [hcache, Cache.getFileMetadata_invalidateFiles] at hf
    split at hf
    · simp at hf
    · rename_i hout
      have hid := hi.cached b' k' f hf
      have hne : b' ≠ b := by
        rintro rfl
        obtain ⟨g, hg, -⟩ := Option.map_eq_some_iff.mp hid
        exact hout ⟨k', (hks k').mpr ⟨g, Table.find_mem hg, Table.find_key hg⟩,
          Cache.SameSlot.refl b' k'⟩
      rw [rowId, hfind b' k' hne]
      exact hid
  · intro b' k' hrow
    by_cases hb : b' = b
    · refine absurd ?_ hrow
      rw [hd.files]
      apply Table.find_filter_not
      intro f _ hident
      have hfb : f.bucket = b' := congrArg Prod.fst hident
      simp [hfb, hb]
    · rw [hfind b' k' hb] at hrow
      exact hi.plain b' k' hrow

theorem evict (hi : Identified w) (gone : String → Bool) :
    Identified { w with cache := w.cache.evict gone } :=
  ⟨fun b k f hf => hi.cached b k f (Cache.getFileMetadata_of_evict hf), hi.plain⟩

end Identified

/-! ## Calls -/

/-- Nothing comes between a record and its row. -/
def StaysIdentified (w w' : World) : Prop := Identified w → Identified w'

theorem deleteFile_identified (b k : String) :
    (deleteFile b k).Relates (exec h) StaysIdentified := by
  intro w
  refine deleteFile_spec.mono fun x t hx hi => ?_
  cases x with
  | ok u =>
    obtain ⟨file, hd⟩ := hx
    exact hi.deleted hd
  | error e =>
    obtain rfl := hx
    exact hi

theorem readMetadata_identified (b k : String) :
    (readMetadata b k).Relates (exec h) StaysIdentified := by
  intro w
  exact readMetadata_frame (fun hi => hi) fun file hrow hi => hi.looked_up hrow

theorem reads_identified : KeptByReads h StaysIdentified where
  refl _ := id
  trans _ _ _ huv hvw hi := hvw (huv hi)
  quiet _ _ _ ha hi := hi.quiet ha
  deleteFile := deleteFile_identified
  readMetadata := readMetadata_identified

/-- The content is recorded, and under this key only. -/
def RecordedHere (sm : StorageManager) (w : World) (b k : String) (content : Bytes) : Prop :=
  Recorded sm w content ∧
    ∀ f ∈ w.db.files.rows, f.hashBlake3 = sm.lib.blake3 content → f.ident = (b, k)

/-- A successful upload is to a key without a row, with a cache entry of its own, or is
answered by the key's own row. -/
def KeepsIds (sm : StorageManager) (w : World) : Event → Prop
  | .storeFile b k content _ _ (.ok _) =>
    rowId w b k = none ∧ PlainNames b k ∨ RecordedHere sm w b k content
  | _ => True

instance (sm : StorageManager) (w : World) (b k : String) (content : Bytes) :
    Decidable (RecordedHere sm w b k content) :=
  inferInstanceAs (Decidable (_ ∧ ∀ f ∈ w.db.files.rows, _))

instance KeepsIds.decide (sm : StorageManager) (w : World) :
    (e : Event) → Decidable (KeepsIds sm w e)
  | .storeFile _ _ _ _ _ (.ok _) => inferInstanceAs (Decidable (_ ∨ _))
  | .storeFile _ _ _ _ _ (.error _) | .getFile .. | .getFileRangeIfPlain ..
  | .getCompressedFileRange .. | .deleteFile .. | .deleteBucket .. | .sweepExpiredFiles ..
  | .evict _ | .tick _ => isTrue trivial

/-- A successful upload that meets the condition answers with the id of the row. -/
theorem storeFile_identified {x : Result StoredFile} (hi : Identified w)
    (hp : KeepsIds sm w (.storeFile b k content ct opts x))
    (hrun : (sm.storeFile b k content ct opts).Runs (exec sm.host) w x w') :
    Identified w' ∧ ∀ file, x = .ok file → rowId w' b k = some file.id := by
  cases storeFile_spec _ _ hrun with
  | rejected e hk => exact ⟨hi.kept hk, fun _ hx => by simp at hx⟩
  | broken e hnew henc hk => exact ⟨hi.kept hk, fun _ hx => by simp at hx⟩
  | identical file hmem hident hhash hdedup hk =>
    refine ⟨hi.kept hk, fun f hx => ?_⟩
    obtain rfl := Except.ok.inj hx
    rw [rowId, hk.files, ← hident, Table.find_self hmem, Option.map_some]
  | aliased existing id now hmem hident hhash hdedup ha =>
    obtain ⟨hnew, hplain⟩ | ⟨-, hown⟩ := hp
    · obtain ⟨hi', hid⟩ := hi.saved hnew hplain (aliasedFile_ident ..) ha.files
        fun b' k' f hf => .inr (ha.cache ▸ hf)
      refine ⟨hi', fun f hx => ?_⟩
      obtain rfl := Except.ok.inj hx
      exact hid
    · exact absurd (hown existing hmem hhash) hident
  | fresh processed enc id now hnone henc hw =>
    obtain ⟨hnew, hplain⟩ | ⟨⟨hdedup, f, hf, hhash⟩, -⟩ := hp
    · have hcached : ∀ b' k' f, w'.cache.getFileMetadata b' k' = some f →
          (b', k') = (b, k) ∧ f = sm.freshFile b k content ct opts (sm.compressStage opts content).2
            (sm.compressStage opts content).1.length processed enc id now ∨
          w.cache.getFileMetadata b' k' = some f := by
        intro b' k' f hf
        rw [hw.cache, Cache.getFileMetadata_setFileContent,
          Cache.getFileMetadata_setFileMetadata] at hf
        split at hf
        · rename_i hslot
          have heq : b' = b ∧ k' = k := Cache.SameSlot.eq_of_plain hplain.1 hplain.2 hslot
          exact .inl ⟨Prod.ext heq.1 heq.2, (Option.some.inj hf).symm⟩
        · exact .inr hf
      obtain ⟨hi', hid⟩ := hi.saved hnew hplain (freshFile_ident ..) hw.files hcached
      refine ⟨hi', fun f hx => ?_⟩
      obtain rfl := Except.ok.inj hx
      exact hid
    · exact absurd hhash (hnone hdedup f hf)

theorem step_identified {e : Event} (hi : Identified w) (hp : KeepsIds sm w e)
    (ht : e.Transition sm w w') : Identified w' := by
  cases e with
  | storeFile b k content ct opts x => exact (storeFile_identified hi hp ht).1
  | getFile b k x => exact reads_identified.getFile w x w' ht hi
  | getFileRangeIfPlain b k start stop x =>
    exact reads_identified.getFileRangeIfPlain start stop w x w' ht hi
  | getCompressedFileRange b k start stop x =>
    exact reads_identified.getCompressedFileRange start stop w x w' ht hi
  | deleteFile b k x => exact deleteFile_identified b k w x w' ht hi
  | deleteBucket b x =>
    have hx := deleteBucket_spec x w' ht
    cases x with
    | ok u => exact hi.bucketDeleted hx
    | error e =>
      obtain rfl : w' = w := hx
      exact hi
  | sweepExpiredFiles x => exact reads_identified.sweepExpiredFiles w x w' ht hi
  | evict gone =>
    obtain rfl := ht
    exact hi.evict gone
  | tick elapsed =>
    obtain rfl := ht
    exact ⟨hi.cached, hi.plain⟩

theorem step_consistent {e : Event} (hc : Consistent w.db) (ht : e.Transition sm w w') :
    Consistent w'.db := by
  cases e with
  | evict gone =>
    obtain rfl := ht
    exact hc
  | tick elapsed =>
    obtain rfl := ht
    exact hc
  | _ => exact runs_consistent ht hc

/-! ## Counted accesses -/

/-- The steps of `exec`; only, the statement that counts an access is not lost on the way. -/
def counting (h : Host) (c : Choice) : (a : Action) → World → Response a × World
  | .updateAccess id, w => exec h { c with fault := none } (.updateAccess id) w
  | a, w => exec h c a w

theorem counting_offered (h : Host) (c : Choice) (a : Action) (w : World) :
    ∃ c', exec h c' a w = counting h c a w := by
  cases a with
  | updateAccess id => exact ⟨{ c with fault := none }, rfl⟩
  | _ => exact ⟨c, rfl⟩

/-- The count of one row goes up by one, and the other rows are as they were. -/
def Counted (b k : String) (w w' : World) : Prop :=
  (∃ f g, w.db.files.find (b, k) = some f ∧ w'.db.files.find (b, k) = some g ∧
    g.accessCount = f.accessCount + 1) ∧
  ∀ b' k', (b', k') ≠ (b, k) → w'.db.files.find (b', k') = w.db.files.find (b', k')

/-- An access counted under the id of the row is the row's alone. -/
theorem Counted.of_id {c : Choice} {id : Uuid} (hc : Consistent w.db)
    (hid : rowId w b k = some id) : Counted b k w (counting h c (.updateAccess id) w).2 := by
  obtain ⟨f, hf, rfl⟩ := Option.map_eq_some_iff.mp hid
  have hmem : f ∈ w.db.files := Table.find_mem hf
  obtain ⟨g, hg⟩ : ∃ g, w.db.files.rows.find? (·.id = f.id) = some g :=
    Option.isSome_iff_exists.mp (List.find?_isSome.mpr ⟨f, hmem, by simp⟩)
  have hsame : g = f :=
    hc.ids g (List.mem_of_find?_eq_some hg) f hmem (by simpa using List.find?_some hg)
  have hcounts : Accountable { w.db with
      files := w.db.files.update (Database.touch f.id w.now) (Database.touch_ident f.id w.now) }
      f.bucket := accountable_touched (hc.accountable f hmem) rfl
  obtain ⟨db, hdb⟩ := hcounts
  have hfiles := (Database.refreshStats_ok hdb).1
  have hafter : (counting h c (.updateAccess f.id) w).2 = { w with db := db } := by
    simp only [counting, exec, statement, Database.updateAccess, hg, hsame, hdb]
  rw [hafter]
  refine ⟨⟨f, Database.touch f.id w.now f, hf, ?_, ?_⟩, fun b' k' hne => ?_⟩
  · rw [hfiles, Table.find_update, hf, Option.map_some]
  · simp [Database.touch]
  · rw [hfiles, Table.find_update]
    cases hother : w.db.files.find (b', k') with
    | none => rfl
    | some g =>
      have hgf : g.id ≠ f.id := by
        intro heq
        obtain rfl := hc.ids g (Table.find_mem hother) f hmem heq
        exact hne ((Table.find_key hother).symm.trans (Table.find_key hf))
      rw [Option.map_some, touch_of_ne hgf]

/-- The read looked its record up first and counted the access last; the tables did not
change in between. -/
def CountsLast (h : Host) (b k : String) (w w' : World) : Prop :=
  ∃ file v c, recordOf w b k = some file ∧ v.db = w.db ∧
    w' = (counting h c (.updateAccess file.id) v).2

theorem CountsLast.counted (hi : Identified w) (hc : Consistent w.db)
    (hlast : CountsLast h b k w w') : Counted b k w w' := by
  obtain ⟨file, v, c, hrecord, hdb, rfl⟩ := hlast
  have hid : rowId v b k = some file.id := by
    rw [rowId, hdb]
    exact hi.recordOf hrecord
  obtain ⟨⟨f, g, hf, hg, hcount⟩, hrest⟩ := Counted.of_id (h := h) (c := c) (hdb ▸ hc) hid
  exact ⟨⟨f, g, hdb ▸ hf, hg, hcount⟩, fun b' k' hne => (hrest b' k' hne).trans (by rw [hdb])⟩

theorem getFile_countsLast {y : Bytes × Option String}
    (hr : (sm.getFile b k).Runs (counting sm.host) w (.ok y) w') : CountsLast sm.host b k w w' := by
  simp only [getFile, step_eq, Prog.bind_eq, Prog.pure_eq] at hr
  obtain ⟨file, t, hfile, hr₁⟩ := Prog.runs_bind_ok.mp hr
  obtain ⟨hrecord, hdb, -⟩ := readMetadata_ok (hfile.embed (counting_offered sm.host))
  obtain ⟨_, u, hexpire, hr₂⟩ := Prog.runs_bind_ok.mp hr₁
  obtain ⟨-, hdb', -⟩ := expireFile_ok (hexpire.embed (counting_offered sm.host))
  obtain ⟨raw, v, hraw, hr₃⟩ := Prog.runs_bind_ok.mp hr₂
  obtain ⟨-, hdb'', -⟩ := readContent_ok (hraw.embed (counting_offered sm.host))
  obtain ⟨content, v', hdecode, hr₄⟩ := Prog.runs_bind_ok.mp hr₃
  obtain ⟨-, rfl⟩ := decodeContent_ok (hdecode.embed (counting_offered sm.host))
  obtain ⟨c, hc⟩ := Prog.runs_act.mp hr₄
  obtain ⟨-, rfl⟩ := Prog.runs_ret.mp hc
  exact ⟨file, v', c, hrecord, hdb''.trans (hdb'.trans hdb), rfl⟩

theorem getFileRangeIfPlain_countsLast {start stop : Nat} {y : Bytes × String × Nat}
    (hr : (getFileRangeIfPlain b k start stop).Runs (counting h) w (.ok (some y)) w') :
    CountsLast h b k w w' := by
  simp only [getFileRangeIfPlain, ofIo, step_eq, Prog.bind_eq, Prog.act_bind, Prog.ret_bind,
    Prog.pure_eq] at hr
  obtain ⟨file, u, hfile, hr₁⟩ := Prog.runs_bind_ok.mp hr
  obtain ⟨hrecord, hdb, -⟩ := readMetadata_ok (hfile.embed (counting_offered h))
  split at hr₁
  · simp at hr₁
  · split at hr₁
    · simp at hr₁
    · obtain ⟨c, hc⟩ := Prog.runs_act.mp hr₁
      obtain ⟨buf, v, hbuf, hr₂⟩ := Prog.runs_bind_ok.mp hc
      obtain ⟨-, rfl⟩ := Prog.runs_ofExcept.mp hbuf
      obtain ⟨c', hc'⟩ := Prog.runs_act.mp hr₂
      obtain ⟨-, rfl⟩ := Prog.runs_ret.mp hc'
      exact ⟨file, _, c', hrecord, hdb, rfl⟩

theorem getCompressedFileRange_countsLast {start stop : Nat} {y : Bytes × String × Nat}
    (hr : (sm.getCompressedFileRange b k start stop).Runs (counting sm.host) w (.ok (some y)) w') :
    CountsLast sm.host b k w w' := by
  simp only [getCompressedFileRange, ofIo, step_eq, Prog.bind_eq, Prog.act_bind, Prog.ret_bind,
    Prog.pure_eq] at hr
  obtain ⟨file, u, hfile, hr₁⟩ := Prog.runs_bind_ok.mp hr
  obtain ⟨hrecord, hdb, -⟩ := readMetadata_ok (hfile.embed (counting_offered sm.host))
  split at hr₁
  · simp at hr₁
  · split at hr₁
    · simp at hr₁
    · obtain ⟨c, hc⟩ := Prog.runs_act.mp hr₁
      obtain ⟨raw, v, hraw, hr₂⟩ := Prog.runs_bind_ok.mp hc
      obtain ⟨-, rfl⟩ := Prog.runs_ofExcept.mp hraw
      obtain ⟨buf, v', hbuf, hr₃⟩ := Prog.runs_bind_ok.mp hr₂
      obtain ⟨-, rfl⟩ := Prog.runs_ofExcept.mp hbuf
      cases buf with
      | none => simp at hr₃
      | some buf =>
        obtain ⟨c', hc'⟩ := Prog.runs_act.mp hr₃
        obtain ⟨-, rfl⟩ := Prog.runs_ret.mp hc'
        exact ⟨file, _, c', hrecord, hdb, rfl⟩

/-! ## Runs -/

/-- Whoever asks for the id of a key gets that of its row, and every read that succeeds is
counted on this row and on no other one. -/
structure SpeaksOfRows (sm : StorageManager) (w : World) : Prop where
  cached : ∀ b k f, w.cache.getFileMetadata b k = some f → rowId w b k = some f.id
  info : ∀ b k info t, (getFileInfo b k).Runs (exec sm.host) w (.ok info) t →
    rowId w b k = some info.id
  getFile : ∀ b k y t, (sm.getFile b k).Runs (counting sm.host) w (.ok y) t → Counted b k w t
  plainRange : ∀ b k start stop y t,
    (getFileRangeIfPlain b k start stop).Runs (counting sm.host) w (.ok (some y)) t → Counted b k w t
  compressedRange : ∀ b k start stop y t,
    (sm.getCompressedFileRange b k start stop).Runs (counting sm.host) w (.ok (some y)) t →
      Counted b k w t

theorem Identified.speaksOfRows (hi : Identified w) (hc : Consistent w.db) : SpeaksOfRows sm w where
  cached := hi.cached
  info b k info t hr := by
    obtain ⟨file, hrow, -, rfl⟩ := RequestKeys.getFileInfo_ok hr
    rw [rowId, hrow, Option.map_some]
    rfl
  getFile _ _ _ _ hr := (getFile_countsLast hr).counted hi hc
  plainRange _ _ _ _ _ _ hr := (getFileRangeIfPlain_countsLast hr).counted hi hc
  compressedRange _ _ _ _ _ _ hr := (getCompressedFileRange_countsLast hr).counted hi hc

theorem run_identified {es : List Event} (hfiles : w.db.files = Table.empty)
    (hcache : w.cache = Cache.empty) (hrun : SystemRun sm (KeepsIds sm) w es w') :
    Identified w' ∧ Consistent w'.db :=
  hrun.invariant (I := fun u => Identified u ∧ Consistent u.db)
    ⟨Identified.initial hfiles hcache, Consistent.initial hfiles⟩
    fun _ _ _ _ hs hp ht => ⟨step_identified hs.1 hp ht, step_consistent hs.2 ht⟩

open Sample (manager)

/-- An upload, the same once more, an alias of it, and reads of both. -/
def storedApart : List (Event × Choice) :=
  [upload "k1" [120] 1, read "k1", upload "k1" [120] 2, upload "k2" [120] 3, read "k2"]

/-- Another content is stored under the same key. -/
def replaced : List Event × World :=
  replay manager [upload "k1" [120] 1, upload "k1" [121] 2] ([], World.empty)

def answeredId : Event → Option Uuid
  | .storeFile _ _ _ _ _ (.ok file) => some file.id
  | _ => none

end LocalStorage.Proofs.RowIdentity
