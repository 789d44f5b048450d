import LocalStorage.Proofs.DeleteRace

namespace LocalStorage.Proofs.RemovalRace
open Lib Lib.Paths StorageManager DeleteRace

/-! # The removal of a bucket and an upload into it at the same time -/

/-- The upload is thread `true`, the removal thread `false`. -/
def calls (sm : StorageManager) (b k : String) (content : Bytes) (ct : Option String)
    (opts : StoreOptions) : (i : Bool) → Op (Answer i)
  | true => sm.storeFile b k content ct opts
  | false => sm.deleteBucket b

/-- The removal takes the file at `path`: by its unlink, or with a directory above it. A
removal of a directory that fails may have taken it. -/
def removes (h : Host) (path : String) (surely : Bool) (e : Bool × Taken Response) : Bool :=
  !e.1 && match e.2 with
    | ⟨.removeFile p, r⟩ => Except.isOk (r : Except IoError Unit) && h.target p = h.target path
    | ⟨.removeDirAll d, r⟩ => (!surely || Except.isOk (r : Except IoError Unit)) &&
        decide (h.target d <+: h.target path)
    | _ => false

/-- The place is removed after the upload has written there, or at any time when the upload
relies on bytes that were there. -/
inductive Lost (h : Host) (path : String) (surely : Bool) (tr : List (Bool × Taken Response)) :
    Prop where
  | written (hwrote : Wrote tr) (h : before isWrite (removes h path surely) tr = true)
  | relied (halias : ¬ Wrote tr) (h : tr.any (removes h path surely) = true)

def cachesRecord (e : Bool × Taken Response) : Bool :=
  e.1 && match e.2.1 with
    | .setFileMetadata _ _ _ => true
    | _ => false

def drops (k : String) (e : Bool × Taken Response) : Bool :=
  !e.1 && match e.2.1 with
    | .invalidateFile _ k' => k' = k
    | _ => false

/-- The upload caches its record when the removal is done with the key's entries. -/
def CachedLate (k : String) (tr : List (Bool × Taken Response)) : Prop :=
  Wrote tr ∧ before cachesRecord (drops k) tr = false

variable {sm : StorageManager} {b k path : String} {content : Bytes} {ct : Option String}
  {opts : StoreOptions} {w t u v : World} {tr a c : List (Bool × Taken Response)}
  {x : ∀ i, Result (Answer i)} {file row : StoredFile} {st : Taken Response}

/-! ## The steps of the removal -/

section Removal

theorem removal_bytesKept {h : Host} (hst : DeleteBucketStep b st.1)
    (hr : removes h path false (false, st) = false) : BytesKept h path st := by
  obtain ⟨act, r⟩ := st
  cases hst with
  | removeFile p =>
    intro u v huv
    rcases takes_removeFile_world huv with ⟨rfl, -⟩ | rfl
    · rfl
    · by_cases hp : h.target p = h.target path
      · cases hr' : (r : Except IoError Unit) with
        | error e =>
          rw [hr'] at huv
          rw [takes_removeFile_error huv]
        | ok _ => simp [removes, hr', hp, Except.isOk, Except.toBool] at hr
      · exact World.bytesAt_congr (FileTree.fileAt_erase_ne (Ne.symm hp))
  | removeDirAll d =>
    intro u v huv
    apply (takes_removeDirAll huv).2.1
    intro hp
    simp [removes, hp] at hr
  | _ => exact bytesKept_of rfl

theorem removal_none {h : Host} (hst : DeleteBucketStep b st.1) (huv : Takes (exec h) u st v)
    (hu : u.bytesAt h path = none) : v.bytesAt h path = none := by
  obtain ⟨act, r⟩ := st
  cases hst with
  | removeFile p => exact takes_removeFile_none huv hu
  | removeDirAll d => exact (takes_removeDirAll huv).1 hu
  | _ => exact (takes_bytesAt huv rfl path).trans hu

theorem removal_takes {h : Host} {e : Bool × Taken Response} (he : removes h path true e = true)
    (huv : Takes (exec h) u e.2 v) : v.bytesAt h path = none := by
  obtain ⟨i, act, r⟩ := e
  cases act with
  | removeFile p =>
    simp only [removes, Bool.and_eq_true, decide_eq_true_eq] at he
    rcases takes_removeFile_world huv with ⟨-, hr⟩ | rfl
    · cases hr' : (r : Except IoError Unit) with
      | error e => simp [hr', Except.isOk, Except.toBool] at he
      | ok _ => exact absurd hr' hr
    · simp [World.bytesAt, ← he.2.2, FileTree.fileAt_erase_self]
  | removeDirAll d =>
    simp only [removes, Bool.and_eq_true, decide_eq_true_eq] at he
    apply (takes_removeDirAll huv).2.2 _ he.2.2
    cases hr : (r : Except IoError Unit) with
    | error e => simp [hr, Except.isOk, Except.toBool] at he
    | ok _ => rfl
  | _ => simp [removes] at he

theorem removal_uncounted {a : Action} (h : DeleteBucketStep b a) : a.countsAccess = false := by
  cases h <;> rfl

end Removal

/-! ## Both calls -/

/-- The two calls, both successful. -/
structure Race (sm : StorageManager) (b k : String) (content : Bytes) (ct : Option String)
    (opts : StoreOptions) (file : StoredFile) (w t : World) (tr : List (Bool × Taken Response))
    (x : ∀ i, Result (Answer i)) : Prop where
  run : Interleaving (exec sm.host) (calls sm b k content ct opts) w tr x t
  stored : x true = .ok file
  deleted : x false = .ok ()

namespace Race

theorem store_thread (h : Race sm b k content ct opts file w t tr x) :
    (sm.storeFile b k content ct opts).Runs record [] (.ok file) (project true tr) := by
  have hthread : (sm.storeFile b k content ct opts).Runs record [] (x true) (project true tr) :=
    h.run.thread true
  rwa [h.stored] at hthread

theorem removal_thread (h : Race sm b k content ct opts file w t tr x) :
    (sm.deleteBucket b).Runs record [] (.ok ()) (project false tr) := by
  have hthread : (sm.deleteBucket b).Runs record [] (x false) (project false tr) :=
    h.run.thread false
  rwa [h.deleted] at hthread

theorem removal_step (h : Race sm b k content ct opts file w t tr x) (hst : (false, st) ∈ tr) :
    DeleteBucketStep b st.1 :=
  h.removal_thread.used deleteBucket_steps st (mem_project.mpr hst)

theorem uncounted (h : Race sm b k content ct opts file w t tr x) {e : Bool × Taken Response}
    (he : e ∈ tr) : e.2.1.countsAccess = false := by
  obtain ⟨i, st⟩ := e
  cases i with
  | true => exact storeFile_uncounted h.store_thread st (mem_project.mpr he)
  | false => exact removal_uncounted (h.removal_step he)

/-- The removal deletes the row of every key of the bucket. -/
theorem cascade (h : Race sm b k content ct opts file w t tr x) : ∃ n, n ≠ 0 ∧
    (false, ⟨.deleteBucketRow b, (.ok n : Query Nat)⟩) ∈ tr ∧
    ∀ st, (false, st) ∈ tr → st.1.writesRow = true →
      st = ⟨.deleteBucketRow b, (.ok n : Query Nat)⟩ := by
  obtain ⟨files, n, clean, r, hn, hl, hclean, -⟩ := deleteBucket_dialogue h.removal_thread
  refine ⟨n, hn, mem_project.mp (by simp [hl]), fun st hst hw => ?_⟩
  have hin := mem_project.mpr hst
  rw [hl] at hin
  simp only [List.mem_append, List.mem_cons, List.not_mem_nil, or_false] at hin
  rcases hin with ((rfl | rfl) | hin) | rfl
  · simp [Action.writesRow] at hw
  · rfl
  · simp [hclean st hin] at hw
  · simp [Action.writesRow] at hw

/-- A row that is there in the end is the upload's, inserted after the others went. -/
theorem row_of_end (h : Race sm b k content ct opts file w t tr x)
    (hrow : t.db.files.find (b, k) = some row) : ∃ g r,
      (true, (⟨.upsertFile g, r⟩ : Taken Response)) ∈ tr ∧
        ((r : Query Unit) = .ok () → g.ident = (b, k) → row.filePath = g.filePath) := by
  obtain ⟨n, hn, hcascade, honly⟩ := h.cascade
  rcases exists_last (fun e => e.2.1.writesRow) tr with hnone | ⟨a, ⟨i, st⟩, c, htr, he, hlast⟩
  · simpa [Action.writesRow] using hnone _ hcascade
  obtain ⟨u, v, hu, hv, hvt⟩ := Steps.at_split (htr ▸ h.run.steps)
  have hend : t.db.files.find (b, k) = v.db.files.find (b, k) :=
    row_kept hvt fun e hmem => rowKept_of (hlast e hmem) (h.uncounted (by simp [htr, hmem]))
  cases i with
  | false =>
    obtain rfl := honly st (by simp [htr]) he
    rw [hend, takes_deleteBucketRow hn hv] at hrow
    simp at hrow
  | true =>
    have hstep : StoreStep sm b k opts st.1 :=
      h.store_thread.used storeFile_steps st (mem_project.mpr (by simp [htr]))
    obtain ⟨act, r⟩ := st
    have hin : (true, (⟨act, r⟩ : Taken Response)) ∈ tr := by simp [htr]
    cases hstep with
    | ensure hs => cases hs <;> simp [Action.writesRow] at he
    | selectFileByHash hash => simp [Action.writesRow] at he
    | fresh hs =>
      cases hs with
      | encrypt hs => cases hs <;> simp [Action.writesRow] at he
      | upsertFile g hg =>
        refine ⟨g, r, hin, fun hr hident => ?_⟩
        rw [hr] at hv
        have hmerged := takes_upsertFile hv
        rw [hident, ← hend, hrow, Option.some.injEq] at hmerged
        rw [hmerged, Database.mergeRow_filePath]
      | _ => simp [Action.writesRow] at he

/-- Bytes that were there at the start, and that nothing overwrites. -/
theorem kept_bytes (h : Race sm b k content ct opts file w t tr x) (halias : ¬ Wrote tr)
    (hlost : ¬ Lost sm.host path false tr) : t.bytesAt sm.host path = w.bytesAt sm.host path := by
  apply bytes_kept h.run.steps
  rintro ⟨i, st⟩ he
  cases i with
  | true =>
    apply bytesKept_of
    rw [Bool.eq_false_iff]
    exact fun hw => halias ⟨st, mem_project.mpr he, hw⟩
  | false =>
    apply removal_bytesKept (h.removal_step he)
    rw [Bool.eq_false_iff]
    exact fun hr => hlost (.relied halias (List.any_eq_true.mpr ⟨_, he, hr⟩))

theorem relied_gone (h : Race sm b k content ct opts file w t tr x) (halias : ¬ Wrote tr)
    (htake : tr.any (removes sm.host path true) = true) : t.bytesAt sm.host path = none := by
  obtain ⟨e, he, hr⟩ := List.any_eq_true.mp htake
  apply h.run.steps.established (I := fun u => u.bytesAt sm.host path = none) he
  · exact fun u v huv => removal_takes hr huv
  · rintro l₁ ⟨i, st⟩ l₂ rfl - u v huv hu
    cases i with
    | true =>
      have hst : st.1.writesFile = false := by
        rw [Bool.eq_false_iff]
        exact fun hw => halias ⟨st, mem_project.mpr (by simp), hw⟩
      exact (takes_bytesAt huv hst path).trans hu
    | false => exact removal_none (h.removal_step (by simp)) huv hu

/-- A row that the upload's lookup finds was there at the start. -/
theorem found_at_start (h : Race sm b k content ct opts file w t tr x) {existing : StoredFile}
    {pre l : List (Taken Response)} (hl : project true tr = pre ++ matched sm content existing :: l)
    (hpre : ∀ st ∈ pre, EnsureStep b st.1) : existing ∈ w.db.files := by
  obtain ⟨a, c, htr, ha, -⟩ := project_split hl
  obtain ⟨u, v, hu, hv, -⟩ := Steps.at_split (htr ▸ h.run.steps)
  have hin : ∀ f ∈ u.db.files, f ∈ w.db.files := by
    apply hu.invariant (I := fun u => ∀ f ∈ u.db.files, f ∈ w.db.files) (fun f hf => hf)
    intro st hst u v huv hi f hf
    obtain ⟨⟨i, st⟩, he, rfl⟩ := List.mem_map.mp hst
    apply hi
    have hcount : st.1.countsAccess = false := h.uncounted (htr ▸ List.mem_append_left _ he)
    cases i with
    | true =>
      exact takes_files huv (ensureStep_quiet (hpre st (ha ▸ mem_project.mpr he))).row hcount ▸ hf
    | false =>
      have hstep := h.removal_step (htr ▸ List.mem_append_left _ he)
      obtain ⟨act, r⟩ := st
      apply takes_files_subset huv _ hcount hf
      cases hstep <;> simp
  exact hin existing (takes_selectFileByHash hv).1

/-! ## A fresh upload -/

section Landed
variable {processed : Bytes}

theorem written_kept (h : Race sm b k content ct opts file w t tr x)
    (hl : Landed sm b k content ct opts file processed (project true tr))
    (hlost : before isWrite (removes sm.host (sm.getFilePath b k) false) tr = false) :
    t.bytesAt sm.host (sm.getFilePath b k) = some processed := by
  have hmem := mem_project.mp hl.wrote.mem
  apply h.run.steps.established (I := fun u => u.bytesAt sm.host (sm.getFilePath b k) =
    some processed) hmem
  · exact fun u v huv => takes_writeFileAtomic huv
  · rintro l₁ ⟨i, st⟩ l₂ rfl hbefore u v huv hu
    cases i with
    | true =>
      cases hw : st.1.writesFile with
      | false => exact (takes_bytesAt huv hw _).trans hu
      | true =>
        obtain rfl := hl.wrote.only st (mem_project.mpr (by simp)) hw
        exact takes_writeFileAtomic huv
    | false =>
      refine (removal_bytesKept (h.removal_step (by simp)) ?_ u v huv).trans hu
      rw [Bool.eq_false_iff]
      intro hr
      obtain ⟨m₁, m₂, rfl⟩ := List.append_of_mem hbefore
      rw [List.append_assoc, List.cons_append] at hlost
      have hyes : before isWrite (removes sm.host (sm.getFilePath b k) false) (m₁ ++
          (true, ⟨.writeFileAtomic (sm.getFilePath b k) processed,
            (.ok () : Except IoError Unit)⟩) :: (m₂ ++ (false, st) :: l₂)) = true :=
        before_of_split rfl (y := (false, st)) (by simp) hr
      rw [hyes] at hlost
      simp at hlost

theorem written_gone (h : Race sm b k content ct opts file w t tr x)
    (hl : Landed sm b k content ct opts file processed (project true tr))
    (hlost : before isWrite (removes sm.host (sm.getFilePath b k) true) tr = true) :
    t.bytesAt sm.host (sm.getFilePath b k) = none := by
  obtain ⟨l₁, ⟨i, st⟩, l₂, e, htr, hwrite, he, hr⟩ := split_of_before hlost
  have hst : i = true ∧ st = ⟨.writeFileAtomic (sm.getFilePath b k) processed,
      (.ok () : Except IoError Unit)⟩ := by
    cases i with
    | false => simp [isWrite] at hwrite
    | true =>
      refine ⟨rfl, hl.wrote.only st (mem_project.mpr (by simp [htr])) ?_⟩
      obtain ⟨act, r⟩ := st
      cases act with
      | writeFileAtomic p y => rfl
      | _ => simp [isWrite] at hwrite
  obtain ⟨rfl, rfl⟩ := hst
  have hlist : project true tr = project true l₁ ++ ⟨.writeFileAtomic (sm.getFilePath b k) processed,
      (.ok () : Except IoError Unit)⟩ :: project true l₂ := by
    rw [htr, project_append, project_cons_self]
  have honce := (hl.written_once hlist).2
  obtain ⟨u, v, hu, hv, hvt⟩ := Steps.at_split (htr ▸ h.run.steps)
  apply hvt.established (I := fun u => u.bytesAt sm.host (sm.getFilePath b k) = none) he
  · exact fun u v huv => removal_takes hr huv
  · rintro m₁ ⟨i, st⟩ m₂ rfl - u v huv hu
    cases i with
    | true => exact (takes_bytesAt huv (honce st (mem_project.mpr (by simp))) _).trans hu
    | false => exact removal_none (h.removal_step (by simp [htr])) huv hu

end Landed

/-! ## The cache entries -/

/-- The removal drops entries and sets none. -/
theorem removal_metadata_none (h : Race sm b k content ct opts file w t tr x)
    (hst : (false, st) ∈ tr) (huv : Takes (exec sm.host) u st v)
    (hu : u.cache.getFileMetadata b k = none) : v.cache.getFileMetadata b k = none := by
  have hstep := h.removal_step hst
  obtain ⟨act, r⟩ := st
  cases hstep with
  | invalidateFile key =>
    rw [takes_cache huv, Action.onCache, Cache.getFileMetadata_invalidateFile, hu]
    exact ite_self none
  | _ => exact (takes_getFileMetadata huv rfl b k).trans hu

theorem dropped (huv : Takes (exec sm.host) u st v) (hst : drops k (false, st) = true)
    (hstep : DeleteBucketStep b st.1) : v.cache.getFileMetadata b k = none := by
  obtain ⟨act, r⟩ := st
  cases hstep with
  | invalidateFile key =>
    obtain rfl : key = k := by simpa [drops] using hst
    rw [takes_cache huv, Action.onCache, Cache.getFileMetadata_invalidateFile,
      if_pos (Cache.SameSlot.refl b key)]
  | _ => simp [drops] at hst

/-- The entries of other keys are other entries. -/
theorem not_dropped (h : Race sm b k content ct opts file w t tr x) (hst : (false, st) ∈ tr)
    (hdrop : drops k (false, st) = false) (huv : Takes (exec sm.host) u st v) :
    v.cache.getFileMetadata b k = u.cache.getFileMetadata b k ∧
      v.cache.getFileContent b k = u.cache.getFileContent b k := by
  have hstep := h.removal_step hst
  obtain ⟨act, r⟩ := st
  cases hstep with
  | invalidateFile key =>
    have hslot : ¬ Cache.SameSlot b k b key := by
      intro hs
      have hkey : k = key := String.append_right_inj _ |>.mp hs
      simp [drops, hkey] at hdrop
    rw [takes_cache huv, Action.onCache, Cache.getFileMetadata_invalidateFile,
      Cache.getFileContent_invalidateFile, if_neg hslot, if_neg hslot]
    exact ⟨rfl, rfl⟩
  | _ => exact ⟨takes_getFileMetadata huv rfl b k, takes_getFileContent huv rfl b k⟩

/-- A row that was there at the start is listed, so its entries are dropped. -/
theorem listed (h : Race sm b k content ct opts file w t tr x)
    (hrow : w.db.files.find (b, k) = some row) : ∃ st, (false, st) ∈ tr ∧
      drops k (false, st) = true := by
  obtain ⟨files, n, clean, r, hn, hl, hclean, hall⟩ := deleteBucket_dialogue h.removal_thread
  obtain ⟨a, c, htr, ha, -⟩ := project_split (show project false tr = [] ++ _ :: _ from hl)
  obtain ⟨u, v, hu, hv, -⟩ := Steps.at_split (htr ▸ h.run.steps)
  have hthere : ∃ row, u.db.files.find (b, k) = some row := by
    apply hu.invariant (I := fun u => ∃ row, u.db.files.find (b, k) = some row) ⟨row, hrow⟩
    intro st hst u v huv hi
    obtain ⟨⟨i, st⟩, he, rfl⟩ := List.mem_map.mp hst
    have hin : (i, st) ∈ tr := htr ▸ List.mem_append_left _ he
    cases i with
    | false =>
      have hmem := mem_project.mpr he
      rw [ha] at hmem
      exact absurd hmem List.not_mem_nil
    | true =>
      have hstep : StoreStep sm b k opts st.1 :=
        h.store_thread.used storeFile_steps st (mem_project.mpr hin)
      have hsame : st.1.writesRow = false → ∃ row, v.db.files.find (b, k) = some row := by
        intro hw
        rwa [takes_files huv hw (h.uncounted hin)]
      obtain ⟨act, r⟩ := st
      cases hstep with
      | ensure hs => cases hs <;> exact hsame rfl
      | selectFileByHash hash => exact hsame rfl
      | fresh hs =>
        cases hs with
        | encrypt hs => cases hs <;> exact hsame rfl
        | upsertFile g hg =>
          rcases takes_db huv with hdb | hdb
          · rwa [hdb]
          · have hput := Table.find_put_self (t := u.db.files)
              (r := Database.mergeRow (u.db.files.find g.ident) g)
            rw [Database.mergeRow_ident, hg.ident] at hput
            rw [(Database.upsertFile_ok hdb).1, hg.ident]
            exact ⟨_, hput⟩
        | _ => exact hsame rfl
  obtain ⟨row, hrow⟩ := hthere
  obtain ⟨rank, rfl⟩ := takes_selectBucketFiles hv
  have hident := Table.find_key hrow
  have hkey : (k, row.filePath) ∈ u.db.selectBucketFiles b rank :=
    Database.mem_selectBucketFiles.mpr
      ⟨row, Table.find_mem hrow, congrArg Prod.fst hident, congrArg Prod.snd hident, rfl⟩
  obtain ⟨r', hr'⟩ := hall _ hkey
  exact ⟨⟨.invalidateFile b k, r'⟩, mem_project.mp (by simp [hl, hr']), by simp [drops]⟩

/-- Where the upload caches nothing, no entry is left. -/
theorem uncached (h : Race sm b k content ct opts file w t tr x)
    (hcache : ∀ f, w.cache.getFileMetadata b k = some f →
      ∃ row, w.db.files.find (b, k) = some row)
    (hquiet : ∀ st, (true, st) ∈ tr → st.1.writesMetadata = false) :
    t.cache.getFileMetadata b k = none := by
  have hkeep : ∀ e ∈ tr, ∀ u v, Takes (exec sm.host) u e.2 v →
      u.cache.getFileMetadata b k = none → v.cache.getFileMetadata b k = none := by
    rintro ⟨i, st⟩ he u v huv hu
    cases i with
    | true => exact (takes_getFileMetadata huv (hquiet st he) b k).trans hu
    | false => exact h.removal_metadata_none he huv hu
  cases hc : w.cache.getFileMetadata b k with
  | none =>
    apply h.run.steps.invariant (I := fun u => u.cache.getFileMetadata b k = none) hc
    intro st hst u v huv hu
    obtain ⟨e, he, rfl⟩ := List.mem_map.mp hst
    exact hkeep e he u v huv hu
  | some f =>
    obtain ⟨row, hrow⟩ := hcache f hc
    obtain ⟨st, hst, hdrop⟩ := h.listed hrow
    apply h.run.steps.established (I := fun u => u.cache.getFileMetadata b k = none) hst
    · exact fun u v huv => dropped huv hdrop (h.removal_step hst)
    · rintro l₁ e l₂ rfl - u v huv hu
      exact hkeep e (by simp) u v huv hu

section Landed
variable {processed : Bytes}

/-- Where the upload's record is cached, and the only step after it that touches an entry. -/
theorem caching (hl : Landed sm b k content ct opts file processed (project true tr)) : ∃ a c r r',
      tr = a ++ (true, ⟨.setFileMetadata b k file, r⟩) :: c ∧
        project true c = [⟨.setFileContent b k processed, r'⟩] := by
  obtain ⟨r, hsole⟩ := hl.cachedMetadata
  obtain ⟨l₁, l₂, hlist⟩ := List.append_of_mem hsole.mem
  obtain ⟨a, c, htr, ha, hc⟩ := project_split hlist
  obtain ⟨r', hr'⟩ := hl.after_metadata hlist
  exact ⟨a, c, r, r', htr, hc.trans hr'⟩

theorem dropped_late (h : Race sm b k content ct opts file w t tr x)
    (hl : Landed sm b k content ct opts file processed (project true tr))
    (hlate : before cachesRecord (drops k) tr = true) : t.cache.getFileMetadata b k = none := by
  obtain ⟨l₁, ⟨i, st⟩, l₂, ⟨j, st'⟩, htr, hcaches, he, hdrop⟩ := split_of_before hlate
  have hst : i = true ∧ ∃ r, st = ⟨.setFileMetadata b k file, r⟩ := by
    cases i with
    | false => simp [cachesRecord] at hcaches
    | true =>
      obtain ⟨r, hsole⟩ := hl.cachedMetadata
      refine ⟨rfl, r, hsole.only st (mem_project.mpr (by simp [htr])) ?_⟩
      obtain ⟨act, r⟩ := st
      cases act with
      | setFileMetadata b' k' f => rfl
      | _ => simp [cachesRecord] at hcaches
  obtain ⟨rfl, r, rfl⟩ := hst
  have hj : j = false := by
    cases j with
    | false => rfl
    | true => simp [drops] at hdrop
  subst hj
  have hlist : project true tr = project true l₁ ++ ⟨.setFileMetadata b k file, r⟩ ::
      project true l₂ := by rw [htr, project_append, project_cons_self]
  obtain ⟨r', hafter⟩ := hl.after_metadata hlist
  obtain ⟨u, v, hu, hv, hvt⟩ := Steps.at_split (htr ▸ h.run.steps)
  have hin : ∀ e ∈ l₂, e ∈ tr := fun e he => by simp [htr, he]
  apply hvt.established (I := fun u => u.cache.getFileMetadata b k = none) he
  · exact fun u v huv => dropped huv hdrop (h.removal_step (hin _ he))
  · rintro m₁ ⟨i, st⟩ m₂ rfl - u v huv hu
    cases i with
    | true =>
      have hmem := mem_project.mpr (show (true, st) ∈ m₁ ++ (true, st) :: m₂ by simp)
      rw [hafter, List.mem_singleton] at hmem
      exact (takes_getFileMetadata huv (by rw [hmem]; rfl) b k).trans hu
    | false => exact h.removal_metadata_none (hin _ (by simp)) huv hu

/-- Entries set after the last drop stay. -/
theorem cached_late (h : Race sm b k content ct opts file w t tr x)
    (hl : Landed sm b k content ct opts file processed (project true tr))
    (hlate : before cachesRecord (drops k) tr = false) :
    t.cache.getFileMetadata b k = some file ∧
      (processed.length ≤ Cache.maxCacheSize → t.cache.getFileContent b k = some processed) := by
  obtain ⟨a, c, r, r', htr, hc⟩ := caching hl
  have hnodrop : ∀ st, (false, st) ∈ c → drops k (false, st) = false := by
    intro st hst
    rw [Bool.eq_false_iff]
    intro hdrop
    rw [htr, before_of_split rfl hst hdrop] at hlate
    simp at hlate
  have hin : ∀ e ∈ c, e ∈ tr := fun e he => by simp [htr, he]
  obtain ⟨u, v, hu, hv, hvt⟩ := Steps.at_split (htr ▸ h.run.steps)
  constructor
  · have hset : v.cache.getFileMetadata b k = some file := by
      rw [takes_cache hv, Action.onCache, Cache.getFileMetadata_setFileMetadata,
        if_pos (Cache.SameSlot.refl b k)]
    rw [← hset]
    apply hvt.keep (fun w => w.cache.getFileMetadata b k)
    intro st hst u v huv
    obtain ⟨⟨i, st⟩, he, rfl⟩ := List.mem_map.mp hst
    cases i with
    | true =>
      have hmem := mem_project.mpr he
      rw [hc, List.mem_singleton] at hmem
      exact takes_getFileMetadata huv (by rw [hmem]; rfl) b k
    | false => exact (h.not_dropped (hin _ he) (hnodrop st he) huv).1
  · intro hfits
    have hmem : (true, (⟨.setFileContent b k processed, r'⟩ : Taken Response)) ∈ c :=
      mem_project.mp (by simp [hc])
    have hset : ∀ u v : World, Takes (exec sm.host) u ⟨.setFileContent b k processed, r'⟩ v →
        v.cache.getFileContent b k = some processed := by
      intro u v huv
      rw [takes_cache huv, Action.onCache, Cache.getFileContent_setFileContent hfits,
        if_pos (Cache.SameSlot.refl b k)]
    apply hvt.established (I := fun u => u.cache.getFileContent b k = some processed) hmem
    · exact hset
    · rintro m₁ ⟨i, st⟩ m₂ rfl - u v huv hu
      cases i with
      | true =>
        have hst := mem_project.mpr (show (true, st) ∈ m₁ ++ (true, st) :: m₂ by simp)
        rw [hc, List.mem_singleton] at hst
        exact hset u v (hst ▸ huv)
      | false => exact (h.not_dropped (hin _ (by simp)) (hnodrop st (by simp)) huv).2.trans hu

end Landed

end Race

/-- What the two calls leave of the key. -/
structure Settled (sm : StorageManager) (b k : String) (file : StoredFile) (t : World)
    (tr : List (Bool × Taken Response)) : Prop where
  /-- A row that is there has its bytes, unless the removal took them; then they are gone. -/
  present : ∀ row, t.db.files.find (b, k) = some row →
    (¬ Lost sm.host row.filePath false tr → (t.bytesAt sm.host row.filePath).isSome = true) ∧
      (Lost sm.host row.filePath true tr → t.bytesAt sm.host row.filePath = none)
  /-- A key without a row is not found, unless the upload cached its record late; then it is
  still served from the cache. -/
  absent : t.db.files.find (b, k) = none →
    (¬ CachedLate k tr → served sm t b k = .error (.notFound b k)) ∧
      (CachedLate k tr → past t.now file.expiresAt = false → ∀ bytes,
        (true, ⟨.writeFileAtomic (sm.getFilePath b k) bytes, (.ok () : Except IoError Unit)⟩) ∈ tr →
        bytes.length ≤ Cache.maxCacheSize →
        served sm t b k = (sm.decoded t.db file bytes).map fun x => (x, some file.contentType))

theorem served_of_no_record (hrow : t.db.files.find (b, k) = none)
    (hcache : t.cache.getFileMetadata b k = none) : served sm t b k = .error (.notFound b k) := by
  simp [served_eq, readResult, recordOf, hcache, Database.selectFile, hrow]

open Sample (manager)

/-- `a/l` is uploaded while the bucket `a`, which holds `a/k`, is removed. -/
def woven (schedule : List Bool) :=
  weave (exec manager.host) calm schedule (calls manager "a" "l" [121] none {}) single

/-- The upload recreates the bucket's row after the cascade, and writes its file after the
directory is gone. -/
def afterwards : List Bool :=
  List.replicate 2 false ++ List.replicate 2 true ++ List.replicate 4 false ++ List.replicate 9 true

/-- The whole upload runs between the cascade and the cleaning of the disk. -/
def beforeRemoveDir : List Bool :=
  List.replicate 2 false ++ List.replicate 11 true ++ List.replicate 4 false

/-- The whole upload runs between the list of the rows and the cascade. -/
def beforeCascade : List Bool :=
  List.replicate 1 false ++ List.replicate 9 true ++ List.replicate 5 false

theorem single_on_disk : ∀ f ∈ single.db.files.rows,
    (single.bytesAt manager.host f.filePath).isSome = true := by decide

theorem single_uncached (f : StoredFile) (h : single.cache.getFileMetadata "a" "l" = some f) :
    ∃ row, single.db.files.find ("a", "l") = some row := by
  have hnone : (single.cache.getFileMetadata "a" "l").isNone = true := by decide
  simp [h] at hnone

end LocalStorage.Proofs.RemovalRace
