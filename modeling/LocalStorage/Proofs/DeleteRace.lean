import LocalStorage.Proofs.Dialogues
import LocalStorage.Sample

namespace LocalStorage.Proofs.DeleteRace
open Lib Lib.Paths StorageManager

/-! # A deletion and an upload at the same time -/

abbrev Answer : Bool → Type
  | true => StoredFile
  | false => Unit

/-- The upload is thread `true`, the deletion thread `false`. -/
def calls (sm : StorageManager) (b₁ k₁ b₂ k₂ : String) (content : Bytes) (ct : Option String)
    (opts : StoreOptions) : (i : Bool) → Op (Answer i)
  | true => sm.storeFile b₂ k₂ content ct opts
  | false => deleteFile b₁ k₁

/-- The upload wrote a file. -/
def Wrote (tr : List (Bool × Taken Response)) : Prop :=
  ∃ st ∈ project true tr, st.1.writesFile = true

/-- What the upload put at its row's path, or found there. -/
def Stored (sm : StorageManager) (w : World) (tr : List (Bool × Taken Response)) (path : String)
    (bytes : Bytes) : Prop :=
  (true, ⟨.writeFileAtomic path bytes, (.ok () : Except IoError Unit)⟩) ∈ tr ∨
    ¬ Wrote tr ∧ w.bytesAt sm.host path = some bytes

/-- The path holds what was stored. -/
def Backed (sm : StorageManager) (w t : World) (tr : List (Bool × Taken Response))
    (path : String) : Prop :=
  ∃ bytes, Stored sm w tr path bytes ∧ t.bytesAt sm.host path = some bytes

def isCount (e : Bool × Taken Response) : Bool :=
  !e.1 && match e.2.1 with
    | .countOtherReferences _ _ _ => true
    | _ => false

def isUpsert (e : Bool × Taken Response) : Bool :=
  e.1 && match e.2.1 with
    | .upsertFile _ => true
    | _ => false

def isWrite (e : Bool × Taken Response) : Bool :=
  e.1 && match e.2.1 with
    | .writeFileAtomic _ _ => true
    | _ => false

def isUnlink (e : Bool × Taken Response) : Bool :=
  !e.1 && match e.2.1 with
    | .removeFile _ => true
    | _ => false

/-- Why the deletion of `(b, k)` leaves the bytes at `path` alone. -/
inductive Spared (sm : StorageManager) (b k path : String) (w : World)
    (tr : List (Bool × Taken Response)) (x : Result Unit) : Prop where
  | failed (h : x ≠ .ok ())
  | unlinkFails (p : String) (e : IoError)
      (h : (false, ⟨.removeFile p, (.error e : Except IoError Unit)⟩) ∈ tr)
  /-- Another row has the path of the one that is deleted. -/
  | shared (f g : StoredFile) (hf : f ∈ w.db.files) (hne : f.ident ≠ (b, k))
      (hg : w.db.files.find (b, k) = some g) (h : f.filePath = g.filePath)
  | elsewhere (h : ∀ g, w.db.files.find (b, k) = some g →
      sm.host.target g.filePath ≠ sm.host.target path)
  /-- The alias's row is there when the references are counted. -/
  | counted (halias : ¬ Wrote tr) (h : before isCount isUpsert tr = false)
  /-- Nothing is unlinked after the write. -/
  | first (hwrote : Wrote tr) (h : before isWrite isUnlink tr = false)

variable {sm : StorageManager} {b₁ k₁ b₂ k₂ b k path : String} {content : Bytes}
  {ct : Option String} {opts : StoreOptions} {w t u : World} {tr a c : List (Bool × Taken Response)}
  {x : ∀ i, Result (Answer i)} {file row f : StoredFile}

/-! ## Steps that keep a row or a file -/

/-- The step leaves the row of `(b, k)` as it is. -/
def RowKept (h : Host) (b k : String) (st : Taken Response) : Prop :=
  ∀ u v, Takes (exec h) u st v → v.db.files.find (b, k) = u.db.files.find (b, k)

/-- The step leaves the bytes at `path` as they are. -/
def BytesKept (h : Host) (path : String) (st : Taken Response) : Prop :=
  ∀ u v, Takes (exec h) u st v → v.bytesAt h path = u.bytesAt h path

theorem rowKept_of {h : Host} {st : Taken Response} (hr : st.1.writesRow = false)
    (hc : st.1.countsAccess = false) : RowKept h b k st :=
  fun _ _ huv => by rw [takes_files huv hr hc]

theorem bytesKept_of {h : Host} {st : Taken Response} (hf : st.1.writesFile = false) :
    BytesKept h path st :=
  fun _ _ huv => takes_bytesAt huv hf path

theorem quiet_rowKept {h : Host} {st : Taken Response} (hq : st.1.Quiet) : RowKept h b k st :=
  rowKept_of hq.row hq.access

theorem row_kept {h : Host} {l : List (Bool × Taken Response)}
    (hs : Steps (exec h) w (l.map Prod.snd) u) (hl : ∀ e ∈ l, RowKept h b k e.2) :
    u.db.files.find (b, k) = w.db.files.find (b, k) := by
  apply hs.keep (fun w => w.db.files.find (b, k))
  intro st hst u v huv
  obtain ⟨e, he, rfl⟩ := List.mem_map.mp hst
  exact hl e he u v huv

theorem bytes_kept {h : Host} {l : List (Bool × Taken Response)}
    (hs : Steps (exec h) w (l.map Prod.snd) u) (hl : ∀ e ∈ l, BytesKept h path e.2) :
    u.bytesAt h path = w.bytesAt h path := by
  apply hs.keep (fun w => w.bytesAt h path)
  intro st hst u v huv
  obtain ⟨e, he, rfl⟩ := List.mem_map.mp hst
  exact hl e he u v huv

theorem row_upserted {h : Host} {g : StoredFile} {l : List (Bool × Taken Response)}
    (hs : Steps (exec h) w (l.map Prod.snd) u)
    (hg : (true, ⟨.upsertFile g, (.ok () : Query Unit)⟩) ∈ l)
    (hl : ∀ e ∈ l, e.2 ≠ ⟨.upsertFile g, (.ok () : Query Unit)⟩ → RowKept h g.bucket g.key e.2) :
    ∃ old, u.db.files.find g.ident = some (Database.mergeRow old g) := by
  apply hs.established (I := fun u => ∃ old, u.db.files.find g.ident =
    some (Database.mergeRow old g)) hg
  · intro u v huv
    exact ⟨_, takes_upsertFile huv⟩
  · rintro l₁ e l₂ rfl - u v huv ⟨old, hold⟩
    by_cases he : e.2 = ⟨.upsertFile g, (.ok () : Query Unit)⟩
    · exact ⟨_, takes_upsertFile (he ▸ huv)⟩
    · exact ⟨old, (hl e (by simp) he u v huv).trans hold⟩

/-! ## The two threads -/

theorem delete_steps
    (hrun : Interleaving (exec sm.host) (calls sm b₁ k₁ b₂ k₂ content ct opts) w tr x t) :
    DeleteSteps b₁ k₁ (x false) (project false tr) :=
  deleteFile_dialogue (hrun.thread false)

theorem store_steps
    (hrun : Interleaving (exec sm.host) (calls sm b₁ k₁ b₂ k₂ content ct opts) w tr x t)
    (hok : x true = .ok file) :
    StoreSteps sm b₂ k₂ content ct opts file (project true tr) := by
  have hthread : (sm.storeFile b₂ k₂ content ct opts).Runs record [] (x true) (project true tr) :=
    hrun.thread true
  rw [hok] at hthread
  exact storeFile_dialogue hthread

theorem deleteStep_uncounted {a : Action} (h : DeleteStep b k a) : a.countsAccess = false := by
  cases h <;> rfl

/-- A deletion that fails changes neither rows nor files. -/
theorem failed_keeps {e : StorageError} {l : List (Taken Response)}
    (h : DeleteSteps b₁ k₁ (.error e) l) {st : Taken Response} (hst : st ∈ l) :
    RowKept sm.host b k st ∧ BytesKept sm.host path st := by
  cases h with
  | failed e l hl =>
    rcases hl st hst with hq | ⟨e, rfl⟩
    · exact ⟨quiet_rowKept hq, bytesKept_of hq.file⟩
    · exact ⟨fun u v huv => by rw [takes_deleteFileRow_error huv], bytesKept_of rfl⟩

/-- What the deletion does to the rows of other keys. -/
theorem delete_rowKept
    (hrun : Interleaving (exec sm.host) (calls sm b₁ k₁ b₂ k₂ content ct opts) w tr x t)
    {st : Taken Response} (hst : (false, st) ∈ tr) (hne : (b, k) ≠ (b₁, k₁)) :
    RowKept sm.host b k st := by
  have hstep : DeleteStep b₁ k₁ st.1 :=
    (hrun.thread false).used deleteFile_steps st (mem_project.mpr hst)
  obtain ⟨act, r⟩ := st
  cases hstep with
  | deleteFileRow => exact fun u v huv => takes_deleteFileRow_ne huv hne
  | _ => exact rowKept_of rfl rfl

/-- The deletion has selected the path, counted, and deleted the row. -/
def deleting (b k path : String) (n : Nat) : List (Taken Response) :=
  [⟨.selectFilePath b k, (.ok (some path) : Query (Option String))⟩,
    ⟨.countOtherReferences path b k, (.ok n : Query Nat)⟩,
    ⟨.deleteFileRow b k, (.ok () : Query Unit)⟩]

/-! ## An upload that aliases the row -/

/-- The upload has found `existing` under `(b₁, k₁)` and inserted `g` over its bytes. -/
structure Aliasing (sm : StorageManager) (b₁ k₁ b₂ k₂ : String) (existing g : StoredFile)
    (w t : World) (tr : List (Bool × Taken Response)) (content : Bytes) (ct : Option String)
    (opts : StoreOptions) (x : ∀ i, Result (Answer i)) : Prop where
  run : Interleaving (exec sm.host) (calls sm b₁ k₁ b₂ k₂ content ct opts) w tr x t
  steps : ∃ pre id now, project true tr = pre ++ [matched sm content existing, ⟨.newUuid, id⟩,
    ⟨.utcNow, now⟩, ⟨.upsertFile g, (.ok () : Query Unit)⟩] ∧ ∀ st ∈ pre, EnsureStep b₂ st.1
  ident : existing.ident = (b₁, k₁)
  other : (b₂, k₂) ≠ (b₁, k₁)
  inserted : g.ident = (b₂, k₂)
  path : g.filePath = existing.filePath

namespace Aliasing

variable {existing g : StoredFile}

/-- The upload changes nothing but its own row. -/
theorem store_step (h : Aliasing sm b₁ k₁ b₂ k₂ existing g w t tr content ct opts x)
    {st : Taken Response} (hst : (true, st) ∈ tr) :
    st.1.Quiet ∨ st = ⟨.upsertFile g, (.ok () : Query Unit)⟩ := by
  obtain ⟨pre, id, now, hl, hpre⟩ := h.steps
  have hmem := mem_project.mpr hst
  rw [hl] at hmem
  rcases List.mem_append.mp hmem with hmem | hmem
  · exact .inl (ensureStep_quiet (hpre st hmem))
  · simp only [List.mem_cons, List.not_mem_nil, or_false] at hmem
    rcases hmem with rfl | rfl | rfl | rfl
    · exact .inl ⟨rfl, rfl, rfl, rfl, rfl⟩
    · exact .inl ⟨rfl, rfl, rfl, rfl, rfl⟩
    · exact .inl ⟨rfl, rfl, rfl, rfl, rfl⟩
    · exact .inr rfl

theorem not_wrote (h : Aliasing sm b₁ k₁ b₂ k₂ existing g w t tr content ct opts x) : ¬ Wrote tr := by
  rintro ⟨st, hst, hw⟩
  rcases h.store_step (mem_project.mp hst) with hq | rfl
  · simp [hq.file] at hw
  · simp [Action.writesFile] at hw

theorem store_bytesKept (h : Aliasing sm b₁ k₁ b₂ k₂ existing g w t tr content ct opts x)
    {st : Taken Response} (hst : (true, st) ∈ tr) : BytesKept sm.host path st := by
  rcases h.store_step hst with hq | rfl
  · exact bytesKept_of hq.file
  · exact bytesKept_of rfl

theorem store_rowKept (h : Aliasing sm b₁ k₁ b₂ k₂ existing g w t tr content ct opts x)
    {st : Taken Response} (hst : (true, st) ∈ tr) (hne : (b, k) ≠ (b₂, k₂)) :
    RowKept sm.host b k st := by
  rcases h.store_step hst with hq | rfl
  · exact quiet_rowKept hq
  · exact fun u v huv => takes_upsertFile_ne huv (h.inserted ▸ hne)

/-- The row found is the one the table started with. -/
theorem found (h : Aliasing sm b₁ k₁ b₂ k₂ existing g w t tr content ct opts x) :
    w.db.files.find (b₁, k₁) = some existing := by
  obtain ⟨pre, id, now, hl, hpre⟩ := h.steps
  obtain ⟨a, c, htr, ha, -⟩ := project_split hl
  obtain ⟨u, v, hu, hv, -⟩ := Steps.at_split (htr ▸ h.run.steps)
  have hin : ∀ f ∈ u.db.files, f ∈ w.db.files := by
    apply hu.invariant (I := fun u => ∀ f ∈ u.db.files, f ∈ w.db.files) (fun f hf => hf)
    intro st hst u v huv hi f hf
    obtain ⟨⟨i, st⟩, he, rfl⟩ := List.mem_map.mp hst
    apply hi
    cases i with
    | true =>
      have hq := ensureStep_quiet (hpre st (ha ▸ mem_project.mpr he))
      exact takes_files huv hq.row hq.access ▸ hf
    | false =>
      have hstep : DeleteStep b₁ k₁ st.1 := (h.run.thread false).used deleteFile_steps st
        (mem_project.mpr (htr ▸ List.mem_append_left _ he))
      obtain ⟨act, r⟩ := st
      apply takes_files_subset huv _ (by cases hstep <;> rfl) hf
      cases hstep <;> simp
  have hmem := hin existing (takes_selectFileByHash hv).1
  rw [← h.ident]
  exact Table.find_self hmem

theorem row_of_end (h : Aliasing sm b₁ k₁ b₂ k₂ existing g w t tr content ct opts x)
    (hrow : t.db.files.find (b₂, k₂) = some row) : row.filePath = existing.filePath := by
  obtain ⟨pre, id, now, hl, -⟩ := h.steps
  have hmem : (true, ⟨.upsertFile g, (.ok () : Query Unit)⟩) ∈ tr :=
    mem_project.mp (by simp [hl])
  have hbk : (g.bucket, g.key) = (b₂, k₂) := h.inserted
  obtain ⟨old, hold⟩ := row_upserted h.run.steps hmem fun taken he hne => by
    obtain ⟨i, st⟩ := taken
    cases i with
    | true =>
      rcases h.store_step he with hq | hst
      · exact quiet_rowKept hq
      · exact absurd hst hne
    | false => exact delete_rowKept h.run he (hbk ▸ h.other)
  rw [h.inserted, hrow, Option.some.injEq] at hold
  rw [hold, Database.mergeRow_filePath, h.path]

/-- While the alias's row is not there, the table is as it was up to the count; once it is,
the count sees it. -/
theorem count_eq_zero {p : String} {n : Nat}
    (h : Aliasing sm b₁ k₁ b₂ k₂ existing g w t tr content ct opts x)
    (htr : tr = a ++ (false, ⟨.countOtherReferences p b₁ k₁, (.ok n : Query Nat)⟩) :: c)
    (ha : project false a = [⟨.selectFilePath b₁ k₁, (.ok (some p) : Query (Option String))⟩]) :
    p = existing.filePath ∧
      (n = 0 ↔ (∀ f ∈ w.db.files, f.filePath = p → f.ident = (b₁, k₁)) ∧
        (true, ⟨.upsertFile g, (.ok () : Query Unit)⟩) ∉ a) := by
  obtain ⟨u, v, hu, hv, -⟩ := Steps.at_split (htr ▸ h.run.steps)
  have hquiet : ∀ st, (false, st) ∈ a → st.1.Quiet := by
    intro st hst
    have hmem := mem_project.mpr hst
    rw [ha, List.mem_singleton] at hmem
    subst hmem
    exact ⟨rfl, rfl, rfl, rfl, rfl⟩
  have hsame : (true, ⟨.upsertFile g, (.ok () : Query Unit)⟩) ∉ a →
      ∀ b k, u.db.files.find (b, k) = w.db.files.find (b, k) := by
    intro hnot b k
    apply row_kept hu
    rintro ⟨i, st⟩ he
    cases i with
    | true =>
      rcases h.store_step (htr ▸ List.mem_append_left _ he) with hq | rfl
      · exact quiet_rowKept hq
      · exact absurd he hnot
    | false => exact quiet_rowKept (hquiet st he)
  have hpath : p = existing.filePath := by
    -- the path is selected from the row as it was
    obtain ⟨a', c', ha', -, -⟩ := project_split (show project false a = [] ++ _ :: [] from ha)
    obtain ⟨u', v', hu', hv', -⟩ := Steps.at_split (ha' ▸ hu)
    have hsel := takes_selectFilePath hv'
    have hrow : u'.db.files.find (b₁, k₁) = w.db.files.find (b₁, k₁) := by
      apply row_kept hu'
      rintro ⟨i, st⟩ he
      have hina : (i, st) ∈ a := ha' ▸ List.mem_append_left _ he
      cases i with
      | true => exact h.store_rowKept (htr ▸ List.mem_append_left _ hina) h.other.symm
      | false => exact quiet_rowKept (hquiet st hina)
    rw [Database.selectFile, hrow, h.found, Option.map_some, Option.some.injEq] at hsel
    exact hsel
  refine ⟨hpath, ?_⟩
  rw [takes_countOtherReferences hv, Database.countOtherReferences_eq_zero]
  constructor
  · intro hzero
    have hnot : (true, ⟨.upsertFile g, (.ok () : Query Unit)⟩) ∉ a := by
      intro hmem
      have hbk : (g.bucket, g.key) = (b₂, k₂) := h.inserted
      obtain ⟨old, hold⟩ := row_upserted hu hmem fun ⟨i, st⟩ he hne => by
        cases i with
        | true =>
          rcases h.store_step (htr ▸ List.mem_append_left _ he) with hq | hst
          · exact quiet_rowKept hq
          · exact absurd hst hne
        | false => exact quiet_rowKept (hquiet st he)
      have hident := hzero _ (Table.find_mem hold) (by rw [Database.mergeRow_filePath, h.path, hpath])
      rw [Database.mergeRow_ident, h.inserted] at hident
      exact h.other hident
    refine ⟨fun f hf hfp => ?_, hnot⟩
    have hfu : u.db.files.find (f.bucket, f.key) = some f :=
      (hsame hnot f.bucket f.key).trans (Table.find_self hf)
    exact hzero f (Table.find_mem hfu) hfp
  · rintro ⟨hw, hnot⟩ f hf hfp
    have hfw : w.db.files.find (f.bucket, f.key) = some f :=
      (hsame hnot f.bucket f.key).symm.trans (Table.find_self hf)
    exact hw f (Table.find_mem hfw) hfp

/-- Once the alias's row is inserted the upload is over. -/
theorem finished (h : Aliasing sm b₁ k₁ b₂ k₂ existing g w t tr content ct opts x)
    {st : Taken Response} (htr : tr = a ++ (false, st) :: c)
    (hin : (true, ⟨.upsertFile g, (.ok () : Query Unit)⟩) ∈ a) : project true c = [] := by
  obtain ⟨pre, id, now, hl, hpre⟩ := h.steps
  rw [htr, project_append, project_cons_ne (by simp)] at hl
  have hmem := mem_project.mpr hin
  cases hc : project true c using List.reverseRec with
  | nil => rfl
  | append_singleton l z _ =>
    exfalso
    rw [hc, ← List.append_assoc, show pre ++ [matched sm content existing, ⟨.newUuid, id⟩,
      ⟨.utcNow, now⟩, ⟨.upsertFile g, (.ok () : Query Unit)⟩] = (pre ++
      [matched sm content existing, ⟨.newUuid, id⟩, ⟨.utcNow, now⟩]) ++
      [⟨.upsertFile g, (.ok () : Query Unit)⟩] by simp] at hl
    have hleft := (List.append_inj' hl rfl).1
    have hbad := List.mem_append_left l hmem
    rw [hleft] at hbad
    rcases List.mem_append.mp hbad with hbad | hbad
    · have hstep : EnsureStep b₂ (.upsertFile g) := hpre _ hbad
      cases hstep
    · simp [matched] at hbad

theorem backed_of_kept (h : Aliasing sm b₁ k₁ b₂ k₂ existing g w t tr content ct opts x)
    (hdisk : (w.bytesAt sm.host path).isSome = true)
    (hkeep : ∀ st, (false, st) ∈ tr → BytesKept sm.host path st) : Backed sm w t tr path := by
  obtain ⟨bytes, hbytes⟩ := Option.isSome_iff_exists.mp hdisk
  have hsame : t.bytesAt sm.host path = w.bytesAt sm.host path := by
    apply bytes_kept h.run.steps
    rintro ⟨i, st⟩ he
    cases i with
    | true => exact h.store_bytesKept he
    | false => exact hkeep st he
  exact ⟨bytes, .inr ⟨h.not_wrote, hbytes⟩, hsame.trans hbytes⟩

/-- A path unlinked by the deletion stays empty. -/
theorem unlinked (h : Aliasing sm b₁ k₁ b₂ k₂ existing g w t tr content ct opts x)
    (hun : (false, ⟨.removeFile path, (.ok () : Except IoError Unit)⟩) ∈ tr) :
    t.bytesAt sm.host path = none := by
  apply h.run.steps.established (I := fun u => u.bytesAt sm.host path = none) hun
  · exact fun u v huv => takes_removeFile huv
  · rintro l₁ ⟨i, st⟩ l₂ rfl - u v huv hu
    cases i with
    | true => exact (h.store_bytesKept (by simp) u v huv).trans hu
    | false =>
      have hstep : DeleteStep b₁ k₁ st.1 :=
        (h.run.thread false).used deleteFile_steps st (mem_project.mpr (by simp))
      obtain ⟨act, r⟩ := st
      cases hstep with
      | removeFile p => exact takes_removeFile_none huv hu
      | _ => exact (takes_bytesAt huv rfl path).trans hu

theorem backed_iff (h : Aliasing sm b₁ k₁ b₂ k₂ existing g w t tr content ct opts x)
    (hdisk : (w.bytesAt sm.host existing.filePath).isSome = true) :
    Backed sm w t tr existing.filePath ↔
      Spared sm b₁ k₁ existing.filePath w tr (x false) := by
  have hdel := delete_steps h.run
  generalize hx : x false = y, hl : project false tr = l at hdel
  have hmem : ∀ {st}, (false, st) ∈ tr ↔ st ∈ l := fun {st} => by rw [← hl, mem_project]
  cases hdel with
  | failed e l hfailed =>
    have hkeep : ∀ st, (false, st) ∈ tr → BytesKept sm.host existing.filePath st :=
      fun st hst => (failed_keeps (b := b₁) (k := k₁) (.failed e l hfailed) (hmem.mp hst)).2
    exact ⟨fun _ => .failed (by simp), fun _ => h.backed_of_kept hdisk hkeep⟩
  | kept p n r hn =>
    refine ⟨fun _ => ?_, fun _ => h.backed_of_kept hdisk fun st hst => ?_⟩
    · obtain ⟨a, c, htr, ha, hc⟩ := project_split (show project false tr = [_] ++ _ :: _ from hl)
      obtain ⟨hp, hzero⟩ := h.count_eq_zero htr ha
      by_cases hin : (true, ⟨.upsertFile g, (.ok () : Query Unit)⟩) ∈ a
      · refine .counted h.not_wrote ?_
        have hover := h.finished htr hin
        rw [htr]
        apply not_before_of_split
        · rintro ⟨i, st⟩ he
          cases i with
          | true => rfl
          | false =>
            have hst := mem_project.mpr he
            rw [ha, List.mem_singleton] at hst
            rw [hst]
            rfl
        · rintro ⟨i, st⟩ he
          cases i with
          | true => rfl
          | false =>
            have hst := mem_project.mpr he
            rw [hc] at hst
            simp only [List.mem_cons, List.not_mem_nil, or_false] at hst
            rcases hst with rfl | rfl <;> rfl
        · rintro ⟨i, st⟩ he
          cases i with
          | false => rfl
          | true =>
            have hst := mem_project.mpr he
            rw [hover] at hst
            exact absurd hst List.not_mem_nil
      · have hshared : ¬ ∀ f ∈ w.db.files, f.filePath = p → f.ident = (b₁, k₁) :=
          fun hall => hn (hzero.mpr ⟨hall, hin⟩)
        simp only [not_forall] at hshared
        obtain ⟨f, hf, hfp, hne⟩ := hshared
        exact .shared f existing hf hne h.found (hfp.trans hp)
    · have hst := hmem.mp hst
      simp only [List.mem_cons, List.not_mem_nil, or_false] at hst
      rcases hst with rfl | rfl | rfl | rfl <;> exact bytesKept_of rfl
  | unlinked p r' r =>
    obtain ⟨a, c, htr, ha, hc⟩ := project_split (show project false tr = [_] ++ _ :: _ from hl)
    obtain ⟨rfl, hzero⟩ := h.count_eq_zero htr ha
    cases r' with
    | error e =>
      refine ⟨fun _ => .unlinkFails existing.filePath e (hmem.mpr (by simp)), fun _ => ?_⟩
      refine h.backed_of_kept hdisk fun st hst => ?_
      have hst := hmem.mp hst
      simp only [List.mem_cons, List.not_mem_nil, or_false] at hst
      rcases hst with rfl | rfl | rfl | rfl | rfl
      · exact bytesKept_of rfl
      · exact bytesKept_of rfl
      · exact bytesKept_of rfl
      · exact fun u v huv => by rw [takes_removeFile_error huv]
      · exact bytesKept_of rfl
    | ok _ =>
      have hgone : t.bytesAt sm.host existing.filePath = none := h.unlinked (hmem.mpr (by simp))
      constructor
      · rintro ⟨bytes, -, hbytes⟩
        simp [hgone] at hbytes
      · obtain ⟨hall, hnot⟩ := hzero.mp rfl
        intro hspared
        exfalso
        cases hspared with
        | failed hne => exact hne rfl
        | unlinkFails p e he => simpa using hmem.mp he
        | shared f e hf hne he hfp =>
          rw [h.found, Option.some.injEq] at he
          exact hne (hall f hf (hfp.trans (congrArg StoredFile.filePath he.symm)))
        | elsewhere he => exact he existing h.found rfl
        | counted _ hbefore =>
          obtain ⟨pre, id, now, hsteps, -⟩ := h.steps
          have hup : (true, ⟨.upsertFile g, (.ok () : Query Unit)⟩) ∈ tr :=
            mem_project.mp (by simp [hsteps])
          rw [htr] at hup
          have hright := (List.mem_append.mp hup).resolve_left hnot
          have hin := (List.mem_cons.mp hright).resolve_left (by simp)
          rw [htr, before_of_split rfl hin rfl] at hbefore
          simp at hbefore
        | first hwrote => exact h.not_wrote hwrote

end Aliasing

/-! ## An upload that writes the key's own file -/

/-- The upload has written `processed` and inserted `file` under the key that is deleted. -/
structure Overwriting (sm : StorageManager) (b k : String) (file : StoredFile) (processed : Bytes)
    (w t : World) (tr : List (Bool × Taken Response)) (content : Bytes) (ct : Option String)
    (opts : StoreOptions) (x : ∀ i, Result (Answer i)) : Prop where
  run : Interleaving (exec sm.host) (calls sm b k b k content ct opts) w tr x t
  landed : Landed sm b k content ct opts file processed (project true tr)

namespace Overwriting

variable {processed : Bytes}

theorem ident (h : Overwriting sm b k file processed w t tr content ct opts x) :
    file.ident = (b, k) := by
  obtain ⟨enc, id, now, hfile, -⟩ := h.landed.record
  rw [hfile, freshFile_ident]

theorem placed (h : Overwriting sm b k file processed w t tr content ct opts x) :
    file.filePath = sm.getFilePath b k := by
  obtain ⟨enc, id, now, hfile, -⟩ := h.landed.record
  rw [hfile, freshFile_filePath]

theorem wrote (h : Overwriting sm b k file processed w t tr content ct opts x) : Wrote tr :=
  ⟨_, h.landed.wrote.mem, rfl⟩

theorem written_mem (h : Overwriting sm b k file processed w t tr content ct opts x) :
    (true, ⟨.writeFileAtomic (sm.getFilePath b k) processed,
      (.ok () : Except IoError Unit)⟩) ∈ tr :=
  mem_project.mp h.landed.wrote.mem

theorem store_rowKept (h : Overwriting sm b k file processed w t tr content ct opts x)
    {st : Taken Response} (hst : (true, st) ∈ tr)
    (hne : st ≠ ⟨.upsertFile file, (.ok () : Query Unit)⟩) (b' k' : String) :
    RowKept sm.host b' k' st := by
  apply rowKept_of _ (h.landed.uncounted st (mem_project.mpr hst))
  rw [Bool.eq_false_iff]
  intro hw
  exact hne (h.landed.upserted.only st (mem_project.mpr hst) hw)

theorem store_bytesKept (h : Overwriting sm b k file processed w t tr content ct opts x)
    {st : Taken Response} (hst : (true, st) ∈ tr)
    (hne : st ≠ ⟨.writeFileAtomic (sm.getFilePath b k) processed,
      (.ok () : Except IoError Unit)⟩) : BytesKept sm.host path st := by
  apply bytesKept_of
  rw [Bool.eq_false_iff]
  intro hw
  exact hne (h.landed.wrote.only st (mem_project.mpr hst) hw)

/-- Where the deletion leaves the place alone, the upload's bytes are there. -/
theorem backed_of_kept (h : Overwriting sm b k file processed w t tr content ct opts x)
    (hkeep : ∀ st, (false, st) ∈ tr → BytesKept sm.host (sm.getFilePath b k) st) :
    Backed sm w t tr (sm.getFilePath b k) := by
  refine ⟨processed, .inl h.written_mem, ?_⟩
  apply h.run.steps.established (I := fun u => u.bytesAt sm.host (sm.getFilePath b k) =
    some processed) h.written_mem
  · exact fun u v huv => takes_writeFileAtomic huv
  · rintro l₁ ⟨i, st⟩ l₂ rfl - u v huv hu
    cases i with
    | true =>
      by_cases hst : st = ⟨.writeFileAtomic (sm.getFilePath b k) processed,
          (.ok () : Except IoError Unit)⟩
      · exact takes_writeFileAtomic (hst ▸ huv)
      · exact (h.store_bytesKept (by simp) hst u v huv).trans hu
    | false => exact (hkeep st (by simp) u v huv).trans hu

/-- Where the row is there in the end, the deletion took the old one before the upload
inserted its own. -/
theorem inserted_last {p : String} {n : Nat} {rest : List (Taken Response)}
    (h : Overwriting sm b k file processed w t tr content ct opts x)
    (hdel : project false tr = deleting b k p n ++ rest)
    (hrest : ∀ st ∈ rest, st.1.writesRow = false)
    (hrow : t.db.files.find (b, k) = some row) : row.filePath = sm.getFilePath b k ∧
      ∃ a c m, tr = a ++ (true, ⟨.upsertFile file, (.ok () : Query Unit)⟩) :: c ∧
        project false a = deleting b k p n ++ m := by
  have honly : ∀ st, (false, st) ∈ tr → st.1.writesRow = true →
      st = ⟨.deleteFileRow b k, (.ok () : Query Unit)⟩ := by
    intro st hst hw
    have hin := mem_project.mpr hst
    rw [hdel] at hin
    rcases List.mem_append.mp hin with hin | hin
    · simp only [deleting, List.mem_cons, List.not_mem_nil, or_false] at hin
      rcases hin with rfl | rfl | rfl
      · simp [Action.writesRow] at hw
      · simp [Action.writesRow] at hw
      · rfl
    · simp [hrest st hin] at hw
  have hmem : (false, ⟨.deleteFileRow b k, (.ok () : Query Unit)⟩) ∈ tr :=
    mem_project.mp (by simp [hdel, deleting])
  rcases exists_last (fun e => e.2.1.writesRow) tr with hnone | ⟨a, ⟨i, st⟩, c, htr, he, hlast⟩
  · simpa [Action.writesRow] using hnone _ hmem
  obtain ⟨u, v, hu, hv, hvt⟩ := Steps.at_split (htr ▸ h.run.steps)
  have hend : t.db.files.find (b, k) = v.db.files.find (b, k) := by
    apply row_kept hvt
    rintro ⟨i, st⟩ hmemc
    refine rowKept_of (hlast _ hmemc) ?_
    have hin : (i, st) ∈ tr := by simp [htr, hmemc]
    cases i with
    | true => exact h.landed.uncounted st (mem_project.mpr hin)
    | false =>
      exact deleteStep_uncounted ((h.run.thread false).used deleteFile_steps st (mem_project.mpr hin))
  cases i with
  | false =>
    exfalso
    obtain rfl := honly st (by simp [htr]) he
    rw [hend, takes_deleteFileRow hv] at hrow
    simp at hrow
  | true =>
    obtain rfl := h.landed.upserted.only st (mem_project.mpr (by simp [htr])) he
    have hmerged := takes_upsertFile hv
    rw [h.ident, ← hend, hrow, Option.some.injEq] at hmerged
    refine ⟨by rw [hmerged, Database.mergeRow_filePath, h.placed], a, c, ?_⟩
    have hleft : (⟨.deleteFileRow b k, (.ok () : Query Unit)⟩ : Taken Response) ∈ project false a := by
      rw [htr] at hmem
      rcases List.mem_append.mp hmem with hin | hin
      · exact mem_project.mpr hin
      · have hin := (List.mem_cons.mp hin).resolve_left (by simp)
        simpa [Action.writesRow] using hlast _ hin
    have hlist : project false a ++ project false c = deleting b k p n ++ rest := by
      rw [← hdel, htr, project_append, project_cons_ne (by simp)]
    have hright : (⟨.deleteFileRow b k, (.ok () : Query Unit)⟩ : Taken Response) ∉ project false c := by
      intro hin
      simpa [Action.writesRow] using hlast _ (mem_project.mp hin)
    rcases List.append_eq_append_iff.mp hlist with ⟨m, hm, hm'⟩ | ⟨m, hm, -⟩
    · -- the deleted row lies to the left, so nothing of the first three is left over
      cases m using List.reverseRec with
      | nil => exact ⟨[], htr, by simpa using hm.symm⟩
      | append_singleton m z _ =>
        exfalso
        rw [deleting, ← List.append_assoc] at hm
        have hz := (List.append_inj' (show [_, _] ++ [_] = _ ++ [z] from hm) rfl).2
        apply hright
        rw [hm']
        simp only [List.cons.injEq, and_true] at hz
        simp [hz]
    · exact ⟨m, htr, hm⟩

/-- Before the upload inserts its row the deletion sees the table as it was. -/
theorem counted {p : String} {n : Nat} {m : List (Taken Response)}
    (h : Overwriting sm b k file processed w t tr content ct opts x)
    (htr : tr = a ++ (true, ⟨.upsertFile file, (.ok () : Query Unit)⟩) :: c)
    (ha : project false a = deleting b k p n ++ m) :
    (∃ g, w.db.files.find (b, k) = some g ∧ p = g.filePath) ∧
      n = w.db.countOtherReferences p b k := by
  have hup : ∀ st, (true, st) ∈ a → st.1.writesRow = false := by
    have hl : project true tr = project true a ++ ⟨.upsertFile file, (.ok () : Query Unit)⟩ ::
        project true c := by rw [htr, project_append, project_cons_self]
    exact fun st hst => (h.landed.inserted_once hl).1 st (mem_project.mpr hst)
  -- the table is the one of the start as long as the deletion has only read
  have hfiles : ∀ l l' u, a = l ++ l' → (∀ st ∈ project false l, st.1.Quiet) →
      Steps (exec sm.host) w (l.map Prod.snd) u → u.db.files = w.db.files := by
    intro l l' u hl hq hu
    apply hu.keep (fun w => w.db.files)
    intro st hst u v huv
    obtain ⟨⟨i, st⟩, he, rfl⟩ := List.mem_map.mp hst
    cases i with
    | false =>
      have hquiet := hq st (mem_project.mpr he)
      exact takes_files huv hquiet.row hquiet.access
    | true =>
      have hin : (true, st) ∈ a := hl ▸ List.mem_append_left _ he
      exact takes_files huv (hup st hin)
        (h.landed.uncounted st (mem_project.mpr (htr ▸ List.mem_append_left _ hin)))
  obtain ⟨u, v, hu, -, -⟩ := Steps.at_split (htr ▸ h.run.steps)
  obtain ⟨l₁, l₂, hl, hl₁, -⟩ := project_split (show project false a = [] ++ _ :: _ from ha)
  obtain ⟨l₃, l₄, hl', hl₃, -⟩ := project_split (show project false a = [_] ++ _ :: _ from ha)
  obtain ⟨u₁, v₁, hu₁, hv₁, -⟩ := Steps.at_split (hl ▸ hu)
  obtain ⟨u₂, v₂, hu₂, hv₂, -⟩ := Steps.at_split (hl' ▸ hu)
  have hsel := takes_selectFilePath hv₁
  rw [Database.selectFile, hfiles l₁ _ u₁ hl (by simp [hl₁]) hu₁] at hsel
  obtain ⟨g, hg, hgp⟩ := Option.map_eq_some_iff.mp hsel.symm
  have hquiet : ∀ st ∈ project false l₃, st.1.Quiet := by
    rw [hl₃]
    intro st hst
    rw [List.mem_singleton.mp hst]
    exact ⟨rfl, rfl, rfl, rfl, rfl⟩
  refine ⟨⟨g, hg, hgp.symm⟩, ?_⟩
  rw [takes_countOtherReferences hv₂, Database.countOtherReferences,
    hfiles l₃ _ u₂ hl' hquiet hu₂, Database.countOtherReferences]

/-- An unlink of the place after the write leaves nothing there. -/
theorem unlinked_last {p : String} (h : Overwriting sm b k file processed w t tr content ct opts x)
    (htr : tr = a ++ (false, ⟨.removeFile p, (.ok () : Except IoError Unit)⟩) :: c)
    (hlast : ∀ e ∈ c, e.2.1.writesFile = false)
    (hplace : sm.host.target p = sm.host.target (sm.getFilePath b k)) :
    t.bytesAt sm.host (sm.getFilePath b k) = none ∧ before isWrite isUnlink tr = true := by
  constructor
  · obtain ⟨u, v, hu, hv, hvt⟩ := Steps.at_split (htr ▸ h.run.steps)
    rw [bytes_kept hvt fun e he => bytesKept_of (hlast e he)]
    rcases takes_removeFile_world hv with ⟨-, hr⟩ | rfl
    · exact absurd rfl hr
    · simp [World.bytesAt, ← hplace, FileTree.fileAt_erase_self]
  · have hmem := h.written_mem
    rw [htr] at hmem
    have hleft : (true, ⟨.writeFileAtomic (sm.getFilePath b k) processed,
        (.ok () : Except IoError Unit)⟩) ∈ a := by
      rcases List.mem_append.mp hmem with hin | hin
      · exact hin
      · have hin := (List.mem_cons.mp hin).resolve_left (by simp)
        simpa [Action.writesFile] using hlast _ hin
    obtain ⟨l₁, l₂, rfl⟩ := List.append_of_mem hleft
    rw [htr, List.append_assoc, List.cons_append]
    exact before_of_split rfl (y := (false, ⟨.removeFile p, (.ok () : Except IoError Unit)⟩))
      (by simp) rfl

/-- A write that comes last stands. -/
theorem written_last (h : Overwriting sm b k file processed w t tr content ct opts x)
    (htr : tr = a ++ (true, ⟨.writeFileAtomic (sm.getFilePath b k) processed,
      (.ok () : Except IoError Unit)⟩) :: c)
    (hlast : ∀ e ∈ c, e.2.1.writesFile = false) :
    t.bytesAt sm.host (sm.getFilePath b k) = some processed ∧
      before isWrite isUnlink tr = false := by
  have hl : project true tr = project true a ++ ⟨.writeFileAtomic (sm.getFilePath b k) processed,
      (.ok () : Except IoError Unit)⟩ :: project true c := by
    rw [htr, project_append, project_cons_self]
  have honce := h.landed.written_once hl
  have hno : ∀ l : List (Bool × Taken Response),
      (∀ st ∈ project true l, st.1.writesFile = false) → ∀ e ∈ l, isWrite e = false := by
    rintro l hl ⟨i, act, r⟩ he
    cases i with
    | false => rfl
    | true =>
      have hw := hl ⟨act, r⟩ (mem_project.mpr he)
      cases act with
      | writeFileAtomic p y => simp [Action.writesFile] at hw
      | _ => rfl
  constructor
  · obtain ⟨u, v, hu, hv, hvt⟩ := Steps.at_split (htr ▸ h.run.steps)
    rw [bytes_kept hvt fun e he => bytesKept_of (hlast e he)]
    exact takes_writeFileAtomic hv
  · rw [htr]
    apply not_before_of_split (hno a honce.1) (hno c honce.2)
    rintro ⟨i, act, r⟩ he
    have hw := hlast _ he
    cases act with
    | removeFile p => simp [Action.writesFile] at hw
    | _ => simp [isUnlink]

theorem backed_iff (h : Overwriting sm b k file processed w t tr content ct opts x)
    (hrow : t.db.files.find (b, k) = some row) :
    Backed sm w t tr row.filePath ↔ Spared sm b k row.filePath w tr (x false) := by
  have hdel := delete_steps h.run
  generalize hx : x false = y, hl : project false tr = l at hdel
  have hmem : ∀ {st}, (false, st) ∈ tr ↔ st ∈ l := fun {st} => by rw [← hl, mem_project]
  cases hdel with
  | failed e l hfailed =>
    have hkeep : ∀ st, (false, st) ∈ tr →
        RowKept sm.host b k st ∧ BytesKept sm.host (sm.getFilePath b k) st :=
      fun st hst => failed_keeps (.failed e l hfailed) (hmem.mp hst)
    have hbk : (file.bucket, file.key) = (b, k) := h.ident
    obtain ⟨old, hold⟩ := row_upserted h.run.steps (mem_project.mp h.landed.upserted.mem)
      fun ⟨i, st⟩ he hne => by
        cases i with
        | true => exact h.store_rowKept he hne _ _
        | false =>
          have hrow := (hkeep st he).1
          rw [Prod.mk.injEq] at hbk
          rwa [hbk.1, hbk.2]
    rw [h.ident, hrow, Option.some.injEq] at hold
    have hpath : row.filePath = sm.getFilePath b k := by
      rw [hold, Database.mergeRow_filePath, h.placed]
    rw [hpath]
    exact ⟨fun _ => .failed (by simp), fun _ => h.backed_of_kept fun st hst => (hkeep st hst).2⟩
  | kept p n r hn =>
    have hsplit : project false tr = deleting b k p n ++ [⟨.invalidateFile b k, r⟩] := hl
    obtain ⟨hpath, a, c, m, htr, ha⟩ := h.inserted_last hsplit (by simp [Action.writesRow]) hrow
    obtain ⟨⟨g, hg, rfl⟩, hcount⟩ := h.counted htr ha
    rw [hpath]
    refine ⟨fun _ => ?_, fun _ => h.backed_of_kept fun st hst => ?_⟩
    · have hshared : ¬ ∀ f ∈ w.db.files, f.filePath = g.filePath → f.ident = (b, k) := by
        intro hall
        rw [Database.countOtherReferences_eq_zero.mpr hall] at hcount
        exact hn hcount
      simp only [not_forall] at hshared
      obtain ⟨f, hf, hfp, hne⟩ := hshared
      exact .shared f g hf hne hg hfp
    · have hst := hmem.mp hst
      simp only [List.mem_cons, List.not_mem_nil, or_false] at hst
      rcases hst with rfl | rfl | rfl | rfl <;> exact bytesKept_of rfl
  | unlinked p r' r =>
    have hsplit : project false tr = deleting b k p 0 ++
        [⟨.removeFile p, r'⟩, ⟨.invalidateFile b k, r⟩] := hl
    obtain ⟨hpath, a, c, m, htr, ha⟩ := h.inserted_last hsplit (by simp [Action.writesRow]) hrow
    obtain ⟨⟨g, hg, rfl⟩, hcount⟩ := h.counted htr ha
    rw [hpath]
    have hkept : BytesKept sm.host (sm.getFilePath b k) ⟨.removeFile g.filePath, r'⟩ →
        Backed sm w t tr (sm.getFilePath b k) := by
      intro hremove
      refine h.backed_of_kept fun st hst => ?_
      have hst := hmem.mp hst
      simp only [List.mem_cons, List.not_mem_nil, or_false] at hst
      rcases hst with rfl | rfl | rfl | rfl | rfl
      · exact bytesKept_of rfl
      · exact bytesKept_of rfl
      · exact bytesKept_of rfl
      · exact hremove
      · exact bytesKept_of rfl
    cases r' with
    | error e =>
      exact ⟨fun _ => .unlinkFails g.filePath e (hmem.mpr (by simp)),
        fun _ => hkept fun u v huv => by rw [takes_removeFile_error huv]⟩
    | ok _ =>
      by_cases hplace : sm.host.target g.filePath = sm.host.target (sm.getFilePath b k)
      · have hun : (false, ⟨.removeFile g.filePath, (.ok () : Except IoError Unit)⟩) ∈ tr :=
          hmem.mpr (by simp)
        rcases exists_last (fun e => e.2.1.writesFile) tr with hnone | ⟨a', ⟨i, st⟩, c', htr', he, hlast⟩
        · simpa [Action.writesFile] using hnone _ hun
        cases i with
        | true =>
          obtain rfl := h.landed.wrote.only st (mem_project.mpr (by simp [htr'])) he
          obtain ⟨hbytes, hbefore⟩ := h.written_last htr' hlast
          exact ⟨fun _ => .first h.wrote hbefore, fun _ => ⟨processed, .inl h.written_mem, hbytes⟩⟩
        | false =>
          have hst : st = ⟨.removeFile g.filePath, (.ok () : Except IoError Unit)⟩ := by
            have hin := hmem.mp (show (false, st) ∈ tr by simp [htr'])
            simp only [List.mem_cons, List.not_mem_nil, or_false] at hin
            rcases hin with rfl | rfl | rfl | rfl | rfl
            · simp [Action.writesFile] at he
            · simp [Action.writesFile] at he
            · simp [Action.writesFile] at he
            · rfl
            · simp [Action.writesFile] at he
          subst hst
          obtain ⟨hgone, hbefore⟩ := h.unlinked_last htr' hlast hplace
          constructor
          · rintro ⟨bytes, -, hbytes⟩
            simp [hgone] at hbytes
          · intro hspared
            exfalso
            cases hspared with
            | failed hne => exact hne rfl
            | unlinkFails p e hfails => simpa using hmem.mp hfails
            | shared f g' hf hne hg' hfp =>
              rw [hg, Option.some.injEq] at hg'
              exact hne (Database.countOtherReferences_eq_zero.mp hcount.symm f hf (hg' ▸ hfp))
            | elsewhere hother => exact hother g hg hplace
            | counted halias _ => exact halias h.wrote
            | first _ hnot => simp [hbefore] at hnot
      · refine ⟨fun _ => .elsewhere fun g' hg' => ?_, fun _ => hkept fun u v huv => ?_⟩
        · rw [hg, Option.some.injEq] at hg'
          rwa [← hg']
        · exact takes_removeFile_ne huv hplace

end Overwriting

/-! ## Both together -/

/-- The upload found the row that is deleted, or writes the deleted key's own file. -/
inductive Meets (sm : StorageManager) (b₁ k₁ b₂ k₂ : String) (content : Bytes)
    (tr : List (Bool × Taken Response)) : Prop where
  | matched (existing : StoredFile) (h : (true, matched sm content existing) ∈ tr)
      (ident : existing.ident = (b₁, k₁))
  | fresh (same : (b₂, k₂) = (b₁, k₁)) (wrote : Wrote tr)

/-- An upload that found its own row keeps it only where the deletion fails. -/
theorem identical_failed (hrun : Interleaving (exec sm.host) (calls sm b k b k content ct opts) w tr x t)
    (hquiet : ∀ st, (true, st) ∈ tr → st.1.Quiet) (hrow : t.db.files.find (b, k) = some row) :
    ∃ e, x false = .error e := by
  have hgone : (false, ⟨.deleteFileRow b k, (.ok () : Query Unit)⟩) ∉ tr := by
    intro hmem
    have hnone : t.db.files.find (b, k) = none := by
      apply hrun.steps.established (I := fun u => u.db.files.find (b, k) = none) hmem
      · exact fun u v huv => takes_deleteFileRow huv
      · rintro l₁ ⟨i, st⟩ l₂ rfl - u v huv hu
        cases i with
        | true => exact (quiet_rowKept (hquiet st (by simp)) u v huv).trans hu
        | false =>
          have hstep : DeleteStep b k st.1 :=
            (hrun.thread false).used deleteFile_steps st (mem_project.mpr (by simp))
          obtain ⟨act, r⟩ := st
          cases hstep with
          | deleteFileRow => exact takes_deleteFileRow_none huv hu
          | _ => rwa [takes_files huv rfl rfl]
    rw [hnone] at hrow
    simp at hrow
  have hdel := delete_steps hrun
  generalize x false = y, hl : project false tr = l at hdel
  cases hdel with
  | failed e l hfailed => exact ⟨e, rfl⟩
  | kept p n r hn => exact absurd (mem_project.mp (by simp [hl])) hgone
  | unlinked p r' r => exact absurd (mem_project.mp (by simp [hl])) hgone

/-- The bytes of an upload that has returned stay where its row says exactly when the
deletion spares them. -/
theorem upload_kept_iff
    (hrun : Interleaving (exec sm.host) (calls sm b₁ k₁ b₂ k₂ content ct opts) w tr x t)
    (hok : x true = .ok file) (hrow : t.db.files.find (b₂, k₂) = some row)
    (hmeets : Meets sm b₁ k₁ b₂ k₂ content tr)
    (hdisk : ∀ f, w.db.files.find (b₁, k₁) = some f → (w.bytesAt sm.host f.filePath).isSome = true) :
    Backed sm w t tr row.filePath ↔ Spared sm b₁ k₁ row.filePath w tr (x false) := by
  have hstore := store_steps hrun hok
  generalize hl : project true tr = l at hstore
  have hmem : ∀ {st}, (true, st) ∈ tr ↔ st ∈ l := fun {st} => by rw [← hl, mem_project]
  cases hstore with
  | identical pre file hpre ident =>
    have hquiet : ∀ st, (true, st) ∈ tr → st.1.Quiet := by
      intro st hst
      rcases List.mem_append.mp (hmem.mp hst) with hst | hst
      · exact ensureStep_quiet (hpre st hst)
      · rw [List.mem_singleton.mp hst]
        exact ⟨rfl, rfl, rfl, rfl, rfl⟩
    have hnot : ¬ Wrote tr := by
      rintro ⟨st, hst, hw⟩
      simp [(hquiet st (mem_project.mp hst)).file] at hw
    have hsame : (b₂, k₂) = (b₁, k₁) := by
      cases hmeets with
      | fresh same wrote => exact same
      | matched existing h hident =>
        rcases List.mem_append.mp (hmem.mp h) with hin | hin
        · have hstep : EnsureStep b₂ (.selectFileByHash (sm.lib.blake3 content)) := hpre _ hin
          cases hstep
        · simp only [matched, List.mem_singleton, Sigma.mk.injEq, heq_eq_eq, true_and,
            Except.ok.injEq, Option.some.injEq] at hin
          rw [← ident, ← hident, hin]
    obtain ⟨rfl, rfl⟩ := Prod.mk.inj hsame
    obtain ⟨e, he⟩ := identical_failed hrun hquiet hrow
    have hdel := delete_steps hrun
    rw [he] at hdel ⊢
    have hkeep : ∀ e ∈ tr, RowKept sm.host b₂ k₂ e.2 ∧ BytesKept sm.host row.filePath e.2 := by
      rintro ⟨i, st⟩ hin
      cases i with
      | true => exact ⟨quiet_rowKept (hquiet st hin), bytesKept_of (hquiet st hin).file⟩
      | false => exact failed_keeps hdel (mem_project.mpr hin)
    have hsrow := row_kept hrun.steps fun e he => (hkeep e he).1
    have hsbytes := bytes_kept hrun.steps fun e he => (hkeep e he).2
    obtain ⟨bytes, hbytes⟩ := Option.isSome_iff_exists.mp (hdisk row (hsrow ▸ hrow))
    exact ⟨fun _ => .failed (by simp), fun _ => ⟨bytes, .inr ⟨hnot, hbytes⟩, hsbytes.trans hbytes⟩⟩
  | aliased pre existing id now hpre ident =>
    have hfound : existing.ident = (b₁, k₁) := by
      cases hmeets with
      | fresh same wrote =>
        obtain ⟨st, hst, hw⟩ := wrote
        rw [hl] at hst
        rcases List.mem_append.mp hst with hst | hst
        · simp [(ensureStep_quiet (hpre st hst)).file] at hw
        · simp only [List.mem_cons, List.not_mem_nil, or_false] at hst
          rcases hst with rfl | rfl | rfl | rfl <;> simp [matched, Action.writesFile] at hw
      | matched existing' h hident =>
        rcases List.mem_append.mp (hmem.mp h) with hin | hin
        · have hstep : EnsureStep b₂ (.selectFileByHash (sm.lib.blake3 content)) := hpre _ hin
          cases hstep
        · have hsame : existing' = existing := by simpa [matched] using hin
          rw [← hsame, hident]
    have halias : Aliasing sm b₁ k₁ b₂ k₂ existing
        (sm.aliasedFile b₂ k₂ content ct opts existing id now) w t tr content ct opts x :=
      ⟨hrun, ⟨pre, id, now, hl, hpre⟩, hfound, fun h => ident (hfound.trans h.symm), rfl, rfl⟩
    rw [halias.row_of_end hrow]
    exact halias.backed_iff (hdisk existing halias.found)
  | landed file processed l hlanded hunmatched =>
    have hsame : (b₂, k₂) = (b₁, k₁) := by
      cases hmeets with
      | fresh same wrote => exact same
      | matched existing h hident => exact absurd (hmem.mp h) (hunmatched existing)
    obtain ⟨rfl, rfl⟩ := Prod.mk.inj hsame
    have hover : Overwriting sm b₂ k₂ file processed w t tr content ct opts x :=
      ⟨hrun, by rwa [hl]⟩
    exact hover.backed_iff hrow

/-! ## The reference count before the alias, and after it -/

open Sample (manager)

/-- One object, `a/k`. -/
def single : World :=
  ((manager.storeFile "a" "k" [120] none {}).eval (exec manager.host) { uuid := 1 } World.empty).2

/-- The same content is uploaded as `a/l` while `a/k` is deleted. -/
def woven (schedule : List Bool) :=
  weave (exec manager.host) calm schedule (calls manager "a" "k" "a" "l" [120] none {}) single

/-- The alias is inserted before the deletion starts. -/
def inTurn : List Bool := List.replicate 5 true ++ List.replicate 4 false

/-- The upload finds the row, then the deletion counts and deletes it, then the alias is
inserted and the file unlinked. -/
def crossed : List Bool :=
  List.replicate 2 true ++ List.replicate 3 false ++ List.replicate 3 true ++ List.replicate 2 false

/-- The upload's lookup has returned the row of `(b, k)`. -/
def finds (hash b k : String) : Bool × Taken Response → Bool
  | (true, ⟨.selectFileByHash hash', found⟩) =>
    match (found : Query (Option StoredFile)) with
    | .ok (some f) => hash' = hash && f.ident = (b, k)
    | _ => false
  | _ => false

theorem meets_of_finds (h : tr.any (finds (sm.lib.blake3 content) b₁ k₁) = true) :
    Meets sm b₁ k₁ b₂ k₂ content tr := by
  obtain ⟨e, hin, hf⟩ := List.any_eq_true.mp h
  unfold finds at hf
  split at hf
  · split at hf
    · rename_i f
      simp only [Bool.and_eq_true, decide_eq_true_eq] at hf
      refine .matched f ?_ hf.2
      rw [matched, ← hf.1]
      exact hin
    · simp at hf
  · simp at hf

theorem upload_kept_in_turn : ∃ row, (woven inTurn).2.2.db.files.find ("a", "l") = some row ∧
    Backed manager single (woven inTurn).2.2 (woven inTurn).1 row.filePath := by
  have hok : ∀ i, ((woven inTurn).2.1 i).result.any (·.isOk) = true := by decide
  obtain ⟨y, hrun⟩ := weave_ok calm inTurn hok
  have hrow : ((woven inTurn).2.2.db.files.find ("a", "l")).isSome = true := by decide
  obtain ⟨row, hrow⟩ := Option.isSome_iff_exists.mp hrow
  have hmeets : Meets manager "a" "k" "a" "l" [120] (woven inTurn).1 := meets_of_finds (by decide)
  have hdisk : ∀ f ∈ single.db.files.rows, (single.bytesAt manager.host f.filePath).isSome = true := by
    decide
  refine ⟨row, hrow, (upload_kept_iff hrun rfl hrow hmeets
    fun f hf => hdisk f (Table.find_mem hf)).mpr (.counted ?_ (by decide))⟩
  rintro ⟨st, hst, hw⟩
  have hnone : ∀ st ∈ project true (woven inTurn).1, st.1.writesFile = false := by decide
  simp [hnone st hst] at hw

/-- Both calls succeed; the alias's row is there and its file is gone. -/
theorem crossed_count_loses_upload :
    (∃ y : ∀ i, Answer i, Interleaving (exec manager.host)
      (calls manager "a" "k" "a" "l" [120] none {}) single (woven crossed).1 (fun i => .ok (y i))
      (woven crossed).2.2) ∧
    Meets manager "a" "k" "a" "l" [120] (woven crossed).1 ∧
    (∀ f, single.db.files.find ("a", "k") = some f →
      (single.bytesAt manager.host f.filePath).isSome = true) ∧
    ∃ row, (woven crossed).2.2.db.files.find ("a", "l") = some row ∧
      (woven crossed).2.2.bytesAt manager.host row.filePath = none ∧
      ¬ Backed manager single (woven crossed).2.2 (woven crossed).1 row.filePath := by
  have hok : ∀ i, ((woven crossed).2.1 i).result.any (·.isOk) = true := by decide
  have hdisk : ∀ f ∈ single.db.files.rows, (single.bytesAt manager.host f.filePath).isSome = true := by
    decide
  have hrow : ∃ row, (woven crossed).2.2.db.files.find ("a", "l") = some row ∧
      (woven crossed).2.2.bytesAt manager.host row.filePath = none := by
    have hany : ((woven crossed).2.2.db.files.find ("a", "l")).any (fun row =>
        ((woven crossed).2.2.bytesAt manager.host row.filePath).isNone) = true := by decide
    obtain ⟨row, hrow, hnone⟩ := (Option.any_eq_true _ _).mp hany
    exact ⟨row, hrow, by simpa using hnone⟩
  obtain ⟨row, hrow, hnone⟩ := hrow
  refine ⟨weave_ok calm crossed hok, meets_of_finds (by decide),
    fun f hf => hdisk f (Table.find_mem hf), row, hrow, hnone, ?_⟩
  rintro ⟨bytes, -, hbytes⟩
  simp [hnone] at hbytes

end LocalStorage.Proofs.DeleteRace
