import LocalStorage.Proofs.Dialogues
import LocalStorage.Sample

namespace LocalStorage.Proofs.ExpiryRace
open Lib Lib.Paths StorageManager

/-! # Deleting by an expiry that was looked up before -/

inductive Call where
  | getFile (bucket key : String)
  | getFileInfo (bucket key : String)
  | sweepExpiredFiles
  | storeFile (bucket key : String) (content : Bytes) (contentType : Option String)
      (opts : StoreOptions)
  /-- Time passes. -/
  | tick

namespace Call

abbrev Answer : Call → Type
  | getFile _ _ => Bytes × Option String
  | getFileInfo _ _ => FileInfo
  | sweepExpiredFiles => Nat
  | storeFile _ _ _ _ _ => StoredFile
  | tick => Time

def op (sm : StorageManager) : (c : Call) → Op c.Answer
  | getFile b k => sm.getFile b k
  | getFileInfo b k => StorageManager.getFileInfo b k
  | sweepExpiredFiles => StorageManager.sweepExpiredFiles
  | storeFile b k content ct opts => sm.storeFile b k content ct opts
  | tick => step .utcNow

/-- A deletion by the call, after what it has heard, is one by expiry. `getFile` also deletes
a key whose bytes are lost, once it has looked for them in the cache. -/
def Expires : Call → List (Taken Response) → Prop
  | getFile b k, heard => ∀ st ∈ heard, st.1 ≠ .getFileContent b k
  | getFileInfo _ _, _ => True
  | sweepExpiredFiles, _ => True
  | storeFile _ _ _ _ _, _ => False
  | tick, _ => False

end Call

/-- A record of `(b, k)` is looked up: cached or from the table. -/
inductive Reads (b k : String) (f : StoredFile) : Taken Response → Prop where
  | cached : Reads b k f ⟨.getFileMetadata b k, (.ok (some f) : Result (Option StoredFile))⟩
  | selected : Reads b k f ⟨.selectFile b k, (.ok (some f) : Query (Option StoredFile))⟩

/-- How a call can learn that `(b, k)` has expired. -/
inductive Looks (b k : String) (st : Taken Response) : Prop where
  | read (f : StoredFile) (h : Reads b k f st)
  | listed (files : List (String × String)) (hmem : (b, k) ∈ files)
      (h : st = ⟨.selectExpired, (.ok files : Query (List (String × String)))⟩)

/-- The step takes effect on the row of `(b, k)`. -/
def writes (b k : String) : Taken Response → Bool
  | ⟨.upsertFile g, r⟩ => Except.isOk (r : Query Unit) && g.ident = (b, k)
  | ⟨.deleteFileRow b' k', r⟩ => Except.isOk (r : Query Unit) && (b', k') = (b, k)
  | _ => false

variable {ι : Type} [DecidableEq ι]

/-- No live row of `(b, k)` comes between the look `st` at `v` and the deletion at `u`. -/
inductive Harmless (b k : String) (st : Taken Response) (v u : World)
    (l : List (ι × Taken Response)) : Prop where
  /-- The row is still the one looked at. A cached record can be of an older row; then the
  row itself must have expired. -/
  | unwritten (hnone : ∀ e ∈ l, writes b k e.2 = false)
      (hrow : st.1 = .getFileMetadata b k → ∀ row, v.db.files.find (b, k) = some row →
        past u.now row.expiresAt = true)
  /-- The last upload of the key has itself expired. -/
  | uploaded (l₁ l₂ : List (ι × Taken Response)) (j : ι) (g : StoredFile)
      (hl : l = l₁ ++ (j, ⟨.upsertFile g, (.ok () : Query Unit)⟩) :: l₂) (hident : g.ident = (b, k))
      (hlast : ∀ e ∈ l₂, writes b k e.2 = false) (hpast : past u.now g.expiresAt = true)
  | deleted (l₁ l₂ : List (ι × Taken Response)) (j : ι)
      (hl : l = l₁ ++ (j, ⟨.deleteFileRow b k, (.ok () : Query Unit)⟩) :: l₂)
      (hlast : ∀ e ∈ l₂, writes b k e.2 = false)

/-- By expiry, thread `i` deletes the row of `(b, k)` at `u`, after the steps `l`. -/
structure Removes (sm : StorageManager) (calls : ι → Call) (w : World)
    (tr : List (ι × Taken Response)) (b k : String) (i : ι) (l : List (ι × Taken Response))
    (u : World) : Prop where
  next : ∃ l', tr = l ++ (i, ⟨.deleteFileRow b k, (.ok () : Query Unit)⟩) :: l'
  expires : (calls i).Expires (project i l)
  reached : Steps (exec sm.host) w (l.map Prod.snd) u

/-- Whatever expiry removes has expired when it is removed. -/
def Punctual (sm : StorageManager) (calls : ι → Call) (w : World)
    (tr : List (ι × Taken Response)) : Prop :=
  ∀ b k i l u, Removes sm calls w tr b k i l u →
    ∀ row, u.db.files.find (b, k) = some row → past u.now row.expiresAt = true

/-- Between looking and deleting, nothing happens to the key that the deletion does not see. -/
def Undisturbed (sm : StorageManager) (calls : ι → Call) (w : World)
    (tr : List (ι × Taken Response)) : Prop :=
  ∀ b k i l u, Removes sm calls w tr b k i l u →
    ∀ l₁ st l₂ v, l = l₁ ++ (i, st) :: l₂ → Looks b k st →
      Steps (exec sm.host) w (l₁.map Prod.snd) v →
      Steps (exec sm.host) v (((i, st) :: l₂).map Prod.snd) u → Harmless b k st v u l₂

variable {sm : StorageManager} {b k : String} {file : StoredFile} {w t u v : World}
  {st : Taken Response} {heard : List (Taken Response)} {calls : ι → Call}
  {tr l l₁ l₂ : List (ι × Taken Response)} {i : ι}

/-! ## What a call has heard when it deletes -/

/-- The call has found the key expired: whatever record it read was past its time. -/
structure Found (b k : String) (heard : List (Taken Response)) : Prop where
  look : ∃ st ∈ heard, Looks b k st
  expired : ∀ st ∈ heard, ∀ f, Reads b k f st → ∃ expiresAt now,
    f.expiresAt = some expiresAt ∧ expiresAt ≤ now ∧ (⟨.utcNow, now⟩ : Taken Response) ∈ heard

theorem Found.snoc {a : Action} {r : Response a} (h : Found b k heard) (ha : ∀ f, ¬ Reads b k f ⟨a, r⟩) :
    Found b k (heard ++ [⟨a, r⟩]) := by
  obtain ⟨st, hst, hlook⟩ := h.look
  refine ⟨⟨st, List.mem_append_left _ hst, hlook⟩, fun st' hst' f hf => ?_⟩
  rcases List.mem_append.mp hst' with hst' | hst'
  · obtain ⟨e, now, he, hle, hnow⟩ := h.expired st' hst' f hf
    exact ⟨e, now, he, hle, List.mem_append_left _ hnow⟩
  · rw [List.mem_singleton] at hst'
    exact absurd (hst' ▸ hf) (ha f)

theorem DeleteStep.not_reads {b' k' : String} {a : Action} {r : Response a} {f : StoredFile}
    (h : DeleteStep b' k' a) : ¬ Reads b k f ⟨a, r⟩ := by
  intro hr
  cases h <;> cases hr

/-- At every deletion of a row, the key is the call's and was found expired. -/
def OnlyFound (a : Action) (heard : List (Taken Response)) : Prop :=
  ∀ b k, a = .deleteFileRow b k → Found b k heard

/-- The same, up to deletions after a look into the content cache. -/
def FoundOrLost (b k : String) (a : Action) (heard : List (Taken Response)) : Prop :=
  (∃ st ∈ heard, st.1 = .getFileContent b k) ∨ OnlyFound a heard

theorem deleteFile_found (hfound : Found b k heard) :
    (deleteFile b k).attempt.Throughout record OnlyFound heard := by
  apply Prog.Throughout.mono (Prog.Uses.throughout_record deleteFile_steps.attempt hfound
    fun heard a r ha h => h.snoc fun f => DeleteStep.not_reads ha)
  rintro a heard ⟨ha, hfound⟩ b' k' rfl
  cases ha
  exact hfound

/-- The record `f` of the key, and no other, was read. -/
structure Sighted (b k : String) (f : StoredFile) (heard : List (Taken Response)) : Prop where
  read : ∃ st ∈ heard, Reads b k f st
  only : ∀ st ∈ heard, ∀ g, Reads b k g st → g = f

theorem Sighted.found {now : Time} {expiresAt : Time} (h : Sighted b k file heard)
    (hexp : file.expiresAt = some expiresAt) (hnow : expiresAt ≤ now) :
    Found b k (heard ++ [⟨.utcNow, now⟩]) := by
  obtain ⟨st, hst, hread⟩ := h.read
  refine ⟨⟨st, List.mem_append_left _ hst, .read file hread⟩, fun st' hst' f hf => ?_⟩
  rcases List.mem_append.mp hst' with hst' | hst'
  · exact ⟨expiresAt, now, h.only st' hst' f hf ▸ hexp, hnow, by simp⟩
  · rw [List.mem_singleton] at hst'
    subst hst'
    cases hf

theorem dbGetFile_deletes_none :
    (dbGetFile b k).Uses (fun a => ∀ b k, a ≠ .deleteFileRow b k) := by
  simp only [dbGetFile, ofSqlx, step_eq, Prog.bind_eq, Prog.act_bind, Prog.ret_bind, Prog.pure_eq]
  refine ⟨by simp, fun r => Prog.Uses.bind (Prog.uses_ofExcept _) fun row => ?_⟩
  cases row <;> trivial

theorem readMetadata_deletes_none :
    (readMetadata b k).Uses (fun a => ∀ b k, a ≠ .deleteFileRow b k) := by
  simp only [readMetadata, step_eq, Prog.bind_eq, Prog.act_bind, Prog.ret_bind, Prog.pure_eq]
  refine ⟨by simp, fun hit => ?_⟩
  dsimp only
  split
  · trivial
  · exact Prog.Uses.bind dbGetFile_deletes_none fun file => ⟨by simp, fun _ => trivial⟩

theorem readMetadata_sighted :
    (readMetadata b k).Ensures record (fun x t => ∀ f, x = .ok f → Sighted b k f t) [] := by
  simp only [readMetadata, dbGetFile, step_eq, Prog.bind_eq, Prog.act_bind, Prog.ret_bind,
    Prog.pure_eq]
  refine Prog.ensures_record fun hit => ?_
  split
  · rename_i cached
    simp only [List.nil_append, Prog.ensures_ret, Except.ok.injEq]
    rintro f rfl
    refine ⟨⟨_, List.mem_singleton_self _, .cached⟩, fun st hst g hg => ?_⟩
    rw [List.mem_singleton] at hst
    subst hst
    cases hg
    rfl
  · rename_i hmiss
    refine Prog.ensures_record fun r => ?_
    rcases r with e | (_ | file)
    · simp
    · simp
    · refine Prog.ensures_record fun r' => ?_
      simp only [List.nil_append, List.cons_append, Prog.ensures_ret, Except.ok.injEq]
      rintro f rfl
      refine ⟨⟨⟨.selectFile b k, .ok (some file)⟩, by simp, .selected⟩, fun st hst g hg => ?_⟩
      simp only [List.mem_cons, List.not_mem_nil, or_false] at hst
      rcases hst with rfl | rfl | rfl
      · cases hg
        exact absurd rfl (hmiss g)
      · cases hg
        rfl
      · cases hg

theorem dbGetFile_sighted :
    (dbGetFile b k).Ensures record (fun x t => ∀ f, x = .ok f → Sighted b k f t) [] := by
  simp only [dbGetFile, step_eq, Prog.bind_eq, Prog.act_bind, Prog.ret_bind, Prog.pure_eq]
  refine Prog.ensures_record fun r => ?_
  rcases r with e | (_ | file)
  · simp
  · simp
  · simp only [ofSqlx_ok, Prog.ret_bind, List.nil_append, Prog.ensures_ret, Except.ok.injEq]
    rintro f rfl
    refine ⟨⟨_, List.mem_singleton_self _, .selected⟩, fun st hst g hg => ?_⟩
    rw [List.mem_singleton] at hst
    subst hst
    cases hg
    rfl

theorem expireFile_found (h : Sighted b k file heard) :
    (expireFile b k file).Throughout record OnlyFound heard := by
  simp only [expireFile, step_eq, Prog.bind_eq, Prog.act_bind, Prog.ret_bind, Prog.pure_eq]
  split
  · trivial
  · rename_i expiresAt hexp
    refine Prog.throughout_record (fun b' k' h' => by simp at h') fun now => ?_
    split
    · rename_i hle
      exact Prog.throughout_bind.mpr ⟨deleteFile_found (h.found hexp hle), fun _ _ _ => trivial⟩
    · trivial

theorem getFileInfo_found : (getFileInfo b k).Throughout record OnlyFound [] := by
  simp only [getFileInfo, Prog.bind_eq, Prog.pure_eq]
  refine Prog.throughout_bind.mpr ⟨?_, fun file heard hheard => ?_⟩
  · exact dbGetFile_deletes_none.throughout (fun a heard ha b' k' h' => absurd h' (ha b' k')) []
  · have hsighted := dbGetFile_sighted _ _ hheard file rfl
    exact Prog.throughout_bind.mpr ⟨expireFile_found hsighted, fun _ _ _ => trivial⟩

theorem getFile_found : (sm.getFile b k).Throughout record (FoundOrLost b k) [] := by
  simp only [getFile, step_eq, Prog.bind_eq, Prog.pure_eq]
  refine Prog.throughout_bind.mpr ⟨?_, fun file heard hheard => ?_⟩
  · exact readMetadata_deletes_none.throughout
      (fun a heard ha => .inr fun b' k' h' => absurd h' (ha b' k')) []
  have hsighted := readMetadata_sighted _ _ hheard file rfl
  refine Prog.throughout_bind.mpr ⟨(expireFile_found hsighted).mono fun a heard h => .inr h,
    fun _ heard' _ => ?_⟩
  have hrest : ((readContent b k file).bind fun raw => (sm.decodeContent file raw).bind fun content =>
      Prog.act (.updateAccess file.id) fun _ => .ret (content, some file.contentType)).Uses
        (ReadStep b k) :=
    Prog.Uses.bind readContent_steps fun raw =>
      Prog.Uses.bind (decodeContent_steps raw) fun _ => ⟨.updateAccess file.id, fun _ => trivial⟩
  simp only [readContent, step_eq, Prog.bind_eq, Prog.act_bind, Prog.ret_bind] at hrest ⊢
  refine Prog.throughout_record (.inr fun b' k' h' => by simp at h') fun hit => ?_
  refine (Prog.Uses.throughout_record (I := fun heard => ∃ st ∈ heard, st.1 = .getFileContent b k)
    (hrest.2 hit) ⟨_, List.mem_append_right _ (List.mem_singleton_self _), rfl⟩ ?_).mono ?_
  · rintro heard a r - ⟨st, hst, hlost⟩
    exact ⟨st, List.mem_append_left _ hst, hlost⟩
  · exact fun a heard h => .inl h.2

/-- The sweep deletes what it has listed and reads no record. -/
theorem sweepExpiredFiles_found : sweepExpiredFiles.Throughout record OnlyFound [] := by
  simp only [sweepExpiredFiles, step_eq, Prog.bind_eq, Prog.act_bind, Prog.ret_bind]
  refine Prog.throughout_record (fun b' k' h' => by simp at h') fun r => ?_
  cases r with
  | error e => trivial
  | ok files =>
    simp only [ofSqlx_ok, Prog.ret_bind, List.nil_append]
    refine (Prog.Uses.throughout_record (I := fun heard =>
      ⟨.selectExpired, (.ok files : Query (List (String × String)))⟩ ∈ heard ∧
        ∀ st ∈ heard, ∀ b k f, ¬ Reads b k f st) (sweepFiles_steps files) ?_ ?_).mono ?_
    · refine ⟨List.mem_singleton_self _, fun st hst b k f hf => ?_⟩
      rw [List.mem_singleton] at hst
      subst hst
      cases hf
    · rintro heard a r ⟨p, -, ha⟩ ⟨hlist, hnone⟩
      refine ⟨List.mem_append_left _ hlist, fun st hst b k f hf => ?_⟩
      rcases List.mem_append.mp hst with hst | hst
      · exact hnone st hst b k f hf
      · rw [List.mem_singleton] at hst
        exact DeleteStep.not_reads ha (hst ▸ hf)
    · rintro a heard ⟨⟨⟨b', k'⟩, hp, ha⟩, hlist, hnone⟩ b k rfl
      cases ha
      exact ⟨⟨_, hlist, .listed files hp rfl⟩, fun st hst f hf => absurd hf (hnone st hst b' k' f)⟩

/-! ## A run -/

theorem Call.found {c : Call} {x : Result c.Answer} {l' : List (Taken Response)} {r : Query Unit}
    (h : (c.op sm).Runs record [] x (heard ++ ⟨.deleteFileRow b k, r⟩ :: l'))
    (hexp : c.Expires heard) : Found b k heard := by
  cases c with
  | getFile b' k' =>
    rcases h.at getFile_found rfl with ⟨st, hst, hlost⟩ | hfound
    · exact absurd hlost (hexp st hst)
    · exact hfound b k rfl
  | getFileInfo b' k' => exact h.at getFileInfo_found rfl b k rfl
  | sweepExpiredFiles => exact h.at sweepExpiredFiles_found rfl b k rfl
  | storeFile b' k' content ct opts => exact hexp.elim
  | tick => exact hexp.elim

theorem Call.keeps_buckets (sm : StorageManager) (c : Call) :
    (c.op sm).Uses (fun a => ∀ b, a ≠ .deleteBucketRow b) := by
  have hdelete : ∀ {b k : String} {a : Action}, DeleteStep b k a → ∀ b', a ≠ .deleteBucketRow b' := by
    rintro b k a h b' rfl
    cases h
  have hread : ∀ {b k : String} {a : Action}, ReadStep b k a → ∀ b', a ≠ .deleteBucketRow b' := by
    rintro b k a h b' rfl
    cases h with
    | delete h => exact hdelete h b' rfl
  cases c with
  | getFile b k => exact getFile_steps.mono fun _ => hread
  | getFileInfo b k => exact getFileInfo_steps.mono fun _ => hread
  | sweepExpiredFiles =>
    apply sweepExpiredFiles_steps.mono
    rintro a (rfl | ⟨f, ha⟩)
    · simp
    · exact hdelete ha
  | storeFile b k content ct opts =>
    apply storeFile_steps.mono
    rintro a ha b' rfl
    rcases ha with h | _ | h
    · cases h
    · rcases h with h | _
      cases h
  | tick => exact ⟨by simp, fun _ => trivial⟩

/-- A step that does not write the row leaves what a read goes by. -/
theorem takes_unwritten {h : Host} (huv : Takes (exec h) u st v)
    (hb : ∀ b, st.1 ≠ .deleteBucketRow b) (hw : writes b k st = false) :
    (v.db.files.find (b, k)).map recipe = (u.db.files.find (b, k)).map recipe := by
  obtain ⟨a, r⟩ := st
  cases a with
  | upsertFile g =>
    cases r with
    | error e => rw [takes_upsertFile_error huv]
    | ok _ =>
      have hne : (b, k) ≠ g.ident := by
        rintro hident
        simp [writes, ← hident, Except.isOk, Except.toBool] at hw
      rw [takes_upsertFile_ne huv hne]
  | deleteFileRow b' k' =>
    cases r with
    | error e => rw [takes_deleteFileRow_error huv]
    | ok _ =>
      have hne : (b, k) ≠ (b', k') := by
        intro hkey
        obtain ⟨rfl, rfl⟩ := Prod.mk.inj hkey
        simp [writes, Except.isOk, Except.toBool] at hw
      rw [takes_deleteFileRow_ne huv hne]
  | deleteBucketRow b' => exact absurd rfl (hb b')
  | _ => exact takes_recipe huv rfl b k

omit [DecidableEq ι] in
theorem steps_unwritten {h : Host} (hs : Steps (exec h) u (l.map Prod.snd) v)
    (hb : ∀ e ∈ l, ∀ b, e.2.1 ≠ .deleteBucketRow b) (hw : ∀ e ∈ l, writes b k e.2 = false) :
    (v.db.files.find (b, k)).map recipe = (u.db.files.find (b, k)).map recipe := by
  apply hs.keep (fun w => (w.db.files.find (b, k)).map recipe)
  intro st hst u v huv
  obtain ⟨e, he, rfl⟩ := List.mem_map.mp hst
  exact takes_unwritten huv (hb e he) (hw e he)

theorem Looks.not_writes (h : Looks b k st) : writes b k st = false := by
  cases h with
  | read f h => cases h <;> rfl
  | listed files hmem h => rw [h]; rfl

/-- The clock is never before a time it has shown. -/
theorem clock_shown {now : Time} (hs : Steps (exec sm.host) w (l.map Prod.snd) u)
    (hmem : (⟨.utcNow, now⟩ : Taken Response) ∈ project i l) : now ≤ u.now := by
  apply hs.established (I := fun u => now ≤ u.now) (mem_project.mp hmem)
  · intro u v huv
    rw [takes_utcNow huv]
  · exact fun _ e _ _ _ u v huv hu => le_trans hu (takes_now huv)

omit [DecidableEq ι] in
/-- Which step is the last to write the row tells why the row has expired. -/
theorem harmless_of_past (hlook : Looks b k st)
    (hs : Steps (exec sm.host) v (((i, st) :: l).map Prod.snd) u)
    (hb : ∀ e ∈ (i, st) :: l, ∀ b, e.2.1 ≠ .deleteBucketRow b)
    (hpast : ∀ row, u.db.files.find (b, k) = some row → past u.now row.expiresAt = true) :
    Harmless b k st v u l := by
  have hlike : ∀ {row}, (u.db.files.find (b, k)).map recipe = some (recipe row) →
      past u.now row.expiresAt = true := by
    intro row hrow
    obtain ⟨row', hrow', hsame⟩ := Option.map_eq_some_iff.mp hrow
    exact past_of_recipe hsame (hpast row' hrow')
  rcases exists_last (fun e => writes b k e.2) l with hnone | ⟨l₁, ⟨j, a, r⟩, l₂, rfl, he, hlast⟩
  · refine .unwritten hnone fun _ row hrow => ?_
    apply hlike
    rw [steps_unwritten hs hb, hrow]
    · rfl
    · intro e he
      rcases List.mem_cons.mp he with rfl | he
      · exact hlook.not_writes
      · exact hnone e he
  · rw [← List.cons_append] at hs
    obtain ⟨u₁, u₂, -, htake, hu⟩ := hs.at_split
    have hafter := steps_unwritten hu (fun e he => hb e (by simp [he])) hlast
    cases a with
    | upsertFile g =>
      cases r with
      | error e => simp [writes, Except.isOk, Except.toBool] at he
      | ok _ =>
        have hident : g.ident = (b, k) := by simpa [writes, Except.isOk, Except.toBool] using he
        refine .uploaded l₁ l₂ j g rfl hident hlast ?_
        apply hlike
        rw [hafter, ← hident, takes_upsertFile htake, Option.map_some, recipe_mergeRow]
    | deleteFileRow b' k' =>
      cases r with
      | error e => simp [writes, Except.isOk, Except.toBool] at he
      | ok _ =>
        have hkey : b' = b ∧ k' = k := by simpa [writes, Except.isOk, Except.toBool] using he
        obtain ⟨rfl, rfl⟩ := hkey
        exact .deleted l₁ l₂ j rfl hlast
    | _ => simp [writes] at he

/-- A look that found the key expired saw a row that has expired by `u`, or a cached record. -/
theorem past_of_look {row : StoredFile} {v' : World} (hlook : Looks b k st) (hst : st ∈ heard)
    (hfound : Found b k heard) (htake : Takes (exec sm.host) v st v')
    (hclock : ∀ now, (⟨.utcNow, now⟩ : Taken Response) ∈ heard → now ≤ u.now) (hle : v.now ≤ u.now)
    (hstale : st.1 = .getFileMetadata b k → past u.now row.expiresAt = true)
    (hrow : v.db.files.find (b, k) = some row) : past u.now row.expiresAt = true := by
  cases hlook with
  | read f hread =>
    cases hread with
    | cached => exact hstale rfl
    | selected =>
      obtain ⟨expiresAt, now, hexp, hnow, hshown⟩ := hfound.expired _ hst f .selected
      have hf : some f = some row := (takes_selectFile htake).trans hrow
      rw [← Option.some.inj hf, hexp]
      exact decide_eq_true (le_trans hnow (hclock now hshown))
  | listed files hmem hfiles =>
    subst hfiles
    obtain ⟨rank, rfl⟩ := takes_selectExpired htake
    obtain ⟨f, hf, hexp⟩ := Database.mem_selectExpired.mp hmem
    rw [hrow, Option.some.injEq] at hf
    subst hf
    apply past_mono _ hle
    unfold Database.expired at hexp
    split at hexp
    · rename_i expiresAt hsome
      simp only [decide_eq_true_eq] at hexp
      rw [hsome]
      exact decide_eq_true (le_of_lt hexp)
    · simp at hexp

/-- In every run, all that expiry removes has expired exactly when every deletion is
undisturbed. -/
theorem removed_expired_iff {x : ∀ i, Result (calls i).Answer}
    (hrun : Interleaving (exec sm.host) (fun i => (calls i).op sm) w tr x t) :
    Punctual sm calls w tr ↔ Undisturbed sm calls w tr := by
  have hbuckets : ∀ {b k i l u}, Removes sm calls w tr b k i l u →
      ∀ e ∈ l, ∀ b, e.2.1 ≠ .deleteBucketRow b := by
    rintro b k i l u ⟨⟨l', htr⟩, -, -⟩ ⟨j, st⟩ he
    exact (hrun.thread j).used ((calls j).keeps_buckets sm) st (mem_project.mpr (by simp [htr, he]))
  constructor
  · intro hpunctual b k i l u hrem l₁ st l₂ v hl hlook hv hvu
    refine harmless_of_past hlook hvu (fun e he => hbuckets hrem e ?_) (hpunctual b k i l u hrem)
    exact hl ▸ List.mem_append_right _ he
  · intro hund b k i l u hrem row hrow
    have hbl := hbuckets hrem
    obtain ⟨l', htr⟩ := hrem.next
    have hthread := hrun.thread i
    rw [htr, project_append, project_cons_self] at hthread
    have hfound : Found b k (project i l) := Call.found hthread hrem.expires
    obtain ⟨st, hst, hlook⟩ := hfound.look
    obtain ⟨l₁, l₂, hl⟩ := List.append_of_mem (mem_project.mp hst)
    obtain ⟨v, v', hv, htake, hu⟩ := Steps.at_split (hl ▸ hrem.reached)
    cases hund b k i l u hrem l₁ st l₂ v hl hlook hv ⟨v', htake, hu⟩ with
    | unwritten hnone hstale =>
      have hsame : (u.db.files.find (b, k)).map recipe = (v.db.files.find (b, k)).map recipe :=
        (steps_unwritten hu (fun e he => hbl e (by simp [hl, he])) hnone).trans
          (takes_unwritten htake (hbl (i, st) (by simp [hl])) hlook.not_writes)
      rw [hrow] at hsame
      obtain ⟨old, hold, hrecipe⟩ := Option.map_eq_some_iff.mp hsame.symm
      have hle : v.now ≤ u.now := by
        apply hu.invariant (I := fun u => v.now ≤ u.now) (takes_now htake)
        exact fun _ _ u' v' huv hle => le_trans hle (takes_now huv)
      apply past_of_recipe hrecipe
      exact past_of_look hlook hst hfound htake (fun now => clock_shown hrem.reached) hle
        (fun h => hstale h old hold) hold
    | uploaded m₁ m₂ j g hl₂ hident hlast hpast =>
      obtain ⟨u₁, u₂, -, hput, hu₂⟩ := Steps.at_split (hl₂ ▸ hu)
      have hsame := steps_unwritten hu₂ (fun e he => hbl e (by simp [hl, hl₂, he])) hlast
      rw [hrow, ← hident, takes_upsertFile hput, Option.map_some, Option.map_some, recipe_mergeRow,
        Option.some.injEq] at hsame
      exact past_of_recipe hsame.symm hpast
    | deleted m₁ m₂ j hl₂ hlast =>
      obtain ⟨u₁, u₂, -, hdelete, hu₂⟩ := Steps.at_split (hl₂ ▸ hu)
      have hsame := steps_unwritten hu₂ (fun e he => hbl e (by simp [hl, hl₂, he])) hlast
      rw [hrow, takes_deleteFileRow hdelete] at hsame
      simp at hsame

/-! ## Permanent uploads of a key that had an expiry -/

open Sample (manager)

/-- The step deletes the row of `(b, k)`. -/
def deletes (b k : String) : Taken Response → Bool
  | ⟨.deleteFileRow b' k', r⟩ => Except.isOk (r : Query Unit) && (b', k') = (b, k)
  | _ => false

theorem deletes_iff : deletes b k st = true ↔ st = ⟨.deleteFileRow b k, (.ok () : Query Unit)⟩ := by
  constructor
  · intro h
    obtain ⟨a, r⟩ := st
    cases a with
    | deleteFileRow b' k' =>
      cases r with
      | error e => simp [deletes, Except.isOk, Except.toBool] at h
      | ok _ =>
        have hkey : b' = b ∧ k' = k := by simpa [deletes, Except.isOk, Except.toBool] using h
        obtain ⟨rfl, rfl⟩ := hkey
        rfl
    | _ => simp [deletes] at h
  · rintro rfl
    simp [deletes, Except.isOk, Except.toBool]

/-- `calls` under a schedule, with nothing failing. -/
def woven (calls : ι → Call) (w : World) (schedule : List ι) :=
  weave (exec manager.host) calm schedule (fun i => (calls i).op manager) w

/-- The deletion that comes next takes a row that has not expired. -/
theorem not_punctual {early late : List ι}
    (hnext : ((weave (exec manager.host) calm late (woven calls w early).2.1
      (woven calls w early).2.2).1.head?).any (fun e => e.1 = i && deletes b k e.2) = true)
    (hexp : (calls i).Expires (project i (woven calls w early).1))
    (hrow : ((woven calls w early).2.2.db.files.find (b, k)).any
      (fun row => !past (woven calls w early).2.2.now row.expiresAt) = true) :
    ¬ Punctual manager calls w (woven calls w (early ++ late)).1 := by
  intro hpunctual
  obtain ⟨⟨j, st⟩, hhead, hst⟩ := (Option.any_eq_true _ _).mp hnext
  simp only [Bool.and_eq_true, decide_eq_true_eq] at hst
  obtain ⟨rfl, hdelete⟩ := hst
  obtain ⟨rest, hrest⟩ := List.head?_eq_some_iff.mp hhead
  obtain ⟨row, hrow, hlive⟩ := (Option.any_eq_true _ _).mp hrow
  have hrem : Removes manager calls w (woven calls w (early ++ late)).1 b k j
      (woven calls w early).1 (woven calls w early).2.2 := by
    refine ⟨⟨rest, ?_⟩, hexp, weave_steps calm early⟩
    rw [woven, weave_append, ← deletes_iff.mp hdelete]
    exact congrArg _ hrest
  have hpast := hpunctual b k j _ _ hrem row hrow
  rw [hpast] at hlive
  simp at hlive

def permanently (content : Bytes) : Call := .storeFile "a" "k" content none {}

/-- `a/k` has expired. -/
def expired : World :=
  (replay manager [(.storeFile "a" "k" [120] none { expiresAt := some 10 } (.error (.io "")),
    { uuid := 1 }), (.tick 20, calm)] ([], World.empty)).2

/-- The sweep, and a permanent upload of the key. -/
def sweptThenStored : Bool → Call
  | true => permanently [121]
  | false => .sweepExpiredFiles

def inTurn : List Bool := List.replicate 6 false ++ List.replicate 11 true

theorem removed_expired_in_turn :
    Punctual manager sweptThenStored expired (woven sweptThenStored expired inTurn).1 := by
  have hdone : ∀ i, ((woven sweptThenStored expired inTurn).2.1 i).result.isSome = true := by decide
  obtain ⟨x, hrun⟩ := weave_finished calm inTurn hdone
  have hreads : ∀ e ∈ (woven sweptThenStored expired inTurn).1, ∀ b k,
      e.2.1 ≠ .getFileMetadata b k := by
    have hnone : ∀ e ∈ (woven sweptThenStored expired inTurn).1,
        (match e.2.1 with | .getFileMetadata _ _ => true | _ => false) = false := by decide
    intro e he b k h
    simpa [h] using hnone e he
  -- the sweep's deletion is the first step that writes a row
  have hfirst : before (fun e : Bool × Taken Response => e.2.1.writesRow)
      (fun e => match e.2.1 with | .deleteFileRow _ _ => true | _ => false)
      (woven sweptThenStored expired inTurn).1 = false := by decide
  refine (removed_expired_iff hrun).mpr fun b k i l u hrem l₁ st l₂ v hl hlook hv hvu => ?_
  obtain ⟨l', htr⟩ := hrem.next
  have hin : (i, st) ∈ (woven sweptThenStored expired inTurn).1 := by
    rw [woven, htr, hl]
    simp
  refine .unwritten (fun e he => ?_) fun h => absurd h (hreads _ hin b k)
  rw [Bool.eq_false_iff]
  intro hwrites
  obtain ⟨m₁, m₂, rfl⟩ := List.append_of_mem he
  have hrow : e.2.1.writesRow = true := by
    obtain ⟨j, a, r⟩ := e
    cases a with
    | upsertFile g => rfl
    | deleteFileRow b' k' => rfl
    | _ => simp [writes] at hwrites
  have hsplit : (woven sweptThenStored expired inTurn).1 = (l₁ ++ (i, st) :: m₁) ++ e ::
      (m₂ ++ (i, ⟨.deleteFileRow b k, (.ok () : Query Unit)⟩) :: l') := by
    rw [woven, htr, hl]
    simp
  rw [hsplit, before_of_split (y := (i, ⟨.deleteFileRow b k, .ok ()⟩)) hrow (by simp) rfl] at hfirst
  simp at hfirst

/-- The same upload, while `getFileInfo` goes by the expired row. -/
def infoAndStore : Bool → Call
  | true => permanently [121]
  | false => .getFileInfo "a" "k"

/-- The row is read, then the upload runs, then the row is deleted. -/
def around : List Bool := List.replicate 1 false ++ List.replicate 11 true ++ List.replicate 3 false

/-- `a/k` was uploaded with an expiry, and again without one as an alias; its first record is
still cached. -/
def reuploaded : World :=
  (replay manager [(.storeFile "a" "k" [120] none { expiresAt := some 10 } (.error (.io "")),
      { uuid := 1 }), (.storeFile "a" "l" [121] none {} (.error (.io "")), { uuid := 2 }),
    (.storeFile "a" "k" [121] none {} (.error (.io "")), { uuid := 3 }), (.tick 20, calm)]
    ([], World.empty)).2

def lone (_ : Unit) : Call := .getFile "a" "k"

/-- From reachable states, `getFile` alone deletes a permanent row by a cached record, and
`getFileInfo` one that was uploaded after it had read the old row. -/
theorem expiry_removes_permanent_rows :
    ((∃ es, SystemRun manager (fun _ _ => True) World.empty es reuploaded) ∧
      (∃ x, Interleaving (exec manager.host) (fun i => (lone i).op manager) reuploaded
        (woven lone reuploaded (List.replicate 4 () ++ List.replicate 3 ())).1 x
        (woven lone reuploaded (List.replicate 4 () ++ List.replicate 3 ())).2.2) ∧
      ¬ Punctual manager lone reuploaded
        (woven lone reuploaded (List.replicate 4 () ++ List.replicate 3 ())).1) ∧
    ((∃ es, SystemRun manager (fun _ _ => True) World.empty es expired) ∧
      (∃ x, Interleaving (exec manager.host) (fun i => (infoAndStore i).op manager) expired
        (woven infoAndStore expired (around ++ List.replicate 3 false)).1 x
        (woven infoAndStore expired (around ++ List.replicate 3 false)).2.2) ∧
      ¬ Punctual manager infoAndStore expired
        (woven infoAndStore expired (around ++ List.replicate 3 false)).1) := by
  refine ⟨⟨⟨_, replay_run (.nil _) ⟨trivial, trivial, trivial, trivial, trivial⟩⟩,
    weave_finished calm _ (fun () => by decide), ?_⟩,
    ⟨_, replay_run (.nil _) ⟨trivial, trivial, trivial⟩⟩, weave_finished calm _ (by decide), ?_⟩
  · have hcold : ∀ st ∈ project () (woven lone reuploaded (List.replicate 4 ())).1,
        st.1 ≠ .getFileContent "a" "k" := by decide
    exact not_punctual (i := ()) (b := "a") (k := "k") (by decide) hcold (by decide)
  · exact not_punctual (i := false) (b := "a") (k := "k") (by decide) trivial (by decide)

end LocalStorage.Proofs.ExpiryRace
