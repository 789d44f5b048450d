import LocalStorage.Proofs.Dialogues
import LocalStorage.Proofs.SharedBytes

namespace LocalStorage.Proofs.Orphans
open Lib Lib.Paths StorageManager SharedBytes

/-! # Files that no row refers to -/

/-! ## A disk that does not refuse an unlink -/

/-- The steps of `exec`; only, what can be unlinked is. -/
def unlinking (h : Host) (c : Choice) : (a : Action) → World → Response a × World
  | .removeFile path, w => exec h { c with fault := none } (.removeFile path) w
  | a, w => exec h c a w

theorem unlinking_offered (h : Host) (c : Choice) (a : Action) (w : World) :
    ∃ c', exec h c' a w = unlinking h c a w := by
  cases a with
  | removeFile path => exact ⟨{ c with fault := none }, rfl⟩
  | _ => exact ⟨c, rfl⟩

theorem unlinking_calm (h : Host) {c : Choice} (hc : c.fault = none) (a : Action) (w : World) :
    unlinking h c a w = exec h c a w := by
  cases a with
  | removeFile path =>
    have hsame : { c with fault := none } = c := by rw [← hc]
    simp only [unlinking, hsame]
  | _ => rfl

theorem takes_offered {h : Host} {w w' : World} {st : Taken Response}
    (ht : Takes (unlinking h) w st w') : Takes (exec h) w st w' := by
  obtain ⟨c, hc⟩ := ht
  obtain ⟨c', hc'⟩ := unlinking_offered h c st.1 w
  exact ⟨c', hc'.trans hc⟩

/-- After the attempt there are no bytes under the path. -/
theorem takes_unlinked {h : Host} {w w' : World} {path : String} {r : Except IoError Unit}
    (ht : Takes (unlinking h) w ⟨.removeFile path, r⟩ w') : w'.bytesAt h path = none := by
  obtain ⟨c, hc⟩ := ht
  have hw : (exec h { c with fault := none } (.removeFile path) w).2 = w' := congrArg Prod.snd hc
  simp only [exec, execRemoveFile] at hw
  cases hl : lookup h path w with
  | error e =>
    rw [hl] at hw
    rw [← hw]
    cases hb : w.bytesAt h path with
    | none => rfl
    | some b => simp [lookup_eq_ok.mpr hb] at hl
  | ok b =>
    rw [hl] at hw
    rw [← hw]
    simp [World.bytesAt, FileTree.fileAt_erase_self]

/-! ## Runs of successful calls -/

/-- The calls that change which files there are, over such a disk. -/
def Unlinks (sm : StorageManager) : Event → World → World → Prop
  | .storeFile b k content ct opts x, w, w' =>
    (sm.storeFile b k content ct opts).Runs (unlinking sm.host) w x w'
  | .deleteFile b k x, w, w' => (deleteFile b k).Runs (unlinking sm.host) w x w'
  | .sweepExpiredFiles x, w, w' => sweepExpiredFiles.Runs (unlinking sm.host) w x w'
  | _, _, _ => False

/-- A successful upload, deletion or sweep. -/
def Completes : Event → Prop
  | .storeFile _ _ _ _ _ x => x.isOk = true
  | .deleteFile _ _ x => x.isOk = true
  | .sweepExpiredFiles x => x.isOk = true
  | _ => False

instance : (e : Event) → Decidable (Completes e)
  | .storeFile _ _ _ _ _ x => inferInstanceAs (Decidable (x.isOk = true))
  | .deleteFile _ _ x => inferInstanceAs (Decidable (x.isOk = true))
  | .sweepExpiredFiles x => inferInstanceAs (Decidable (x.isOk = true))
  | .getFile .. | .getFileRangeIfPlain .. | .getCompressedFileRange .. | .deleteBucket ..
  | .evict .. | .tick .. => isFalse id

/-- The paths an upload can record: of the rows with its content, else its own. -/
def recordedPaths (sm : StorageManager) (w : World) (b k : String) (content : Bytes) : List String :=
  match w.db.files.rows.filter (·.hashBlake3 = sm.lib.blake3 content) with
  | [] => [sm.getFilePath b k]
  | rows => rows.map (·.filePath)

/-- The row an upload replaces keeps its path, or its path has another row, or no bytes. -/
def KeepsReferences (sm : StorageManager) (w : World) : Event → Prop
  | .storeFile b k content _ _ _ => ∀ f ∈ w.db.files.rows, f.ident = (b, k) →
      (∀ path ∈ recordedPaths sm w b k content, path = f.filePath) ∨
      (∃ g ∈ w.db.files.rows, g.ident ≠ (b, k) ∧ g.filePath = f.filePath) ∨
      w.bytesAt sm.host f.filePath = none
  | _ => True

instance (sm : StorageManager) (w : World) : (e : Event) → Decidable (KeepsReferences sm w e)
  | .storeFile _ _ _ _ _ _ => inferInstanceAs (Decidable (∀ f ∈ _, _ → _ ∨ _ ∨ _))
  | .getFile .. | .getFileRangeIfPlain .. | .getCompressedFileRange .. | .deleteFile ..
  | .deleteBucket .. | .sweepExpiredFiles .. | .evict .. | .tick .. => isTrue trivial

/-- The bytes under the paths of uploaded keys are those of rows. -/
def NoOrphans (sm : StorageManager) (keys : List (String × String)) (w : World) : Prop :=
  ∀ p ∈ keys, w.bytesAt sm.host (sm.getFilePath p.1 p.2) ≠ none →
    ∃ f ∈ w.db.files, f.filePath = sm.getFilePath p.1 p.2

variable {sm : StorageManager} {keys : List (String × String)} {u w w' : World} {es : List Event}
  {b k path : String} {content : Bytes} {ct : Option String} {opts : StoreOptions}

theorem recordedPaths_own (hnew : ∀ f ∈ w.db.files, f.hashBlake3 ≠ sm.lib.blake3 content) :
    recordedPaths sm w b k content = [sm.getFilePath b k] := by
  have hnone : w.db.files.rows.filter (·.hashBlake3 = sm.lib.blake3 content) = [] := by
    simpa [List.filter_eq_nil_iff, Table.mem_def] using hnew
  simp [recordedPaths, hnone]

theorem mem_recordedPaths {f : StoredFile} (hf : f ∈ w.db.files)
    (hhash : f.hashBlake3 = sm.lib.blake3 content) :
    f.filePath ∈ recordedPaths sm w b k content := by
  have hmem : f ∈ w.db.files.rows.filter (·.hashBlake3 = sm.lib.blake3 content) :=
    List.mem_filter.mpr ⟨hf, by simpa using hhash⟩
  unfold recordedPaths
  split
  · rename_i hnil
    simp [hnil] at hmem
  · exact List.mem_map.mpr ⟨f, hmem, rfl⟩

/-- An upload that puts a row in place keeps every file referenced that was. -/
theorem NoOrphans.put {row : StoredFile} (hi : NoOrphans sm keys w)
    (hfiles : w'.db.files = w.db.files.put row) (hident : row.ident = (b, k))
    (hbytes : ∀ p ∈ keys, sm.getFilePath p.1 p.2 ≠ row.filePath →
      w'.bytesAt sm.host (sm.getFilePath p.1 p.2) ≠ none →
      w.bytesAt sm.host (sm.getFilePath p.1 p.2) ≠ none)
    (hkeep : ∀ f ∈ w.db.files, f.ident = (b, k) → row.filePath = f.filePath ∨
      (∃ g ∈ w.db.files, g.ident ≠ (b, k) ∧ g.filePath = f.filePath) ∨
      w.bytesAt sm.host f.filePath = none) : NoOrphans sm keys w' := by
  intro p hp hsome
  rw [hfiles]
  by_cases hown : sm.getFilePath p.1 p.2 = row.filePath
  · exact ⟨row, Table.mem_put.mpr (.inl rfl), hown.symm⟩
  · have hbefore := hbytes p hp hown hsome
    obtain ⟨f, hf, hpath⟩ := hi p hp hbefore
    have hstays : ∀ g ∈ w.db.files, g.ident ≠ (b, k) → g.filePath = sm.getFilePath p.1 p.2 →
        ∃ g ∈ w.db.files.put row, g.filePath = sm.getFilePath p.1 p.2 := by
      intro g hg hne hgp
      exact ⟨g, Table.mem_put.mpr (.inr ⟨hg, hident ▸ hne⟩), hgp⟩
    by_cases hfb : f.ident = (b, k)
    · obtain hsame | ⟨g, hg, hne, hgp⟩ | hnone := hkeep f hf hfb
      · exact absurd (hpath.symm.trans hsame.symm) hown
      · exact hstays g hg hne (hgp.trans hpath)
      · rw [hpath] at hnone
        exact absurd hnone hbefore
    · exact hstays f hf hfb hpath

theorem NoOrphans.kept (hi : NoOrphans sm keys w) (hk : Kept [] w w') : NoOrphans sm keys w' := by
  intro p hp hsome
  rw [World.bytesAt_congr (hk.disk _ (by simp))] at hsome
  rw [hk.files]
  exact hi p hp hsome

theorem NoOrphans.stored {x : Result StoredFile}
    (hdedup : sm.config.storage.enableDeduplication = true)
    (hdist : ∀ p ∈ keys, ∀ q ∈ keys, sm.host.target (sm.getFilePath p.1 p.2) =
      sm.host.target (sm.getFilePath q.1 q.2) → p = q)
    (hbk : (b, k) ∈ keys) (hok : x.isOk = true)
    (hkeep : KeepsReferences sm w (.storeFile b k content ct opts x))
    (hx : StoreOutcome sm b k content ct opts w w' x) (hi : NoOrphans sm keys w) :
    NoOrphans sm keys w' := by
  cases hx with
  | rejected e _ => simp [Except.isOk, Except.toBool] at hok
  | broken e _ _ _ => simp [Except.isOk, Except.toBool] at hok
  | identical file _ _ _ _ hk => exact hi.kept hk
  | aliased existing id now hmem _ hhash _ ha =>
    refine hi.put (b := b) (k := k) ha.files (by simp) ?_ fun f hf hfb => ?_
    · intro p _ _ hsome
      rwa [World.bytesAt_congr (ha.disk _)] at hsome
    · have hpath : existing.filePath ∈ recordedPaths sm w b k content := mem_recordedPaths hmem hhash
      refine (hkeep f hf hfb).imp_left fun hall => ?_
      simpa using hall _ hpath
  | fresh processed enc id now hnew _ hw =>
    refine hi.put (b := b) (k := k) hw.files (by simp) ?_ fun f hf hfb => ?_
    · intro p hp hne hsome
      have htarget : sm.host.target (sm.getFilePath p.1 p.2) ≠
          sm.host.target (sm.getFilePath b k) := by
        intro heq
        obtain rfl : p = (b, k) := hdist p hp (b, k) hbk heq
        simp at hne
      intro hnone
      apply hsome
      simp only [World.bytesAt] at hnone ⊢
      split at hnone
      · rename_i hn
        rw [if_pos hn, hw.disk]
        split
        · rename_i heq
          exact absurd heq htarget
        · split
          · rfl
          · exact hnone
      · rename_i hn
        rw [if_neg hn]
    · refine (hkeep f hf hfb).imp_left fun hall => ?_
      have hown := recordedPaths_own (b := b) (k := k) (hnew hdedup)
      simpa using hall (sm.getFilePath b k) (by simp [hown])

/-! ## Deletions -/

/-- A deletion that finds no other row with the path leaves no bytes there. -/
theorem deleteFile_unlinks {h : Host} {file : StoredFile}
    (hr : (deleteFile b k).Runs (unlinking h) w (.ok ()) w')
    (hrow : w.db.files.find (b, k) = some file)
    (halone : ∀ f ∈ w.db.files, f.filePath = file.filePath → f.ident = (b, k)) :
    w'.bytesAt h file.filePath = none := by
  obtain ⟨l, hsteps, hdialogue⟩ := hr.traced []
  have hdelete : DeleteSteps b k (.ok ()) l := deleteFile_dialogue hdialogue
  have hpath : ∀ {u v : World} {path : String}, u.db.files = w.db.files →
      Takes (unlinking h) u ⟨.selectFilePath b k, (.ok (some path) : Query (Option String))⟩ v →
      path = file.filePath := by
    intro u v path hu ht
    have hsel := takes_selectFilePath (takes_offered ht)
    rw [Database.selectFile, hu, hrow, Option.map_some, Option.some.injEq] at hsel
    exact hsel
  cases hdelete with
  | kept path n r hn =>
    obtain ⟨u, hu, v, hv, -⟩ := hsteps
    obtain rfl := hpath rfl hu
    have hcount := takes_countOtherReferences (takes_offered hv)
    have hsame : u.db.files = w.db.files := takes_files (takes_offered hu) rfl rfl
    have hzero : u.db.countOtherReferences file.filePath b k = 0 := by
      rw [Database.countOtherReferences_eq_zero, hsame]
      exact halone
    exact absurd (hcount.trans hzero) hn
  | unlinked path r' r =>
    obtain ⟨u, hu, v, hv, x, hx, y, hy, z, hz, rfl⟩ := hsteps
    obtain rfl := hpath rfl hu
    have hgone := takes_unlinked hy
    rwa [takes_bytesAt (takes_offered hz) rfl]

theorem NoOrphans.deleted {h : Host} {file : StoredFile} (hd : Deleted h b k file w w')
    (hh : h = sm.host)
    (hunlinked : (∀ f ∈ w.db.files, f.filePath = file.filePath → f.ident = (b, k)) →
      w'.bytesAt sm.host file.filePath = none)
    (hi : NoOrphans sm keys w) : NoOrphans sm keys w' := by
  subst hh
  intro p hp hsome
  have hbefore : w.bytesAt sm.host (sm.getFilePath p.1 p.2) ≠ none := by
    intro hnone
    apply hsome
    cases hd.disk with
    | inl hsame => rwa [World.bytesAt_congr (hsame _)]
    | inr hlost =>
      simp only [World.bytesAt] at hnone ⊢
      split
      · rename_i hn
        rw [if_pos hn] at hnone
        rw [hlost.2]
        split
        · rfl
        · exact hnone
      · rfl
  obtain ⟨f, hf, hpath⟩ := hi p hp hbefore
  rw [hd.files]
  by_cases hfb : f.ident = (b, k)
  · -- the deleted row itself: another row has its path, or the bytes are gone
    obtain rfl : f = file := by
      have hself := Table.find_self hf
      rw [hfb, hd.row, Option.some.injEq] at hself
      exact hself.symm
    by_cases halone : ∀ g ∈ w.db.files, g.filePath = f.filePath → g.ident = (b, k)
    · rw [hpath] at hunlinked
      exact absurd (hunlinked (hpath ▸ halone)) hsome
    · push Not at halone
      obtain ⟨g, hg, hgp, hne⟩ := halone
      exact ⟨g, Table.mem_erase.mpr ⟨hg, hne⟩, hgp.trans hpath⟩
  · exact ⟨f, Table.mem_erase.mpr ⟨hf, hfb⟩, hpath⟩

/-- A deletion, whatever comes of it. -/
theorem deleteFile_noOrphans {x : Result Unit} (hr : (deleteFile b k).Runs (unlinking sm.host) w x w')
    (hi : NoOrphans sm keys w) : NoOrphans sm keys w' := by
  have hspec := deleteFile_spec x w' (hr.embed (unlinking_offered sm.host))
  cases x with
  | ok u =>
    obtain ⟨file, hd⟩ := hspec
    exact hi.deleted hd rfl (deleteFile_unlinks hr hd.row)
  | error e =>
    obtain rfl := hspec
    exact hi

theorem sweepFiles_noOrphans {files : List (String × String)} {x : Result Nat}
    (hr : (sweepFiles files).Runs (unlinking sm.host) w x w') (hi : NoOrphans sm keys w) :
    NoOrphans sm keys w' := by
  induction files generalizing w x with
  | nil =>
    obtain ⟨-, rfl⟩ := hr
    exact hi
  | cons f files ih =>
    obtain ⟨b, k⟩ := f
    simp only [sweepFiles, Prog.bind_eq, Prog.pure_eq] at hr
    obtain ⟨e, hfail, -⟩ | ⟨y, u, hdelete, hrest⟩ := Prog.runs_bind.mp hr
    · obtain ⟨y, hy, -⟩ := Prog.runs_attempt.mp hfail
      simp at hy
    · obtain ⟨z, -, hz⟩ := Prog.runs_attempt.mp hdelete
      have hu : NoOrphans sm keys u := deleteFile_noOrphans hz hi
      cases y with
      | ok v =>
        obtain ⟨e, hswept, -⟩ | ⟨n, t, hswept, hret⟩ := Prog.runs_bind.mp hrest
        · exact ih hswept hu
        · obtain ⟨-, rfl⟩ := hret
          exact ih hswept hu
      | error e => exact ih hrest hu

theorem sweepExpiredFiles_noOrphans {x : Result Nat}
    (hr : sweepExpiredFiles.Runs (unlinking sm.host) w x w') (hi : NoOrphans sm keys w) :
    NoOrphans sm keys w' := by
  simp only [sweepExpiredFiles, step_eq, Prog.bind_eq, Prog.act_bind, Prog.ret_bind] at hr
  obtain ⟨c, hc⟩ := Prog.runs_act.mp hr
  have hsame : (unlinking sm.host c .selectExpired w).2 = w := rfl
  rw [hsame] at hc
  obtain ⟨e, hfail, -⟩ | ⟨files, u, hsel, hswept⟩ := Prog.runs_bind.mp hc
  · simp only [ofSqlx, Prog.runs_ofExcept] at hfail
    exact hfail.2 ▸ hi
  · simp only [ofSqlx, Prog.runs_ofExcept] at hsel
    exact sweepFiles_noOrphans hswept (hsel.2 ▸ hi)

/-! ## Whole runs -/

theorem step_noOrphans (hdedup : sm.config.storage.enableDeduplication = true)
    (hdist : DistinctPlaces sm es) {e : Event} (he : e ∈ es) (hok : Completes e)
    (hkeep : KeepsReferences sm w e) (ht : Unlinks sm e w w') (hi : NoOrphans sm (uploads es) w) :
    NoOrphans sm (uploads es) w' := by
  cases e with
  | storeFile b k content ct opts x =>
    have hup : (b, k) ∈ uploads es := List.mem_filterMap.mpr ⟨_, he, rfl⟩
    have hx := storeFile_spec x w' (Prog.Runs.embed (unlinking_offered sm.host) ht)
    exact hi.stored hdedup hdist hup hok hkeep hx
  | deleteFile b k x => exact deleteFile_noOrphans ht hi
  | sweepExpiredFiles x => exact sweepExpiredFiles_noOrphans ht hi
  | _ => exact hok.elim

/-- As long as every upload that moves a row to another file leaves the old one referenced,
no run of successful uploads, deletions and sweeps leaves a written file without a row. -/
theorem no_orphans (hdedup : sm.config.storage.enableDeduplication = true)
    (hclean : ∀ p ∈ uploads es, w.bytesAt sm.host (sm.getFilePath p.1 p.2) = none)
    (hdist : DistinctPlaces sm es)
    (hrun : Run (Unlinks sm) (fun u e => Completes e ∧ KeepsReferences sm u e) w es w') :
    ∀ p ∈ uploads es, w'.bytesAt sm.host (sm.getFilePath p.1 p.2) ≠ none →
      ∃ f ∈ w'.db.files, f.filePath = sm.getFilePath p.1 p.2 := by
  have hinit : NoOrphans sm (uploads es) w := fun p hp hsome => absurd (hclean p hp) hsome
  exact hrun.invariant (I := NoOrphans sm (uploads es)) hinit fun e he u v hu hg ht =>
    step_noOrphans hdedup hdist he hg.1 hg.2 ht hu

/-! ## An alias in place of a file -/

open Sample (manager)

/-- A call replayed without faults is a call over such a disk. -/
theorem perform_unlinks {c : Choice} (hc : c.fault = none) {e : Event}
    (he : Completes (e.perform sm c w).1) :
    Unlinks sm (e.perform sm c w).1 w (e.perform sm c w).2 := by
  have hruns : ∀ {α : Type} (p : Op α), p.Runs (unlinking sm.host) w (p.eval (exec sm.host) c w).1
      (p.eval (exec sm.host) c w).2 := by
    intro α p
    rw [← Prog.eval_congr (unlinking_calm sm.host hc)]
    exact Prog.eval_runs c p w
  cases e with
  | storeFile b k content ct opts x => exact hruns _
  | deleteFile b k x => exact hruns _
  | sweepExpiredFiles x => exact hruns _
  | _ => exact he.elim

theorem replay_unlinks {P : World → Event → Prop} {s w : World} {es : List Event}
    {script : List (Event × Choice)}
    (hrun : Run (Unlinks sm) (fun u e => Completes e ∧ P u e) s es w)
    (hcalm : ∀ ec ∈ script, ec.2.fault = none)
    (hg : Guarded sm (fun u e => Completes e ∧ P u e) script w) :
    Run (Unlinks sm) (fun u e => Completes e ∧ P u e) s (replay sm script (es, w)).1
      (replay sm script (es, w)).2 := by
  induction script generalizing es w with
  | nil => exact hrun
  | cons ec script ih =>
    obtain ⟨e, c⟩ := ec
    have hstep := perform_unlinks (hcalm (e, c) (by simp)) hg.1.1
    exact ih (.snoc hrun hg.1 hstep) (fun ec hec => hcalm ec (List.mem_cons_of_mem _ hec)) hg.2

/-- Two keys of one content; then the first key goes, and the second. -/
def sharedThenGone : List (Event × Choice) :=
  [upload "k1" [120] 1, upload "k2" [120] 2, (.deleteFile "a" "k1" (.error (.io "")), {}),
    (.deleteFile "a" "k2" (.error (.io "")), {})]

theorem no_orphans_shared :
    uploads (replay manager sharedThenGone ([], World.empty)).1 = [("a", "k1"), ("a", "k2")] ∧
    ∀ p ∈ uploads (replay manager sharedThenGone ([], World.empty)).1,
      (replay manager sharedThenGone ([], World.empty)).2.bytesAt manager.host
        (manager.getFilePath p.1 p.2) ≠ none →
      ∃ f ∈ (replay manager sharedThenGone ([], World.empty)).2.db.files,
        f.filePath = manager.getFilePath p.1 p.2 :=
  ⟨by decide, no_orphans (w := World.empty) rfl (by decide) (by decide)
    (replay_unlinks (.nil World.empty) (by decide) (by decide))⟩

/-- The second key has a file of its own when it is given the content of the first. -/
def fileThenAlias : List (Event × Choice) :=
  [upload "k1" [120] 1, upload "k2" [121] 2, upload "k2" [120] 3]

/-- The file the second key had stays on disk, and no row has its path. -/
theorem alias_orphans_file :
    manager.config.storage.enableDeduplication = true ∧
      DistinctPlaces manager (replay manager fileThenAlias ([], World.empty)).1 ∧
      Run (Unlinks manager) (fun _ e => Completes e ∧ True) World.empty
        (replay manager fileThenAlias ([], World.empty)).1
        (replay manager fileThenAlias ([], World.empty)).2 ∧
      (replay manager fileThenAlias ([], World.empty)).2.bytesAt manager.host
        (manager.getFilePath "a" "k2") = some [121] ∧
      ∀ f ∈ (replay manager fileThenAlias ([], World.empty)).2.db.files,
        f.filePath ≠ manager.getFilePath "a" "k2" := by
  have hrows : ∀ f ∈ (replay manager fileThenAlias ([], World.empty)).2.db.files.rows,
      f.filePath ≠ manager.getFilePath "a" "k2" := by decide
  exact ⟨rfl, by decide, replay_unlinks (.nil World.empty) (by decide) (by decide), by decide, hrows⟩

end LocalStorage.Proofs.Orphans
