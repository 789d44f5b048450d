import LocalStorage.Smooth
import LocalStorage.Proofs.Statements
import LocalStorage.Proofs.Reading
import LocalStorage.Sample

namespace LocalStorage.Proofs.Erasures
open Lib Lib.Paths StorageManager Sample

/-! # Deletions and sweeps run alone -/

/-- Different path strings of rows name different files. -/
def DistinctFiles (h : Host) (w : World) : Prop :=
  ∀ f ∈ w.db.files, ∀ g ∈ w.db.files, h.target f.filePath = h.target g.filePath →
    f.filePath = g.filePath

/-- Every row's bytes are on disk, and the cache says what table and disk say. -/
structure InOrder (h : Host) (w : World) : Prop where
  bytes : ∀ f ∈ w.db.files, (w.bytesAt h f.filePath).isSome = true
  cache : ∀ b k, Coherent h w b k
  distinct : DistinctFiles h w

/-- The row is gone with its cache entries, and its bytes when no other row has the path. All
other keys read as before. -/
structure Erased (sm : StorageManager) (b k : String) (file : StoredFile) (w t : World) : Prop where
  files : t.db.files = w.db.files.erase (b, k)
  metadata : t.cache.getFileMetadata b k = none
  content : t.cache.getFileContent b k = none
  unlinked : t.bytesAt sm.host file.filePath = none ↔
    ∀ g ∈ w.db.files, g.filePath = file.filePath → g.ident = (b, k)
  disk : ∀ l, l ≠ sm.host.target file.filePath → t.fs.fileAt l = w.fs.fileAt l
  reads : ∀ b' k', (b', k') ≠ (b, k) → ∀ now,
    served sm { t with now := now } b' k' = served sm { w with now := now } b' k'

/-- The rows left are those without an expiry before `now`; they keep their bytes, and what only
removed rows refer to is gone. -/
structure Swept (h : Host) (now : Time) (w t : World) : Prop where
  files : ∀ f, f ∈ t.db.files ↔ f ∈ w.db.files ∧ ∀ time, f.expiresAt = some time → now ≤ time
  kept : ∀ f ∈ t.db.files, t.bytesAt h f.filePath = w.bytesAt h f.filePath
  freed : ∀ f ∈ w.db.files, (∀ g ∈ t.db.files, g.filePath ≠ f.filePath) →
    t.bytesAt h f.filePath = none

variable {sm : StorageManager} {h : Host} {w t : World} {b k : String} {file : StoredFile}

/-! ## One deletion -/

/-- The disk after the last row of a path has been deleted, or another one. -/
def afterDelete (h : Host) (b k path : String) (w : World) : FileTree Name Bytes :=
  if w.db.countOtherReferences path b k = 0 then w.fs.erase (h.target path) else w.fs

theorem smooth_deleteFile_none {x : Result Unit} (hrow : w.db.files.find (b, k) = none) :
    Smooth h (deleteFile b k) w x t ↔ x = .error (.notFound b k) ∧ t = w := by
  simp only [deleteFile, step_eq, Prog.bind_eq, Prog.act_bind, Prog.ret_bind, smooth_selectFilePath,
    Database.selectFile, hrow, Option.map_none, ofSqlx_ok, Prog.runsWith_fail]

theorem smooth_deleteFile {x : Result Unit} (hrow : w.db.files.find (b, k) = some file)
    (hrun : Smooth h (deleteFile b k) w x t) : ∃ db, w.db.deleteFileRow b k = .ok db ∧ x = .ok () ∧
      t = { w with db := db, fs := afterDelete h b k file.filePath w
                   cache := w.cache.invalidateFile b k } := by
  simp only [deleteFile, step_eq, Prog.bind_eq, Prog.act_bind, Prog.ret_bind, Prog.pure_eq,
    smooth_selectFilePath, Database.selectFile, hrow, Option.map_some, ofSqlx_ok,
    smooth_countOtherReferences, smooth_deleteFileRow] at hrun
  obtain ⟨db, hdb, hrun⟩ := hrun
  refine ⟨db, hdb, ?_⟩
  unfold afterDelete
  split at hrun
  · rename_i hzero
    obtain ⟨-, hrun⟩ := smooth_removeFile.mp hrun
    obtain ⟨hx, ht⟩ := smooth_invalidateFile.mp hrun
    exact ⟨hx, by rw [ht, if_pos hzero]⟩
  · rename_i hzero
    obtain ⟨hx, ht⟩ := smooth_invalidateFile.mp hrun
    exact ⟨hx, by rw [ht, if_neg hzero]⟩

theorem fileAt_afterDelete_sole {path : String}
    (hsole : ∀ g ∈ w.db.files, g.filePath = path → g.ident = (b, k)) :
    (afterDelete h b k path w).fileAt (h.target path) = none := by
  rw [afterDelete, if_pos (Database.countOtherReferences_eq_zero.mpr hsole)]
  exact FileTree.fileAt_erase_self

theorem fileAt_afterDelete_other {path : String} {l : Loc}
    (hother : ¬ ((∀ g ∈ w.db.files, g.filePath = path → g.ident = (b, k)) ∧ l = h.target path)) :
    (afterDelete h b k path w).fileAt l = w.fs.fileAt l := by
  unfold afterDelete
  split
  · rename_i hzero
    exact FileTree.fileAt_erase_ne fun hl =>
      hother ⟨Database.countOtherReferences_eq_zero.mp hzero, hl⟩
  · rfl

/-- What other rows name stays on disk. -/
theorem bytesAt_afterDelete {g : StoredFile} (hdist : DistinctFiles h w)
    (hrow : w.db.files.find (b, k) = some file) (ht : t.fs = afterDelete h b k file.filePath w)
    (hg : g ∈ w.db.files) (hne : g.ident ≠ (b, k)) :
    t.bytesAt h g.filePath = w.bytesAt h g.filePath := by
  apply World.bytesAt_congr
  rw [ht]
  apply fileAt_afterDelete_other
  intro ⟨hsole, hplace⟩
  exact hne (hsole g hg (hdist g hg file (Table.find_mem hrow) hplace))

theorem deleteFile_erased (hw : InOrder sm.host w) (hrow : w.db.files.find (b, k) = some file)
    {x : Result Unit} (hrun : Smooth sm.host (deleteFile b k) w x t) :
    x = .ok () ∧ Erased sm b k file w t := by
  obtain ⟨db, hdb, rfl, ht⟩ := smooth_deleteFile hrow hrun
  obtain ⟨hfiles, -, hkeys⟩ := Database.deleteFileRow_ok hdb
  have hfs : t.fs = afterDelete sm.host b k file.filePath w := by rw [ht]
  have hcache : t.cache = w.cache.invalidateFile b k := by rw [ht]
  have htfiles : t.db.files = w.db.files.erase (b, k) := by rw [ht, ← hfiles]
  refine ⟨rfl, htfiles, ?_, ?_, ?_, fun l hl => ?_, ?_⟩
  · rw [hcache, Cache.getFileMetadata_invalidateFile, if_pos (Cache.SameSlot.refl b k)]
  · rw [hcache, Cache.getFileContent_invalidateFile, if_pos (Cache.SameSlot.refl b k)]
  · constructor
    · intro hnone g hg hpath
      by_contra hne
      rw [← hpath, bytesAt_afterDelete hw.distinct hrow hfs hg hne] at hnone
      have hsome := hw.bytes g hg
      rw [hnone] at hsome
      simp at hsome
    · intro hsole
      simp only [World.bytesAt, hfs, fileAt_afterDelete_sole hsole, ite_self]
  · rw [hfs]
    exact fileAt_afterDelete_other fun hother => hl hother.2
  · intro b' k' hne now
    have hfind : t.db.files.find (b', k') = w.db.files.find (b', k') := by
      rw [htfiles]
      exact Table.find_erase_ne hne
    have hbytes : ∀ g, w.db.files.find (b', k') = some g →
        t.bytesAt sm.host g.filePath = w.bytesAt sm.host g.filePath := by
      intro g hg
      refine bytesAt_afterDelete hw.distinct hrow hfs (Table.find_mem hg) ?_
      rw [Table.find_key hg]
      exact hne
    have hold := hw.cache b' k'
    have hcoherent : Coherent sm.host { t with now := now } b' k' := by
      constructor
      · intro f hf
        simp only [hcache, Cache.getFileMetadata_invalidateFile] at hf
        split at hf
        · simp at hf
        · obtain ⟨g, hg, hrecipe⟩ := hold.metadata f hf
          exact ⟨g, hfind.trans hg, hrecipe⟩
      · intro x hx
        simp only [hcache, Cache.getFileContent_invalidateFile] at hx
        split at hx
        · simp at hx
        · obtain ⟨g, hg, hraw⟩ := hold.content x hx
          exact ⟨g, hfind.trans hg, (hbytes g hg).trans hraw⟩
    have hbefore : Coherent sm.host { w with now := now } b' k' := ⟨hold.metadata, hold.content⟩
    refine Coherent.served_congr hbefore hcoherent ?_ hbytes (fun id => ?_) rfl
    · simp only [hfind]
    · simp only [Database.selectKey, ht, hkeys]

/-- A deletion erases the row it is asked for, and nothing where there is none. -/
theorem delete_alone (hw : InOrder sm.host w) {x : Result Unit}
    (hrun : Smooth sm.host (deleteFile b k) w x t) :
    (∀ file, w.db.files.find (b, k) = some file → x = .ok () ∧ Erased sm b k file w t) ∧
      (w.db.files.find (b, k) = none → x = .error (.notFound b k) ∧ t = w) :=
  ⟨fun _ hrow => deleteFile_erased hw hrow hrun, fun hrow => (smooth_deleteFile_none hrow).mp hrun⟩

/-- Two uploads of one content, the first with an expiry, and one of another content that
expires as well; then time has passed and the cache is empty. -/
def lapsed : World :=
  let upload (k : String) (x : UInt8) (expiresAt : Option Time) (id : Uuid) : Event × Choice :=
    (.storeFile "a" k [x] none { expiresAt := expiresAt } (.error (.io "")), { uuid := id })
  let script := [upload "k1" 120 (some 10) 1, upload "k2" 120 none 2, upload "k3" 121 (some 10) 3,
    (.tick 20, calm)]
  (replay manager script ([], World.empty)).2.cold

theorem lapsed_inOrder : InOrder manager.host lapsed where
  bytes := by decide
  cache b k := ⟨fun f hf => by simp [lapsed, World.cold, Cache.getFileMetadata, Cache.empty] at hf,
    fun x hx => by simp [lapsed, World.cold, Cache.getFileContent, Cache.empty] at hx⟩
  distinct := by
    unfold DistinctFiles
    decide

theorem delete_alone_shared : InOrder manager.host lapsed ∧
    ((deleteFile "a" "k1").eval (exec manager.host) calm lapsed).1 = .ok () ∧
    ∃ file t, lapsed.db.files.find ("a", "k1") = some file ∧ Erased manager "a" "k1" file lapsed t := by
  have hclean : (deleteFile "a" "k1").clean (exec manager.host) Action.Succeeds calm lapsed = true := by
    decide
  have hrow : (lapsed.db.files.find ("a", "k1")).isSome = true := by decide
  obtain ⟨file, hrow⟩ := Option.isSome_iff_exists.mp hrow
  obtain ⟨hx, herased⟩ :=
    (delete_alone lapsed_inOrder (Prog.runsWith_of_clean hclean)).1 file hrow
  exact ⟨lapsed_inOrder, hx, file, _, hrow, herased⟩

/-! ## A list of deletions -/

/-- The rows under `keys` are all the rows that have their file at `l`, and there are some. -/
def Freed (h : Host) (w : World) (keys : List (String × String)) (l : Loc) : Prop :=
  ∃ f ∈ w.db.files, f.ident ∈ keys ∧ l = h.target f.filePath ∧
    ∀ g ∈ w.db.files, g.filePath = f.filePath → g.ident ∈ keys

/-- What the deletion of all the rows under `keys` leaves. -/
structure Removed (h : Host) (keys : List (String × String)) (w t : World) : Prop where
  files : ∀ f, f ∈ t.db.files ↔ f ∈ w.db.files ∧ f.ident ∉ keys
  rows : w.db.files.rows.length = t.db.files.rows.length + keys.length
  freed : ∀ l, Freed h w keys l → t.fs.fileAt l = none
  kept : ∀ l, ¬ Freed h w keys l → t.fs.fileAt l = w.fs.fileAt l

theorem length_erase (hrow : w.db.files.find (b, k) = some file) :
    w.db.files.rows.length = (w.db.files.erase (b, k)).rows.length + 1 := by
  have hsplit := List.length_eq_length_filter_add (l := w.db.files.rows)
    (fun r : StoredFile => decide (r.ident ≠ (b, k)))
  have hone : (w.db.files.rows.filter (fun r => r.ident = (b, k))).length = 1 := by
    rw [Table.filter_key, hrow]
    rfl
  simpa [Table.erase, Table.filter, hone] using hsplit

/-- The references change under the loop: what a later deletion frees may have had an earlier
deleted row as well. -/
theorem Removed.next {keys : List (String × String)} {u : World}
    (hrow : w.db.files.find (b, k) = some file) (hfiles : u.db.files = w.db.files.erase (b, k))
    (hfs : u.fs = afterDelete h b k file.filePath w) (hr : Removed h keys u t) :
    Removed h ((b, k) :: keys) w t := by
  obtain ⟨hfile, hident⟩ := Table.find_eq_some.mp hrow
  have hmem : ∀ g, g ∈ u.db.files ↔ g ∈ w.db.files ∧ g.ident ≠ (b, k) := by
    intro g
    rw [hfiles, Table.mem_erase]
  have hlater : ∀ l, Freed h u keys l → Freed h w ((b, k) :: keys) l := by
    intro l ⟨f, hf, hkey, hl, hall⟩
    refine ⟨f, ((hmem f).mp hf).1, List.mem_cons_of_mem _ hkey, hl, fun g hg hpath => ?_⟩
    by_cases hgb : g.ident = (b, k)
    · exact hgb ▸ List.mem_cons_self
    · exact List.mem_cons_of_mem _ (hall g ((hmem g).mpr ⟨hg, hgb⟩) hpath)
  have hnow : (∀ g ∈ w.db.files, g.filePath = file.filePath → g.ident = (b, k)) →
      Freed h w ((b, k) :: keys) (h.target file.filePath) := by
    intro hsole
    refine ⟨file, hfile, hident ▸ List.mem_cons_self, rfl, fun g hg hpath => ?_⟩
    exact hsole g hg hpath ▸ List.mem_cons_self
  refine ⟨fun f => ?_, ?_, fun l hl => ?_, fun l hl => ?_⟩
  · rw [hr.files, hmem]
    simp only [List.mem_cons, not_or, and_assoc]
  · rw [length_erase hrow, ← hfiles, hr.rows, List.length_cons]
    omega
  · by_cases hu : Freed h u keys l
    · exact hr.freed l hu
    · rw [hr.kept l hu, hfs]
      obtain ⟨f, hf, hkey, rfl, hall⟩ := hl
      -- no later row has the path: this deletion was the last
      have hsole : ∀ g ∈ w.db.files, g.filePath = f.filePath → g.ident = (b, k) := by
        intro g hg hpath
        by_contra hgb
        have hgkeys := (List.mem_cons.mp (hall g hg hpath)).resolve_left hgb
        refine hu ⟨g, (hmem g).mpr ⟨hg, hgb⟩, hgkeys, by rw [hpath], fun g' hg' hpath' => ?_⟩
        obtain ⟨hg', hne⟩ := (hmem g').mp hg'
        exact (List.mem_cons.mp (hall g' hg' (hpath'.trans hpath))).resolve_left hne
      have hsame : f = file := Table.eq_of_key hf hfile ((hsole f hf rfl).trans hident.symm)
      subst hsame
      exact fileAt_afterDelete_sole hsole
  · rw [hr.kept l fun hu => hl (hlater l hu), hfs]
    apply fileAt_afterDelete_other
    intro ⟨hsole, hplace⟩
    exact hl (hplace ▸ hnow hsole)

theorem smooth_sweepFiles {keys : List (String × String)} {x : Result Nat} (hnodup : keys.Nodup)
    (hrows : ∀ p ∈ keys, (w.db.files.find p).isSome = true)
    (hrun : Smooth h (sweepFiles keys) w x t) : x = .ok keys.length ∧ Removed h keys w t := by
  induction keys generalizing w x with
  | nil =>
    obtain ⟨rfl, rfl⟩ := Prog.runsWith_ret.mp hrun
    refine ⟨rfl, fun f => by simp, by simp, fun l hl => ?_, fun l _ => rfl⟩
    obtain ⟨f, -, hkey, -⟩ := hl
    simp at hkey
  | cons p keys ih =>
    obtain ⟨b, k⟩ := p
    obtain ⟨hnew, hnodup⟩ := List.nodup_cons.mp hnodup
    obtain ⟨file, hrow⟩ := Option.isSome_iff_exists.mp (hrows (b, k) List.mem_cons_self)
    simp only [sweepFiles, Prog.bind_eq, Prog.pure_eq] at hrun
    rcases Prog.runsWith_bind.mp hrun with ⟨e, he, -⟩ | ⟨r, u, hdelete, hrest⟩
    · obtain ⟨y, hy, -⟩ := Prog.runsWith_attempt.mp he
      simp at hy
    · obtain ⟨y, hy, hdelete⟩ := Prog.runsWith_attempt.mp hdelete
      obtain rfl := Except.ok.inj hy
      obtain ⟨db, hdb, rfl, hu⟩ := smooth_deleteFile hrow hdelete
      obtain ⟨hfiles, -, -⟩ := Database.deleteFileRow_ok hdb
      have hufiles : u.db.files = w.db.files.erase (b, k) := by rw [hu, ← hfiles]
      have hurows : ∀ q ∈ keys, (u.db.files.find q).isSome = true := by
        intro q hq
        have hne : q ≠ (b, k) := fun hsame => hnew (hsame ▸ hq)
        rw [hufiles, Table.find_erase_ne hne]
        exact hrows q (List.mem_cons_of_mem _ hq)
      rcases Prog.runsWith_bind.mp hrest with ⟨e, he, rfl⟩ | ⟨n, v, hsweep, hret⟩
      · have hno := (ih hnodup hurows he).1
        simp at hno
      · obtain ⟨rfl, rfl⟩ := Prog.runsWith_ret.mp hret
        obtain ⟨hn, hremoved⟩ := ih hnodup hurows hsweep
        obtain rfl := Except.ok.inj hn
        exact ⟨rfl, hremoved.next hrow hufiles (by rw [hu])⟩

theorem nodup_selectExpired (db : Database) (now : Time) (rank : StoredFile → Nat) :
    (db.selectExpired now rank).Nodup := by
  have hperm : (db.selectExpired now rank).Perm
      ((db.files.rows.filter (Database.expired now)).map StoredFile.ident) :=
    (List.perm_insertionSort _ _).map _
  exact hperm.nodup_iff.mpr (db.files.keyed.sublist (List.filter_sublist.map _))

/-- A sweep removes the expired rows, all of them and no others. -/
theorem sweep_alone (hdist : DistinctFiles h w) {x : Result Nat}
    (hrun : Smooth h sweepExpiredFiles w x t) :
    Swept h w.now w t ∧ ∃ n, x = .ok n ∧ w.db.files.rows.length = t.db.files.rows.length + n := by
  simp only [sweepExpiredFiles, step_eq, Prog.bind_eq, Prog.act_bind, Prog.ret_bind] at hrun
  obtain ⟨rank, hrun⟩ := smooth_selectExpired.mp hrun
  rw [ofSqlx_ok, Prog.ret_bind] at hrun
  have hrows : ∀ p ∈ w.db.selectExpired w.now rank, (w.db.files.find p).isSome = true := by
    intro ⟨b, k⟩ hp
    obtain ⟨f, hf, -⟩ := Database.mem_selectExpired.mp hp
    rw [hf]
    rfl
  obtain ⟨hx, hremoved⟩ := smooth_sweepFiles (nodup_selectExpired _ _ _) hrows hrun
  have hkey : ∀ f ∈ w.db.files, f.ident ∈ w.db.selectExpired w.now rank ↔
      Database.expired w.now f = true := by
    intro f hf
    rw [show f.ident = (f.bucket, f.key) from rfl, Database.mem_selectExpired]
    constructor
    · intro ⟨g, hg, hexp⟩
      rwa [Table.eq_of_key hf (Table.find_mem hg) (Table.find_key hg).symm]
    · intro hexp
      exact ⟨f, Table.find_self hf, hexp⟩
  refine ⟨⟨fun f => ?_, fun f hf => ?_, fun f hf hnone => ?_⟩, _, hx, hremoved.rows⟩
  · rw [hremoved.files]
    refine and_congr_right fun hf => ?_
    rw [hkey f hf]
    unfold Database.expired
    cases f.expiresAt with
    | none => simp
    | some time => simp
  · obtain ⟨hf, hlive⟩ := (hremoved.files f).mp hf
    refine World.bytesAt_congr (hremoved.kept _ fun ⟨g, hg, _, hplace, hall⟩ => ?_)
    exact hlive (hall f hf (hdist f hf g hg hplace))
  · have hfreed : Freed h w (w.db.selectExpired w.now rank) (h.target f.filePath) := by
      have hgone : ∀ g ∈ w.db.files, g.filePath = f.filePath →
          g.ident ∈ w.db.selectExpired w.now rank := by
        intro g hg hpath
        by_contra hlive
        exact hnone g ((hremoved.files g).mpr ⟨hg, hlive⟩) hpath
      exact ⟨f, hf, hgone f hf rfl, rfl, hgone⟩
    simp only [World.bytesAt, hremoved.freed _ hfreed, ite_self]

theorem sweep_alone_shared :
    ((sweepExpiredFiles).eval (exec manager.host) calm lapsed).1 = .ok 2 ∧
    ∃ t, Swept manager.host lapsed.now lapsed t := by
  have hclean : sweepExpiredFiles.clean (exec manager.host) Action.Succeeds calm lapsed = true := by
    decide
  obtain ⟨hswept, -⟩ := sweep_alone lapsed_inOrder.distinct (Prog.runsWith_of_clean hclean)
  exact ⟨by decide, _, hswept⟩

end LocalStorage.Proofs.Erasures
