import LocalStorage.Proofs.Orphans

namespace LocalStorage.Proofs.DeleteOverlap
open Lib StorageManager Orphans

/-! # Deletions of the keys of one file at the same time -/

section Overlaps
variable {ι : Type}

def calls (key : ι → String × String) (i : ι) : Op Unit :=
  deleteFile (key i).1 (key i).2

def deletes (p : String × String) (e : ι × Taken Response) : Bool :=
  match e.2.1 with
  | .deleteFileRow b k => (b, k) = p
  | _ => false

def counts [DecidableEq ι] (i : ι) (e : ι × Taken Response) : Bool :=
  decide (e.1 = i) && match e.2.1 with
    | .countOtherReferences _ _ _ => true
    | _ => false

/-- The call counts the references when the rows of all the other keys are deleted. -/
def CountsLast [DecidableEq ι] (key : ι → String × String) (tr : List (ι × Taken Response))
    (i : ι) : Prop :=
  ∀ j, key j ≠ key i → before (deletes (key j)) (counts i) tr = true

/-- The file is gone, and no row had its path when it went. -/
structure Reclaimed (h : Host) (path : String) (w : World) (tr : List (ι × Taken Response))
    (t : World) : Prop where
  gone : t.bytesAt h path = none
  last : ∀ a e c u v, tr = a ++ e :: c → Steps (unlinking h) w (a.map Prod.snd) u →
    Takes (unlinking h) u e.2 v → Steps (unlinking h) v (c.map Prod.snd) t →
    v.bytesAt h path ≠ u.bytesAt h path → ∀ f ∈ u.db.files, f.filePath ≠ path

/-- The keys are those of the rows with the path, and all the calls succeed. -/
structure Overlap [DecidableEq ι] (h : Host) (path : String) (key : ι → String × String) (w : World)
    (tr : List (ι × Taken Response)) (t : World) : Prop where
  run : Interleaving (unlinking h) (calls key) w tr (fun _ => .ok ()) t
  keys : ∀ p, (∃ i, key i = p) ↔ ∃ f ∈ w.db.files, f.ident = p ∧ f.filePath = path

variable [DecidableEq ι] {h : Host} {path : String} {key : ι → String × String} {w t u v : World}
  {tr a c : List (ι × Taken Response)} {i j : ι}

/-! ## Rows -/

theorem takes_rows {b k : String} {st : Taken Response} (hst : DeleteStep b k st.1)
    (huv : Takes (unlinking h) u st v) {f : StoredFile} (hf : f ∈ v.db.files) : f ∈ u.db.files := by
  obtain ⟨act, r⟩ := st
  refine takes_files_subset (takes_offered huv) (fun g hg => ?_) ?_ hf
  · cases hst <;> simp at hg
  · cases hst <;> rfl

namespace Overlap

theorem step (ho : Overlap h path key w tr t) {e : ι × Taken Response} (he : e ∈ tr) :
    DeleteStep (key e.1).1 (key e.1).2 e.2.1 :=
  (ho.run.thread e.1).used deleteFile_steps e.2 (mem_project.mpr he)

/-- The rows there are were there before. -/
theorem rows (ho : Overlap h path key w tr t) (ha : ∀ e ∈ a, e ∈ tr)
    (hs : Steps (unlinking h) u (a.map Prod.snd) v) {f : StoredFile} (hf : f ∈ v.db.files) :
    f ∈ u.db.files := by
  by_contra hnot
  refine hs.invariant (I := fun s => f ∉ s.db.files) hnot (fun st hst u v huv hu hv => ?_) hf
  obtain ⟨e, he, rfl⟩ := List.mem_map.mp hst
  exact hu (takes_rows (ho.step (ha e he)) huv hv)

/-- The path a call is given is the shared one. -/
theorem selected (ho : Overlap h path key w tr t) {p : String} (ha : ∀ e ∈ a, e ∈ tr)
    (hs : Steps (unlinking h) w (a.map Prod.snd) u)
    (huv : Takes (unlinking h) u
      ⟨.selectFilePath (key i).1 (key i).2, (.ok (some p) : Query (Option String))⟩ v) :
    p = path := by
  have hsel := (takes_selectFilePath (takes_offered huv)).symm
  obtain ⟨f, hf, rfl⟩ := Option.map_eq_some_iff.mp hsel
  obtain ⟨hmem, hident⟩ := Table.find_eq_some.mp hf
  obtain ⟨g, hg, hgi, hgp⟩ := (ho.keys (key i)).mp ⟨i, rfl⟩
  have hfg : f = g := Table.eq_of_key (ho.rows ha hs hmem) hg (hident.trans hgi.symm)
  rw [hfg, hgp]

/-- What a call asks and hears. -/
theorem call (ho : Overlap h path key w tr t) (i : ι) : ∃ n rest, project i tr =
      [⟨.selectFilePath (key i).1 (key i).2, (.ok (some path) : Query (Option String))⟩,
        ⟨.countOtherReferences path (key i).1 (key i).2, (.ok n : Query Nat)⟩,
        ⟨.deleteFileRow (key i).1 (key i).2, (.ok () : Query Unit)⟩] ++ rest ∧
    (n ≠ 0 ∧ (∃ r, rest = [⟨.invalidateFile (key i).1 (key i).2, r⟩]) ∨
      n = 0 ∧ ∃ r' r, rest = [⟨.removeFile path, r'⟩, ⟨.invalidateFile (key i).1 (key i).2, r⟩]) := by
  have hpath : ∀ {p : String} {l : List (Taken Response)}, project i tr =
      ⟨.selectFilePath (key i).1 (key i).2, (.ok (some p) : Query (Option String))⟩ :: l →
      p = path := by
    intro p l hl
    obtain ⟨a, c, rfl, -, -⟩ := project_split (show project i tr = [] ++ _ :: _ from hl)
    obtain ⟨u, v, hu, huv, -⟩ := ho.run.steps.at_split
    exact ho.selected (fun e he => List.mem_append_left _ he) hu huv
  have hdialogue := deleteFile_dialogue (ho.run.thread i)
  generalize hl : project i tr = l at hdialogue hpath ⊢
  cases hdialogue with
  | kept p n r hn =>
    obtain rfl := hpath rfl
    exact ⟨n, _, rfl, .inl ⟨hn, r, rfl⟩⟩
  | unlinked p r' r =>
    obtain rfl := hpath rfl
    exact ⟨0, _, rfl, .inr ⟨rfl, r', r, rfl⟩⟩

/-- The row a call deletes is gone from then on. -/
theorem deleted (ho : Overlap h path key w tr t) (ha : ∀ e ∈ a, e ∈ tr)
    (hs : Steps (unlinking h) u (a.map Prod.snd) v) {e : ι × Taken Response} (he : e ∈ a)
    (hdel : deletes (key j) e = true) : v.db.files.find (key j) = none := by
  obtain ⟨i, st⟩ := e
  obtain ⟨act, r⟩ := st
  have hst : DeleteStep (key i).1 (key i).2 act := ho.step (ha _ he)
  cases hst with
  | deleteFileRow =>
    have hkey : key i = key j := by simpa [deletes] using hdel
    obtain ⟨n, rest, hl, hrest⟩ := ho.call i
    have hok : r = (.ok () : Query Unit) := by
      have hmem := mem_project.mpr (ha _ he)
      rw [hl] at hmem
      obtain ⟨-, r', rfl⟩ | ⟨-, r', r'', rfl⟩ := hrest <;> simpa using hmem
    subst hok
    refine hs.established (I := fun s => s.db.files.find (key j) = none) he (fun u v huv => ?_)
      fun a₁ e' a₂ hsplit _ u v huv hu => ?_
    · rw [← hkey]
      exact takes_deleteFileRow (takes_offered huv)
    · rw [Table.find_eq_none] at hu ⊢
      intro f hf
      have he' : e' ∈ tr := ha e' (by simp [hsplit])
      exact hu f (takes_rows (ho.step he') huv hf)
  | _ => simp [deletes] at hdel

/-- The row of a key stays until it is deleted. -/
theorem undeleted (ho : Overlap h path key w tr t) (ha : ∀ e ∈ a, e ∈ tr)
    (hs : Steps (unlinking h) u (a.map Prod.snd) v) (hnone : ∀ e ∈ a, deletes (key j) e = false) :
    v.db.files.find (key j) = u.db.files.find (key j) := by
  refine hs.keep (fun s => s.db.files.find (key j)) fun st hst u v huv => ?_
  obtain ⟨e, he, rfl⟩ := List.mem_map.mp hst
  have hdel := hnone e he
  obtain ⟨i, act, r⟩ := e
  have hst : DeleteStep (key i).1 (key i).2 act := ho.step (ha _ he)
  cases hst with
  | deleteFileRow =>
    refine takes_deleteFileRow_ne (takes_offered huv) fun heq => ?_
    simp [deletes, ← heq] at hdel
  | _ => exact congrArg (fun s => s.find (key j)) (takes_files (takes_offered huv) rfl rfl)

/-! ## Counts -/

/-- A call counts no other reference exactly when it counts last. -/
theorem counted (ho : Overlap h path key w tr t) {n : Nat} {l : List (Taken Response)}
    (hl : project i tr = ⟨.selectFilePath (key i).1 (key i).2,
        (.ok (some path) : Query (Option String))⟩ ::
      ⟨.countOtherReferences path (key i).1 (key i).2, (.ok n : Query Nat)⟩ :: l)
    (hsole : ∀ st ∈ l, counts i (i, st) = false) : n = 0 ↔ CountsLast key tr i := by
  obtain ⟨a, c, rfl, ha, hc⟩ := project_split (show project i tr = [_] ++ _ :: _ from hl)
  obtain ⟨u, v, hu, huv, -⟩ := ho.run.steps.at_split
  have hleft : ∀ e ∈ a, e ∈ a ++ (i, ⟨.countOtherReferences path (key i).1 (key i).2,
      (.ok n : Query Nat)⟩) :: c := fun e he => List.mem_append_left _ he
  have hother : ∀ (l' : List (ι × Taken Response)), (∀ st ∈ project i l', counts i (i, st) = false) →
      ∀ e ∈ l', counts i e = false := by
    intro l' hl' e he
    obtain ⟨i', st⟩ := e
    by_cases hi : i' = i
    · subst hi
      exact hl' st (mem_project.mpr he)
    · simp [counts, hi]
  have hbefore : ∀ j, before (deletes (key j)) (counts i)
      (a ++ (i, ⟨.countOtherReferences path (key i).1 (key i).2, (.ok n : Query Nat)⟩) :: c) = true ↔
      ∃ e ∈ a, deletes (key j) e = true := fun j =>
    before_sole_iff (hother a (by simp [ha, counts])) (hother c (by rwa [hc])) rfl (by simp [counts])
  have hcount : n = 0 ↔ ∀ f ∈ u.db.files, f.filePath = path → f.ident = key i := by
    rw [takes_countOtherReferences (takes_offered huv), Database.countOtherReferences_eq_zero]
  rw [hcount]
  constructor
  · intro hzero j hj
    rw [hbefore]
    by_contra hnone
    push Not at hnone
    obtain ⟨f, hf, hfj, hfp⟩ := (ho.keys (key j)).mp ⟨j, rfl⟩
    have hkept := ho.undeleted hleft hu fun e he => Bool.eq_false_of_not_eq_true (hnone e he)
    have hself := Table.find_self hf
    rw [show StoredFile.ident f = key j from hfj, ← hkept] at hself
    exact hj (hfj.symm.trans (hzero f (Table.find_mem hself) hfp))
  · intro hlast f hf hfp
    obtain ⟨j, hj⟩ := (ho.keys f.ident).mpr ⟨f, ho.rows hleft hu hf, rfl, hfp⟩
    by_contra hne
    obtain ⟨e, he, hdel⟩ := (hbefore j).mp (hlast j (hj ▸ hne))
    have hnone := ho.deleted hleft hu he hdel
    exact Table.find_eq_none.mp hnone f hf hj.symm

theorem call_counts (ho : Overlap h path key w tr t) (i : ι) :
    (∃ r' : Except IoError Unit, (i, ⟨.removeFile path, r'⟩) ∈ tr) ↔ CountsLast key tr i := by
  obtain ⟨n, rest, hl, hrest⟩ := ho.call i
  rw [← ho.counted hl (by obtain ⟨-, r, rfl⟩ | ⟨-, r', r, rfl⟩ := hrest <;> simp [counts])]
  simp only [← mem_project, hl]
  obtain ⟨hn, r, rfl⟩ | ⟨hn, r', r, rfl⟩ := hrest
  · simp [hn]
  · simp [hn]

/-! ## The file -/

/-- Only a call that unlinks the file changes what is there, and no row has the path then. -/
theorem unlinks_last (ho : Overlap h path key w tr t) {e : ι × Taken Response}
    (htr : tr = a ++ e :: c) (hu : Steps (unlinking h) w (a.map Prod.snd) u)
    (huv : Takes (unlinking h) u e.2 v) (hne : v.bytesAt h path ≠ u.bytesAt h path) :
    ∀ f ∈ u.db.files, f.filePath ≠ path := by
  obtain ⟨i, act, r⟩ := e
  have hmem : (i, ⟨act, r⟩) ∈ tr := by simp [htr]
  have hst : DeleteStep (key i).1 (key i).2 act := ho.step hmem
  cases hst with
  | removeFile p =>
    obtain ⟨n, rest, hl, hrest⟩ := ho.call i
    have hheard := mem_project.mpr hmem
    obtain ⟨-, r'', rfl⟩ | ⟨rfl, r', r'', rfl⟩ := hrest
    · simp [hl] at hheard
    · -- the call has counted no other row, and has deleted its own
      rw [htr, project_append, project_cons_self] at hl
      obtain ⟨hpast, -, -⟩ := split_unique (p := fun st => st.1.writesFile)
        (show _ ++ _ :: _ = [_, _, _] ++ _ :: _ from hl) rfl (by simp [Action.writesFile])
        (by simp [Action.writesFile])
      obtain ⟨a₁, a₂, rfl, -, ha₂⟩ := project_split (show project i a = [_] ++ _ :: _ from hpast)
      obtain ⟨u₁, v₁, hu₁, hcount, hrest⟩ := hu.at_split
      have hafter : ∀ e ∈ a₂, e ∈ tr := fun e he => by simp [htr, he]
      have hzero := (takes_countOtherReferences (takes_offered hcount)).symm
      have hdel : (i, ⟨.deleteFileRow (key i).1 (key i).2, (.ok () : Query Unit)⟩) ∈ a₂ :=
        mem_project.mp (by simp [ha₂])
      intro f hf hfp
      have hown : f.ident = key i := by
        refine Database.countOtherReferences_eq_zero.mp hzero f ?_ hfp
        exact takes_rows (.countOtherReferences path) hcount (ho.rows hafter hrest hf)
      have hnone := ho.deleted (j := i) hafter hrest hdel (by simp [deletes])
      exact Table.find_eq_none.mp hnone f hf hown
  | _ => exact absurd (takes_bytesAt (takes_offered huv) rfl path) hne

/-- The file is gone at the end when a call counted last, and there otherwise. -/
theorem gone_iff (ho : Overlap h path key w tr t) (hbytes : w.bytesAt h path ≠ none) :
    t.bytesAt h path = none ↔ ∃ i, CountsLast key tr i := by
  simp only [← ho.call_counts]
  constructor
  · intro hgone
    by_contra hnone
    push Not at hnone
    refine hbytes ?_
    rw [← hgone]
    refine (ho.run.steps.keep (fun s => s.bytesAt h path) fun st hst u v huv => ?_).symm
    obtain ⟨⟨i, act, r⟩, he, rfl⟩ := List.mem_map.mp hst
    have hstep : DeleteStep (key i).1 (key i).2 act := ho.step he
    cases hstep with
    | removeFile p =>
      obtain ⟨n, rest, hl, hrest⟩ := ho.call i
      have hheard := mem_project.mpr he
      obtain ⟨-, r'', rfl⟩ | ⟨-, r', r'', rfl⟩ := hrest
      · simp [hl] at hheard
      · exact absurd (mem_project.mp (by simp [hl])) (hnone i r')
    | _ => exact takes_bytesAt (takes_offered huv) rfl path
  · rintro ⟨i, r, hun⟩
    refine ho.run.steps.established (I := fun s => s.bytesAt h path = none) hun
      (fun u v huv => takes_unlinked huv) fun a e c htr _ u v huv hu => ?_
    obtain ⟨j, act, r⟩ := e
    have hstep : DeleteStep (key j).1 (key j).2 act := ho.step (e := (j, ⟨act, r⟩)) (by simp [htr])
    cases hstep with
    | removeFile p => exact takes_removeFile_none (takes_offered huv) hu
    | _ => exact (takes_bytesAt (takes_offered huv) rfl path).trans hu

end Overlap

/-- However the deletions of a file's keys overlap, the file goes with its last reference
exactly when one of the calls counts after the rows of the others are deleted. -/
theorem last_reference_iff (ho : Overlap h path key w tr t) (hbytes : w.bytesAt h path ≠ none) :
    Reclaimed h path w tr t ↔ ∃ i, CountsLast key tr i := by
  rw [← ho.gone_iff hbytes]
  constructor
  · intro hr
    exact hr.gone
  · intro hgone
    exact ⟨hgone, fun a e c u v htr hu huv _ hne => ho.unlinks_last htr hu huv hne⟩

end Overlaps

/-! ## Two keys of one file -/

open Sample (manager)

/-- Two keys of one content, and with it of one file. -/
def shared : World :=
  (replay manager [SharedBytes.upload "k1" [120] 1, SharedBytes.upload "k2" [120] 2]
    ([], World.empty)).2

def key : Bool → String × String
  | true => ("a", "k1")
  | false => ("a", "k2")

def woven (schedule : List Bool) :=
  weave (unlinking manager.host) calm schedule (calls key) shared

/-- The second deletion starts when the first is through. -/
def inTurn : List Bool := List.replicate 4 true ++ List.replicate 5 false

/-- Both deletions count before either deletes its row. -/
def bothCount : List Bool :=
  [true, true, false, false] ++ List.replicate 2 true ++ List.replicate 2 false

theorem woven_overlap {schedule : List Bool}
    (hok : ∀ i, ((woven schedule).2.1 i).result.any (·.isOk) = true) :
    Overlap manager.host (manager.getFilePath "a" "k1") key shared (woven schedule).1
      (woven schedule).2.2 := by
  have hown : ∀ i, ∃ f ∈ shared.db.files.rows, f.ident = key i ∧
      f.filePath = manager.getFilePath "a" "k1" := by decide
  have hall : ∀ f ∈ shared.db.files.rows, ∃ i, key i = f.ident := by decide
  obtain ⟨y, hrun⟩ := weave_ok calm schedule hok
  refine ⟨hrun, fun p => ⟨?_, ?_⟩⟩
  · intro ⟨i, hi⟩
    exact hi ▸ hown i
  · intro ⟨f, hf, hident, _⟩
    exact hident ▸ hall f hf

theorem last_reference_in_turn :
    Reclaimed manager.host (manager.getFilePath "a" "k1") shared (woven inTurn).1
      (woven inTurn).2.2 := by
  have hlast : ∀ j, key j ≠ key false →
      before (deletes (key j)) (counts false) (woven inTurn).1 = true := by decide
  exact (last_reference_iff (woven_overlap (by decide)) (by decide)).mpr ⟨false, hlast⟩

/-- Each deletion counts the other's row, so neither unlinks the file, and no row is left. -/
theorem overlapping_deletions_leave_file :
    Overlap manager.host (manager.getFilePath "a" "k1") key shared (woven bothCount).1
        (woven bothCount).2.2 ∧
      shared.bytesAt manager.host (manager.getFilePath "a" "k1") ≠ none ∧
      (woven bothCount).2.2.bytesAt manager.host (manager.getFilePath "a" "k1") = some [120] ∧
      (woven bothCount).2.2.db.files.rows = [] ∧
      ¬ Reclaimed manager.host (manager.getFilePath "a" "k1") shared (woven bothCount).1
        (woven bothCount).2.2 := by
  have hkept : (woven bothCount).2.2.bytesAt manager.host (manager.getFilePath "a" "k1") =
      some [120] := by decide
  refine ⟨woven_overlap (by decide), by decide, hkept, by decide, fun hr => ?_⟩
  have hgone := hr.gone
  rw [hkept] at hgone
  simp at hgone

end LocalStorage.Proofs.DeleteOverlap
