import LocalStorage.Triggers
import LocalStorage.Lib.Views
import LocalStorage.Sample

namespace LocalStorage.Proofs.Statistics
open Lib Database

/-! # The statistics row of a bucket against its files -/

/-- The counts of a statistics row are those of the rows. -/
def Agrees (s : BucketStats) (rows : List StoredFile) : Prop :=
  s.totalFiles = rows.length ∧ s.totalSize = (rows.map (·.fileSize)).sum ∧
    s.compressedFiles = (rows.filter (·.compressed)).length ∧
    s.encryptedFiles = (rows.filter (·.encrypted)).length

/-- Every bucket's statistics agree with its rows; a bucket that has none has zero counts
or no statistics. -/
def Current (db : Database) : Prop :=
  Agreeing StoredFile.bucket Agrees db.files.rows db.storageStats

/-- No bucket is left by all its rows, and none is left by a row without another one being
put there by the same statement. -/
def LeavesRows (db : Database) : FileStatement → Prop
  | .insert _ => True
  | .saveFile _ => True
  | .update chosen change => ∀ f ∈ db.files.rows, chosen f = true →
      ∃ g ∈ db.files.rows, chosen g = true ∧ (change g).bucket = f.bucket
  | .updateAccess _ _ => True
  | .delete chosen => ∀ f ∈ db.files.rows, chosen f = true →
      ∃ g ∈ db.files.rows, chosen g = false ∧ g.bucket = f.bucket
  | .deleteBucket name => name ∈ db.buckets → ∀ f ∈ db.files.rows, f.bucket ≠ name

theorem statsOf_agrees (rows : List StoredFile) : Agrees (statsOf rows) rows := ⟨rfl, rfl, rfl, rfl⟩

theorem Agrees.length {s : BucketStats} {l l' : List StoredFile} (h : Agrees s l)
    (h' : Agrees s l') : l.length = l'.length := by
  have := h.1.symm.trans h'.1
  omega

/-! ## What the triggers leave -/

variable {db db' : Database}

theorem refreshStats_view {b : String} (h : db.refreshStats b = .ok db') :
    db'.files = db.files ∧ db'.storageStats =
      refresh StoredFile.bucket statsOf db.files.rows db.storageStats b := by
  refine ⟨(refreshStats_ok h).1, ?_⟩
  simp only [refreshStats] at h
  split at h
  · rename_i hnil
    simp only [Except.ok.injEq] at h
    subst h
    simp only [refresh, members, hnil, ↓reduceIte]
  · rename_i hne
    simp only [except_bind_ok, Except.ok.injEq] at h
    obtain ⟨-, -, -, -, -, -, rfl⟩ := h
    funext b'
    by_cases hb : b' = b
    · subst hb
      simp [refresh, members, hne]
    · simp [hb, refresh_ne hb]

theorem fireTriggers_view {affected : List StoredFile} (h : db.fireTriggers affected = .ok db') :
    db'.files = db.files ∧ db'.storageStats =
      (affected.map (·.bucket)).foldl (refresh StoredFile.bucket statsOf db.files.rows)
        db.storageStats := by
  induction affected generalizing db with
  | nil =>
    simp only [fireTriggers, List.foldlM_nil, pure, Except.pure, Except.ok.injEq] at h
    simp [h]
  | cons f affected ih =>
    simp only [fireTriggers, List.foldlM_cons] at h
    obtain ⟨u, hu, h⟩ := except_bind_ok.mp h
    obtain ⟨hfiles, hstats⟩ := refreshStats_view hu
    obtain ⟨hfiles', hstats'⟩ := ih h
    refine ⟨hfiles'.trans hfiles, ?_⟩
    rw [hstats', hstats, hfiles, List.map_cons, List.foldl_cons]

theorem replaceFiles_ok {rows written : List StoredFile} (h : db.replaceFiles rows written = .ok db') :
    db'.files.rows = rows ∧ db'.storageStats = db.storageStats := by
  simp only [replaceFiles, except_bind_ok] at h
  obtain ⟨-, -, -, -, -, -, -, -, h⟩ := h
  split at h
  · simp only [Except.ok.injEq] at h
    subst h
    exact ⟨rfl, rfl⟩
  · simp at h

/-! ## Rows that go -/

section
variable {rows : List StoredFile} {chosen : StoredFile → Bool} {b : String}

theorem mem_affected :
    b ∈ (rows.filter chosen).map (·.bucket) ↔ ∃ f ∈ rows, chosen f = true ∧ f.bucket = b := by
  simp [and_assoc]

/-- A bucket none of whose rows was chosen keeps them all. -/
theorem members_unchosen (h : ∀ f ∈ rows, chosen f = true → f.bucket ≠ b) :
    members StoredFile.bucket (rows.filter (fun f => !chosen f)) b =
      members StoredFile.bucket rows b := by
  rw [members, members, List.filter_filter]
  apply List.filter_congr
  intro f hf
  cases hc : chosen f with
  | false => simp
  | true => simp [h f hf hc]

/-- A bucket with a chosen row has fewer unchosen ones. -/
theorem members_unchosen_lt {f : StoredFile} (hf : f ∈ rows) (hc : chosen f = true) :
    (members StoredFile.bucket (rows.filter (fun f => !chosen f)) f.bucket).length <
      (members StoredFile.bucket rows f.bucket).length := by
  rw [members, List.filter_comm, ← members, List.length_filter_lt_length_iff_exists]
  exact ⟨f, mem_members.mpr ⟨hf, rfl⟩, by simp [hc]⟩

end

/-- After a removal the statistics are current exactly when every bucket that lost a row
still has one. -/
theorem current_removed_iff {chosen : StoredFile → Bool} (h : Current db)
    (hrows : db'.files.rows = db.files.rows.filter (fun f => !chosen f))
    (hstats : db'.storageStats = ((db.files.rows.filter chosen).map (·.bucket)).foldl
      (refresh StoredFile.bucket statsOf db'.files.rows) db.storageStats) :
    Current db' ↔ ∀ f ∈ db.files.rows, chosen f = true →
      ∃ g ∈ db.files.rows, chosen g = false ∧ g.bucket = f.bucket := by
  unfold Current
  rw [hstats]
  constructor
  · intro hnew f hf hc
    by_contra hnone
    push Not at hnone
    have hempty : members StoredFile.bucket db'.files.rows f.bucket = [] := by
      rw [members_eq_nil, hrows]
      intro g hg
      obtain ⟨hg, hgc⟩ := List.mem_filter.mp hg
      exact hnone g hg (by simpa using hgc)
    have hlost := members_unchosen_lt hf hc
    rw [← hrows] at hlost
    have hmem : f ∈ members StoredFile.bucket db.files.rows f.bucket := mem_members.mpr ⟨hf, rfl⟩
    have hsame := h.stale hnew (fun _ _ _ => Agrees.length) (List.ne_nil_of_mem hmem) (.inr hempty)
    omega
  · intro hleft
    refine h.refreshed statsOf_agrees ?_ ?_ ?_
    · intro b hb
      obtain ⟨f, hf, hc, rfl⟩ := mem_affected.mp hb
      obtain ⟨g, hg, hgc, hgb⟩ := hleft f hf hc
      have hmem : g ∈ members StoredFile.bucket db'.files.rows f.bucket := by
        rw [mem_members, hrows]
        exact ⟨List.mem_filter.mpr ⟨hg, by simp [hgc]⟩, hgb⟩
      exact List.ne_nil_of_mem hmem
    · intro b hb hnil
      rwa [hrows, members_unchosen fun f hf hc hfb => hb (mem_affected.mpr ⟨f, hf, hc, hfb⟩)]
    · intro b hb s hs
      rwa [hrows, members_unchosen fun f hf hc hfb => hb (mem_affected.mpr ⟨f, hf, hc, hfb⟩)]

/-! ## Rows that change -/

/-- In a bucket where no changed row arrives, the unchosen rows are what is left. -/
theorem members_changed {rows : List StoredFile} {chosen : StoredFile → Bool}
    {change : StoredFile → StoredFile} {b : String}
    (h : ∀ f ∈ rows, chosen f = true → (change f).bucket ≠ b) :
    members StoredFile.bucket (changedRows chosen change rows) b =
      members StoredFile.bucket (rows.filter (fun f => !chosen f)) b := by
  induction rows with
  | nil => rfl
  | cons f rows ih =>
    have hrest := ih fun g hg => h g (List.mem_cons_of_mem _ hg)
    simp only [changedRows, members] at hrest
    cases hc : chosen f with
    | true =>
      have hb : (change f).bucket ≠ b := h f (by simp) hc
      simp [changedRows, members, hc, hb, hrest]
    | false => simp [changedRows, members, hc, List.filter_cons, hrest]

/-- After an update the statistics are current exactly when every bucket that a row was
changed in has a changed row now. -/
theorem current_changed_iff {chosen : StoredFile → Bool} {change : StoredFile → StoredFile}
    (h : Current db) (hrows : db'.files.rows = changedRows chosen change db.files.rows)
    (hstats : db'.storageStats = (((db.files.rows.filter chosen).map change).map (·.bucket)).foldl
      (refresh StoredFile.bucket statsOf db'.files.rows) db.storageStats) :
    Current db' ↔ ∀ f ∈ db.files.rows, chosen f = true →
      ∃ g ∈ db.files.rows, chosen g = true ∧ (change g).bucket = f.bucket := by
  have hin : ∀ b, b ∈ ((db.files.rows.filter chosen).map change).map (·.bucket) ↔
      ∃ g ∈ db.files.rows, chosen g = true ∧ (change g).bucket = b := by
    intro b
    simp [and_assoc]
  have harrive : ∀ b, b ∉ ((db.files.rows.filter chosen).map change).map (·.bucket) →
      ∀ f ∈ db.files.rows, chosen f = true → (change f).bucket ≠ b := by
    intro b hb f hf hc hfb
    exact hb ((hin b).mpr ⟨f, hf, hc, hfb⟩)
  unfold Current
  rw [hstats]
  constructor
  · intro hnew f hf hc
    by_contra hnone
    have hout : f.bucket ∉ ((db.files.rows.filter chosen).map change).map (·.bucket) := by
      rwa [hin]
    have hlost := members_unchosen_lt hf hc
    rw [← members_changed (harrive _ hout), ← hrows] at hlost
    have hmem : f ∈ members StoredFile.bucket db.files.rows f.bucket := mem_members.mpr ⟨hf, rfl⟩
    have hsame := h.stale hnew (fun _ _ _ => Agrees.length) (List.ne_nil_of_mem hmem) (.inl hout)
    omega
  · intro hleft
    have hsame : ∀ b, b ∉ ((db.files.rows.filter chosen).map change).map (·.bucket) →
        members StoredFile.bucket db'.files.rows b = members StoredFile.bucket db.files.rows b := by
      intro b hb
      rw [hrows, members_changed (harrive b hb), members_unchosen]
      rintro f hf hc rfl
      exact hb ((hin _).mpr (hleft f hf hc))
    refine h.refreshed statsOf_agrees ?_ (fun b hb hnil => (hsame b hb).trans hnil)
      fun b hb s hs => (hsame b hb).symm ▸ hs
    intro b hb
    obtain ⟨g, hg, hc, rfl⟩ := (hin b).mp hb
    have hmem : change g ∈ members StoredFile.bucket db'.files.rows (change g).bucket := by
      rw [mem_members, hrows, changedRows, List.mem_map]
      exact ⟨⟨g, hg, by simp [hc]⟩, rfl⟩
    exact List.ne_nil_of_mem hmem

/-! ## Rows that are put in place -/

theorem current_inserted {new : List StoredFile} (h : Current db)
    (hrows : db'.files.rows = db.files.rows ++ new)
    (hstats : db'.storageStats = (new.map (·.bucket)).foldl
      (refresh StoredFile.bucket statsOf db'.files.rows) db.storageStats) : Current db' := by
  have hsame : ∀ b, b ∉ new.map (·.bucket) →
      members StoredFile.bucket db'.files.rows b = members StoredFile.bucket db.files.rows b := by
    intro b hb
    have hnone : members StoredFile.bucket new b = [] := by
      rw [members_eq_nil]
      exact fun f hf hfb => hb (List.mem_map.mpr ⟨f, hf, hfb⟩)
    simp only [members] at hnone
    simp only [hrows, members, List.filter_append, hnone, List.append_nil]
  unfold Current
  rw [hstats]
  refine h.refreshed statsOf_agrees ?_ (fun b hb hnil => (hsame b hb).trans hnil)
    fun b hb s hs => (hsame b hb).symm ▸ hs
  intro b hb
  obtain ⟨f, hf, rfl⟩ := List.mem_map.mp hb
  have hmem : f ∈ members StoredFile.bucket db'.files.rows f.bucket := by
    rw [mem_members, hrows]
    exact ⟨List.mem_append_right _ hf, rfl⟩
  exact List.ne_nil_of_mem hmem

theorem upsertFile_view {f : StoredFile} (h : db.upsertFile f = .ok db') :
    db'.files = db.files.put (mergeRow (db.files.find f.ident) f) ∧
      db'.storageStats =
        refresh StoredFile.bucket statsOf db'.files.rows db.storageStats f.bucket := by
  refine ⟨(upsertFile_ok h).1, ?_⟩
  unfold upsertFile at h
  simp only [except_bind_ok] at h
  obtain ⟨-, -, h⟩ := h
  split at h
  · simp [bind, Except.bind] at h
  · simp only [except_bind_ok] at h
    obtain ⟨-, -, -, -, h⟩ := h
    obtain ⟨hfiles, hstats⟩ := refreshStats_view h
    rw [hstats, hfiles]

/-- The rows of the other buckets do not notice a row that goes. -/
theorem members_erase_ne {t : Table StoredFile.ident} {b b' k : String} (hb : b' ≠ b) :
    members StoredFile.bucket (t.erase (b, k)).rows b' = members StoredFile.bucket t.rows b' := by
  simp only [members, Table.erase, Table.filter, List.filter_filter]
  apply List.filter_congr
  intro g _
  by_cases hg : g.bucket = b'
  · have hi : g.ident ≠ (b, k) := fun h => hb (hg.symm.trans (congrArg Prod.fst h))
    simp [hg, hi]
  · simp [hg]

theorem members_put_ne {t : Table StoredFile.ident} {r : StoredFile} {b : String}
    (hb : b ≠ r.bucket) :
    members StoredFile.bucket (t.put r).rows b = members StoredFile.bucket t.rows b := by
  have hrest := members_erase_ne (t := t) (k := r.key) hb
  have hnone : [r].filter (fun f => f.bucket = b) = [] := by simp [hb.symm]
  simp only [members, Table.put, List.filter_append, hnone, List.append_nil]
  exact hrest

theorem current_saved {f : StoredFile} (h : Current db) (hrun : db.upsertFile f = .ok db') :
    Current db' := by
  obtain ⟨hfiles, hstats⟩ := upsertFile_view hrun
  have hsame : ∀ b, b ≠ f.bucket →
      members StoredFile.bucket db'.files.rows b = members StoredFile.bucket db.files.rows b := by
    intro b hb
    rw [hfiles]
    exact members_put_ne (by simpa using hb)
  unfold Current
  rw [hstats]
  refine h.refreshed_one statsOf_agrees ?_
    (fun b hb hnil => (hsame b hb).trans hnil) fun b hb s hs => (hsame b hb).symm ▸ hs
  have hmem : mergeRow (db.files.find f.ident) f ∈
      members StoredFile.bucket db'.files.rows f.bucket := by
    rw [mem_members, hfiles]
    exact ⟨Table.mem_put.mpr (.inl rfl), by simp⟩
  exact List.ne_nil_of_mem hmem

theorem members_touched (id : Uuid) (now : Time) (rows : List StoredFile) (b : String) :
    members StoredFile.bucket (rows.map (touch id now)) b =
      (members StoredFile.bucket rows b).map (touch id now) := by
  simp only [members, List.filter_map, Function.comp_def, touch_bucket]

theorem Agrees.touched {s : BucketStats} {rows : List StoredFile} (h : Agrees s rows) (id : Uuid)
    (now : Time) : Agrees s (rows.map (touch id now)) := by
  obtain ⟨hfiles, hsize, hcompressed, hencrypted⟩ := h
  refine ⟨by simpa using hfiles, ?_, ?_, ?_⟩
  · simpa only [List.map_map, Function.comp_def, touch_fileSize] using hsize
  · simpa only [List.filter_map, Function.comp_def, touch_compressed,
      List.length_map] using hcompressed
  · simpa only [List.filter_map, Function.comp_def, touch_encrypted,
      List.length_map] using hencrypted

theorem current_accessed {id : Uuid} {now : Time} (h : Current db)
    (hrun : db.updateAccess id now = .ok db') : Current db' := by
  unfold updateAccess at hrun
  split at hrun
  · simp only [Except.ok.injEq] at hrun
    exact hrun ▸ h
  · rename_i f hfind
    obtain ⟨hfiles, hstats⟩ := refreshStats_view hrun
    have hrows : db'.files.rows = db.files.rows.map (touch id now) := by
      rw [hfiles]
      rfl
    have hf := List.mem_of_find?_eq_some hfind
    unfold Current
    rw [hstats, ← hfiles]
    refine h.refreshed_one statsOf_agrees ?_ ?_ ?_
    · rw [hrows, members_touched]
      have hmem : f ∈ members StoredFile.bucket db.files.rows f.bucket := mem_members.mpr ⟨hf, rfl⟩
      exact List.ne_nil_of_mem (List.mem_map_of_mem hmem)
    · intro b hb hnil
      rw [hrows, members_touched, hnil, List.map_nil]
    · intro b hb s hs
      rw [hrows, members_touched]
      exact hs.touched id now

/-! ## Every statement -/

/-- A committed statement keeps the statistics current exactly when it leaves rows wherever
it takes some. -/
theorem current_statement_iff {st : FileStatement} (h : Current db) (hrun : db.run st = .ok db') :
    Current db' ↔ LeavesRows db st := by
  cases st with
  | insert new =>
    obtain ⟨u, hu, hfire⟩ := except_bind_ok.mp hrun
    obtain ⟨hrows, hstats⟩ := replaceFiles_ok hu
    obtain ⟨hfiles, hview⟩ := fireTriggers_view hfire
    refine iff_of_true (current_inserted h (hfiles ▸ hrows) ?_) trivial
    rw [hview, hstats, hfiles]
  | saveFile f => exact iff_of_true (current_saved h hrun) trivial
  | update chosen change =>
    obtain ⟨u, hu, hfire⟩ := except_bind_ok.mp hrun
    obtain ⟨hrows, hstats⟩ := replaceFiles_ok hu
    obtain ⟨hfiles, hview⟩ := fireTriggers_view hfire
    apply current_changed_iff h (hfiles ▸ hrows)
    rw [hview, hstats, hfiles]
  | updateAccess id now => exact iff_of_true (current_accessed h hrun) trivial
  | delete chosen =>
    obtain ⟨hfiles, hview⟩ := fireTriggers_view hrun
    apply current_removed_iff h (by rw [hfiles]; rfl)
    rw [hview, hfiles]
  | deleteBucket name =>
    simp only [run] at hrun
    split at hrun
    · rename_i hin
      have hname : name ∈ db.buckets := by simpa using hin
      obtain ⟨hfiles, hview⟩ := fireTriggers_view hrun
      have hrows : db'.files.rows =
          db.files.rows.filter (fun f => !(decide (f.bucket = name))) := by
        rw [hfiles]
        simp [Table.filter]
      rw [current_removed_iff h hrows (by rw [hview, hfiles])]
      constructor
      · intro hleft _ f hf hb
        obtain ⟨g, -, hg, hgb⟩ := hleft f hf (by simpa using hb)
        exact absurd (hgb.trans hb) (by simpa using hg)
      · intro hnone f hf hb
        exact absurd (by simpa using hb) (hnone hname f hf)
    · rename_i hout
      simp only [Except.ok.injEq] at hrun
      subst hrun
      exact iff_of_true h fun hname => absurd (by simpa using hname) hout

/-! ## Runs of statements -/

/-- The statement is committed. -/
def Committed (st : FileStatement) (db db' : Database) : Prop := db.run st = .ok db'

/-- The statement is committed and the statistics are current after it. -/
def CommittedCurrent (st : FileStatement) (db db' : Database) : Prop :=
  Committed st db db' ∧ Current db'

def Always (_ : Database) (_ : FileStatement) : Prop := True

/-- Through a run of committed statements the statistics are current after each one exactly
when each one leaves rows wherever it takes some. -/
theorem statistics_current_iff {sts : List FileStatement} (hstart : Current db) :
    Run CommittedCurrent Always db sts db' ↔ Run Committed LeavesRows db sts db' := by
  constructor
  · intro hrun
    have hboth : Run Committed LeavesRows db sts db' ∧ Current db' := by
      induction hrun with
      | nil => exact ⟨.nil db, hstart⟩
      | snoc _ _ hstep ih =>
        obtain ⟨hst, hcur⟩ := hstep
        exact ⟨.snoc ih.1 ((current_statement_iff ih.2 hst).mp hcur) hst, hcur⟩
    exact hboth.1
  · intro hrun
    have hboth : Run CommittedCurrent Always db sts db' ∧ Current db' := by
      induction hrun with
      | nil => exact ⟨.nil db, hstart⟩
      | snoc _ hleft hst ih =>
        have hcur := (current_statement_iff ih.2 hst).mpr hleft
        exact ⟨.snoc ih.1 trivial ⟨hst, hcur⟩, hcur⟩
    exact hboth.1

/-! ## The statements of the service -/

/-- A deletion of the service is a `DELETE` of one row. -/
theorem run_deleteFileRow {b k : String} (h : db.deleteFileRow b k = .ok db') :
    db.run (.delete (fun f => f.ident = (b, k))) = .ok db' := by
  have hrows : db.files.filter (fun f => !decide (f.ident = (b, k))) = db.files.erase (b, k) := by
    simp [Table.erase]
  simp only [run, hrows, Table.filter_key]
  unfold deleteFileRow at h
  split at h
  · rename_i hnone
    simp only [Except.ok.injEq] at h
    rw [hnone, Table.erase_of_find_none hnone]
    exact congrArg Except.ok h
  · rename_i f hf
    simp only [hf, Option.toList_some, fireTriggers, List.foldlM_cons, List.foldlM_nil,
      (find_names hf).1, h]
    rfl

/-- With its rows gone a bucket has nothing to recompute. -/
theorem fireTriggers_emptied {affected : List StoredFile} {name : String}
    (hname : ∀ f ∈ affected, f.bucket = name) (hgone : ∀ f ∈ db.files.rows, f.bucket ≠ name) :
    db.fireTriggers affected = .ok db := by
  have hnone : db.refreshStats name = .ok db := by
    have hrows : db.files.rows.filter (·.bucket = name) = [] := by
      simpa [List.filter_eq_nil_iff] using hgone
    simp [refreshStats, hrows]
  induction affected with
  | nil => rfl
  | cons f affected ih =>
    have hrest := ih fun g hg => hname g (List.mem_cons_of_mem _ hg)
    simp only [fireTriggers, List.foldlM_cons, hname f (by simp), hnone] at hrest ⊢
    exact hrest

/-- A bucket deletion of the service is the `DELETE` that cascades. -/
theorem run_deleteBucketRow {name : String} (h : db.deleteBucketRow name = some db') :
    db.run (.deleteBucket name) = .ok db' := by
  unfold deleteBucketRow at h
  split at h
  · rename_i hin
    simp only [Option.some.injEq] at h
    simp only [run, hin, ↓reduceIte, h]
    refine @fireTriggers_emptied _ _ name ?_ ?_
    · intro f hf
      simpa using (List.mem_filter.mp hf).2
    · subst h
      intro f hf
      simpa using (Table.mem_filter.mp hf).2
  · simp at h

/-! ## A bucket that loses its only file -/

def oneBucket : Database := { Database.empty with buckets := ["a"] }

def onlyRow : StoredFile := Sample.manager.freshFile "a" "k" [120] none {} false 1 [120] false 0 0

theorem oneBucket_current : Current oneBucket := fun _ => rfl

/-- The first file of a bucket is counted. -/
theorem statistics_current_first :
    ∃ db, Run CommittedCurrent Always oneBucket [.saveFile onlyRow] db := by
  have hok : (oneBucket.run (.saveFile onlyRow)).isOk = true := by decide
  cases hrun : oneBucket.run (.saveFile onlyRow) with
  | error e => simp [hrun, Except.isOk, Except.toBool] at hok
  | ok db =>
    exact ⟨db, (statistics_current_iff oneBucket_current).mpr
      (.snoc (.nil oneBucket) trivial hrun)⟩

/-- When the only file of a bucket is deleted the bucket keeps the statistics it had. -/
theorem last_delete_leaves_statistics :
    ∃ db, Run Committed Always oneBucket
      [.saveFile onlyRow, .delete (fun f => f.ident = ("a", "k"))] db ∧
      db.files.rows = [] ∧ (db.storageStats "a").map (·.totalFiles) = some 1 ∧ ¬ Current db := by
  have hok : (oneBucket.run (.saveFile onlyRow)).isOk = true := by decide
  cases hrun : oneBucket.run (.saveFile onlyRow) with
  | error e => simp [hrun, Except.isOk, Except.toBool] at hok
  | ok u =>
    obtain ⟨hfiles, hstats⟩ := upsertFile_view hrun
    have hrow : u.files.rows = [onlyRow] := by
      rw [hfiles]
      rfl
    let v : Database := { u with files := u.files.filter (fun f => !decide (f.ident = ("a", "k"))) }
    have hgone : v.files.rows = [] := by
      simp only [v, Table.filter, hrow]
      decide
    have hdelete : u.run (.delete (fun f => f.ident = ("a", "k"))) = .ok v := by
      simp only [run]
      refine @fireTriggers_emptied v _ "a" ?_ ?_
      · rw [hrow]
        decide
      · rw [hgone]
        decide
    have hcounted : v.storageStats "a" = some (statsOf [onlyRow]) := by
      simp only [v, hstats, hrow]
      exact refresh_self (by decide)
    refine ⟨v, .snoc (.snoc (.nil oneBucket) trivial hrun) trivial hdelete, hgone, ?_, ?_⟩
    · rw [hcounted]
      rfl
    · intro hcur
      have hstale := hcur "a"
      rw [hcounted] at hstale
      have hlength := hstale.length (statsOf_agrees [onlyRow])
      rw [hgone] at hlength
      simp [members] at hlength

end LocalStorage.Proofs.Statistics
