import LocalStorage.Proofs.Answers
import LocalStorage.Proofs.Effects
import LocalStorage.Proofs.Vocabulary
import LocalStorage.Sample

namespace LocalStorage.Proofs.LapsedReads
open Lib Lib.Paths StorageManager

/-! # Reading a key after its row has expired -/

inductive Read where
  | getFile (bucket key : String)
  | getFileInfo (bucket key : String)
  | getFileRangeIfPlain (bucket key : String) (start stop : Nat)
  | getCompressedFileRange (bucket key : String) (start stop : Nat)
  | listFiles (bucket : String) (keyPrefix : Option String) (limit offset : Option Int)
  | searchFiles (bucket : Option String) (query : String) (limit : Option Int)

namespace Read

abbrev Answer : Read → Type
  | getFile _ _ => Bytes × Option String
  | getFileInfo _ _ => FileInfo
  | getFileRangeIfPlain _ _ _ _ => Option (Bytes × String × Nat)
  | getCompressedFileRange _ _ _ _ => Option (Bytes × String × Nat)
  | listFiles _ _ _ _ => List FileInfo
  | searchFiles _ _ _ => List FileInfo

def op (sm : StorageManager) : (r : Read) → Op r.Answer
  | getFile b k => sm.getFile b k
  | getFileInfo b k => StorageManager.getFileInfo b k
  | getFileRangeIfPlain b k start stop => StorageManager.getFileRangeIfPlain b k start stop
  | getCompressedFileRange b k start stop => sm.getCompressedFileRange b k start stop
  | listFiles b p limit offset => StorageManager.listFiles b p limit offset
  | searchFiles b q limit => StorageManager.searchFiles b q limit

/-- The answer holds content or metadata of the key. -/
def Shows (b k : String) : (r : Read) → r.Answer → Prop
  | getFile b' k', _ => (b', k') = (b, k)
  | getFileInfo b' k', _ => (b', k') = (b, k)
  | getFileRangeIfPlain b' k' _ _, y => (b', k') = (b, k) ∧ y.isSome = true
  | getCompressedFileRange b' k' _ _, y => (b', k') = (b, k) ∧ y.isSome = true
  | listFiles _ _ _ _, infos => ∃ i ∈ infos, (i.bucket, i.key) = (b, k)
  | searchFiles _ _ _, infos => ∃ i ∈ infos, (i.bucket, i.key) = (b, k)

end Read

/-- However the read goes in `w`, it answers nothing of the key. -/
def Hides (sm : StorageManager) (b k : String) (w : World) (r : Read) : Prop :=
  ∀ y t, (r.op sm).Runs (exec sm.host) w (.ok y) t → ¬ r.Shows b k y

/-- The key has no row, or one that has expired. -/
def Lapsed (b k : String) (w : World) : Prop :=
  ∀ row, w.db.files.find (b, k) = some row → past w.now row.expiresAt = true

/-- Something is left of the range when it is cut to `total` bytes. -/
def InRange (total start stop : Nat) : Prop := ¬ (total = 0 ∨ min stop (total - 1) < start)

/-- Why a read can still get at the key: `getFile` by a cached record that has not expired,
the range readers by any record they serve, and the listings by the row. -/
def Exposes (sm : StorageManager) (b k : String) (w : World) : Read → Prop
  | .getFile b' k' => (b', k') = (b, k) ∧ ∃ file raw content,
      w.cache.getFileMetadata b k = some file ∧ past w.now file.expiresAt = false ∧
        rawOf sm.host w b k file = some raw ∧ sm.decoded w.db file raw = .ok content
  | .getFileInfo _ _ => False
  | .getFileRangeIfPlain b' k' start stop => (b', k') = (b, k) ∧ ∃ file raw,
      recordOf w b k = some file ∧ file.compressed = false ∧ file.encrypted = false ∧
        InRange (asU64 file.fileSize) start stop ∧ w.bytesAt sm.host file.filePath = some raw ∧
        min stop (asU64 file.fileSize - 1) < raw.length
  | .getCompressedFileRange b' k' start stop => (b', k') = (b, k) ∧ ∃ file raw slice,
      recordOf w b k = some file ∧ file.compressed = true ∧ file.encrypted = false ∧
        InRange (asU64 file.originalSize) start stop ∧
        w.bytesAt sm.host file.filePath = some raw ∧
        CompressionManager.decompressRange sm.lib.toCodecs raw start
          (min stop (asU64 file.originalSize - 1) - start + 1) = .ok (some slice)
  | .listFiles b' p limit offset => ∃ rank files,
      w.db.selectFiles rank b' p (limit.getD 100) (offset.getD 0) = .ok files ∧
        ∃ f ∈ files, f.ident = (b, k)
  | .searchFiles b' q limit => ∃ rank files,
      w.db.searchFiles sm.host.lower rank (b'.getD "") q (limit.getD 100) = .ok files ∧
        ∃ f ∈ files, f.ident = (b, k)

variable {sm : StorageManager} {b k : String} {w u v : World} {file : StoredFile}

/-! ## The readers, one by one -/

section Readers

theorem not_hides {r : Read} {y : r.Answer}
    (hy : ((r.op sm).eval (exec sm.host) calm w).1 = .ok y) (hshows : r.Shows b k y) :
    ¬ Hides sm b k w r :=
  fun hhides => hhides y _ (hy ▸ Prog.eval_runs calm (r.op sm) w) hshows

theorem hides_getFile_iff (h : Lapsed b k w) :
    Hides sm b k w (.getFile b k) ↔ ¬ Exposes sm b k w (.getFile b k) := by
  constructor
  · rintro hhides ⟨-, file, raw, content, hcached, hlive, hraw, hdecoded⟩
    have hresult : readResult sm w b k = .ok (content, some file.contentType) := by
      simp [readResult, recordOf, hcached, hlive, hraw, hdecoded, Except.map]
    rw [← served_eq] at hresult
    exact not_hides (r := .getFile b k) hresult rfl hhides
  · intro hnot y t hrun _
    apply hnot
    have hresult := getFile_ok hrun
    unfold readResult at hresult
    split at hresult
    · simp at hresult
    · rename_i file hrecord
      split at hresult
      · simp at hresult
      · rename_i hlive
        split at hresult
        · simp at hresult
        · rename_i raw hraw
          cases hdecoded : sm.decoded w.db file raw with
          | error e => simp [hdecoded, Except.map] at hresult
          | ok content =>
            refine ⟨rfl, file, raw, content, ?_, by simpa using hlive, hraw, hdecoded⟩
            unfold recordOf at hrecord
            cases hc : w.cache.getFileMetadata b k with
            | some c =>
              rw [hc] at hrecord
              exact hrecord
            | none =>
              rw [hc] at hrecord
              exact absurd (h file hrecord) hlive

/-- `getFileInfo` goes by the row and its expiry. -/
theorem hides_getFileInfo (h : Lapsed b k w) : Hides sm b k w (.getFileInfo b k) := by
  intro y t hrun _
  simp only [Read.op, StorageManager.getFileInfo, Prog.bind_eq, Prog.pure_eq] at hrun
  obtain ⟨file, u, hfile, hrest⟩ := Prog.runs_bind_ok.mp hrun
  obtain ⟨hrow, rfl⟩ := dbGetFile_ok hfile
  obtain ⟨_, v, hexpire, -⟩ := Prog.runs_bind_ok.mp hrest
  have hlive := (expireFile_ok hexpire).1
  rw [h file hrow] at hlive
  simp at hlive

theorem hides_getFileRangeIfPlain_iff {start stop : Nat} :
    Hides sm b k w (.getFileRangeIfPlain b k start stop) ↔
      ¬ Exposes sm b k w (.getFileRangeIfPlain b k start stop) := by
  constructor
  · rintro hhides ⟨-, file, raw, hrecord, hplain, hclear, hrange, hraw, hfits⟩
    have hserved : ∃ y, plainRange sm.host w b k start stop = some y := by
      have hstart : start ≤ min stop (asU64 file.fileSize - 1) := by
        unfold InRange at hrange
        omega
      simp only [plainRange, hrecord, Option.bind_eq_bind, Option.bind_some]
      rw [if_neg (by simp [hplain, hclear]), if_neg hrange, hraw, Option.bind_some, if_pos (by omega)]
      exact ⟨_, rfl⟩
    obtain ⟨y, hy⟩ := hserved
    exact not_hides (r := .getFileRangeIfPlain b k start stop) (eval_getFileRangeIfPlain hy)
      ⟨rfl, rfl⟩ hhides
  · rintro hnot y t hrun ⟨-, hsome⟩
    apply hnot
    obtain ⟨y, rfl⟩ := Option.isSome_iff_exists.mp hsome
    have hy := getFileRangeIfPlain_ok hrun
    simp only [plainRange, Option.bind_eq_bind, Option.bind_eq_some_iff] at hy
    obtain ⟨file, hrecord, hy⟩ := hy
    split at hy
    · simp at hy
    · rename_i hkind
      split at hy
      · simp at hy
      · rename_i hrange
        obtain ⟨raw, hraw, hy⟩ := Option.bind_eq_some_iff.mp hy
        split at hy
        · rename_i hfits
          simp only [Bool.or_eq_true, not_or, Bool.not_eq_true] at hkind
          exact ⟨rfl, file, raw, hrecord, hkind.1, hkind.2, hrange, hraw, by omega⟩
        · simp at hy

theorem hides_getCompressedFileRange_iff {start stop : Nat} :
    Hides sm b k w (.getCompressedFileRange b k start stop) ↔
      ¬ Exposes sm b k w (.getCompressedFileRange b k start stop) := by
  constructor
  · rintro hhides ⟨-, file, raw, slice, hrecord, hplain, hclear, hrange, hraw, hslice⟩
    have hserved : ∃ y, compressedRange sm w b k start stop = some y := by
      simp only [compressedRange, hrecord, Option.bind_eq_bind, Option.bind_some]
      rw [if_neg (by simp [hplain, hclear]), if_neg hrange, hraw, Option.bind_some, hslice]
      exact ⟨_, rfl⟩
    obtain ⟨y, hy⟩ := hserved
    exact not_hides (r := .getCompressedFileRange b k start stop) (eval_getCompressedFileRange hy)
      ⟨rfl, rfl⟩ hhides
  · rintro hnot y t hrun ⟨-, hsome⟩
    apply hnot
    obtain ⟨y, rfl⟩ := Option.isSome_iff_exists.mp hsome
    have hy := getCompressedFileRange_ok hrun
    simp only [compressedRange, Option.bind_eq_bind, Option.bind_eq_some_iff] at hy
    obtain ⟨file, hrecord, hy⟩ := hy
    split at hy
    · simp at hy
    · rename_i hkind
      split at hy
      · simp at hy
      · rename_i hrange
        obtain ⟨raw, hraw, hy⟩ := Option.bind_eq_some_iff.mp hy
        split at hy
        · rename_i slice hslice
          simp only [Bool.or_eq_true, Bool.not_eq_true', not_or, Bool.not_eq_true,
            Bool.not_eq_false] at hkind
          exact ⟨rfl, file, raw, slice, hrecord, hkind.2, hkind.1, hrange, hraw, hslice⟩
        · simp at hy

theorem answerPage_ok {α : Type} {c : Choice} {x : Except DbError α} {y : α} :
    answerPage c x = .ok y ↔ c.fault = none ∧ x = .ok y := by
  unfold answerPage
  cases c.fault <;> cases x <;> simp

/-- A listing answers with a page of rows, in an order of the environment's choosing. -/
theorem page_runs {x : Except DbError (List StoredFile)} {c : Choice} {infos : List FileInfo} :
    ((ofSqlx (answerPage c x)).bind fun files => (.ret (files.map FileInfo.ofStored) : Op _)).Runs
        (exec sm.host) w (.ok infos) u ↔
      c.fault = none ∧ u = w ∧ ∃ files, x = .ok files ∧ infos = files.map FileInfo.ofStored := by
  cases ha : answerPage c x with
  | ok files =>
    obtain ⟨hc, hx⟩ := answerPage_ok.mp ha
    simp [hc, hx, and_comm]
  | error e =>
    have hno : ¬ (c.fault = none ∧ ∃ files, x = .ok files) := by
      rintro ⟨hc, files, hx⟩
      rw [answerPage_ok.mpr ⟨hc, hx⟩] at ha
      simp at ha
    simp only [ofSqlx_error, Prog.fail_bind, Prog.runs_fail, reduceCtorEq, false_and, false_iff]
    rintro ⟨hc, -, files, hx, -⟩
    exact hno ⟨hc, files, hx⟩

theorem shown_iff {files : List StoredFile} :
    (∃ i ∈ files.map FileInfo.ofStored, (i.bucket, i.key) = (b, k)) ↔
      ∃ f ∈ files, f.ident = (b, k) := by
  simp only [List.mem_map]
  constructor
  · rintro ⟨_, ⟨f, hf, rfl⟩, hident⟩
    exact ⟨f, hf, hident⟩
  · rintro ⟨f, hf, hident⟩
    exact ⟨_, ⟨f, hf, rfl⟩, hident⟩

theorem hides_listFiles_iff {b' : String} {p : Option String} {limit offset : Option Int} :
    Hides sm b k w (.listFiles b' p limit offset) ↔
      ¬ Exposes sm b k w (.listFiles b' p limit offset) := by
  simp only [Hides, Read.op, StorageManager.listFiles, step_eq, Prog.bind_eq, Prog.act_bind,
    Prog.ret_bind, Prog.pure_eq, Prog.runs_act, exec, page_runs]
  constructor
  · rintro hhides ⟨rank, files, hfiles, hshown⟩
    exact hhides _ w ⟨{ rank := rank }, rfl, rfl, files, hfiles, rfl⟩ (shown_iff.mpr hshown)
  · rintro hnot y t ⟨c, -, -, files, hfiles, rfl⟩ hshows
    exact hnot ⟨c.rank, files, hfiles, shown_iff.mp hshows⟩

theorem hides_searchFiles_iff {b' : Option String} {q : String} {limit : Option Int} :
    Hides sm b k w (.searchFiles b' q limit) ↔ ¬ Exposes sm b k w (.searchFiles b' q limit) := by
  simp only [Hides, Read.op, StorageManager.searchFiles, step_eq, Prog.bind_eq, Prog.act_bind,
    Prog.ret_bind, Prog.pure_eq, Prog.runs_act, exec, page_runs]
  constructor
  · rintro hhides ⟨rank, files, hfiles, hshown⟩
    exact hhides _ w ⟨{ rank := rank }, rfl, rfl, files, hfiles, rfl⟩ (shown_iff.mpr hshown)
  · rintro hnot y t ⟨c, -, -, files, hfiles, rfl⟩ hshows
    exact hnot ⟨c.rank, files, hfiles, shown_iff.mp hshows⟩

/-- A read under another key shows nothing of this one, and has no way to. -/
theorem hides_iff (h : Lapsed b k w) (r : Read) : Hides sm b k w r ↔ ¬ Exposes sm b k w r := by
  have hother : ∀ {b' k'}, (b', k') ≠ (b, k) → ∀ {P Q : Prop}, ((b', k') = (b, k) ∧ P → Q) := by
    intro b' k' hne P Q hp
    exact absurd hp.1 hne
  cases r with
  | getFile b' k' =>
    by_cases hkey : (b', k') = (b, k)
    · obtain ⟨rfl, rfl⟩ := Prod.mk.inj hkey
      exact hides_getFile_iff h
    · exact ⟨fun _ => hother hkey, fun _ y t _ => hkey⟩
  | getFileInfo b' k' =>
    by_cases hkey : (b', k') = (b, k)
    · obtain ⟨rfl, rfl⟩ := Prod.mk.inj hkey
      exact ⟨fun _ => id, fun _ => hides_getFileInfo h⟩
    · exact ⟨fun _ => id, fun _ y t _ => hkey⟩
  | getFileRangeIfPlain b' k' start stop =>
    by_cases hkey : (b', k') = (b, k)
    · obtain ⟨rfl, rfl⟩ := Prod.mk.inj hkey
      exact hides_getFileRangeIfPlain_iff
    · exact ⟨fun _ => hother hkey, fun _ y t _ => hother hkey⟩
  | getCompressedFileRange b' k' start stop =>
    by_cases hkey : (b', k') = (b, k)
    · obtain ⟨rfl, rfl⟩ := Prod.mk.inj hkey
      exact hides_getCompressedFileRange_iff
    · exact ⟨fun _ => hother hkey, fun _ y t _ => hother hkey⟩
  | listFiles b' p limit offset => exact hides_listFiles_iff
  | searchFiles b' q limit => exact hides_searchFiles_iff

end Readers

/-! ## Runs -/

/-- A call of the service, or one of the reads that are not among its events. -/
inductive Call where
  | event (e : Event)
  | read (r : Read)

def Call.Transition (sm : StorageManager) : Call → World → World → Prop
  | event e, w, w' => e.Transition sm w w'
  | read r, w, w' => ∃ x, (r.op sm).Runs (exec sm.host) w x w'

/-- Nobody uploads the key again. -/
def KeepsKey (b k : String) (_ : World) : Call → Prop
  | .event (.storeFile b' k' _ _ _ _) => (b', k') ≠ (b, k)
  | _ => True

/-- The step inserts no row for the key. -/
def Spares (b k : String) (a : Action) : Prop := ∀ f, a = .upsertFile f → f.ident ≠ (b, k)

theorem takes_lapsed {h : Host} {st : Taken Response} (ht : Takes (exec h) u st v)
    (hst : Spares b k st.1) (hu : Lapsed b k u) : Lapsed b k v := by
  have hpast : ∀ row, u.db.files.find (b, k) = some row → past v.now row.expiresAt = true :=
    fun row hrow => past_mono (hu row hrow) (takes_now ht)
  have hsubset : (∀ f, st.1 ≠ .upsertFile f) → st.1.countsAccess = false → Lapsed b k v := by
    intro hadd hcount row hrow
    have hmem := takes_files_subset ht hadd hcount (Table.find_mem hrow)
    exact hpast row (Table.find_key hrow ▸ Table.find_self hmem)
  obtain ⟨a, r⟩ := st
  cases a with
  | upsertFile f =>
    intro row hrow
    rw [takes_upsertFile_ne ht (Ne.symm (hst f rfl))] at hrow
    exact hpast row hrow
  | updateAccess id =>
    intro row hrow
    have hsame := takes_recipe ht rfl b k
    rw [hrow] at hsame
    obtain ⟨old, hold, hrecipe⟩ := Option.map_eq_some_iff.mp hsame.symm
    exact past_of_recipe hrecipe (hpast old hold)
  | _ => exact hsubset (by simp) rfl

theorem runs_lapsed {α : Type} {p : Op α} {x : Result α} (hp : p.Uses (Spares b k))
    (hr : p.Runs (exec sm.host) u x v) (hu : Lapsed b k u) : Lapsed b k v := by
  apply Prog.Runs.keeps (I := Lapsed b k) _ hp hr hu
  intro c a u ha
  exact takes_lapsed (show Takes (exec sm.host) u ⟨a, (exec sm.host c a u).1⟩ _ from ⟨c, rfl⟩) ha

theorem ReadStep.spares {b' k' : String} {a : Action} (h : ReadStep b' k' a) : Spares b k a := by
  rintro f rfl
  cases h with
  | delete h => cases h

theorem StoreStep.spares {b' k' : String} {opts : StoreOptions} {a : Action}
    (h : StoreStep sm b' k' opts a) (hne : (b', k') ≠ (b, k)) : Spares b k a := by
  rintro f rfl
  cases h with
  | ensure h => cases h
  | fresh h =>
    cases h with
    | encrypt h => cases h
    | upsertFile f hf => rwa [hf.ident]

theorem Read.spares (sm : StorageManager) (r : Read) : (r.op sm).Uses (Spares b k) := by
  cases r with
  | getFile b' k' => exact getFile_steps.mono fun _ => ReadStep.spares
  | getFileInfo b' k' => exact getFileInfo_steps.mono fun _ => ReadStep.spares
  | getFileRangeIfPlain b' k' start stop =>
    exact (getFileRangeIfPlain_steps start stop).mono fun _ => ReadStep.spares
  | getCompressedFileRange b' k' start stop =>
    exact (getCompressedFileRange_steps start stop).mono fun _ => ReadStep.spares
  | listFiles b' p limit offset =>
    apply (listFiles_steps p limit offset).mono
    rintro a rfl f hf
    simp at hf
  | searchFiles b' q limit =>
    apply (searchFiles_steps b' q limit).mono
    rintro a rfl f hf
    simp at hf

theorem transition_lapsed {c : Call} (hk : KeepsKey b k u c) (ht : c.Transition sm u v)
    (hu : Lapsed b k u) : Lapsed b k v := by
  cases c with
  | read r =>
    obtain ⟨x, hr⟩ := ht
    exact runs_lapsed (r.spares sm) hr hu
  | event e =>
    cases e with
    | storeFile b' k' content ct opts x =>
      exact runs_lapsed (storeFile_steps.mono fun _ ha => StoreStep.spares ha hk) ht hu
    | getFile b' k' x => exact runs_lapsed (Read.spares sm (.getFile b' k')) ht hu
    | getFileRangeIfPlain b' k' start stop x =>
      exact runs_lapsed (Read.spares sm (.getFileRangeIfPlain b' k' start stop)) ht hu
    | getCompressedFileRange b' k' start stop x =>
      exact runs_lapsed (Read.spares sm (.getCompressedFileRange b' k' start stop)) ht hu
    | deleteFile b' k' x =>
      refine runs_lapsed (deleteFile_steps.mono ?_) ht hu
      rintro a ha f rfl
      cases ha
    | deleteBucket b' x =>
      refine runs_lapsed (deleteBucket_steps.mono ?_) ht hu
      rintro a ha f rfl
      cases ha
    | sweepExpiredFiles x =>
      refine runs_lapsed (sweepExpiredFiles_steps.mono ?_) ht hu
      rintro a (rfl | ⟨f, ha⟩) g hg
      · simp at hg
      · subst hg
        cases ha
    | evict gone =>
      obtain rfl := ht
      exact hu
    | tick elapsed =>
      obtain rfl := ht
      exact fun row hrow => past_mono (hu row hrow) (Int.le.intro elapsed rfl)

open Sample (manager)

/-- `a/k` has expired, and no sweep has run. -/
def expired : World :=
  (replay manager [(.storeFile "a" "k" [120] none { expiresAt := some 10 } (.error (.io "")),
    { uuid := 1 }), (.tick 20, calm)] ([], World.empty)).2

theorem expired_row : ∃ row, expired.db.files.find ("a", "k") = some row ∧
    past expired.now row.expiresAt = true := by
  have hrow : (expired.db.files.find ("a", "k")).any (fun row => past expired.now row.expiresAt) =
      true := by decide
  simpa [Option.any_eq_true] using hrow

theorem exposed_page {page : (StoredFile → Nat) → Except DbError (List StoredFile)}
    (h : (page fun _ => 0).toOption.any (fun files => files.any (fun f => f.ident = (b, k))) = true) :
    ∃ rank files, page rank = .ok files ∧ ∃ f ∈ files, f.ident = (b, k) := by
  obtain ⟨files, hfiles, hany⟩ := (Option.any_eq_true _ _).mp h
  obtain ⟨f, hf, hident⟩ := List.any_eq_true.mp hany
  refine ⟨fun _ => 0, files, ?_, f, hf, by simpa using hident⟩
  cases hp : page fun _ => 0 with
  | error e => simp [hp, Except.toOption] at hfiles
  | ok rows => simpa [hp, Except.toOption] using hfiles

end LocalStorage.Proofs.LapsedReads
