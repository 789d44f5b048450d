import LocalStorage.Steps

namespace LocalStorage
open Lib Lib.Paths

/-! # Calls in which no step fails

A rule for each action: the one answer it has when it does not fail. -/

/-- The answer is no error. That the access counters could not be written is passed over, as
every caller does. -/
def Action.Succeeds : (a : Action) → Response a → Prop
  | .bucketExists _, r | .insertBucket _, r | .deleteBucketRow _, r | .selectFile _ _, r
  | .selectFileByHash _, r | .upsertFile _, r | .selectFilePath _ _, r
  | .countOtherReferences _ _ _, r | .deleteFileRow _ _, r | .countReferences _, r
  | .selectBucketFiles _, r | .selectExpired, r | .selectFiles _ _ _ _, r | .searchFiles _ _ _, r
  | .selectKey _, r | .createDirAll _, r | .writeFileAtomic _ _, r | .readFile _, r
  | .readRange _ _ _, r | .removeFile _, r | .removeDirAll _, r | .getFileMetadata _ _, r
  | .setFileMetadata _ _ _, r | .getFileContent _ _, r | .setFileContent _ _ _, r
  | .invalidateFile _ _, r => r.isOk = true
  | .updateAccess _, _ | .fileExists _, _ | .utcNow, _ | .newUuid, _ | .randomNonce, _ => True

instance : (a : Action) → (r : Response a) → Decidable (a.Succeeds r)
  | .bucketExists _, r | .insertBucket _, r | .deleteBucketRow _, r | .selectFile _ _, r
  | .selectFileByHash _, r | .upsertFile _, r | .selectFilePath _ _, r
  | .countOtherReferences _ _ _, r | .deleteFileRow _ _, r | .countReferences _, r
  | .selectBucketFiles _, r | .selectExpired, r | .selectFiles _ _ _ _, r | .searchFiles _ _ _, r
  | .selectKey _, r | .createDirAll _, r | .writeFileAtomic _ _, r | .readFile _, r
  | .readRange _ _ _, r | .removeFile _, r | .removeDirAll _, r | .getFileMetadata _ _, r
  | .setFileMetadata _ _ _, r | .getFileContent _ _, r | .setFileContent _ _ _, r
  | .invalidateFile _ _, r => inferInstanceAs (Decidable (r.isOk = true))
  | .updateAccess _, _ | .fileExists _, _ | .utcNow, _ | .newUuid, _ | .randomNonce, _ =>
    isTrue trivial

/-- `p`, run alone from `w` with no failing step, can end with `x` in `t`. -/
abbrev Smooth {E α : Type} (h : Host) (p : Prog Action Response E α) (w : World) (x : Except E α)
    (t : World) : Prop := p.RunsWith (exec h) Action.Succeeds w x t

section Rules
variable {h : Host} {w t : World} {E α : Type} {x : Except E α} {b k path : String}

theorem answer_isOk {c : Choice} {β : Type} {y : β} :
    (answer c y).isOk = true ↔ answer c y = .ok y := by
  unfold answer
  cases c.fault <;> simp [Except.isOk, Except.toBool]

/-- A query has one answer. -/
theorem smooth_answer {β : Type} {y : β} {f : Query β → Prog Action Response E α} :
    (∃ c, (answer c y).isOk = true ∧ Smooth h (f (answer c y)) w x t) ↔ Smooth h (f (.ok y)) w x t := by
  constructor
  · intro ⟨c, hgood, hrun⟩
    rwa [answer_isOk.mp hgood] at hrun
  · intro hrun
    exact ⟨calm, rfl, hrun⟩

theorem smooth_selectFile {f : Query (Option StoredFile) → Prog Action Response E α} :
    Smooth h (.act (.selectFile b k) f) w x t ↔ Smooth h (f (.ok (w.db.selectFile b k))) w x t :=
  Prog.runsWith_act.trans smooth_answer

theorem smooth_selectFilePath {f : Query (Option String) → Prog Action Response E α} :
    Smooth h (.act (.selectFilePath b k) f) w x t ↔
      Smooth h (f (.ok ((w.db.selectFile b k).map (·.filePath)))) w x t :=
  Prog.runsWith_act.trans smooth_answer

theorem smooth_countOtherReferences {f : Query Nat → Prog Action Response E α} :
    Smooth h (.act (.countOtherReferences path b k) f) w x t ↔
      Smooth h (f (.ok (w.db.countOtherReferences path b k))) w x t :=
  Prog.runsWith_act.trans smooth_answer

theorem smooth_selectKey {f : Query (Option EncryptionKey) → Prog Action Response E α} :
    Smooth h (.act (.selectKey k) f) w x t ↔ Smooth h (f (.ok (w.db.selectKey k))) w x t :=
  Prog.runsWith_act.trans smooth_answer

/-- The expired rows come in any order. -/
theorem smooth_selectExpired {f : Query (List (String × String)) → Prog Action Response E α} :
    Smooth h (.act .selectExpired f) w x t ↔
      ∃ rank, Smooth h (f (.ok (w.db.selectExpired w.now rank))) w x t := by
  rw [Smooth, Prog.runsWith_act]
  constructor
  · rintro ⟨c, hgood, hrun⟩
    have hok := answer_isOk.mp hgood
    simp only [exec, hok] at hrun
    exact ⟨c.rank, hrun⟩
  · rintro ⟨rank, hrun⟩
    exact ⟨{ rank := rank }, rfl, hrun⟩

/-- A statement takes effect. -/
theorem smooth_deleteFileRow {f : Query Unit → Prog Action Response E α} :
    Smooth h (.act (.deleteFileRow b k) f) w x t ↔
      ∃ db, w.db.deleteFileRow b k = .ok db ∧ Smooth h (f (.ok ())) { w with db := db } x t := by
  rw [Smooth, Prog.runsWith_act]
  constructor
  · rintro ⟨c, hgood, hrun⟩
    simp only [exec, statement, Action.Succeeds] at hgood hrun
    cases hc : c.fault with
    | some e => simp [hc, Except.isOk, Except.toBool] at hgood
    | none =>
      cases hdb : w.db.deleteFileRow b k with
      | error e => simp [hc, hdb, Except.isOk, Except.toBool] at hgood
      | ok db =>
        simp only [hc, hdb] at hrun
        exact ⟨db, rfl, hrun⟩
  · rintro ⟨db, hdb, hrun⟩
    refine ⟨calm, ?_, ?_⟩
    · simp [exec, statement, calm, hdb, Action.Succeeds, Except.isOk, Except.toBool]
    · simpa only [exec, statement, calm, hdb] using hrun

theorem smooth_removeFile {f : Except IoError Unit → Prog Action Response E α} :
    Smooth h (.act (.removeFile path) f) w x t ↔ (w.bytesAt h path).isSome = true ∧
      Smooth h (f (.ok ())) { w with fs := w.fs.erase (h.target path) } x t := by
  rw [Smooth, Prog.runsWith_act, Option.isSome_iff_exists]
  constructor
  · rintro ⟨c, hgood, hrun⟩
    simp only [exec, execRemoveFile, Action.Succeeds] at hgood hrun
    cases hc : c.fault with
    | some e => simp [hc, Except.isOk, Except.toBool] at hgood
    | none =>
      cases hl : lookup h path w with
      | error e => simp [hc, hl, Except.isOk, Except.toBool] at hgood
      | ok raw =>
        simp only [hc, hl] at hrun
        exact ⟨⟨raw, lookup_eq_ok.mp hl⟩, hrun⟩
  · rintro ⟨⟨raw, hraw⟩, hrun⟩
    refine ⟨calm, ?_, ?_⟩
    · simp [exec, execRemoveFile, calm, lookup_eq_ok.mpr hraw, Action.Succeeds, Except.isOk,
        Except.toBool]
    · simpa only [exec, execRemoveFile, calm, lookup_eq_ok.mpr hraw] using hrun

theorem smooth_readFile {f : Except IoError Bytes → Prog Action Response E α} :
    Smooth h (.act (.readFile path) f) w x t ↔
      ∃ raw, w.bytesAt h path = some raw ∧ Smooth h (f (.ok raw)) w x t := by
  rw [Smooth, Prog.runsWith_act]
  constructor
  · rintro ⟨c, hgood, hrun⟩
    simp only [exec, execReadFile, Action.Succeeds] at hgood hrun
    cases hc : c.fault with
    | some e => simp [hc, Except.isOk, Except.toBool] at hgood
    | none =>
      cases hl : lookup h path w with
      | error e => simp [hc, hl, Except.isOk, Except.toBool] at hgood
      | ok raw =>
        simp only [hc, hl] at hrun
        exact ⟨raw, lookup_eq_ok.mp hl, hrun⟩
  · rintro ⟨raw, hraw, hrun⟩
    refine ⟨calm, ?_, ?_⟩
    · simp [exec, execReadFile, calm, lookup_eq_ok.mpr hraw, Action.Succeeds, Except.isOk,
        Except.toBool]
    · simpa only [exec, execReadFile, calm, lookup_eq_ok.mpr hraw] using hrun

theorem smooth_readRange {start len : Nat} {f : Except IoError Bytes → Prog Action Response E α} :
    Smooth h (.act (.readRange path start len) f) w x t ↔
      ∃ raw, w.bytesAt h path = some raw ∧ start + len ≤ raw.length ∧
        Smooth h (f (.ok ((raw.drop start).take len))) w x t := by
  rw [Smooth, Prog.runsWith_act]
  constructor
  · rintro ⟨c, hgood, hrun⟩
    simp only [exec, execReadRange, execReadFile, Action.Succeeds] at hgood hrun
    cases hc : c.fault with
    | some e => simp [hc, Except.isOk, Except.toBool] at hgood
    | none =>
      cases hl : lookup h path w with
      | error e => simp [hc, hl, Except.isOk, Except.toBool] at hgood
      | ok raw =>
        simp only [hc, hl] at hgood hrun
        split at hgood
        · rename_i hfits
          rw [if_pos hfits] at hrun
          exact ⟨raw, lookup_eq_ok.mp hl, hfits, hrun⟩
        · simp [Except.isOk, Except.toBool] at hgood
  · rintro ⟨raw, hraw, hfits, hrun⟩
    refine ⟨calm, ?_, ?_⟩
    · simp [exec, execReadRange, execReadFile, calm, lookup_eq_ok.mpr hraw, hfits, Action.Succeeds,
        Except.isOk, Except.toBool]
    · simpa only [exec, execReadRange, execReadFile, calm, lookup_eq_ok.mpr hraw, if_pos hfits]
        using hrun

/-- The counters are written or they are not. -/
theorem smooth_updateAccess {id : Uuid} {p : Prog Action Response E α} :
    Smooth h (.act (.updateAccess id) fun _ => p) w x t ↔ Smooth h p w x t ∨
      ∃ db, w.db.updateAccess id w.now = .ok db ∧ Smooth h p { w with db := db } x t := by
  rw [Smooth, Prog.runsWith_act]
  constructor
  · rintro ⟨c, _, hrun⟩
    simp only [exec, statement] at hrun
    cases hc : c.fault with
    | some e =>
      simp only [hc] at hrun
      exact .inl hrun
    | none =>
      cases hdb : w.db.updateAccess id w.now with
      | error e =>
        simp only [hc, hdb] at hrun
        exact .inl hrun
      | ok db =>
        simp only [hc, hdb] at hrun
        exact .inr ⟨db, rfl, hrun⟩
  · rintro (hrun | ⟨db, hdb, hrun⟩)
    · exact ⟨{ fault := some .noEntry }, trivial, hrun⟩
    · exact ⟨calm, trivial, by simpa only [exec, statement, calm, hdb] using hrun⟩

theorem smooth_utcNow {f : Time → Prog Action Response E α} :
    Smooth h (.act .utcNow f) w x t ↔ ∃ elapsed : Nat,
      Smooth h (f (w.now + elapsed)) { w with now := w.now + elapsed } x t := by
  rw [Smooth, Prog.runsWith_act]
  exact ⟨fun ⟨c, _, hrun⟩ => ⟨c.elapsed, hrun⟩,
    fun ⟨elapsed, hrun⟩ => ⟨{ elapsed := elapsed }, trivial, hrun⟩⟩

/-! The cache always answers. -/

theorem smooth_getFileMetadata {f : Result (Option StoredFile) → Prog Action Response E α} :
    Smooth h (.act (.getFileMetadata b k) f) w x t ↔
      Smooth h (f (.ok (w.cache.getFileMetadata b k))) w x t :=
  Prog.runsWith_act.trans ⟨fun ⟨_, _, hrun⟩ => hrun, fun hrun => ⟨calm, rfl, hrun⟩⟩

theorem smooth_setFileMetadata {file : StoredFile} {f : Result Unit → Prog Action Response E α} :
    Smooth h (.act (.setFileMetadata b k file) f) w x t ↔
      Smooth h (f (.ok ())) { w with cache := w.cache.setFileMetadata b k file } x t :=
  Prog.runsWith_act.trans ⟨fun ⟨_, _, hrun⟩ => hrun, fun hrun => ⟨calm, rfl, hrun⟩⟩

theorem smooth_getFileContent {f : Result (Option Bytes) → Prog Action Response E α} :
    Smooth h (.act (.getFileContent b k) f) w x t ↔
      Smooth h (f (.ok (w.cache.getFileContent b k))) w x t :=
  Prog.runsWith_act.trans ⟨fun ⟨_, _, hrun⟩ => hrun, fun hrun => ⟨calm, rfl, hrun⟩⟩

theorem smooth_setFileContent {content : Bytes} {f : Result Unit → Prog Action Response E α} :
    Smooth h (.act (.setFileContent b k content) f) w x t ↔
      Smooth h (f (.ok ())) { w with cache := w.cache.setFileContent b k content } x t :=
  Prog.runsWith_act.trans ⟨fun ⟨_, _, hrun⟩ => hrun, fun hrun => ⟨calm, rfl, hrun⟩⟩

theorem smooth_invalidateFile {f : Result Unit → Prog Action Response E α} :
    Smooth h (.act (.invalidateFile b k) f) w x t ↔
      Smooth h (f (.ok ())) { w with cache := w.cache.invalidateFile b k } x t :=
  Prog.runsWith_act.trans ⟨fun ⟨_, _, hrun⟩ => hrun, fun hrun => ⟨calm, rfl, hrun⟩⟩

end Rules

end LocalStorage
