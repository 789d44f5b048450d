import LocalStorage.Proofs.Effects

namespace LocalStorage
open Lib Lib.Paths

/-! # What reads leave as it was

A read writes no row and no file but through the deletion of an expired or lost object, and
no record in the cache but the row it looked up. -/

/-- The step writes neither rows nor files nor cached records. -/
structure Quiet (a : Action) : Prop where
  row : a.writesRow = false
  file : a.writesFile = false
  metadata : a.writesMetadata = false

namespace StorageManager

/-- A lookup leaves the state alone, but for caching the row it found. -/
theorem readMetadata_frame {h : Host} {w : World} {b k : String} {Q : World → Prop} (hsame : Q w)
    (hlooked : ∀ file, w.db.files.find (b, k) = some file →
      Q { w with cache := w.cache.setFileMetadata b k file }) :
    (readMetadata b k).Ensures (exec h) (fun _ t => Q t) w := by
  simp only [readMetadata, dbGetFile, step_eq, Prog.bind_eq, Prog.act_bind, Prog.ret_bind,
    Prog.pure_eq]
  rw [ensures_getFileMetadata]
  cases w.cache.getFileMetadata b k with
  | some f => simpa using hsame
  | none =>
    simp only [Prog.bind_assoc]
    refine ensures_selectFile (fun e => by simpa using hsame) ?_
    cases hrow : w.db.files.find (b, k) with
    | none => simpa [Database.selectFile, hrow] using hsame
    | some f =>
      simp only [Database.selectFile, hrow, Prog.ret_bind, ensures_setFileMetadata,
        Prog.ensures_ret]
      exact hlooked f hrow

/-- A preorder that quiet steps, the deletion of an object and the lookup of a record keep. -/
structure KeptByReads (h : Host) (Rel : World → World → Prop) : Prop where
  refl : ∀ w, Rel w w
  trans : ∀ u v w, Rel u v → Rel v w → Rel u w
  quiet : ∀ c a w, Quiet a → Rel w (exec h c a w).2
  deleteFile : ∀ b k, (deleteFile b k).Relates (exec h) Rel
  readMetadata : ∀ b k, (readMetadata b k).Relates (exec h) Rel

namespace KeptByReads

variable {sm : StorageManager} {h : Host} {Rel : World → World → Prop} {b k : String} {α β : Type}

theorem of_uses (hk : KeptByReads h Rel) {p : Op α} (hp : p.Uses Quiet) :
    p.Relates (exec h) Rel :=
  Prog.Relates.of_uses hk.refl hk.trans hk.quiet hp

theorem bind (hk : KeptByReads h Rel) {p : Op α} {f : α → Op β} (hp : p.Relates (exec h) Rel)
    (hf : ∀ a, (f a).Relates (exec h) Rel) : (p.bind f).Relates (exec h) Rel :=
  Prog.Relates.bind hk.trans hp hf

theorem act (hk : KeptByReads h Rel) {a : Action} {f : Response a → Op α} (ha : Quiet a)
    (hf : ∀ r, (f r).Relates (exec h) Rel) : (Prog.act a f : Op α).Relates (exec h) Rel :=
  hk.bind (p := .call a) (hk.of_uses ⟨ha, fun _ => trivial⟩) hf

/-- The deletion on the way out of a read that finds nothing. -/
theorem given_up (hk : KeptByReads h Rel) (e : StorageError) :
    ((StorageManager.deleteFile b k).attempt.bind fun _ => (.fail e : Op α)).Relates (exec h) Rel :=
  hk.bind (hk.deleteFile b k).attempt fun _ => hk.of_uses trivial

theorem expireFile (hk : KeptByReads h Rel) (file : StoredFile) :
    (StorageManager.expireFile b k file).Relates (exec h) Rel := by
  simp only [StorageManager.expireFile, step_eq, Prog.bind_eq, Prog.act_bind, Prog.ret_bind,
    Prog.pure_eq]
  split
  · exact hk.of_uses trivial
  · refine hk.act ⟨rfl, rfl, rfl⟩ fun now => ?_
    split
    · exact hk.given_up _
    · exact hk.of_uses trivial

theorem readContent (hk : KeptByReads h Rel) (file : StoredFile) :
    (StorageManager.readContent b k file).Relates (exec h) Rel := by
  simp only [StorageManager.readContent, step_eq, Prog.bind_eq, Prog.act_bind, Prog.ret_bind,
    Prog.pure_eq]
  refine hk.act ⟨rfl, rfl, rfl⟩ fun hit => ?_
  split
  · exact hk.of_uses trivial
  · refine hk.act ⟨rfl, rfl, rfl⟩ fun bytes => ?_
    split
    · exact hk.of_uses ⟨⟨rfl, rfl, rfl⟩, fun _ => trivial⟩
    · split
      · exact hk.given_up _
      · exact hk.of_uses trivial

theorem decodeContent (hk : KeptByReads h Rel) (file : StoredFile) (raw : Bytes) :
    (sm.decodeContent file raw).Relates (exec h) Rel := by
  refine hk.of_uses ((decodeContent_uses sm file raw).mono fun a ha => ?_)
  obtain ⟨keyId, rfl⟩ := ha
  exact ⟨rfl, rfl, rfl⟩

theorem getFile (hk : KeptByReads h Rel) : (sm.getFile b k).Relates (exec h) Rel := by
  simp only [StorageManager.getFile, step_eq, Prog.bind_eq, Prog.act_bind, Prog.ret_bind,
    Prog.pure_eq]
  refine hk.bind (hk.readMetadata b k) fun file => ?_
  refine hk.bind (hk.expireFile file) fun _ => ?_
  refine hk.bind (hk.readContent file) fun raw => ?_
  refine hk.bind (hk.decodeContent file raw) fun content => ?_
  exact hk.of_uses ⟨⟨rfl, rfl, rfl⟩, fun _ => trivial⟩

theorem getFileRangeIfPlain (hk : KeptByReads h Rel) (start stop : Nat) :
    (StorageManager.getFileRangeIfPlain b k start stop).Relates (exec h) Rel := by
  simp only [StorageManager.getFileRangeIfPlain, ofIo, step_eq, Prog.bind_eq, Prog.act_bind,
    Prog.ret_bind, Prog.pure_eq]
  refine hk.bind (hk.readMetadata b k) fun file => ?_
  split
  · exact hk.of_uses trivial
  · split
    · exact hk.of_uses trivial
    · exact hk.of_uses ⟨⟨rfl, rfl, rfl⟩, fun r => Prog.Uses.bind (Prog.uses_ofExcept _)
        fun _ => ⟨⟨rfl, rfl, rfl⟩, fun _ => trivial⟩⟩

theorem getCompressedFileRange (hk : KeptByReads h Rel) (start stop : Nat) :
    (sm.getCompressedFileRange b k start stop).Relates (exec h) Rel := by
  simp only [StorageManager.getCompressedFileRange, ofIo, step_eq, Prog.bind_eq, Prog.act_bind,
    Prog.ret_bind, Prog.pure_eq]
  refine hk.bind (hk.readMetadata b k) fun file => ?_
  split
  · exact hk.of_uses trivial
  · split
    · exact hk.of_uses trivial
    · refine hk.of_uses ⟨⟨rfl, rfl, rfl⟩, fun r => Prog.Uses.bind (Prog.uses_ofExcept _) fun _ => ?_⟩
      refine Prog.Uses.bind (Prog.uses_ofExcept _) fun buf => ?_
      cases buf with
      | none => trivial
      | some buf => exact ⟨⟨rfl, rfl, rfl⟩, fun _ => trivial⟩

theorem sweepFiles (hk : KeptByReads h Rel) (files : List (String × String)) :
    (StorageManager.sweepFiles files).Relates (exec h) Rel := by
  induction files with
  | nil => exact hk.of_uses trivial
  | cons p files ih =>
    obtain ⟨b, k⟩ := p
    simp only [StorageManager.sweepFiles, Prog.bind_eq, Prog.pure_eq]
    refine hk.bind (hk.deleteFile b k).attempt fun x => ?_
    cases x with
    | ok u => exact hk.bind ih fun _ => hk.of_uses trivial
    | error e => exact ih

theorem sweepExpiredFiles (hk : KeptByReads h Rel) :
    StorageManager.sweepExpiredFiles.Relates (exec h) Rel := by
  simp only [StorageManager.sweepExpiredFiles, ofSqlx, step_eq, Prog.bind_eq, Prog.act_bind,
    Prog.ret_bind]
  refine hk.act ⟨rfl, rfl, rfl⟩ fun r => ?_
  exact hk.bind (hk.of_uses (Prog.uses_ofExcept _)) hk.sweepFiles

end KeptByReads

end StorageManager

end LocalStorage
