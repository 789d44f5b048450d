import LocalStorage.Proofs.Answers
import LocalStorage.Proofs.Effects
import LocalStorage.Proofs.Vocabulary

namespace LocalStorage
open Lib Lib.Paths

/-! # What becomes of the rows in a call that inserts none -/

namespace StorageManager

/-- What a row says of its object: how it is read, and the hash of its content. -/
def look (f : StoredFile) : Recipe × String := (recipe f, f.hashBlake3)

/-- Every row looks as before, or is one of `gone` that is gone. -/
def SameRowsBut (gone : String → String → Prop) (w t : World) : Prop :=
  ∀ b k, (t.db.files.find (b, k)).map look = (w.db.files.find (b, k)).map look ∨
    gone b k ∧ t.db.files.find (b, k) = none

abbrev SameRows : World → World → Prop := SameRowsBut fun _ _ => False

/-- A step that inserts no row and deletes those of `gone` only. -/
def RemovesOnly (gone : String → String → Prop) : Action → Prop
  | .upsertFile _ => False
  | .deleteBucketRow _ => False
  | .deleteFileRow b k => gone b k
  | _ => True

variable {sm : StorageManager} {h : Host} {u w t : World} {b k : String} {file : StoredFile}
  {gone gone' : String → String → Prop} {α : Type}

theorem look_touch (id : Uuid) (now : Time) (f : StoredFile) :
    look (Database.touch id now f) = look f := by
  unfold Database.touch
  split <;> rfl

namespace SameRowsBut

theorem of_files (hfiles : t.db.files = w.db.files) : SameRowsBut gone w t :=
  fun b k => .inl (by rw [hfiles])

theorem refl (w : World) : SameRowsBut gone w w := of_files rfl

theorem mono (hg : ∀ b k, gone b k → gone' b k) (hs : SameRowsBut gone w t) :
    SameRowsBut gone' w t :=
  fun b k => (hs b k).imp_right fun hnone => ⟨hg b k hnone.1, hnone.2⟩

theorem trans (hs : SameRowsBut gone w u) (hs' : SameRowsBut gone u t) : SameRowsBut gone w t := by
  intro b k
  cases hs' b k with
  | inr hnone => exact .inr hnone
  | inl hsame =>
    cases hs b k with
    | inl hbefore => exact .inl (hsame.trans hbefore)
    | inr hnone =>
      rw [hnone.2, Option.map_none, Option.map_eq_none_iff] at hsame
      exact .inr ⟨hnone.1, hsame⟩

theorem takes {st : Taken Response} (ht : Takes (exec h) w st t) (ha : RemovesOnly gone st.1) :
    SameRowsBut gone w t := by
  obtain ⟨a, r⟩ := st
  cases hrow : a.writesRow with
  | false => exact fun b k => .inl (takes_row look_touch ht hrow b k)
  | true =>
    cases a with
    | deleteFileRow b' k' =>
      intro b k
      cases takes_db ht with
      | inl hdb => exact .inl (by rw [hdb])
      | inr hdb =>
        have hfiles := (Database.deleteFileRow_ok hdb).1
        by_cases hbk : (b, k) = (b', k')
        · obtain ⟨rfl, rfl⟩ := Prod.ext_iff.mp hbk
          exact .inr ⟨ha, by rw [hfiles]; exact Table.find_erase_self⟩
        · exact .inl (by rw [hfiles, Table.find_erase_ne hbk])
    | upsertFile f => exact ha.elim
    | deleteBucketRow b' => exact ha.elim
    | _ => simp [Action.writesRow] at hrow

theorem of_uses {p : Op α} {x : Result α} (hp : p.Uses (RemovesOnly gone))
    (hr : p.Runs (exec h) w x t) : SameRowsBut gone w t := by
  have hstep : ∀ c a u, RemovesOnly gone a → SameRowsBut gone u (exec h c a u).2 := by
    intro c a u ha
    have ht : Takes (exec h) u ⟨a, (exec h c a u).1⟩ (exec h c a u).2 := ⟨c, rfl⟩
    exact takes ht ha
  exact hr.frame refl (fun _ _ _ => trans) hstep hp

end SameRowsBut

/-! ## Deletions and reads -/

/-- A program that drops no row, unless it answers that the object is not found. -/
def DropsOnlyLost (h : Host) (b k : String) (p : Op α) : Prop :=
  ∀ w, p.Ensures (exec h) (fun x t => x = .error (.notFound b k) ∨ SameRows w t) w

namespace DropsOnlyLost
variable {β : Type} {p : Op α} {f : α → Op β}

theorem of_uses (hp : p.Uses (RemovesOnly fun _ _ => False)) : DropsOnlyLost h b k p :=
  fun _ _ _ hr => .inr (.of_uses hp hr)

theorem bind (hp : DropsOnlyLost h b k p) (hf : ∀ a, DropsOnlyLost h b k (f a)) :
    DropsOnlyLost h b k (p.bind f) := by
  intro w
  rw [Prog.ensures_bind]
  refine (hp w).mono fun x u hu => ?_
  cases x with
  | error e =>
    refine hu.imp_left fun he => ?_
    rw [Except.error.inj he]
  | ok a =>
    have hsame : SameRows w u := hu.resolve_left (by simp)
    exact (hf a u).mono fun y t ht => ht.imp_right hsame.trans

theorem act {a : Action} {g : Response a → Op α} (ha : RemovesOnly (fun _ _ => False) a)
    (hg : ∀ r, DropsOnlyLost h b k (g r)) : DropsOnlyLost h b k (Prog.act a g : Op α) :=
  bind (p := .call a) (of_uses ⟨ha, fun _ => trivial⟩) hg

/-- Whatever becomes of the deletion, the object is answered as not found. -/
theorem given_up : DropsOnlyLost h b k
    ((deleteFile b k).attempt.bind fun _ => (.fail (.notFound b k) : Op α)) := by
  intro w
  rw [Prog.ensures_bind, Prog.ensures_attempt]
  intro x t _
  exact Prog.ensures_fail.mpr (.inl rfl)

end DropsOnlyLost

theorem deleteStep_removesOnly {a : Action} (ha : DeleteStep b k a) :
    RemovesOnly (fun b' k' => (b', k') = (b, k)) a := by
  cases ha with
  | deleteFileRow => rfl
  | _ => trivial

theorem deleteFile_sameRows {x : Result Unit} (hr : (deleteFile b k).Runs (exec h) w x t) :
    SameRowsBut (fun b' k' => (b', k') = (b, k)) w t :=
  .of_uses (deleteFile_steps.mono fun _ => deleteStep_removesOnly) hr

theorem readMetadata_removesNone : (readMetadata b k).Uses (RemovesOnly gone) := by
  simp only [readMetadata, dbGetFile, ofSqlx, step_eq, Prog.bind_eq, Prog.act_bind, Prog.ret_bind,
    Prog.pure_eq]
  refine ⟨trivial, fun hit => ?_⟩
  dsimp only
  split
  · trivial
  · refine ⟨trivial, fun r => ?_⟩
    refine Prog.Uses.bind (Prog.Uses.bind (Prog.uses_ofExcept _) fun found => ?_) fun f => ?_
    · cases found <;> trivial
    · exact ⟨trivial, fun _ => trivial⟩

theorem expireFile_drops : DropsOnlyLost h b k (expireFile b k file) := by
  simp only [expireFile, step_eq, Prog.bind_eq, Prog.act_bind, Prog.ret_bind, Prog.pure_eq]
  split
  · exact .of_uses trivial
  · refine .act trivial fun now => ?_
    split
    · exact .given_up
    · exact .of_uses trivial

theorem readContent_drops : DropsOnlyLost h b k (readContent b k file) := by
  simp only [readContent, step_eq, Prog.bind_eq, Prog.act_bind, Prog.ret_bind, Prog.pure_eq]
  refine .act trivial fun hit => ?_
  split
  · exact .of_uses trivial
  · refine .act trivial fun bytes => ?_
    split
    · exact .of_uses ⟨trivial, fun _ => trivial⟩
    · split
      · exact .given_up
      · exact .of_uses trivial

theorem decodeContent_removesNone (raw : Bytes) :
    (sm.decodeContent file raw).Uses (RemovesOnly gone) := by
  refine (decodeContent_uses sm file raw).mono fun a ha => ?_
  obtain ⟨keyId, rfl⟩ := ha
  trivial

/-- An object that is not found may have been dropped on the way; whatever else is answered,
every row is there. -/
theorem getFile_drops : DropsOnlyLost h b k (sm.getFile b k) := by
  simp only [getFile, step_eq, Prog.bind_eq, Prog.act_bind, Prog.ret_bind, Prog.pure_eq]
  refine .bind (.of_uses readMetadata_removesNone) fun file => ?_
  refine .bind expireFile_drops fun _ => ?_
  refine .bind readContent_drops fun raw => ?_
  refine .bind (.of_uses (decodeContent_removesNone raw)) fun content => ?_
  exact .of_uses ⟨trivial, fun _ => trivial⟩

theorem getFile_sameRows {x : Result (Bytes × Option String)}
    (hr : (sm.getFile b k).Runs (exec h) w x t) :
    SameRowsBut (fun b' k' => (b', k') = (b, k)) w t := by
  refine .of_uses (getFile_steps.mono fun a ha => ?_) hr
  cases ha with
  | delete hd => exact deleteStep_removesOnly hd
  | _ => trivial

theorem getFileRangeIfPlain_sameRows {start stop : Nat} {x : Result (Option (Bytes × String × Nat))}
    (hr : (getFileRangeIfPlain b k start stop).Runs (exec h) w x t) : SameRows w t := by
  refine .of_uses ?_ hr
  simp only [getFileRangeIfPlain, ofIo, step_eq, Prog.bind_eq, Prog.act_bind, Prog.ret_bind,
    Prog.pure_eq]
  refine Prog.Uses.bind readMetadata_removesNone fun file => ?_
  split
  · trivial
  · split
    · trivial
    · refine ⟨trivial, fun r => Prog.Uses.bind (Prog.uses_ofExcept _) fun buf => ?_⟩
      exact ⟨trivial, fun _ => trivial⟩

theorem getCompressedFileRange_sameRows {start stop : Nat}
    {x : Result (Option (Bytes × String × Nat))}
    (hr : (sm.getCompressedFileRange b k start stop).Runs (exec h) w x t) : SameRows w t := by
  refine .of_uses ?_ hr
  simp only [getCompressedFileRange, ofIo, step_eq, Prog.bind_eq, Prog.act_bind, Prog.ret_bind,
    Prog.pure_eq]
  refine Prog.Uses.bind readMetadata_removesNone fun file => ?_
  split
  · trivial
  · split
    · trivial
    · refine ⟨trivial, fun r => Prog.Uses.bind (Prog.uses_ofExcept _) fun compressed => ?_⟩
      refine Prog.Uses.bind (Prog.uses_ofExcept _) fun buf => ?_
      cases buf with
      | none => trivial
      | some buf => exact ⟨trivial, fun _ => trivial⟩

/-- The sweep drops what was listed as expired when it began. -/
theorem sweepExpiredFiles_sameRows {x : Result Nat}
    (hr : sweepExpiredFiles.Runs (exec h) w x t) :
    SameRowsBut (fun b k => ∃ f, w.db.files.find (b, k) = some f ∧
      Database.expired w.now f = true) w t := by
  have hens : sweepExpiredFiles.Ensures (exec h) (fun _ t => SameRowsBut (fun b k =>
      ∃ f, w.db.files.find (b, k) = some f ∧ Database.expired w.now f = true) w t) w := by
    simp only [sweepExpiredFiles, step_eq, Prog.bind_eq, Prog.act_bind, Prog.ret_bind]
    refine ensures_selectExpired (fun _ => .refl w) fun rank => ?_
    intro y u hu
    have hlisted : SameRowsBut (fun b k => (b, k) ∈ w.db.selectExpired w.now rank) w u := by
      refine .of_uses ((sweepFiles_steps _).mono fun a ha => ?_) hu
      obtain ⟨f, hf, hstep⟩ := ha
      cases hstep with
      | deleteFileRow => exact hf
      | _ => trivial
    exact hlisted.mono fun b k => Database.mem_selectExpired.mp
  exact hens x t hr

end StorageManager

end LocalStorage
