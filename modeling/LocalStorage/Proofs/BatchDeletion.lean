import LocalStorage.S3Deletes
import LocalStorage.Proofs.CacheCoherence
import LocalStorage.Proofs.Effects
import LocalStorage.Proofs.Erasures

namespace LocalStorage.Proofs.BatchDeletion
open Lib Lib.Paths StorageManager CacheCoherence S3
open Erasures (DistinctFiles)

/-! # What a batch deletion reports -/

/-- The cache says what table and disk say, and different path strings name different files. -/
structure Tidy (sm : StorageManager) (w : World) : Prop where
  sound : Sound sm w
  distinct : DistinctFiles sm.host w

/-- Every key but `gone` of the bucket reads as before. -/
def ReadsBut (sm : StorageManager) (b : String) (gone : String → Prop) (w t : World) : Prop :=
  ∀ b' k', served sm t b' k' = served sm w b' k' ∨
    (b' = b ∧ gone k') ∧ served sm t b' k' = .error (.notFound b' k')

/-- What has happened when the keys of `gone` have been deleted, and no others. -/
structure Removed (sm : StorageManager) (b : String) (gone : String → Prop) (w t : World) :
    Prop where
  absent : ∀ k, gone k → t.db.files.find (b, k) = none
  others : ∀ b' k', ¬ (b' = b ∧ gone k') → t.db.files.find (b', k') = w.db.files.find (b', k')
  fewer : ∀ f ∈ t.db.files, f ∈ w.db.files
  bytes : DistinctFiles sm.host w → ∀ f ∈ t.db.files,
    t.bytesAt sm.host f.filePath = w.bytesAt sm.host f.filePath
  keys : t.db.encryptionKeys = w.db.encryptionKeys
  clock : t.now = w.now

variable {sm : StorageManager} {w u t : World} {b k : String} {gone gone' : String → Prop}

namespace Removed

theorem refl (hnone : ∀ k, gone k → w.db.files.find (b, k) = none) : Removed sm b gone w w :=
  ⟨hnone, fun _ _ _ => rfl, fun _ hf => hf, fun _ _ _ => rfl, rfl, rfl⟩

theorem trans (h : Removed sm b gone w u) (h' : Removed sm b gone' u t) :
    Removed sm b (fun k => gone k ∨ gone' k) w t where
  absent k hk := by
    by_cases hlater : gone' k
    · exact h'.absent k hlater
    · rw [h'.others b k fun hand => hlater hand.2]
      exact h.absent k (hk.resolve_right hlater)
  others b' k' hkept := by
    rw [h'.others b' k' fun hand => hkept ⟨hand.1, .inr hand.2⟩]
    exact h.others b' k' fun hand => hkept ⟨hand.1, .inl hand.2⟩
  fewer f hf := h.fewer f (h'.fewer f hf)
  bytes hdist f hf := by
    have hdist' : DistinctFiles sm.host u :=
      fun f hf g hg => hdist f (h.fewer f hf) g (h.fewer g hg)
    rw [h'.bytes hdist' f hf]
    exact h.bytes hdist f (h'.fewer f hf)
  keys := h'.keys.trans h.keys
  clock := h'.clock.trans h.clock

theorem congr (h : Removed sm b gone w t) (hiff : ∀ k, gone k ↔ gone' k) :
    Removed sm b gone' w t := by
  obtain rfl : gone = gone' := funext fun k => propext (hiff k)
  exact h

/-- Reads go by what is left of rows and bytes. -/
theorem reads (h : Removed sm b gone w t) (hw : Tidy sm w) (ht : Tidy sm t) :
    ReadsBut sm b gone w t := by
  intro b' k'
  by_cases hgone : b' = b ∧ gone k'
  · obtain ⟨rfl, hgone⟩ := hgone
    refine .inr ⟨⟨rfl, hgone⟩, ?_⟩
    have hrecord : recordOf t.cold b' k' = none := h.absent k' hgone
    rw [(ht.sound.coherent b' k').served_cold, served_eq]
    unfold readResult
    rw [hrecord]
  · refine .inl ((hw.sound.coherent b' k').served_congr (ht.sound.coherent b' k') ?_ ?_ ?_ h.clock)
    · rw [h.others b' k' hgone]
    · intro g hg
      rw [← h.others b' k' hgone] at hg
      exact h.bytes hw.distinct g (Table.find_mem hg)
    · exact selectKey_congr h.keys

end Removed

/-! ## One deletion -/

theorem Removed.deleted {file : StoredFile} (hd : Deleted sm.host b k file w t) :
    Removed sm b (· = k) w t := by
  refine ⟨?_, fun b' k' hne => ?_, fun f hf => ?_, fun hdist f hf => ?_, hd.keys, hd.clock⟩
  · rintro _ rfl
    rw [hd.files]
    exact Table.find_erase_self
  · rw [hd.files]
    exact Table.find_erase_ne fun heq => hne (Prod.mk.inj heq)
  · rw [hd.files, Table.mem_erase] at hf
    exact hf.1
  · rw [hd.files, Table.mem_erase] at hf
    apply World.bytesAt_congr
    obtain hsame | ⟨halone, hdisk⟩ := hd.disk
    · exact hsame _
    · rw [hdisk, if_neg]
      intro hplace
      exact hf.2 (halone f hf.1 (hdist f hf.1 file (Table.find_mem hd.row) hplace))

/-- A query that fails, fails as a database error. -/
theorem ensures_ofSqlx {h : Host} {α β : Type} {q : Query β} {f : β → Op α}
    {Q : Result α → World → Prop} (hok : ∀ y, q = .ok y → (f y).Ensures (exec h) Q w)
    (herr : ∀ e, Q (.error (.ofSqlx e)) w) : ((ofSqlx q).bind f).Ensures (exec h) Q w := by
  cases q with
  | ok y => exact hok y rfl
  | error e => exact Prog.ensures_fail.mpr (herr e)

/-- A deletion that answers not found has found no row. -/
theorem deleteFile_missing {h : Host} :
    (deleteFile b k).Ensures (exec h)
      (fun x _ => ∀ b' k', x = .error (.notFound b' k') → w.db.files.find (b, k) = none) w := by
  simp only [deleteFile, step_eq, Prog.bind_eq, Prog.act_bind, Prog.ret_bind, Prog.pure_eq]
  refine Prog.ensures_act.mpr fun c => ensures_ofSqlx (fun path hpath => ?_) (by simp [StorageError.ofSqlx])
  obtain rfl := answer_eq_ok hpath
  cases hrow : w.db.files.find (b, k) with
  | none =>
    simp only [Database.selectFile, hrow, Option.map_none]
    exact Prog.ensures_fail.mpr fun _ _ _ => trivial
  | some file =>
    simp only [Database.selectFile, hrow, Option.map_some]
    refine Prog.ensures_act.mpr fun c' => ensures_ofSqlx (fun n _ => ?_) (by simp [StorageError.ofSqlx])
    refine Prog.ensures_act.mpr fun c'' => ensures_ofSqlx (fun _ _ => ?_) (by simp [StorageError.ofSqlx])
    split
    · apply ensures_removeFile <;> simp [ensures_invalidateFile]
    · simp [ensures_invalidateFile]

/-- What one deletion does: the row goes, was not there, or the call fails and nothing does. -/
theorem deleteFile_removed {x : Result Unit} (hrun : (deleteFile b k).Runs (exec sm.host) w x t) :
    ((∃ b' k', x = .error (.notFound b' k')) ∨ x = .ok ()) ∧ Removed sm b (· = k) w t ∨
      (∃ e, x = .error e ∧ ∀ b' k', e ≠ .notFound b' k') ∧ t = w := by
  have hspec := deleteFile_spec x t hrun
  cases x with
  | ok u =>
    obtain ⟨file, hd⟩ := hspec
    exact .inl ⟨.inr rfl, .deleted hd⟩
  | error e =>
    obtain rfl : t = w := hspec
    by_cases hmissing : ∃ b' k', e = .notFound b' k'
    · obtain ⟨b', k', rfl⟩ := hmissing
      refine .inl ⟨.inl ⟨b', k', rfl⟩, .refl ?_⟩
      rintro _ rfl
      exact deleteFile_missing _ t hrun b' k' rfl
    · exact .inr ⟨⟨e, rfl, fun b' k' he => hmissing ⟨b', k', he⟩⟩, rfl⟩

theorem Tidy.deleteFile {x : Result Unit} (hw : Tidy sm w)
    (hrun : (deleteFile b k).Runs (exec sm.host) w x t) : Tidy sm t := by
  refine ⟨deleteFile_sound hw.sound (fun f hf _ g hg _ => hw.distinct g hg f hf) x t hrun, ?_⟩
  have hfewer : ∀ f ∈ t.db.files, f ∈ w.db.files := by
    obtain ⟨-, hremoved⟩ | ⟨-, rfl⟩ := deleteFile_removed hrun
    · exact hremoved.fewer
    · exact fun _ hf => hf
  exact fun f hf g hg => hw.distinct f (hfewer f hf) g (hfewer g hg)

/-! ## The loop -/

/-- The report on `keys`: every key of the request once and in its order, and as the state
before and the state after have it. -/
structure Reported (sm : StorageManager) (b : String) (keys : List String) (r : DeleteResult)
    (w t : World) : Prop where
  every : (r.deleted ++ r.error.map (·.key)).Perm keys
  deletedInOrder : r.deleted.Sublist keys
  failedInOrder : (r.error.map (·.key)).Sublist keys
  removed : Removed sm b (· ∈ r.deleted) w t
  tidy : Tidy sm w → Tidy sm t

theorem Reported.nil (w : World) : Reported sm b [] {} w w :=
  ⟨.nil, .slnil, .slnil, .refl (by simp), id⟩

theorem Reported.cons_deleted {keys : List String} {r : DeleteResult} (htidy : Tidy sm w → Tidy sm u)
    (hfirst : Removed sm b (· = k) w u) (h : Reported sm b keys r u t) :
    Reported sm b (k :: keys) { r with deleted := k :: r.deleted } w t where
  every := h.every.cons k
  deletedInOrder := h.deletedInOrder.cons_cons k
  failedInOrder := h.failedInOrder.cons k
  removed := (hfirst.trans h.removed).congr (by simp)
  tidy := h.tidy ∘ htidy

theorem Reported.cons_failed {keys : List String} {r : DeleteResult} (entry : DeleteErrorEntry)
    (h : Reported sm b keys r w t) :
    Reported sm b (entry.key :: keys) { r with error := entry :: r.error } w t where
  every := List.perm_middle.trans (h.every.cons entry.key)
  deletedInOrder := h.deletedInOrder.cons entry.key
  failedInOrder := h.failedInOrder.cons_cons entry.key
  removed := h.removed
  tidy := h.tidy

/-- Two reports one after the other. -/
def joined (r r' : DeleteResult) : DeleteResult :=
  ⟨r.deleted ++ r'.deleted, r.error ++ r'.error⟩

theorem deleteObjects_reports (keys : List String) (acc : DeleteResult) :
    (deleteObjects b keys acc).Ensures (exec sm.host)
      (fun x t => ∃ r, x = .ok (joined acc r) ∧ Reported sm b keys r w t) w := by
  induction keys generalizing acc w with
  | nil =>
    simp only [deleteObjects, Prog.pure_eq, Prog.ensures_ret]
    exact ⟨{}, by simp [joined], .nil w⟩
  | cons k keys ih =>
    simp only [deleteObjects, Prog.bind_eq, orS3]
    rw [Prog.ensures_bind]
    intro y u hy
    obtain ⟨z, rfl, hz⟩ := Prog.runs_mapError.mp hy
    obtain ⟨x, rfl, hrun⟩ := Prog.runs_attempt.mp hz
    have hgone : Removed sm b (· = k) w u →
        (deleteObjects b keys { acc with deleted := acc.deleted ++ [k] }).Ensures (exec sm.host)
          (fun x t => ∃ r, x = .ok (joined acc r) ∧ Reported sm b (k :: keys) r w t) u := by
      intro hfirst
      refine (ih _).mono fun x t hx => ?_
      obtain ⟨r, rfl, hr⟩ := hx
      refine ⟨{ r with deleted := k :: r.deleted }, ?_, hr.cons_deleted (·.deleteFile hrun) hfirst⟩
      simp [joined]
    obtain ⟨⟨b', k', rfl⟩ | rfl, hfirst⟩ | ⟨⟨e, rfl, hother⟩, rfl⟩ := deleteFile_removed hrun
    · exact hgone hfirst
    · exact hgone hfirst
    · have hfailed : (deleteObjects b keys
            { acc with error := acc.error ++ [⟨k, "InternalError", display e⟩] }).Ensures
          (exec sm.host)
          (fun x t => ∃ r, x = .ok (joined acc r) ∧ Reported sm b (k :: keys) r u t) u := by
        refine (ih _).mono fun x t hx => ?_
        obtain ⟨r, rfl, hr⟩ := hx
        refine ⟨{ r with error := ⟨k, "InternalError", display e⟩ :: r.error }, ?_,
          hr.cons_failed ⟨k, "InternalError", display e⟩⟩
        simp [joined]
      cases e with
      | notFound b' k' => exact absurd rfl (hother b' k')
      | _ => exact hfailed

/-! ## The requests -/

/-- A batch deletion that is answered is reported truly; one that is refused changes nothing. -/
theorem bucketPost_reports {parse : String → Except String (List String)}
    {verified : Except S3Error Unit} {query : List (String × String)} {body : Bytes}
    {x : Except S3Error DeleteResult}
    (hrun : (bucketPost parse verified b query body).Runs (exec sm.host) w x t) :
    (∃ r keys, x = .ok r ∧ verified = .ok () ∧ query.any (·.1 = "delete") = true ∧
      readDeleteRequest parse body = .ok keys ∧ Reported sm b keys r w t ∧
      (Tidy sm w → ReadsBut sm b (· ∈ r.deleted) w t)) ∨
    (∃ e, x = .error e) ∧ t = w := by
  simp only [bucketPost, Prog.bind_eq] at hrun
  cases verified with
  | error e =>
    obtain ⟨rfl, rfl⟩ := hrun
    exact .inr ⟨⟨e, rfl⟩, rfl⟩
  | ok v =>
    simp only [Prog.ofExcept_ok, Prog.ret_bind] at hrun
    split at hrun
    · rename_i hdelete
      cases hread : readDeleteRequest parse body with
      | error e =>
        rw [hread] at hrun
        obtain ⟨rfl, rfl⟩ := hrun
        exact .inr ⟨⟨e, rfl⟩, rfl⟩
      | ok keys =>
        rw [hread] at hrun
        obtain ⟨r, rfl, hr⟩ := deleteObjects_reports keys {} x t hrun
        have hjoined : joined {} r = r := by simp [joined]
        exact .inl ⟨r, keys, by rw [hjoined], rfl, hdelete, rfl, hr,
          fun hw => hr.removed.reads hw (hr.tidy hw)⟩
    · obtain ⟨rfl, rfl⟩ := hrun
      exact .inr ⟨⟨_, rfl⟩, rfl⟩

/-! ## One request -/

def deleteText : String := "<Delete><Object><Key>k</Key></Object><Object><Key>l</Key></Object></Delete>"

/-- What the XML library makes of this one text. -/
def parseDelete (text : String) : Except String (List String) :=
  if text = deleteText then .ok ["k", "l"] else .error "unexpected text"

def stored : World :=
  ((Sample.manager.storeFile "b" "k" [120] none {}).eval (exec Sample.host) calm World.empty).2

def answered : Except S3Error DeleteResult × World :=
  (bucketPost parseDelete (.ok ()) "b" [("delete", "")] deleteText.toUTF8.toList).eval
    (exec Sample.manager.host) calm stored

theorem bucketPost_sample :
    (∃ r keys, answered.1 = .ok r ∧ (Except.ok () : Except S3Error Unit) = .ok () ∧
      [("delete", "")].any (·.1 = "delete") = true ∧
      readDeleteRequest parseDelete deleteText.toUTF8.toList = .ok keys ∧
      Reported Sample.manager "b" keys r stored answered.2 ∧
      (Tidy Sample.manager stored → ReadsBut Sample.manager "b" (· ∈ r.deleted) stored answered.2)) ∨
    (∃ e, answered.1 = .error e) ∧ answered.2 = stored :=
  bucketPost_reports (Prog.eval_runs calm _ stored)

end LocalStorage.Proofs.BatchDeletion
