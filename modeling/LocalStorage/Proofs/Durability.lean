import LocalStorage.Proofs.Refinement

namespace LocalStorage.Proofs.Durability
open Lib StorageManager Refinement

/-! # An acknowledged upload stays -/

/-- No upload to the pair succeeds, nothing deletes it or its bucket, no read of it finds it
missing, and no call of the kind that would is killed. -/
def Spared (id : String × String) : LifeEvent → Prop
  | .serve (.call (.storeFile b k _ _ _ (.ok _))) => (b, k) ≠ id
  | .serve (.call (.getFile b k (.error e))) => (b, k) ≠ id ∨ e ≠ .notFound b k
  | .serve (.call (.deleteFile b k (.ok _))) => (b, k) ≠ id
  | .serve (.call (.deleteBucket b (.ok _))) => b ≠ id.1
  | .killed (.storeFile b k _ _ _ _) | .killed (.getFile b k _) | .killed (.deleteFile b k _) =>
    (b, k) ≠ id
  | .killed (.deleteBucket b _) => b ≠ id.1
  | _ => True

instance Spared.decide (id : String × String) : (e : LifeEvent) → Decidable (Spared id e)
  | .serve (.call (.storeFile _ _ _ _ _ (.ok _))) => inferInstanceAs (Decidable (_ ≠ _))
  | .serve (.call (.getFile _ _ (.error _))) => inferInstanceAs (Decidable (_ ∨ _ ≠ _))
  | .serve (.call (.deleteFile _ _ (.ok _))) => inferInstanceAs (Decidable (_ ≠ _))
  | .serve (.call (.deleteBucket _ (.ok _))) => inferInstanceAs (Decidable (_ ≠ _))
  | .killed (.storeFile ..) | .killed (.getFile ..) | .killed (.deleteFile ..) =>
    inferInstanceAs (Decidable (_ ≠ _))
  | .killed (.deleteBucket ..) => inferInstanceAs (Decidable (_ ≠ _))
  | .serve (.call (.storeFile _ _ _ _ _ (.error _))) | .serve (.call (.getFile _ _ (.ok _)))
  | .serve (.call (.deleteFile _ _ (.error _))) | .serve (.call (.deleteBucket _ (.error _)))
  | .serve (.call (.getFileRangeIfPlain ..)) | .serve (.call (.getCompressedFileRange ..))
  | .serve (.call (.sweepExpiredFiles _)) | .serve (.call (.evict _)) | .serve (.call (.tick _))
  | .serve (.createEncryptionKey ..) | .serve (.deactivateEncryptionKey ..)
  | .killed (.getFileRangeIfPlain ..) | .killed (.getCompressedFileRange ..)
  | .killed (.sweepExpiredFiles _) | .killed (.evict _) | .killed (.tick _) => isTrue trivial

variable {s s' : ObjectStore} {id : String × String} {o : Object}

/-- The object is where it was, or its time is over. -/
structure Stays (id : String × String) (o : Object) (s : ObjectStore) : Prop where
  there : s.object id = some o ∨ s.object id = none ∧ o.lapsed s.now = true

theorem Stays.read {b k : String} (h : Stays (b, k) o s) : s.read b k = o.answer s.now b k := by
  unfold ObjectStore.read
  obtain hthere | ⟨hgone, hlapsed⟩ := h.there
  · rw [hthere]
  · rw [hgone]
    exact (if_pos hlapsed).symm

theorem Stays.same (h : Stays id o s) (hclock : s.now ≤ s'.now)
    (hobject : s'.object id = s.object id) : Stays id o s' := by
  refine ⟨?_⟩
  rw [hobject]
  exact h.there.imp_right fun hgone => ⟨hgone.1, Object.lapsed_mono hclock hgone.2⟩

theorem Stays.update (h : Stays id o s) (hclock : s.now ≤ s'.now) {id' : String × String}
    {x : Option Object} (hne : id' ≠ id) (hobject : s'.object = Function.update s.object id' x) :
    Stays id o s' :=
  h.same hclock (by rw [hobject, Function.update_of_ne hne.symm])

theorem Stays.step {e : Event} (h : Stays id o s) (hsafe : Spared id (.serve (.call e)))
    (hstep : ObjectStore.Step e s s') : Stays id o s' := by
  obtain ⟨hclock, heffect⟩ := hstep
  have hall : s'.object = s.object → Stays id o s' :=
    fun hsame => h.same hclock (congrFun hsame id)
  cases e with
  | storeFile b k content ct opts x =>
    cases x with
    | error e => exact hall heffect
    | ok file =>
      obtain ⟨type, -, hupdate⟩ | ⟨hsame, -⟩ := heffect
      · exact h.update hclock hsafe hupdate
      · exact hall hsame
  | getFile b k x =>
    cases x with
    | ok y => exact hall heffect.2
    | error e =>
      obtain hsame | ⟨he, hupdate⟩ := heffect
      · exact hall hsame
      · exact h.update hclock (hsafe.resolve_right (not_not_intro he)) hupdate
  | deleteFile b k x =>
    cases x with
    | error e => exact hall heffect
    | ok u => exact h.update hclock hsafe heffect.2
  | deleteBucket b x =>
    cases x with
    | error e => exact hall heffect
    | ok u =>
      have hobject : s'.object = fun id => if id.1 = b then none else s.object id := heffect
      refine h.same hclock ?_
      rw [hobject]
      exact if_neg (Ne.symm hsafe)
  | sweepExpiredFiles x =>
    obtain hsame | ⟨hgone, o', ho', hlapsed⟩ := heffect id
    · exact h.same hclock hsame
    · obtain hthere | ⟨hnone, -⟩ := h.there
      · obtain rfl : o = o' := Option.some.inj (hthere.symm.trans ho')
        exact ⟨.inr ⟨hgone, hlapsed⟩⟩
      · rw [hnone] at ho'
        simp at ho'
  | tick elapsed => exact hall heffect.1
  | getFileRangeIfPlain b k start stop x => exact hall heffect
  | getCompressedFileRange b k start stop x => exact hall heffect
  | evict gone => exact hall heffect

/-- Whatever a killed call would have answered, it spares what the call is held to spare. -/
theorem Spared.sameCall {e e' : Event} (h : Spared id (.killed e)) (hsame : e.SameCall e') :
    Spared id (.serve (.call e')) := by
  cases hsame with
  | storeFile b k content ct opts x y => cases y with
    | ok file => exact h
    | error e => trivial
  | getFile b k x y => cases y with
    | ok z => trivial
    | error e => exact .inl h
  | deleteFile b k x y => cases y with
    | ok u => exact h
    | error e => trivial
  | deleteBucket b x y => cases y with
    | ok u => exact h
    | error e => trivial
  | _ => trivial

theorem Stays.transition {e : LifeEvent} (h : Stays id o s) (hsafe : Spared id e)
    (ht : ObjectStore.Transition e s s') : Stays id o s' := by
  cases e with
  | serve e =>
    cases e with
    | call e => exact h.step hsafe ht
    | createEncryptionKey algorithm x =>
      obtain rfl : s' = s := ht
      exact h
    | deactivateEncryptionKey keyId x =>
      obtain rfl : s' = s := ht
      exact h
  | killed e =>
    obtain ⟨e', hsame, hstep⟩ := ht
    exact h.step (hsafe.sameCall hsame) hstep

/-- In any run of the abstract store. -/
theorem Stays.run {P : ObjectStore → LifeEvent → Prop} {es : List LifeEvent} (h : Stays id o s)
    (hsafe : ∀ e ∈ es, Spared id e) (hrun : Run ObjectStore.Transition P s es s') :
    Stays id o s' :=
  hrun.invariant h fun e he _ _ hu _ ht => hu.transition (hsafe e he) ht

variable {sm : StorageManager} {w u v w' : World} {b k : String} {content : Bytes}
  {ct : Option String} {opts : StoreOptions} {file : StoredFile} {es es' : List LifeEvent}

open Sample (manager codecs_lawful ciphers_lawful blake3_injective)

def uploaded : World :=
  ((manager.storeFile "b" "k" [120] none {}).eval (exec manager.host) calm World.empty).2

def crashed : World :=
  ((manager.storeFile "c" "k" [121] none {}).after (exec manager.host)
    (List.replicate 6 calm) uploaded).cold

end LocalStorage.Proofs.Durability
