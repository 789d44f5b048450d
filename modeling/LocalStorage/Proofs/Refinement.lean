import LocalStorage.ObjectStore
import LocalStorage.Proofs.Crashes
import LocalStorage.Proofs.RowFates
import LocalStorage.Proofs.InheritedKeys
import LocalStorage.Proofs.ObjectSizes

namespace LocalStorage.Proofs.Refinement
open Lib Lib.Paths StorageManager CacheCoherence StoredBytes Crashes
open InheritedKeys (Needs)
open ObjectSizes (Steady)

/-! # The service is an object store -/

/-- The row and its bytes are those of the object. -/
structure StandsFor (sm : StorageManager) (w : World) (f : StoredFile) (o : Object) : Prop where
  contentType : f.contentType = o.contentType
  expiresAt : f.expiresAt = o.expiresAt
  hash : f.hashBlake3 = sm.lib.blake3 o.content
  content : ∃ raw, w.bytesAt sm.host f.filePath = some raw ∧ sm.decoded w.db f raw = .ok o.content

/-- The objects are those of the rows, and it is the same time. -/
structure Represents (sm : StorageManager) (w : World) (s : ObjectStore) : Prop where
  rows : ∀ b k, Option.Rel (StandsFor sm w) (w.db.files.find (b, k)) (s.object (b, k))
  clock : w.now = s.now

/-- The reader undoes the compression of such an upload. -/
def Readable (sm : StorageManager) (opts : StoreOptions) (content : Bytes) : Prop :=
  sm.config.compression.enabled = true ∨ (sm.compressStage opts content).2 = false

instance (sm : StorageManager) (opts : StoreOptions) (content : Bytes) :
    Decidable (Readable sm opts content) := inferInstanceAs (Decidable (_ ∨ _))

instance Steady.decideCall (sm : StorageManager) (Q : StoreOptions → Bytes → Prop)
    [∀ opts content, Decidable (Q opts content)] (w : World) (e : Event) :
    Decidable (Steady sm Q w (.call e)) :=
  inferInstanceAs (Decidable (StaysCoherent sm w e ∧ Spares sm w e ∧ Writes sm Q w e))

/-- The condition on each step, in the state it starts in: calls go by the cache unnoticed and
keep clear of the bytes of other rows, whatever a call that is killed would have answered; and
no key is deactivated that a row needs. -/
def Keeps (sm : StorageManager) (w : World) : LifeEvent → Prop
  | .serve (.call e) => Steady sm (Readable sm) w (.call e)
  | .serve (.createEncryptionKey ..) => True
  | .serve (.deactivateEncryptionKey keyId _) => ∀ f ∈ w.db.files.rows, ¬ Needs keyId f
  | .killed e => ∀ e', e.SameCall e' → Steady sm (Readable sm) w (.call e')

variable {sm : StorageManager} {w w' u : World} {s : ObjectStore} {f g : StoredFile} {o : Object}
  {b k : String} {content : Bytes} {ct : Option String} {opts : StoreOptions}
  {gone : String → String → Prop}

/-! ## Rows that stay -/

theorem StandsFor.frame (h : StandsFor sm w f o) (hlook : look g = look f)
    (hbytes : w'.bytesAt sm.host f.filePath = w.bytesAt sm.host f.filePath)
    (hdec : ∀ raw, sm.decoded w.db f raw = .ok o.content → sm.decoded w'.db f raw = .ok o.content) :
    StandsFor sm w' g o := by
  obtain ⟨hrecipe, hhash⟩ := Prod.mk.inj hlook
  obtain ⟨hpath, -, -, -, -, htype, hexp⟩ := recipe_eq.mp hrecipe
  obtain ⟨raw, hraw, hcontent⟩ := h.content
  refine ⟨htype.trans h.contentType, hexp.trans h.expiresAt, hhash.trans h.hash, raw, ?_, ?_⟩
  · rw [hpath, hbytes, hraw]
  · rw [decoded_congr hrecipe fun _ => rfl]
    exact hdec raw hcontent

/-- The objects whose rows are left. -/
def survivors (w' : World) (s : ObjectStore) (id : String × String) : Option Object :=
  if w'.db.files.find id = none then none else s.object id

theorem Represents.object_none (hr : Represents sm w s) (hnone : w.db.files.find (b, k) = none) :
    s.object (b, k) = none := by
  have hrel := hr.rows b k
  rw [hnone] at hrel
  generalize s.object (b, k) = x at hrel ⊢
  cases hrel with
  | none => rfl

theorem Represents.object_some (hr : Represents sm w s) (hf : w.db.files.find (b, k) = some f) :
    ∃ o, s.object (b, k) = some o ∧ StandsFor sm w f o := by
  have hrel := hr.rows b k
  rw [hf] at hrel
  generalize s.object (b, k) = x at hrel ⊢
  cases hrel with
  | some h => exact ⟨_, rfl, h⟩

theorem Represents.frame (hr : Represents sm w s) (hrows : SameRowsBut gone w w')
    (hbytes : ∀ f ∈ w'.db.files, w'.bytesAt sm.host f.filePath = w.bytesAt sm.host f.filePath)
    (hdec : ∀ f ∈ w.db.files, ∀ raw content, sm.decoded w.db f raw = .ok content →
      sm.decoded w'.db f raw = .ok content) :
    Represents sm w' ⟨survivors w' s, w'.now⟩ := by
  refine ⟨fun b k => ?_, rfl⟩
  simp only [survivors]
  cases hg : w'.db.files.find (b, k) with
  | none => exact .none
  | some g =>
    rw [if_neg (by simp)]
    have hsame := (hrows b k).resolve_right (by simp [hg])
    rw [hg, Option.map_some, eq_comm, Option.map_eq_some_iff] at hsame
    obtain ⟨f, hf, hlook⟩ := hsame
    obtain ⟨o, ho, hstands⟩ := hr.object_some hf
    have hpath : g.filePath = f.filePath := (recipe_eq.mp (Prod.mk.inj hlook).1.symm).1
    rw [ho]
    refine .some (hstands.frame hlook.symm ?_ fun raw => hdec f (Table.find_mem hf) raw _)
    rw [← hpath]
    exact hbytes g (Table.find_mem hg)

theorem survivors_of_kept (hr : Represents sm w s) (hrows : SameRowsBut gone w w')
    (hkept : ¬ gone b k) : survivors w' s (b, k) = s.object (b, k) := by
  unfold survivors
  split
  · rename_i hnone
    have hsame := (hrows b k).resolve_right fun h => hkept h.1
    rw [hnone, Option.map_none, eq_comm, Option.map_eq_none_iff] at hsame
    exact (hr.object_none hsame).symm
  · rfl

theorem survivors_eq (hr : Represents sm w s) (hrows : SameRows w w') : survivors w' s = s.object :=
  funext fun _ => survivors_of_kept hr hrows id

/-- Where one row may have gone, its object has gone with it or everything is as before. -/
theorem survivors_but_one (hr : Represents sm w s)
    (hrows : SameRowsBut (fun b' k' => (b', k') = (b, k)) w w') :
    survivors w' s = s.object ∨ w'.db.files.find (b, k) = none ∧
      survivors w' s = Function.update s.object (b, k) none := by
  by_cases hnone : w'.db.files.find (b, k) = none
  · refine .inr ⟨hnone, funext fun id => ?_⟩
    by_cases hid : id = (b, k)
    · rw [hid, Function.update_self, survivors, if_pos hnone]
    · rw [Function.update_of_ne hid]
      exact survivors_of_kept hr hrows hid
  · refine .inl (funext fun id => ?_)
    by_cases hid : id = (b, k)
    · rw [hid, survivors, if_neg hnone]
    · exact survivors_of_kept hr hrows hid

/-! ## Calls -/

/-- What decodes under the old keys decodes under the same ones. -/
theorem decoded_same_keys (hkeys : w'.db.encryptionKeys = w.db.encryptionKeys) (f : StoredFile)
    (raw : Bytes) : sm.decoded w'.db f raw = sm.decoded w.db f raw :=
  decoded_congr rfl (selectKey_congr hkeys) raw

/-- Rows that stay keep their bytes where every row repeats an earlier one. -/
theorem bytes_of_reduces (h : Reduces sm w w') (hf : f ∈ w'.db.files) :
    w'.bytesAt sm.host f.filePath = w.bytesAt sm.host f.filePath := by
  obtain ⟨g, -, hsame, hdisk⟩ := h f hf
  rw [hsame.filePath] at hdisk
  exact World.bytesAt_congr hdisk

theorem Represents.reduced (hr : Represents sm w s) (hrows : SameRowsBut gone w w')
    (hreduces : Reduces sm w w') (hkeys : w'.db.encryptionKeys = w.db.encryptionKeys) :
    Represents sm w' ⟨survivors w' s, w'.now⟩ :=
  hr.frame hrows (fun _ hf => bytes_of_reduces hreduces hf) fun f _ raw content hdec => by
    rw [decoded_same_keys hkeys, hdec]

theorem Represents.kept {ls : List Loc} (hr : Represents sm w s) (hk : Kept ls w w')
    (hclear : ∀ f ∈ w.db.files, sm.host.target f.filePath ∉ ls) :
    Represents sm w' ⟨s.object, w'.now⟩ := by
  have hsame : SameRows w w' := .of_files hk.files
  rw [← survivors_eq hr hsame]
  exact hr.reduced hsame (Reduces.of_files hk.files fun f hf => hk.disk _ (hclear f hf)) hk.keys

/-- A row is put in place, and the others keep their bytes. -/
theorem Represents.put {file : StoredFile} (hr : Represents sm w s) (hident : file.ident = (b, k))
    (hfiles : w'.db.files = w.db.files.put (Database.mergeRow (w.db.files.find file.ident) file))
    (hkeys : w'.db.encryptionKeys = w.db.encryptionKeys)
    (hbytes : ∀ f ∈ w.db.files, f.ident ≠ (b, k) →
      w'.bytesAt sm.host f.filePath = w.bytesAt sm.host f.filePath)
    (hfile : StandsFor sm w' (Database.mergeRow (w.db.files.find file.ident) file) o) :
    Represents sm w' ⟨Function.update s.object (b, k) (some o), w'.now⟩ := by
  refine ⟨fun b' k' => ?_, rfl⟩
  dsimp only
  rw [find_put_merged hfiles, hident]
  split
  · rename_i hown
    rw [hown, Function.update_self]
    rw [hident] at hfile
    exact .some hfile
  · rename_i hother
    rw [Function.update_of_ne hother]
    cases hf : w.db.files.find (b', k') with
    | none =>
      rw [hr.object_none hf]
      exact .none
    | some f =>
      obtain ⟨o', ho', hstands⟩ := hr.object_some hf
      rw [ho']
      have hne : f.ident ≠ (b, k) := by rwa [Table.find_key hf]
      refine .some (hstands.frame rfl (hbytes f (Table.find_mem hf) hne) fun raw hdec => ?_)
      rw [decoded_same_keys hkeys, hdec]

/-- An alias is read like the row it was made from, under its own type and expiry. -/
theorem StandsFor.aliased {existing : StoredFile} (old : Option StoredFile) (b k : String)
    (ct : Option String) (opts : StoreOptions) (id : Uuid) (now : Time)
    (h : StandsFor sm w existing o) (hinj : Function.Injective sm.lib.blake3)
    (hhash : existing.hashBlake3 = sm.lib.blake3 content)
    (hbytes : w'.bytesAt sm.host existing.filePath = w.bytesAt sm.host existing.filePath)
    (hkeys : w'.db.encryptionKeys = w.db.encryptionKeys) :
    o.content = content ∧ StandsFor sm w'
      (Database.mergeRow old (sm.aliasedFile b k content ct opts existing id now))
      ⟨content, ct.getD existing.contentType, opts.expiresAt⟩ := by
  have hcontent : o.content = content := hinj (h.hash.symm.trans hhash)
  obtain ⟨raw, hraw, hdec⟩ := h.content
  refine ⟨hcontent, ?_, ?_, by simp, raw, ?_, ?_⟩
  · exact (recipe_eq.mp (recipe_mergeRow old _)).2.2.2.2.2.1
  · exact (recipe_eq.mp (recipe_mergeRow old _)).2.2.2.2.2.2
  · rw [(recipe_eq.mp (recipe_mergeRow old _)).1, aliasedFile_filePath, hbytes, hraw]
  · have hread : recipe (Database.mergeRow old
        (sm.aliasedFile b k content ct opts existing id now)) =
        recipe { existing with
          contentType := ct.getD existing.contentType, expiresAt := opts.expiresAt } :=
      recipe_mergeRow old _
    rw [decoded_congr hread (selectKey_congr hkeys), ← hcontent]
    exact hdec

/-- A fresh upload is read back as its content. -/
theorem StandsFor.written (lawC : sm.lib.toCodecs.Lawful) (lawE : sm.lib.toCiphers.Lawful)
    {old : Option StoredFile} {processed : Bytes} {enc : Bool} {id : Uuid} {now : Time}
    (hread : Readable sm opts content)
    (henc : EncryptedAs sm w.db opts (sm.compressStage opts content).1 processed enc)
    (hw : Written sm.host w w' (sm.freshFile b k content ct opts (sm.compressStage opts content).2
      (sm.compressStage opts content).1.length processed enc id now) processed) :
    StandsFor sm w' (Database.mergeRow old (sm.freshFile b k content ct opts
      (sm.compressStage opts content).2 (sm.compressStage opts content).1.length processed enc id now))
      ⟨content, ct.getD "application/octet-stream", opts.expiresAt⟩ := by
  refine ⟨?_, ?_, by simp, processed, ?_, ?_⟩
  · exact (recipe_eq.mp (recipe_mergeRow old _)).2.2.2.2.2.1
  · exact (recipe_eq.mp (recipe_mergeRow old _)).2.2.2.2.2.2
  · rw [(recipe_eq.mp (recipe_mergeRow old _)).1]
    exact hw.bytesAt
  · obtain rfl := RoundTrip.encrypted_flag henc
    have hdec : sm.decoded w.db (RoundTrip.uploadRecord sm b k content ct opts) processed =
        .ok content := by
      rw [RoundTrip.decoded_processed lawC lawE henc]
      exact if_pos hread
    rw [decoded_congr (recipe_mergeRow old _) (selectKey_congr hw.keys)]
    exact hdec

theorem clock_runs {h : Host} {α : Type} {p : Op α} {x : Result α} (hr : p.Runs (exec h) w x w') :
    w.now ≤ w'.now := by
  refine hr.invariant (I := fun v => w.now ≤ v.now) (fun c a v hv => ?_) (le_refl _)
  have ht : Takes (exec h) v ⟨a, (exec h c a v).1⟩ (exec h c a v).2 := ⟨c, rfl⟩
  exact le_trans hv (takes_now ht)

theorem clock_transition {e : Event} (ht : e.Transition sm w w') : w.now ≤ w'.now := by
  cases e with
  | evict gone =>
    obtain rfl := ht
    exact le_refl _
  | tick elapsed =>
    obtain rfl := ht
    exact Int.le.intro elapsed rfl
  | _ => exact clock_runs ht

theorem Represents.stored (lawC : sm.lib.toCodecs.Lawful) (lawE : sm.lib.toCiphers.Lawful)
    (hinj : Function.Injective sm.lib.blake3) {x : Result StoredFile} (hr : Represents sm w s)
    (hspare : Spares sm w (.storeFile b k content ct opts x))
    (hwrite : Writes sm (Readable sm) w (.storeFile b k content ct opts x))
    (hrun : (sm.storeFile b k content ct opts).Runs (exec sm.host) w x w') :
    ∃ s', ObjectStore.Effect s s' (.storeFile b k content ct opts x) ∧ Represents sm w' s' := by
  have hunrecorded : Recorded sm w content → ¬ (sm.config.storage.enableDeduplication = true →
      ∀ f ∈ w.db.files, f.hashBlake3 ≠ sm.lib.blake3 content) := by
    intro hrec hnew
    obtain ⟨hdedup, f, hf, hhash⟩ := hrec
    exact hnew hdedup f hf hhash
  cases storeFile_spec x w' hrun with
  | rejected e hk =>
    exact ⟨⟨s.object, w'.now⟩, rfl, hr.kept hk fun _ _ => List.not_mem_nil⟩
  | broken e hnew henc hk =>
    refine ⟨⟨s.object, w'.now⟩, rfl, hr.kept hk fun f hf => ?_⟩
    obtain hrec | hcannot | hclear := hspare
    · exact absurd hnew (hunrecorded hrec)
    · obtain ⟨out, enc, henc⟩ := henc
      exact absurd henc hcannot.not_encrypted
    · exact hclear f hf
  | identical file hmem hident hhash hdedup hk =>
    refine ⟨⟨s.object, w'.now⟩, .inr ⟨rfl, ?_⟩, hr.kept hk fun _ _ => List.not_mem_nil⟩
    obtain ⟨o, ho, hstands⟩ := hr.object_some (hident ▸ Table.find_self hmem)
    exact ⟨o, ho, hinj (hstands.hash.symm.trans hhash)⟩
  | aliased existing id now hmem hident hhash hdedup ha =>
    obtain ⟨o, ho, hstands⟩ := hr.object_some (b := existing.bucket) (k := existing.key)
      (Table.find_self hmem)
    have hbytes : ∀ path, w'.bytesAt sm.host path = w.bytesAt sm.host path :=
      fun path => World.bytesAt_congr (ha.disk _)
    obtain ⟨hcontent, hfile⟩ := hstands.aliased (w.db.files.find (b, k)) b k ct opts id now hinj
      hhash (hbytes _) ha.keys
    refine ⟨_, .inl ⟨_, .inr ⟨_, o, ho, hcontent, ?_⟩, rfl⟩,
      hr.put (aliasedFile_ident ..) ha.files ha.keys (fun f _ _ => hbytes _) hfile⟩
    rw [← hstands.contentType]
  | fresh processed enc id now hnew henc hw =>
    have hclear : ∀ f ∈ w.db.files, f.ident ≠ (b, k) →
        w'.bytesAt sm.host f.filePath = w.bytesAt sm.host f.filePath := by
      intro f hf hne
      have hfree := hspare.resolve_left (fun hrec => hunrecorded hrec hnew) f hf
      have hout : sm.host.target f.filePath ∉ sm.places b k := fun hin => hfree ⟨hne, hin⟩
      simp only [places, List.mem_cons, List.not_mem_nil, or_false, not_or] at hout
      exact World.bytesAt_congr (hw.disk_ne hout.1 hout.2)
    have hread : Readable sm opts content :=
      hwrite.resolve_left fun hrec => hunrecorded hrec hnew
    exact ⟨_, .inl ⟨_, .inl rfl, rfl⟩, hr.put (freshFile_ident ..) hw.files hw.keys hclear
      (StandsFor.written lawC lawE hread henc hw)⟩

/-- A read answers what the store holds. -/
theorem Represents.read (hr : Represents sm w s) (hs : Sound sm w) (b k : String) :
    served sm w b k = s.read b k := by
  have hrecord : recordOf w.cold b k = w.db.files.find (b, k) := rfl
  rw [(hs.coherent b k).served_cold, served_eq]
  unfold readResult ObjectStore.read Object.answer
  rw [hrecord]
  cases hf : w.db.files.find (b, k) with
  | none => rw [hr.object_none hf]
  | some f =>
    obtain ⟨o, ho, hstands⟩ := hr.object_some hf
    obtain ⟨raw, hraw, hdec⟩ := hstands.content
    have hpast : past w.cold.now f.expiresAt = o.lapsed s.now := by
      rw [← hr.clock, hstands.expiresAt, Object.lapsed]
      cases o.expiresAt <;> rfl
    have hbytes : rawOf sm.host w.cold b k f = some raw := hraw
    have hdecoded : sm.decoded w.cold.db f raw = .ok o.content := hdec
    rw [ho]
    simp only [hpast, hbytes, hdecoded, hstands.contentType, Except.map]

/-- What holds of the world next to its representing a store: the cache is sound, and the rows
are backed by their bytes. -/
structure InOrder (sm : StorageManager) (w : World) : Prop where
  sound : Sound sm w
  backed : Backed sm (Readable sm) w

theorem InOrder.congr (h : InOrder sm u) (hsame : SameButCache w u) : InOrder sm w.cold := by
  have hfiles : w.cold.db.files = u.db.files := by rw [hsame.db]; rfl
  constructor
  · refine ⟨fun b k => Coherent.of_none rfl rfl, fun f hf => ?_⟩
    rw [hfiles] at hf
    exact h.sound.plain f hf
  · refine h.backed.reduced (Reduces.of_files hfiles fun f _ => ?_) (KeysKept.of_eq ?_)
    · rw [hsame.fs]
      rfl
    · rw [hsame.db]
      rfl

theorem Represents.congr (hr : Represents sm u s) (hsame : SameButCache w u) :
    Represents sm w.cold s := by
  have hbytes : ∀ path, w.cold.bytesAt sm.host path = u.bytesAt sm.host path := by
    intro path
    apply World.bytesAt_congr
    rw [hsame.fs]
    rfl
  have hdb : w.cold.db = u.db := hsame.db.symm
  refine ⟨fun b k => ?_, hsame.now.symm.trans hr.clock⟩
  cases hf : u.db.files.find (b, k) with
  | none =>
    rw [hdb, hf, hr.object_none hf]
    exact .none
  | some f =>
    obtain ⟨o, ho, hstands⟩ := hr.object_some hf
    rw [hdb, hf, ho]
    exact .some (hstands.frame rfl (hbytes _) fun raw hdec => by rw [hdb, hdec])

theorem Represents.got {x : Result (Bytes × Option String)} (hr : Represents sm w s)
    (ho : InOrder sm w) (hrun : (sm.getFile b k).Runs (exec sm.host) w x w')
    (hkeys : w'.db.encryptionKeys = w.db.encryptionKeys) :
    ∃ s', ObjectStore.Effect s s' (.getFile b k x) ∧ Represents sm w' s' := by
  have hrows := getFile_sameRows hrun
  have hreduces : Reduces sm w w' := reads_shrink.getFile w x w' hrun ho.backed.spelled
  have hlost := getFile_drops w x w' hrun
  refine ⟨⟨survivors w' s, w'.now⟩, ?_, hr.reduced hrows hreduces hkeys⟩
  cases x with
  | ok y =>
    have hread : s.read b k = .ok y := by
      rw [← hr.read ho.sound, served_eq]
      exact getFile_ok hrun
    exact ⟨hread, survivors_eq hr (hlost.resolve_left (by simp))⟩
  | error e =>
    obtain hsame | ⟨-, hgone⟩ := survivors_but_one hr hrows
    · exact .inl hsame
    · cases hlost with
      | inl he => exact .inr ⟨Except.error.inj he, hgone⟩
      | inr hsame => exact .inl (survivors_eq hr hsame)

theorem Represents.deleted {x : Result Unit} (hr : Represents sm w s) (ho : InOrder sm w)
    (hrun : (deleteFile b k).Runs (exec sm.host) w x w')
    (hkeys : w'.db.encryptionKeys = w.db.encryptionKeys) :
    ∃ s', ObjectStore.Effect s s' (.deleteFile b k x) ∧ Represents sm w' s' := by
  have hrows := deleteFile_sameRows hrun
  have hreduces : Reduces sm w w' := deleteFile_shrinking w x w' hrun ho.backed.spelled
  have hx := deleteFile_spec x w' hrun
  refine ⟨⟨survivors w' s, w'.now⟩, ?_, hr.reduced hrows hreduces hkeys⟩
  cases x with
  | error e =>
    obtain rfl : w' = w := hx
    exact survivors_eq hr (.refl w')
  | ok u =>
    obtain ⟨file, hd⟩ := hx
    obtain ⟨o, hobject, -⟩ := hr.object_some hd.row
    have hnone : w'.db.files.find (b, k) = none := by
      rw [hd.files]
      exact Table.find_erase_self
    refine ⟨by simp [hobject], ?_⟩
    obtain hsame | ⟨-, hgone⟩ := survivors_but_one hr hrows
    · have hlost : survivors w' s (b, k) = none := if_pos hnone
      rw [hsame, hobject] at hlost
      simp at hlost
    · exact hgone

theorem Represents.bucketDeleted (hr : Represents sm w s) (hd : BucketDeleted sm b w w')
    (hspare : SparesOthers sm w b) :
    ∃ s', ObjectStore.Effect s s' (.deleteBucket b (.ok ())) ∧ Represents sm w' s' := by
  have hfind : ∀ b' k', w'.db.files.find (b', k') =
      if b' = b then none else w.db.files.find (b', k') := by
    intro b' k'
    rw [hd.files]
    split
    · rename_i hb
      refine Table.find_filter_not fun f _ hf => ?_
      simp only [StoredFile.ident, Prod.mk.injEq] at hf
      simp [hf.1, hb]
    · rename_i hb
      refine Table.find_filter_of fun f _ hf => ?_
      simp only [StoredFile.ident, Prod.mk.injEq] at hf
      simp [hf.1, hb]
  have hrows : SameRowsBut (fun b' _ => b' = b) w w' := by
    intro b' k'
    rw [hfind]
    split
    · rename_i hb
      exact .inr ⟨hb, rfl⟩
    · exact .inl rfl
  refine ⟨⟨survivors w' s, w'.now⟩, funext fun id => ?_,
    hr.reduced hrows (Reduces.bucketDeleted hd hspare) hd.keys⟩
  obtain ⟨b', k'⟩ := id
  dsimp only
  split
  · rename_i hb
    exact if_pos (by rw [hfind, if_pos hb])
  · rename_i hb
    exact survivors_of_kept hr hrows hb

theorem Represents.swept {x : Result Nat} (hr : Represents sm w s) (ho : InOrder sm w)
    (hrun : sweepExpiredFiles.Runs (exec sm.host) w x w')
    (hkeys : w'.db.encryptionKeys = w.db.encryptionKeys) :
    ∃ s', ObjectStore.Effect s s' (.sweepExpiredFiles x) ∧ Represents sm w' s' := by
  have hrows := sweepExpiredFiles_sameRows hrun
  have hreduces : Reduces sm w w' := reads_shrink.sweepExpiredFiles w x w' hrun ho.backed.spelled
  refine ⟨⟨survivors w' s, w'.now⟩, fun id => ?_, hr.reduced hrows hreduces hkeys⟩
  obtain ⟨b, k⟩ := id
  by_cases hgone : ∃ f, w.db.files.find (b, k) = some f ∧ Database.expired w.now f = true
  · by_cases hnone : w'.db.files.find (b, k) = none
    · obtain ⟨f, hf, hexp⟩ := hgone
      obtain ⟨o, hobject, hstands⟩ := hr.object_some hf
      refine .inr ⟨if_pos hnone, o, hobject, ?_⟩
      unfold Database.expired at hexp
      rw [hstands.expiresAt] at hexp
      cases ht : o.expiresAt with
      | none => simp [ht] at hexp
      | some t =>
        simp only [ht, decide_eq_true_eq] at hexp
        simp only [Object.lapsed, ht, Option.any_some, decide_eq_true_eq]
        exact le_trans (le_of_lt hexp) (clock_runs hrun)
    · exact .inl (if_neg hnone)
  · exact .inl (survivors_of_kept hr hrows hgone)

theorem call_refines {e : Event} (lawC : sm.lib.toCodecs.Lawful) (lawE : sm.lib.toCiphers.Lawful)
    (hinj : Function.Injective sm.lib.blake3) (ho : InOrder sm w) (hr : Represents sm w s)
    (hp : Steady sm (Readable sm) w (.call e)) (ht : e.Transition sm w w') :
    ∃ s', ObjectStore.Step e s s' ∧ InOrder sm w' ∧ Represents sm w' s' := by
  obtain ⟨hcoherent, hspare, hwrite⟩ := hp
  have hin : InOrder sm w' :=
    ⟨step_sound lawE ho.sound hcoherent ht, call_backed ho.backed hspare hwrite ht⟩
  have hkeys : w'.db.encryptionKeys = w.db.encryptionKeys := Event.encryptionKeys ht
  have hsame : SameRows w w' → Reduces sm w w' → ∃ s' : ObjectStore, s'.object = s.object ∧
      Represents sm w' s' := fun hrows hreduces =>
    ⟨_, survivors_eq hr hrows, hr.reduced hrows hreduces hkeys⟩
  have heffect : ∃ s', ObjectStore.Effect s s' e ∧ Represents sm w' s' := by
    cases e with
    | storeFile b k content ct opts x => exact hr.stored lawC lawE hinj hspare hwrite ht
    | getFile b k x => exact hr.got ho ht hkeys
    | getFileRangeIfPlain b k start stop x =>
      have hreduces := reads_shrink.getFileRangeIfPlain start stop w x w' ht ho.backed.spelled
      exact hsame (getFileRangeIfPlain_sameRows ht) hreduces
    | getCompressedFileRange b k start stop x =>
      have hreduces := reads_shrink.getCompressedFileRange start stop w x w' ht ho.backed.spelled
      exact hsame (getCompressedFileRange_sameRows ht) hreduces
    | deleteFile b k x => exact hr.deleted ho ht hkeys
    | deleteBucket b x =>
      have hx := deleteBucket_spec x w' ht
      cases x with
      | ok u => exact hr.bucketDeleted hx hspare
      | error e =>
        obtain rfl : w' = w := hx
        exact ⟨s, rfl, hr⟩
    | sweepExpiredFiles x => exact hr.swept ho ht hkeys
    | evict gone =>
      obtain rfl := ht
      exact hsame (.of_files rfl) (Reduces.of_files rfl fun _ _ => rfl)
    | tick elapsed =>
      obtain rfl := ht
      obtain ⟨s', hobject, hrep⟩ := hsame (.of_files rfl) (Reduces.of_files rfl fun _ _ => rfl)
      refine ⟨s', ⟨hobject, ?_⟩, hrep⟩
      rw [← hr.clock, ← hrep.clock]
  obtain ⟨s', heffect, hrep⟩ := heffect
  refine ⟨s', ⟨?_, heffect⟩, hin, hrep⟩
  rw [← hr.clock, ← hrep.clock]
  exact clock_transition ht

/-! ## Keys, and processes that are killed -/

theorem Represents.onlyKeys (hr : Represents sm w s) (honly : OnlyKeys w w')
    (hdec : ∀ f ∈ w.db.files, ∀ raw content, sm.decoded w.db f raw = .ok content →
      sm.decoded w'.db f raw = .ok content) : Represents sm w' s := by
  have hrows : SameRows w w' := .of_files honly.files
  have hbytes : ∀ path, w'.bytesAt sm.host path = w.bytesAt sm.host path :=
    fun path => World.bytesAt_congr (by rw [honly.disk])
  have hsame := hr.frame hrows (fun _ _ => hbytes _) hdec
  rw [survivors_eq hr hrows, honly.clock, hr.clock] at hsame
  exact hsame

theorem InOrder.onlyKeys (h : InOrder sm w) (honly : OnlyKeys w w') : InOrder sm w' :=
  ⟨ObjectSizes.Sound.onlyKeys h.sound honly,
    h.backed.reduced (Reduces.of_files honly.files fun _ _ => by rw [honly.disk]) honly.keys⟩

theorem step_refines {e : LifeEvent} (lawC : sm.lib.toCodecs.Lawful) (lawE : sm.lib.toCiphers.Lawful)
    (hinj : Function.Injective sm.lib.blake3) (ho : InOrder sm w) (hr : Represents sm w s)
    (hp : Keeps sm w e) (ht : e.Transition sm w w') :
    ∃ s', ObjectStore.Transition e s s' ∧ InOrder sm w' ∧ Represents sm w' s' := by
  cases e with
  | serve e =>
    cases e with
    | call e => exact call_refines lawC lawE hinj ho hr hp ht
    | createEncryptionKey algorithm x =>
      obtain ⟨keyId, keyData, c, hc⟩ := ht
      have honly := createEncryptionKey_onlyKeys hc
      refine ⟨s, rfl, ho.onlyKeys honly, hr.onlyKeys honly fun f _ raw content hdec => ?_⟩
      obtain rfl | ⟨db, hdb, rfl⟩ := createEncryptionKey_world hc
      · exact hdec
      · exact InheritedKeys.decoded_undisturbed
          (fun id key _ hkey => Database.createKey_selectKey hdb hkey) hdec
    | deactivateEncryptionKey keyId x =>
      obtain ⟨c, hc⟩ := ht
      have honly := deactivateEncryptionKey_onlyKeys hc
      refine ⟨s, rfl, ho.onlyKeys honly, hr.onlyKeys honly fun f hf raw content hdec => ?_⟩
      obtain rfl | rfl := deactivateEncryptionKey_world hc
      · exact hdec
      · refine InheritedKeys.decoded_undisturbed (fun id key hneeds hkey => ?_) hdec
        have hne : id ≠ keyId := fun heq => hp f hf (heq ▸ hneeds)
        rw [Database.deactivateKey_selectKey_ne hne, hkey]
  | killed e =>
    obtain ⟨t, hstopped, rfl⟩ := ht
    obtain ⟨e', u, hsame, hcomplete, hcut⟩ := Stopped.completes hstopped
    obtain ⟨s', hstep, hin, hrep⟩ := call_refines lawC lawE hinj ho hr (hp e' hsame) hcomplete
    exact ⟨s', ⟨e', hsame, hstep⟩, hin.congr hcut, hrep.congr hcut⟩

/-- The relation that the simulation carries. -/
structure Matches (sm : StorageManager) (w : World) (s : ObjectStore) : Prop where
  inOrder : InOrder sm w
  represents : Represents sm w s

theorem Matches.initial (hfiles : w.db.files = Table.empty) (hcache : w.cache = Cache.empty) :
    Matches sm w (ObjectStore.vacant w.now) := by
  refine ⟨⟨Sound.initial hfiles hcache, Backed.initial hfiles⟩, fun b k => ?_, rfl⟩
  rw [hfiles]
  exact .none

theorem Matches.read (h : Matches sm w s) (b k : String) :
    served sm w b k = s.read b k ∧ served sm w.cold b k = s.read b k := by
  refine ⟨h.represents.read h.inOrder.sound b k, ?_⟩
  rw [← (h.inOrder.sound.coherent b k).served_cold]
  exact h.represents.read h.inOrder.sound b k

theorem step_matches {e : LifeEvent} (lawC : sm.lib.toCodecs.Lawful) (lawE : sm.lib.toCiphers.Lawful)
    (hinj : Function.Injective sm.lib.blake3) (h : Matches sm w s) (hp : Keeps sm w e)
    (ht : e.Transition sm w w') : ∃ s', ObjectStore.Transition e s s' ∧ Matches sm w' s' := by
  obtain ⟨s', hstep, hin, hrep⟩ := step_refines lawC lawE hinj h.inOrder h.represents hp ht
  exact ⟨s', hstep, hin, hrep⟩

theorem run_matches {es : List LifeEvent} (lawC : sm.lib.toCodecs.Lawful)
    (lawE : sm.lib.toCiphers.Lawful) (hinj : Function.Injective sm.lib.blake3)
    (h : Matches sm w s) (hrun : LifeRun sm (Keeps sm) w es w') :
    ∃ s', Run ObjectStore.Transition (fun _ _ => True) s es s' ∧ Matches sm w' s' :=
  hrun.simulate h fun _ _ _ _ hp ht hm => step_matches lawC lawE hinj hm hp ht

/-- Whether an upload may be killed hangs on whether it may succeed and whether it may fail. -/
theorem Keeps.killedUpload {x : Result StoredFile} (file : StoredFile) (e : StorageError)
    (hok : Steady sm (Readable sm) w (.call (.storeFile b k content ct opts (.ok file))))
    (hfail : Steady sm (Readable sm) w (.call (.storeFile b k content ct opts (.error e)))) :
    Keeps sm w (.killed (.storeFile b k content ct opts x)) := by
  intro e' hsame
  cases hsame with
  | storeFile b k content ct opts x y =>
    cases y with
    | ok file' => exact hok
    | error e' => exact hfail

/-! ## A short life -/

open Sample (manager codecs_lawful ciphers_lawful blake3_injective)

/-- An upload, another one of the same content, and a read. -/
def calls : List (Event × Choice) :=
  [(.storeFile "b" "k" [120] none {} (.error (.io "")), { uuid := 1 }),
    (.storeFile "b" "l" [120] (some "text/plain") {} (.error (.io "")), { uuid := 2 }),
    (.getFile "b" "l" (.error (.io "")), calm)]

def before : World := (replay manager calls ([], World.empty)).2

/-- Then an upload that the process does not survive. -/
def dying : Event := .storeFile "c" "k" [121] none {} (.error (.io ""))

def dyingFile : StoredFile := manager.freshFile "c" "k" [121] none {} false 1 [121] false 0 0

def halfWay : World :=
  (manager.storeFile "c" "k" [121] none {}).after (exec manager.host) (List.replicate 6 calm) before

end LocalStorage.Proofs.Refinement
