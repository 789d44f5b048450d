import LocalStorage.Proofs.RowIdentity
import LocalStorage.Proofs.RowRecords

namespace LocalStorage.Proofs.Integrity
open Lib Database StorageManager Service RowIdentity

/-! # The tables under everything the service does -/

/-- What the constraints of the tables promise of their rows, with the keys being ones that the
service drew. -/
structure Integral (db : Database) : Prop where
  rows : ∀ f ∈ db.files, checkRow f = .ok ()
  consistent : Consistent db
  buckets : ∀ f ∈ db.files, f.bucket ∈ db.buckets
  keys : ∀ f ∈ db.files, ∀ id, f.encryptionKeyId = some id → (db.encryptionKeys.find id).isSome
  bucketNames : db.buckets.Nodup
  bucketLengths : ∀ b ∈ db.buckets, b.length ≤ 255
  keyIds : ∀ key ∈ db.encryptionKeys, key.keyId.length ≤ 64
  keyData : ∀ key ∈ db.encryptionKeys, key.keyData.length = 32

variable {app : App} {h : Host} {w : World} {s : Server} {es : List ServerEvent} {db db' : Database}
  {f : StoredFile} {b k : String} {now : Time}

theorem Integral.initial (hfiles : db.files = Table.empty) (hbuckets : db.buckets = [])
    (hkeys : db.encryptionKeys = Table.empty) : Integral db := by
  refine ⟨?_, Consistent.initial hfiles, ?_, ?_, ?_, ?_, ?_, ?_⟩ <;>
    simp [hfiles, hbuckets, hkeys]

/-- Fewer rows, and nothing else is other. -/
theorem Integral.fewer (hi : Integral db) (hc : Consistent db') (hrows : ∀ f ∈ db'.files, f ∈ db.files)
    (hbuckets : db'.buckets = db.buckets) (hkeys : db'.encryptionKeys = db.encryptionKeys) :
    Integral db' where
  rows f hf := hi.rows f (hrows f hf)
  consistent := hc
  buckets f hf := hbuckets ▸ hi.buckets f (hrows f hf)
  keys f hf := hkeys ▸ hi.keys f (hrows f hf)
  bucketNames := hbuckets ▸ hi.bucketNames
  bucketLengths := hbuckets ▸ hi.bucketLengths
  keyIds := hkeys ▸ hi.keyIds
  keyData := hkeys ▸ hi.keyData

/-! ## Rows -/

/-- An upsert that is accepted has passed every check. -/
theorem upsertFile_passed (hs : db.upsertFile f = .ok db') :
    checkRow (mergeRow (db.files.find f.ident) f) = .ok () ∧ f.bucket ∈ db.buckets ∧
      ∀ id, f.encryptionKeyId = some id → (db.encryptionKeys.find id).isSome := by
  unfold upsertFile at hs
  simp only [except_bind_ok] at hs
  obtain ⟨u, hrow, hs⟩ := hs
  split at hs
  · simp [bind, Except.bind] at hs
  · simp only [except_bind_ok] at hs
    obtain ⟨_, hbucket, _, hkey, -⟩ := hs
    refine ⟨hrow, ?_, fun id hid => ?_⟩
    · unfold foreignKey at hbucket
      split at hbucket
      · rename_i hmem
        simpa using hmem
      · simp at hbucket
    · unfold foreignKey at hkey
      split at hkey
      · rename_i hall
        simpa [hid] using hall
      · simp at hkey

/-- Counting an access leaves a row that passes its checks. -/
theorem checkRow_touch (id : Uuid) (hf : checkRow f = .ok ()) : checkRow (touch id now f) = .ok () := by
  unfold touch
  split
  · simp only [checkRow, except_bind_ok, check] at hf ⊢
    obtain ⟨u, hvarchars, u₁, hcompressed, u₂, hencrypted, u₃, htime, u₄, hsize, u₅, horiginal, u₆,
      hcount, hrest⟩ := hf
    refine ⟨u, hvarchars, u₁, hcompressed, u₂, hencrypted, u₃, htime, u₄, hsize, u₅, horiginal, u₆,
      ?_, hrest⟩
    split at hcount
    · rename_i hle
      have hle : 0 ≤ f.accessCount := by simpa using hle
      have hmore : 0 ≤ f.accessCount + 1 := by omega
      simp [hmore]
    · simp at hcount
  · exact hf

theorem touch_encryptionKeyId (id : Uuid) (f : StoredFile) :
    (touch id now f).encryptionKeyId = f.encryptionKeyId := by
  unfold touch
  split <;> rfl

theorem Integral.touched {id : Uuid} (hi : Integral db)
    (hfiles : db'.files = db.files.update (touch id now) (touch_ident id now))
    (hbuckets : db'.buckets = db.buckets) (hkeys : db'.encryptionKeys = db.encryptionKeys) :
    Integral db' := by
  have hold : ∀ f ∈ db'.files, ∃ g ∈ db.files, touch id now g = f := by
    intro f hf
    rw [hfiles, Table.mem_update] at hf
    exact hf
  refine ⟨fun f hf => ?_, hi.consistent.accessed hfiles, fun f hf => ?_, fun f hf key hkey => ?_,
    hbuckets ▸ hi.bucketNames, hbuckets ▸ hi.bucketLengths, hkeys ▸ hi.keyIds, hkeys ▸ hi.keyData⟩
  all_goals obtain ⟨g, hg, rfl⟩ := hold f hf
  · exact checkRow_touch id (hi.rows g hg)
  · rw [touch_bucket, hbuckets]
    exact hi.buckets g hg
  · rw [touch_encryptionKeyId] at hkey
    rw [hkeys]
    exact hi.keys g hg key hkey

theorem Integral.saved (hi : Integral db) (hs : db.upsertFile f = .ok db') : Integral db' := by
  obtain ⟨hfiles, hbuckets, hkeys⟩ := upsertFile_ok hs
  obtain ⟨hrow, hbucket, hkey⟩ := upsertFile_passed hs
  have hcase : ∀ g ∈ db'.files, g = mergeRow (db.files.find f.ident) f ∨ g ∈ db.files := by
    intro g hg
    rw [hfiles, Table.mem_put] at hg
    exact hg.imp_right And.left
  refine ⟨fun g hg => ?_, hi.consistent.saved hs, fun g hg => ?_, fun g hg id hid => ?_, hbuckets ▸ hi.bucketNames,
    hbuckets ▸ hi.bucketLengths, hkeys ▸ hi.keyIds, hkeys ▸ hi.keyData⟩
  · obtain rfl | hg := hcase g hg
    · exact hrow
    · exact hi.rows g hg
  · rw [hbuckets]
    obtain rfl | hg := hcase g hg
    · rw [mergeRow_bucket]
      exact hbucket
    · exact hi.buckets g hg
  · rw [hkeys]
    obtain rfl | hg := hcase g hg
    · rw [mergeRow_encryptionKeyId] at hid
      exact hkey id hid
    · exact hi.keys g hg id hid

/-! ## Buckets -/

theorem Integral.bucketAdded (hi : Integral db) (hs : db.insertBucket b = .ok db') : Integral db' := by
  obtain ⟨hfiles, hkeys, -⟩ := insertBucket_ok hs
  have hbuckets : db'.buckets.Nodup ∧ (∀ a ∈ db'.buckets, a.length ≤ 255) ∧
      ∀ a ∈ db.buckets, a ∈ db'.buckets := by
    simp only [insertBucket, except_bind_ok, Except.ok.injEq] at hs
    obtain ⟨_, hfits, rfl⟩ := hs
    have hlen : b.length ≤ 255 := by
      unfold fits at hfits
      split at hfits
      · assumption
      · simp at hfits
    split
    · exact ⟨hi.bucketNames, hi.bucketLengths, fun a ha => ha⟩
    · rename_i hnew
      refine ⟨?_, fun a ha => ?_, fun a ha => List.mem_append_left _ ha⟩
      · rw [List.nodup_append]
        refine ⟨hi.bucketNames, List.nodup_singleton b, ?_⟩
        rintro a ha c hc rfl
        obtain rfl := List.mem_singleton.mp hc
        exact hnew (by simpa using ha)
      · obtain ha | ha := List.mem_append.mp ha
        · exact hi.bucketLengths a ha
        · obtain rfl := List.mem_singleton.mp ha
          exact hlen
  obtain ⟨hnodup, hlengths, hmore⟩ := hbuckets
  exact
    { rows := hfiles ▸ hi.rows
      consistent := hi.consistent.kept hfiles
      buckets := fun f hf => hmore _ (hi.buckets f (hfiles ▸ hf))
      keys := by
        rw [hfiles, hkeys]
        exact hi.keys
      bucketNames := hnodup
      bucketLengths := hlengths
      keyIds := hkeys ▸ hi.keyIds
      keyData := hkeys ▸ hi.keyData }

theorem Integral.bucketRemoved (hi : Integral db) (hs : db.deleteBucketRow b = some db') :
    Integral db' := by
  obtain ⟨-, hfiles, hkeys⟩ := deleteBucketRow_some hs
  have hold : ∀ f ∈ db'.files, f ∈ db.files ∧ f.bucket ≠ b := by
    intro f hf
    rw [hfiles, Table.mem_filter] at hf
    exact hf.imp_right fun hother => by simpa using hother
  have hbuckets : db'.buckets = db.buckets.filter (· ≠ b) := by
    unfold deleteBucketRow at hs
    split at hs
    · simp only [Option.some.injEq] at hs
      rw [← hs]
    · simp at hs
  exact
    { rows := fun f hf => hi.rows f (hold f hf).1
      consistent := hi.consistent.bucketErased hfiles
      buckets := fun f hf => by
        rw [hbuckets, List.mem_filter]
        exact ⟨hi.buckets f (hold f hf).1, by simpa using (hold f hf).2⟩
      keys := fun f hf => hkeys ▸ hi.keys f (hold f hf).1
      bucketNames := hbuckets ▸ hi.bucketNames.filter _
      bucketLengths := fun a ha => by
        rw [hbuckets, List.mem_filter] at ha
        exact hi.bucketLengths a ha.1
      keyIds := hkeys ▸ hi.keyIds
      keyData := hkeys ▸ hi.keyData }

theorem Integral.accepted {a : Action} (hi : Integral db) (ha : a.Accepted now db db') :
    Integral db' := by
  cases a with
  | insertBucket name => exact hi.bucketAdded ha
  | deleteBucketRow name => exact hi.bucketRemoved ha
  | upsertFile f => exact hi.saved ha
  | updateAccess id =>
    obtain ⟨hfiles | hfiles, hbuckets, hkeys⟩ := updateAccess_ok ha
    · exact hi.fewer (hi.consistent.kept hfiles) (fun f hf => hfiles ▸ hf) hbuckets hkeys
    · exact hi.touched hfiles hbuckets hkeys
  | deleteFileRow b k =>
    obtain ⟨hfiles, hbuckets, hkeys⟩ := deleteFileRow_ok ha
    refine hi.fewer (hi.consistent.erased ha) (fun f hf => ?_) hbuckets hkeys
    rw [hfiles, Table.mem_erase] at hf
    exact hf.1
  | _ => exact ha.elim

/-! ## Keys -/

/-- Keys that stay, and more of the right lengths. -/
theorem Integral.rekeyed (hi : Integral db) (hfiles : db'.files = db.files)
    (hbuckets : db'.buckets = db.buckets) (hkept : KeysKept db db')
    (hkeys : ∀ key ∈ db'.encryptionKeys, key.keyId.length ≤ 64 ∧ key.keyData.length = 32) :
    Integral db' where
  rows := hfiles ▸ hi.rows
  consistent := hi.consistent.kept hfiles
  buckets := by
    rw [hfiles, hbuckets]
    exact hi.buckets
  keys f hf id hid := by
    obtain ⟨key, hkey⟩ := Option.isSome_iff_exists.mp (hi.keys f (hfiles ▸ hf) id hid)
    obtain ⟨key', hkey', -⟩ := hkept id key hkey
    rw [hkey']
    rfl
  bucketNames := hbuckets ▸ hi.bucketNames
  bucketLengths := hbuckets ▸ hi.bucketLengths
  keyIds key hkey := (hkeys key hkey).1
  keyData key hkey := (hkeys key hkey).2

theorem Integral.keyCreated {keyId : String} {keyData : Bytes} (hi : Integral db)
    (hlen : keyData.length = 32) (hs : db.createKey keyId keyData = .ok db') : Integral db' := by
  obtain ⟨hfiles, hkept⟩ := createKey_ok hs
  simp only [Database.createKey, except_bind_ok] at hs
  obtain ⟨_, hfits, hs⟩ := hs
  have hid : keyId.length ≤ 64 := by
    unfold fits at hfits
    split at hfits
    · assumption
    · simp at hfits
  split at hs
  · simp at hs
  · simp only [Except.ok.injEq] at hs
    subst hs
    refine hi.rekeyed rfl rfl hkept fun key hkey => ?_
    obtain rfl | hkey := Table.mem_put.mp hkey
    · exact ⟨hid, hlen⟩
    · exact ⟨hi.keyIds key hkey.1, hi.keyData key hkey.1⟩

theorem Integral.keyDeactivated (keyId : String) (hi : Integral db) :
    Integral (db.deactivateKey keyId) := by
  refine hi.rekeyed rfl rfl (deactivateKey_kept keyId) fun key hkey => ?_
  rw [Database.deactivateKey, Table.mem_update] at hkey
  obtain ⟨old, hold, rfl⟩ := hkey
  unfold deactivated
  split
  · exact ⟨hi.keyIds old hold, hi.keyData old hold⟩
  · exact ⟨hi.keyIds old hold, hi.keyData old hold⟩

/-- A key that is there stays, with its bytes, and is not active again once it was not. -/
def Settled (db db' : Database) : Prop :=
  ∀ id key, db.encryptionKeys.find id = some key →
    ∃ key', db'.encryptionKeys.find id = some key' ∧ key'.keyData = key.keyData ∧
      (key'.isActive = some true → key.isActive = some true)

theorem Settled.of_eq (hkeys : db'.encryptionKeys = db.encryptionKeys) : Settled db db' :=
  fun _ key hkey => ⟨key, hkeys ▸ hkey, rfl, id⟩

theorem Settled.trans {u : Database} (h : Settled u db) (h' : Settled db db') : Settled u db' := by
  intro id key hkey
  obtain ⟨key₁, hkey₁, hdata₁, hactive₁⟩ := h id key hkey
  obtain ⟨key₂, hkey₂, hdata₂, hactive₂⟩ := h' id key₁ hkey₁
  exact ⟨key₂, hkey₂, hdata₂.trans hdata₁, fun ha => hactive₁ (hactive₂ ha)⟩

theorem settled_created {keyId : String} {keyData : Bytes}
    (hs : db.createKey keyId keyData = .ok db') : Settled db db' := by
  simp only [Database.createKey, except_bind_ok] at hs
  obtain ⟨-, -, hs⟩ := hs
  split at hs
  · simp at hs
  · rename_i hnew
    simp only [Except.ok.injEq] at hs
    subst hs
    intro id key hkey
    have hne : id ≠ keyId := by
      rintro rfl
      simp [hkey] at hnew
    exact ⟨key, (Table.find_put_ne hne).trans hkey, rfl, fun ha => ha⟩

theorem settled_deactivated (keyId : String) : Settled db (db.deactivateKey keyId) := by
  intro id key hkey
  refine ⟨deactivated keyId key, ?_, ?_, ?_⟩
  · rw [Database.deactivateKey, Table.find_update, hkey]
    rfl
  · unfold deactivated
    split <;> rfl
  · unfold deactivated
    split
    · simp
    · exact fun ha => ha

/-! ## Any history of the server -/

/-- A key that is inserted has the length that a cipher takes. -/
def Asked : ServiceAction → Prop
  | .insertKey _ keyData => keyData.length = 32
  | _ => True

def Heard (a : ServiceAction) (_ : ServiceResponse a) : Prop := True

/-- Only the creation of a key inserts one, with bytes that were drawn for it. -/
theorem call_asks (call : Call) : (call.task app).Honours Heard Asked := by
  refine call_honours (fun p _ => Prog.honours_of_free (fun _ => trivial) p) (fun a ha => ?_)
    (fun _ data => data.property) fun _ _ => trivial
  cases a with
  | insertKey keyId keyData => exact ha.elim
  | _ => trivial

theorem integral_step {c : ServiceChoice} {a : ServiceAction} (hi : Integral w.db) (ha : Asked a) :
    Integral (execService h c a w).2.db ∧ Settled w.db (execService h c a w).2.db := by
  cases a with
  | object a =>
    have ht : Takes (exec h) w ⟨a, (exec h c.toChoice a w).1⟩ (exec h c.toChoice a w).2 := ⟨_, rfl⟩
    have hkeys : (exec h c.toChoice a w).2.db.encryptionKeys = w.db.encryptionKeys :=
      takes_encryptionKeys ht
    refine ⟨?_, Settled.of_eq hkeys⟩
    obtain hsame | haccepted := takes_db ht
    · exact hsame ▸ hi
    · exact hi.accepted haccepted
  | insertKey keyId keyData =>
    obtain hsame | ⟨db, hdb, hsame⟩ :=
      statement_world (c := c.toChoice) (w := w) (x := w.db.createKey keyId keyData)
    · simp only [execService, hsame]
      exact ⟨hi, Settled.of_eq rfl⟩
    · simp only [execService, hsame]
      exact ⟨hi.keyCreated ha hdb, settled_created hdb⟩
  | deactivateKey keyId =>
    obtain hsame | ⟨db, hdb, hsame⟩ :=
      statement_world (c := c.toChoice) (w := w) (x := .ok (w.db.deactivateKey keyId))
    · simp only [execService, hsame]
      exact ⟨hi, Settled.of_eq rfl⟩
    · obtain rfl := Except.ok.inj hdb
      simp only [execService, hsame]
      exact ⟨hi.keyDeactivated keyId, settled_deactivated keyId⟩
  | _ => exact ⟨hi, Settled.of_eq rfl⟩

end LocalStorage.Proofs.Integrity
