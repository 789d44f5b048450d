import LocalStorage.Steps
import LocalStorage.Proofs.Statements

namespace LocalStorage
open Lib Lib.Paths

/-- Nothing a read depends on has changed, but for the disk at the places `ls`. -/
structure Kept (ls : List Loc) (w w' : World) : Prop where
  files : w'.db.files = w.db.files
  keys : w'.db.encryptionKeys = w.db.encryptionKeys
  cache : w'.cache = w.cache
  disk : ∀ l, l ∉ ls → w'.fs.fileAt l = w.fs.fileAt l
  clock : w.now ≤ w'.now

namespace Kept

variable {ls ms : List Loc} {u v w : World}

theorem refl (ls : List Loc) (w : World) : Kept ls w w :=
  ⟨rfl, rfl, rfl, fun _ _ => rfl, le_refl _⟩

theorem mono (h : Kept ls u v) (hsub : ls ⊆ ms) : Kept ms u v :=
  { h with disk := fun l hl => h.disk l (fun hm => hl (hsub hm)) }

theorem trans (h : Kept ls u v) (h' : Kept ls v w) : Kept ls u w where
  files := h'.files.trans h.files
  keys := h'.keys.trans h.keys
  cache := h'.cache.trans h.cache
  disk l hl := (h'.disk l hl).trans (h.disk l hl)
  clock := le_trans h.clock h'.clock

end Kept

namespace StorageManager

variable {sm : StorageManager} {b k : String} {content : Bytes} {ct : Option String}
  {opts : StoreOptions} {w : World}

theorem createBucket_spec :
    (sm.createBucket b).Ensures (exec sm.host) (fun _ t => Kept [] w t) w := by
  simp only [createBucket, step_eq, Prog.bind_eq, Prog.act_bind, Prog.ret_bind, Prog.pure_eq]
  have hdirs : ∀ fs : FileTree Name Bytes, (∀ l, fs.fileAt l = w.fs.fileAt l) →
      Kept [] w { w with fs := fs } := fun fs hfs => ⟨rfl, rfl, rfl, fun l _ => hfs l, le_refl _⟩
  apply ensures_createDirAll
  · intro fs hfs
    refine ensures_insertBucket (fun _ => hdirs fs hfs) fun db hdb => ?_
    obtain ⟨hf, hk, -⟩ := Database.insertBucket_ok hdb
    simpa using { hdirs fs hfs with files := hf, keys := hk }
  · exact fun e fs hfs => hdirs fs hfs

theorem ensureBucketExists_spec :
    (sm.ensureBucketExists b).Ensures (exec sm.host) (fun _ t => Kept [] w t) w := by
  simp only [ensureBucketExists, step_eq, Prog.bind_eq, Prog.act_bind, Prog.ret_bind, Prog.pure_eq]
  refine ensures_bucketExists (fun _ => Kept.refl [] w) ?_
  split
  · simpa using Kept.refl [] w
  · exact createBucket_spec

theorem writeBytes_spec {path : String} {bytes : Bytes} :
    (writeBytes path bytes).Ensures (exec sm.host) (fun x t => match x with
      | .error _ => Kept [sm.host.temp path] w t
      | .ok () => namesFile path = true ∧ sm.host.target path ≠ [] ∧
        ∃ v, Kept [] w v ∧ t = { v with fs := afterWrite sm.host path bytes v.fs }) w := by
  have hwrite : ∀ v : World, Kept [] w v →
      (Prog.act (.writeFileAtomic path bytes) fun r => (ofIo r).bind fun _ => .ret ()).Ensures
        (exec sm.host) (fun x t => match x with
          | .error _ => Kept [sm.host.temp path] w t
          | .ok () => namesFile path = true ∧ sm.host.target path ≠ [] ∧
            ∃ v, Kept [] w v ∧ t = { v with fs := afterWrite sm.host path bytes v.fs }) v := by
    intro v hv
    apply ensures_writeFileAtomic
    · intro hn ht
      simp only [Prog.ensures_ret]
      exact ⟨hn, ht, v, hv, rfl⟩
    · intro e fs hfs
      exact (hv.mono (List.nil_subset _)).trans
        ⟨rfl, rfl, rfl, fun l hl => hfs l (by simpa using hl), le_refl _⟩
  simp only [writeBytes, step_eq, Prog.bind_eq, Prog.act_bind, Prog.ret_bind, Prog.pure_eq]
  split
  · apply ensures_createDirAll
    · exact fun fs hfs => hwrite _ ⟨rfl, rfl, rfl, fun l _ => hfs l, le_refl _⟩
    · exact fun e fs hfs => ⟨rfl, rfl, rfl, fun l _ => hfs l, le_refl _⟩
  · exact hwrite w (Kept.refl [] w)

/-- Content that is not claimed compressed was not changed. -/
theorem compressStage_unchanged (hc : (sm.compressStage opts content).2 = false) :
    (sm.compressStage opts content).1 = content := by
  unfold compressStage at hc ⊢
  split
  · rename_i h
    rw [if_pos h] at hc
    cases hz : (sm.compressor opts).compress sm.lib.toCodecs content with
    | error e => rfl
    | ok out =>
      simp only [hz] at hc
      split at hc
      · simp at hc
      · rename_i hn
        simp [hn]
  · rfl

/-- `out` is what the encryption stage makes of `data`. -/
def EncryptedAs (sm : StorageManager) (db : Database) (opts : StoreOptions) (data out : Bytes)
    (isEncrypted : Bool) : Prop :=
  if sm.shouldEncrypt opts then
    isEncrypted = true ∧ ∃ alg nonce,
      EncryptionAlgorithm.fromStr sm.config.crypto.algorithm = .ok alg ∧
      match opts.encryptionKeyId with
      | some keyId => ∃ key, db.selectKey keyId = some key ∧
        CryptoManager.encryptWithKey sm.lib.toCiphers data alg key.keyData nonce = .ok out
      | none => sm.crypto.encrypt sm.lib.toCiphers data alg nonce = .ok out
  else isEncrypted = false ∧ out = data

theorem encryptStage_spec {data : Bytes} :
    (sm.encryptStage opts data).Ensures (exec sm.host) (fun x t => t = w ∧
      ∀ out enc, x = .ok (out, enc) → EncryptedAs sm w.db opts data out enc) w := by
  simp only [encryptStage, step_eq, Prog.bind_eq, Prog.act_bind, Prog.ret_bind, Prog.pure_eq]
  cases he : sm.shouldEncrypt opts with
  | false => simp [EncryptedAs, he]
  | true =>
    simp only [↓reduceIte]
    cases ha : EncryptionAlgorithm.fromStr sm.config.crypto.algorithm with
    | error e => simp
    | ok alg =>
      simp only [Prog.ofExcept_ok, Prog.ret_bind]
      cases hid : opts.encryptionKeyId with
      | none =>
        refine ensures_randomNonce fun nonce => ?_
        cases hc : sm.crypto.encrypt sm.lib.toCiphers data alg nonce with
        | error e => simp
        | ok sealed =>
          simp only [Prog.ofExcept_ok, Prog.ret_bind, Prog.ensures_ret, true_and]
          rintro out enc ⟨rfl, rfl⟩
          simp only [EncryptedAs, he, ↓reduceIte, hid]
          exact ⟨trivial, alg, nonce, ha, hc⟩
      | some keyId =>
        simp only [getKey, step_eq, Prog.bind_eq, Prog.act_bind, Prog.ret_bind, Prog.pure_eq,
          Prog.bind_assoc]
        refine ensures_selectKey (by simp) ?_
        cases hk : w.db.selectKey keyId with
        | none => simp
        | some key =>
          simp only [Prog.ret_bind]
          refine ensures_randomNonce fun nonce => ?_
          cases hc : CryptoManager.encryptWithKey sm.lib.toCiphers data alg key.keyData nonce with
          | error e => simp
          | ok sealed =>
            simp only [Prog.ofExcept_ok, Prog.ret_bind, Prog.ensures_ret, true_and]
            rintro out enc ⟨rfl, rfl⟩
            simp only [EncryptedAs, he, ↓reduceIte, hid]
            exact ⟨trivial, alg, nonce, ha, key, hk, hc⟩

theorem saveFile_spec {h : Host} {file : StoredFile} :
    (saveFile file).Ensures (exec h) (fun x t => match x with
      | .ok () => ∃ db, w.db.upsertFile file = .ok db ∧ t = { w with db := db }
      | .error _ => t = w) w := by
  simp only [saveFile, step_eq, Prog.bind_eq, Prog.act_bind, Prog.ret_bind, Prog.pure_eq]
  apply ensures_upsertFile
  · intro db hdb
    simpa using hdb
  · rintro (e | msg)
    · dsimp only
      split <;> simp
    · simp

/-- A rejected row takes the written file away again; an accepted one warms the cache. -/
theorem recordFile_spec {h : Host} {file : StoredFile} {processed : Bytes} :
    (recordFile file processed).Ensures (exec h) (fun x t => match x with
      | .ok f => f = file ∧ ∃ db, w.db.upsertFile file = .ok db ∧
        t = { w with
          db := db
          cache := (w.cache.setFileMetadata file.bucket file.key file).setFileContent
            file.bucket file.key processed }
      | .error _ => t = w ∨ t = { w with fs := w.fs.erase (h.target file.filePath) }) w := by
  simp only [recordFile, step_eq, Prog.bind_eq, Prog.act_bind, Prog.ret_bind, Prog.pure_eq]
  rw [Prog.ensures_bind, Prog.ensures_attempt]
  refine saveFile_spec.mono fun x t hx => ?_
  cases x with
  | ok u =>
    obtain ⟨db, hdb, rfl⟩ := hx
    simp only [ensures_setFileMetadata, ensures_setFileContent, Prog.ensures_ret, true_and]
    exact ⟨db, hdb, rfl⟩
  | error e =>
    subst hx
    apply ensures_removeFile
    · simp
    · simp

theorem storeAlias_spec {existing : StoredFile} :
    (sm.storeAlias b k content ct opts existing).Ensures (exec sm.host) (fun x t => match x with
      | .ok f => ∃ id now db v, f = sm.aliasedFile b k content ct opts existing id now ∧
        Kept [] w v ∧ v.db.upsertFile f = .ok db ∧ t = { v with db := db }
      | .error _ => Kept [] w t) w := by
  simp only [storeAlias, step_eq, Prog.bind_eq, Prog.act_bind, Prog.ret_bind, Prog.pure_eq]
  refine ensures_newUuid fun id => ensures_utcNow fun now hnow => ?_
  have hkept : Kept [] w { w with now := now } := ⟨rfl, rfl, rfl, fun _ _ => rfl, hnow⟩
  rw [Prog.ensures_bind]
  refine saveFile_spec.mono fun x t hx => ?_
  cases x with
  | ok u =>
    obtain ⟨db, hdb, rfl⟩ := hx
    simp only [Prog.ensures_ret]
    exact ⟨id, now, db, _, rfl, hkept, hdb, rfl⟩
  | error e =>
    subst hx
    exact hkept

/-! ## What an upload does -/

/-- A new row for `(b, k)` over bytes that were already there. -/
structure Aliased (w w' : World) (file : StoredFile) : Prop where
  files : w'.db.files = w.db.files.put (Database.mergeRow (w.db.files.find file.ident) file)
  keys : w'.db.encryptionKeys = w.db.encryptionKeys
  cache : w'.cache = w.cache
  disk : ∀ l, w'.fs.fileAt l = w.fs.fileAt l
  clock : w.now ≤ w'.now

/-- A new row over bytes just written, with both cache entries set. -/
structure Written (h : Host) (w w' : World) (file : StoredFile) (processed : Bytes) : Prop where
  files : w'.db.files = w.db.files.put (Database.mergeRow (w.db.files.find file.ident) file)
  keys : w'.db.encryptionKeys = w.db.encryptionKeys
  cache : w'.cache = (w.cache.setFileMetadata file.bucket file.key file).setFileContent
    file.bucket file.key processed
  named : namesFile file.filePath = true
  place : h.target file.filePath ≠ []
  disk : ∀ l, w'.fs.fileAt l =
    if l = h.target file.filePath then some processed
    else if l = h.temp file.filePath then none else w.fs.fileAt l
  clock : w.now ≤ w'.now

theorem Written.bytesAt {h : Host} {w w' : World} {file : StoredFile} {processed : Bytes}
    (hw : Written h w w' file processed) : w'.bytesAt h file.filePath = some processed := by
  simp [World.bytesAt, hw.named, hw.disk]

theorem Written.find {h : Host} {w w' : World} {file : StoredFile} {processed : Bytes}
    (hw : Written h w w' file processed) : w'.db.files.find file.ident =
      some (Database.mergeRow (w.db.files.find file.ident) file) := by
  rw [hw.files]
  simpa using Table.find_put_self (t := w.db.files)
    (r := Database.mergeRow (w.db.files.find file.ident) file)

theorem Written.disk_ne {h : Host} {w w' : World} {file : StoredFile} {processed : Bytes}
    (hw : Written h w w' file processed) {l : Loc} (ht : l ≠ h.target file.filePath)
    (hm : l ≠ h.temp file.filePath) : w'.fs.fileAt l = w.fs.fileAt l := by
  rw [hw.disk, if_neg ht, if_neg hm]

section Rows
variable (sm : StorageManager) (b k : String) (content : Bytes) (ct : Option String)
  (opts : StoreOptions)

@[simp] theorem freshFile_ident (c : Bool) (n : Nat) (p : Bytes) (e : Bool) (id : Uuid) (now : Time) :
    (sm.freshFile b k content ct opts c n p e id now).ident = (b, k) := rfl
@[simp] theorem freshFile_filePath (c : Bool) (n : Nat) (p : Bytes) (e : Bool) (id : Uuid)
    (now : Time) :
    (sm.freshFile b k content ct opts c n p e id now).filePath = sm.getFilePath b k := rfl
@[simp] theorem freshFile_hashBlake3 (c : Bool) (n : Nat) (p : Bytes) (e : Bool) (id : Uuid)
    (now : Time) :
    (sm.freshFile b k content ct opts c n p e id now).hashBlake3 = sm.lib.blake3 content := rfl

variable (f : StoredFile) (id : Uuid) (now : Time)

@[simp] theorem aliasedFile_ident :
    (sm.aliasedFile b k content ct opts f id now).ident = (b, k) := rfl
@[simp] theorem aliasedFile_filePath :
    (sm.aliasedFile b k content ct opts f id now).filePath = f.filePath := rfl
@[simp] theorem aliasedFile_hashBlake3 :
    (sm.aliasedFile b k content ct opts f id now).hashBlake3 = sm.lib.blake3 content := rfl

end Rows

/-- The two places a fresh upload of a key touches. -/
def places (sm : StorageManager) (b k : String) : List Loc :=
  [sm.host.target (sm.getFilePath b k), sm.host.temp (sm.getFilePath b k)]

theorem storeFresh_spec :
    (sm.storeFresh b k content ct opts).Ensures (exec sm.host) (fun x t => match x with
      | .ok f => ∃ processed enc id now,
        f = sm.freshFile b k content ct opts (sm.compressStage opts content).2
          (sm.compressStage opts content).1.length processed enc id now ∧
        EncryptedAs sm w.db opts (sm.compressStage opts content).1 processed enc ∧
        Written sm.host w t f processed
      | .error _ => Kept [] w t ∨
        (∃ out enc, EncryptedAs sm w.db opts (sm.compressStage opts content).1 out enc) ∧
          Kept (sm.places b k) w t) w := by
  simp only [storeFresh, step_eq, Prog.bind_eq, Prog.act_bind, Prog.ret_bind]
  rw [Prog.ensures_bind]
  refine encryptStage_spec.mono fun x t hx => ?_
  obtain ⟨rfl, henc⟩ := hx
  cases x with
  | error e => exact .inl (Kept.refl _ t)
  | ok out =>
    obtain ⟨processed, enc⟩ := out
    have hout := henc processed enc rfl
    dsimp only
    rw [Prog.ensures_bind]
    refine writeBytes_spec.mono fun x u hu => ?_
    cases x with
    | error e => exact .inr ⟨⟨processed, enc, hout⟩, hu.mono (by simp [places])⟩
    | ok _ =>
      obtain ⟨hn, ht, v, hv, rfl⟩ := hu
      refine ensures_newUuid fun id => ensures_utcNow fun now hnow => ?_
      refine recordFile_spec.mono fun y z hz => ?_
      have hdisk : ∀ l, (afterWrite sm.host (sm.getFilePath b k) processed v.fs).fileAt l =
          if l = sm.host.target (sm.getFilePath b k) then some processed
          else if l = sm.host.temp (sm.getFilePath b k) then none else t.fs.fileAt l := by
        intro l
        unfold afterWrite
        split
        · rename_i hl
          subst hl
          exact FileTree.fileAt_putFile_self ht
        · rename_i hl
          rw [FileTree.fileAt_putFile_ne hl]
          split
          · rename_i hl'
            subst hl'
            exact FileTree.fileAt_erase_self
          · rename_i hl'
            rw [FileTree.fileAt_erase_ne hl', hv.disk l (by simp)]
      have hclock : t.now ≤ now := le_trans hv.clock hnow
      cases y with
      | ok f =>
        obtain ⟨rfl, db, hdb, rfl⟩ := hz
        obtain ⟨hf, -, hk⟩ := Database.upsertFile_ok hdb
        refine ⟨processed, enc, id, now, rfl, hout, ?_⟩
        exact {
          files := by rw [hf, ← hv.files]
          keys := hk.trans hv.keys
          cache := by rw [← hv.cache]
          named := hn
          place := ht
          disk := hdisk
          clock := hclock }
      | error e =>
        have hkept : ∀ fs : FileTree Name Bytes,
            (∀ l, l ∉ sm.places b k → fs.fileAt l = t.fs.fileAt l) →
            Kept (sm.places b k) t { v with fs := fs, now := now } :=
          fun fs hfs => ⟨hv.files, hv.keys, hv.cache, hfs, hclock⟩
        have hwritten : ∀ l, l ∉ sm.places b k →
            (afterWrite sm.host (sm.getFilePath b k) processed v.fs).fileAt l = t.fs.fileAt l := by
          intro l hl
          simp only [places, List.mem_cons, List.not_mem_nil, or_false, not_or] at hl
          rw [hdisk, if_neg hl.1, if_neg hl.2]
        refine .inr ⟨⟨processed, enc, hout⟩, ?_⟩
        rcases hz with rfl | rfl
        · exact hkept _ hwritten
        · refine hkept _ fun l hl => ?_
          have hne : l ≠ sm.host.target (sm.getFilePath b k) := by
            rintro rfl
            simp [places] at hl
          exact (FileTree.fileAt_erase_ne hne).trans (hwritten l hl)

/-- Everything a call of `storeFile` can do. -/
inductive StoreOutcome (sm : StorageManager) (b k : String) (content : Bytes) (ct : Option String)
    (opts : StoreOptions) (w w' : World) : Except StorageError StoredFile → Prop where
  /-- It fails before anything is written. -/
  | rejected (e : StorageError) : Kept [] w w' → StoreOutcome sm b k content ct opts w w' (.error e)
  /-- It fails once the bytes are ready to be written. -/
  | broken (e : StorageError)
      (unrecorded : sm.config.storage.enableDeduplication = true →
        ∀ f ∈ w.db.files, f.hashBlake3 ≠ sm.lib.blake3 content)
      (encrypted : ∃ out enc, EncryptedAs sm w.db opts (sm.compressStage opts content).1 out enc) :
      Kept (sm.places b k) w w' → StoreOutcome sm b k content ct opts w w' (.error e)
  /-- The same content is already stored under the same key. -/
  | identical (file : StoredFile) (recorded : file ∈ w.db.files)
      (ident : file.ident = (b, k)) (hash : file.hashBlake3 = sm.lib.blake3 content)
      (dedup : sm.config.storage.enableDeduplication = true) :
      Kept [] w w' → StoreOutcome sm b k content ct opts w w' (.ok file)
  /-- The same content is already stored under another key. -/
  | aliased (existing : StoredFile) (id : Uuid) (now : Time) (recorded : existing ∈ w.db.files)
      (ident : existing.ident ≠ (b, k)) (hash : existing.hashBlake3 = sm.lib.blake3 content)
      (dedup : sm.config.storage.enableDeduplication = true) :
      Aliased w w' (sm.aliasedFile b k content ct opts existing id now) →
      StoreOutcome sm b k content ct opts w w'
        (.ok (sm.aliasedFile b k content ct opts existing id now))
  /-- The content is processed and written under its own key. -/
  | fresh (processed : Bytes) (enc : Bool) (id : Uuid) (now : Time)
      (unrecorded : sm.config.storage.enableDeduplication = true →
        ∀ f ∈ w.db.files, f.hashBlake3 ≠ sm.lib.blake3 content)
      (encrypted : EncryptedAs sm w.db opts (sm.compressStage opts content).1 processed enc) :
      Written sm.host w w' (sm.freshFile b k content ct opts (sm.compressStage opts content).2
        (sm.compressStage opts content).1.length processed enc id now) processed →
      StoreOutcome sm b k content ct opts w w'
        (.ok (sm.freshFile b k content ct opts (sm.compressStage opts content).2
          (sm.compressStage opts content).1.length processed enc id now))

theorem selectKey_congr {db db' : Database} (h : db'.encryptionKeys = db.encryptionKeys)
    (keyId : String) : db'.selectKey keyId = db.selectKey keyId := by
  simp only [Database.selectKey, h]

theorem EncryptedAs.congr {db db' : Database} {data out : Bytes} {enc : Bool}
    (h : db'.encryptionKeys = db.encryptionKeys) (he : EncryptedAs sm db' opts data out enc) :
    EncryptedAs sm db opts data out enc := by
  simpa only [EncryptedAs, selectKey_congr h] using he

theorem Written.after {h : Host} {u v : World} {file : StoredFile} {processed : Bytes}
    (hk : Kept [] w u) (hw : Written h u v file processed) : Written h w v file processed :=
  { hw with
    files := by rw [hw.files, hk.files]
    keys := hw.keys.trans hk.keys
    cache := by rw [hw.cache, hk.cache]
    disk := fun l => by rw [hw.disk l, hk.disk l (by simp)]
    clock := le_trans hk.clock hw.clock }

theorem storeFile_spec :
    (sm.storeFile b k content ct opts).Ensures (exec sm.host)
      (fun x t => StoreOutcome sm b k content ct opts w t x) w := by
  simp only [storeFile, step_eq, Prog.bind_eq, Prog.act_bind, Prog.ret_bind, Prog.pure_eq]
  rw [Prog.ensures_bind]
  refine ensureBucketExists_spec.mono fun x u hu => ?_
  have hfresh : (sm.config.storage.enableDeduplication = true →
        ∀ f ∈ w.db.files, f.hashBlake3 ≠ sm.lib.blake3 content) →
      (sm.storeFresh b k content ct opts).Ensures (exec sm.host)
        (fun x t => StoreOutcome sm b k content ct opts w t x) u := by
    intro hnew
    refine storeFresh_spec.mono fun x t hx => ?_
    cases x with
    | ok f =>
      obtain ⟨processed, enc, id, now, rfl, henc, hw⟩ := hx
      exact .fresh processed enc id now hnew (henc.congr hu.keys) (hw.after hu)
    | error e =>
      rcases hx with hx | ⟨⟨out, enc, henc⟩, hx⟩
      · exact .rejected e (hu.trans hx)
      · exact .broken e hnew ⟨out, enc, henc.congr hu.keys⟩ ((hu.mono (List.nil_subset _)).trans hx)
  cases x with
  | error e => exact .rejected e hu
  | ok _ =>
    dsimp only
    split
    · rename_i hdedup
      refine ensures_selectFileByHash (fun e => .rejected e hu) fun rank => ?_
      cases hsel : u.db.selectFileByHash (sm.lib.blake3 content) rank with
      | none =>
        exact hfresh fun _ f hf => Database.selectFileByHash_none hsel f (hu.files ▸ hf)
      | some existing =>
        obtain ⟨hmem, hhash⟩ := Database.selectFileByHash_some hsel
        rw [hu.files] at hmem
        dsimp only
        split
        · rename_i hsame
          rw [Prog.ensures_ret]
          exact .identical existing hmem (Prod.ext hsame.1 hsame.2) hhash hdedup hu
        · rename_i hother
          refine storeAlias_spec.mono fun x t hx => ?_
          cases x with
          | error e => exact .rejected e (hu.trans hx)
          | ok f =>
            obtain ⟨id, now, db, v, rfl, hv, hdb, rfl⟩ := hx
            have hkept := hu.trans hv
            obtain ⟨hf, -, hk⟩ := Database.upsertFile_ok hdb
            refine .aliased existing id now hmem ?_ hhash hdedup ?_
            · intro hident
              exact hother ⟨congrArg Prod.fst hident, congrArg Prod.snd hident⟩
            · exact {
                files := by rw [hf, ← hkept.files]
                keys := hk.trans hkept.keys
                cache := hkept.cache
                disk := fun l => hkept.disk l (by simp)
                clock := hkept.clock }
    · rename_i hdedup
      exact hfresh fun h => absurd h hdedup

end StorageManager

end LocalStorage
