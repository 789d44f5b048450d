import LocalStorage.Steps
import LocalStorage.Proofs.Statements

namespace LocalStorage
open Lib Lib.Paths

namespace StorageManager

variable {sm : StorageManager} {w w' : World} {b k : String}

/-- What `getFile` answers in `w` when nothing fails. -/
def served (sm : StorageManager) (w : World) (b k : String) : Result (Bytes × Option String) :=
  ((sm.getFile b k).eval (exec sm.host) calm w).1

/-! ## The answer in one expression -/

/-- What decryption makes of stored bytes. -/
def decrypted (sm : StorageManager) (db : Database) (file : StoredFile) (raw : Bytes) :
    Result Bytes :=
  if file.encrypted then
    match EncryptionAlgorithm.fromStr (file.encryptionAlgorithm.getD "aes-gcm") with
    | .error e => .error e
    | .ok algorithm =>
      match file.encryptionKeyId with
      | some keyId =>
        match db.selectKey keyId with
        | some key => CryptoManager.decryptWithKey sm.lib.toCiphers raw algorithm key.keyData
        | none => .error (.validation s!"Unknown or inactive encryption_key_id: {keyId}")
      | none => sm.crypto.decrypt sm.lib.toCiphers raw algorithm
  else .ok raw

/-- What `decodeContent` makes of stored bytes. -/
def decoded (sm : StorageManager) (db : Database) (file : StoredFile) (raw : Bytes) :
    Result Bytes :=
  match sm.decrypted db file raw with
  | .error e => .error e
  | .ok plain =>
    if file.compressed then sm.compression.decompress sm.lib.toCodecs plain else .ok plain

/-- The record a read goes by. -/
def recordOf (w : World) (b k : String) : Option StoredFile :=
  w.cache.getFileMetadata b k <|> w.db.selectFile b k

/-- The stored bytes a read gets. -/
def rawOf (h : Host) (w : World) (b k : String) (file : StoredFile) : Option Bytes :=
  w.cache.getFileContent b k <|> w.bytesAt h file.filePath

def past (now : Time) : Option Time → Bool
  | none => false
  | some t => t ≤ now

/-- Every way a read can find nothing gives the same error. -/
def readResult (sm : StorageManager) (w : World) (b k : String) : Result (Bytes × Option String) :=
  match recordOf w b k with
  | none => .error (.notFound b k)
  | some file =>
    if past w.now file.expiresAt then .error (.notFound b k)
    else
      match rawOf sm.host w b k file with
      | none => .error (.notFound b k)
      | some raw => (sm.decoded w.db file raw).map fun content => (content, some file.contentType)

theorem eval_getKey (keyId : String) :
    (getKey keyId).eval (exec sm.host) calm w =
      (match w.db.selectKey keyId with
        | some key => .ok key
        | none => .error (.validation s!"Unknown or inactive encryption_key_id: {keyId}"), w) := by
  simp only [getKey, step_eq, Prog.bind_eq, Prog.act_bind, Prog.ret_bind, Prog.pure_eq, Prog.eval,
    exec, answer, calm, ofSqlx_ok]
  cases w.db.selectKey keyId <;> rfl

theorem eval_ofExcept {α : Type} (x : Result α) :
    (Prog.ofExcept x : Op α).eval (exec sm.host) calm w = (x, w) := by
  cases x <;> rfl

theorem eval_decryptContent (file : StoredFile) (raw : Bytes) :
    (sm.decryptContent file raw).eval (exec sm.host) calm w = (sm.decrypted w.db file raw, w) := by
  simp only [decryptContent, decrypted, Prog.bind_eq, Prog.pure_eq]
  cases file.encrypted with
  | false => rfl
  | true =>
    simp only [↓reduceIte]
    cases EncryptionAlgorithm.fromStr (file.encryptionAlgorithm.getD "aes-gcm") with
    | error e => rfl
    | ok alg =>
      simp only [Prog.ofExcept_ok, Prog.ret_bind]
      cases file.encryptionKeyId with
      | none => exact eval_ofExcept _
      | some keyId =>
        simp only [Prog.eval_bind, eval_getKey]
        cases w.db.selectKey keyId with
        | none => rfl
        | some key => exact eval_ofExcept _

theorem eval_decodeContent (file : StoredFile) (raw : Bytes) :
    (sm.decodeContent file raw).eval (exec sm.host) calm w = (sm.decoded w.db file raw, w) := by
  simp only [decodeContent, decoded, Prog.bind_eq, Prog.pure_eq, Prog.eval_bind,
    eval_decryptContent]
  cases sm.decrypted w.db file raw with
  | error e => rfl
  | ok plain =>
    dsimp only
    split
    · exact eval_ofExcept _
    · rfl

/-- Every error of a calm read names error 2 or a number that starts with a 2. -/
theorem lookup_error_text {h : Host} {path : String} {e : IoError}
    (he : lookup h path w = .error e) : containsText e.toString "os error 2" = true := by
  unfold lookup at he
  split at he
  · simp only [Except.error.injEq] at he
    subst he
    decide
  · simp only [Except.error.injEq] at he
    subst he
    decide
  · split at he
    · simp at he
    · simp only [Except.error.injEq] at he
      subst he
      decide

theorem eval_readMetadata {h : Host} :
    ∃ u, (readMetadata b k).eval (exec h) calm w =
      (match recordOf w b k with
        | some file => .ok file
        | none => .error (.notFound b k), u) ∧
      u.db = w.db ∧ u.fs = w.fs ∧ u.now = w.now ∧ u.cache.content = w.cache.content := by
  simp only [readMetadata, dbGetFile, step_eq, Prog.bind_eq, Prog.act_bind, Prog.ret_bind,
    Prog.pure_eq, Prog.eval, exec, recordOf]
  cases hc : w.cache.getFileMetadata b k with
  | some file => exact ⟨w, rfl, rfl, rfl, rfl, rfl⟩
  | none =>
    simp only [Prog.eval, exec, answer, calm, ofSqlx_ok, Prog.ret_bind]
    cases w.db.selectFile b k with
    | none => exact ⟨w, rfl, rfl, rfl, rfl, rfl⟩
    | some file => exact ⟨_, rfl, rfl, rfl, rfl, rfl⟩

theorem exec_utcNow_calm (h : Host) : exec h calm .utcNow w = (w.now, w) := by
  simp [exec, calm]

theorem eval_expireFile {h : Host} (file : StoredFile) :
    ∃ u, (expireFile b k file).eval (exec h) calm w =
      (if past w.now file.expiresAt then .error (.notFound b k) else .ok (), u) ∧
      (past w.now file.expiresAt = false → u = w) := by
  simp only [expireFile, step_eq, Prog.bind_eq, Prog.act_bind, Prog.ret_bind, Prog.pure_eq]
  cases file.expiresAt with
  | none => exact ⟨w, rfl, fun _ => rfl⟩
  | some t =>
    simp only [Prog.eval, exec_utcNow_calm, past]
    by_cases ht : t ≤ w.now
    · simp only [ht, ↓reduceIte, decide_true, Prog.eval_bind, Prog.eval_attempt]
      exact ⟨_, rfl, by simp⟩
    · simp only [ht, ↓reduceIte, decide_false, Bool.false_eq_true]
      exact ⟨_, rfl, fun _ => rfl⟩

theorem eval_readContent {h : Host} (file : StoredFile) :
    ∃ u, (readContent b k file).eval (exec h) calm w =
      (match rawOf h w b k file with
        | some raw => .ok raw
        | none => .error (.notFound b k), u) ∧
      ((rawOf h w b k file).isSome → u.db = w.db) := by
  simp only [readContent, step_eq, Prog.bind_eq, Prog.act_bind, Prog.ret_bind, Prog.pure_eq,
    Prog.eval, exec, rawOf]
  cases hc : w.cache.getFileContent b k with
  | some raw => exact ⟨w, rfl, fun _ => rfl⟩
  | none =>
    simp only [Prog.eval, exec, execReadFile, calm]
    cases hl : lookup h file.filePath w with
    | ok raw =>
      have hb := lookup_eq_ok.mp hl
      simp only [hb]
      exact ⟨_, rfl, fun _ => rfl⟩
    | error e =>
      have hb : w.bytesAt h file.filePath = none := by
        cases hb : w.bytesAt h file.filePath with
        | none => rfl
        | some raw => simp [lookup_eq_ok.mpr hb] at hl
      simp only [hb, lookup_error_text hl, Bool.or_true, ↓reduceIte, Prog.eval_bind,
        Prog.eval_attempt]
      exact ⟨_, rfl, by simp⟩

theorem served_eq (sm : StorageManager) (w : World) (b k : String) :
    served sm w b k = readResult sm w b k := by
  simp only [served, getFile, readResult, Prog.bind_eq, Prog.eval_bind]
  obtain ⟨u, hu, hdb, hfs, hnow, hcache⟩ := eval_readMetadata (h := sm.host) (w := w) (b := b) (k := k)
  rw [hu]
  cases recordOf w b k with
  | none => rfl
  | some file =>
    dsimp only
    obtain ⟨v, hv, hsame⟩ := eval_expireFile (h := sm.host) (w := u) (b := b) (k := k) file
    rw [hv, hnow]
    cases hp : past w.now file.expiresAt with
    | true => rfl
    | false =>
      obtain rfl := hsame (hnow ▸ hp)
      simp only [Bool.false_eq_true, ↓reduceIte]
      have hraw : rawOf sm.host v b k file = rawOf sm.host w b k file := by
        simp only [rawOf, Cache.getFileContent, hcache]
        congr 1
        simp only [World.bytesAt, hfs]
      obtain ⟨x, hx, hkeep⟩ := eval_readContent (h := sm.host) (w := v) (b := b) (k := k) file
      rw [hx, hraw]
      rw [hraw] at hkeep
      cases hr : rawOf sm.host w b k file with
      | none => rfl
      | some raw =>
        have hxdb : x.db = w.db := (hkeep (by simp [hr])).trans hdb
        simp only [eval_decodeContent, hxdb]
        cases sm.decoded w.db file raw with
        | error e => rfl
        | ok content =>
          simp only [step_eq, Prog.eval, Prog.pure_eq, Except.map]

/-! ## What an answer depends on -/

/-- The columns of a row a read goes by. -/
structure Recipe where
  filePath : String
  compressed : Bool
  encrypted : Bool
  encryptionAlgorithm : Option String
  encryptionKeyId : Option String
  contentType : String
  expiresAt : Option Time
deriving DecidableEq, Repr

def recipe (f : StoredFile) : Recipe :=
  ⟨f.filePath, f.compressed, f.encrypted, f.encryptionAlgorithm, f.encryptionKeyId, f.contentType,
    f.expiresAt⟩

theorem recipe_eq {f g : StoredFile} : recipe f = recipe g ↔
    f.filePath = g.filePath ∧ f.compressed = g.compressed ∧ f.encrypted = g.encrypted ∧
      f.encryptionAlgorithm = g.encryptionAlgorithm ∧ f.encryptionKeyId = g.encryptionKeyId ∧
      f.contentType = g.contentType ∧ f.expiresAt = g.expiresAt := by
  simp [recipe]

@[simp] theorem recipe_mergeRow (old : Option StoredFile) (f : StoredFile) :
    recipe (Database.mergeRow old f) = recipe f := by
  cases old <;> rfl

@[simp] theorem recipe_touch (id : Uuid) (now : Time) (f : StoredFile) :
    recipe (Database.touch id now f) = recipe f := by
  unfold Database.touch
  split <;> rfl

theorem past_mono {now now' : Time} {t : Option Time} (h : past now t = true) (hle : now ≤ now') :
    past now' t = true := by
  cases t with
  | none => simp [past] at h
  | some t =>
    simp only [past, decide_eq_true_eq] at h ⊢
    exact le_trans h hle

/-- Two rows that read alike have the same expiry. -/
theorem past_of_recipe {row row' : StoredFile} {now : Time} (h : recipe row = recipe row')
    (hp : past now row.expiresAt = true) : past now row'.expiresAt = true := by
  obtain ⟨-, -, -, -, -, -, hexp⟩ := recipe_eq.mp h
  rwa [← hexp]

theorem decoded_congr {db db' : Database} {f g : StoredFile} (hr : recipe f = recipe g)
    (hk : ∀ id, db.selectKey id = db'.selectKey id) (raw : Bytes) :
    sm.decoded db f raw = sm.decoded db' g raw := by
  obtain ⟨-, hc, he, ha, hid, -, -⟩ := recipe_eq.mp hr
  simp only [decoded, decrypted, hc, he, ha, hid, hk]

/-- Two worlds answer alike when they agree on the record, the bytes, the keys and the
clock. -/
theorem served_congr (hrec : (recordOf w b k).map recipe = (recordOf w' b k).map recipe)
    (hraw : ∀ f f', recordOf w b k = some f → recordOf w' b k = some f' →
      rawOf sm.host w b k f = rawOf sm.host w' b k f')
    (hk : ∀ id, w.db.selectKey id = w'.db.selectKey id) (hnow : w.now = w'.now) :
    served sm w b k = served sm w' b k := by
  simp only [served_eq, readResult]
  cases hf : recordOf w b k with
  | none =>
    rw [hf, Option.map_none, eq_comm, Option.map_eq_none_iff] at hrec
    rw [hrec]
  | some f =>
    rw [hf, Option.map_some, eq_comm, Option.map_eq_some_iff] at hrec
    obtain ⟨g, hg, hgf⟩ := hrec
    simp only [hg, hraw f g hf hg, hnow, decoded_congr hgf.symm hk]
    obtain ⟨-, -, -, -, -, hct, hexp⟩ := recipe_eq.mp hgf
    rw [hct, hexp]

/-- Where the cache holds entries of the pair, table and disk say the same. -/
structure Coherent (h : Host) (w : World) (b k : String) : Prop where
  metadata : ∀ f, w.cache.getFileMetadata b k = some f →
    ∃ g, w.db.files.find (b, k) = some g ∧ recipe f = recipe g
  content : ∀ x, w.cache.getFileContent b k = some x →
    ∃ g, w.db.files.find (b, k) = some g ∧ w.bytesAt h g.filePath = some x

theorem Coherent.recordOf {h : Host} (hc : Coherent h w b k) :
    (StorageManager.recordOf w b k).map recipe = (w.db.files.find (b, k)).map recipe := by
  unfold StorageManager.recordOf
  cases hm : w.cache.getFileMetadata b k with
  | none => rfl
  | some f =>
    obtain ⟨g, hg, hfg⟩ := hc.metadata f hm
    simp [hg, hfg]

theorem Coherent.rawOf {h : Host} (hc : Coherent h w b k) {f : StoredFile}
    (hf : StorageManager.recordOf w b k = some f) :
    StorageManager.rawOf h w b k f = w.bytesAt h f.filePath := by
  unfold StorageManager.rawOf
  cases hx : w.cache.getFileContent b k with
  | none => rfl
  | some x =>
    obtain ⟨g, hg, hbytes⟩ := hc.content x hx
    have hrec := hc.recordOf
    rw [hf, hg, Option.map_some, Option.map_some, Option.some.injEq] at hrec
    simp [(recipe_eq.mp hrec).1, hbytes]

/-- Reading past a coherent cache answers the same. -/
theorem Coherent.served_cold (hc : Coherent sm.host w b k) : served sm w b k = served sm w.cold b k := by
  have hcold : StorageManager.recordOf w.cold b k = w.db.files.find (b, k) := rfl
  apply served_congr
  · rw [hc.recordOf, hcold]
  · intro f g hf hg
    have hrec := hc.recordOf
    rw [hf, ← hcold, hg, Option.map_some, Option.map_some, Option.some.injEq] at hrec
    rw [hc.rawOf hf, (recipe_eq.mp hrec).1]
    rfl
  · exact fun _ => rfl
  · rfl

/-- Two coherent worlds with the same row and the same bytes under it answer alike. -/
theorem Coherent.served_congr (hc : Coherent sm.host w b k) (hc' : Coherent sm.host w' b k)
    (hrow : (w'.db.files.find (b, k)).map recipe = (w.db.files.find (b, k)).map recipe)
    (hbytes : ∀ g, w.db.files.find (b, k) = some g →
      w'.bytesAt sm.host g.filePath = w.bytesAt sm.host g.filePath)
    (hk : ∀ id, w'.db.selectKey id = w.db.selectKey id) (hnow : w'.now = w.now) :
    served sm w' b k = served sm w b k := by
  apply StorageManager.served_congr
  · rw [hc'.recordOf, hc.recordOf, hrow]
  · intro f g hf hg
    rw [hc'.rawOf hf, hc.rawOf hg]
    have hfr := hc'.recordOf
    have hgr := hc.recordOf
    rw [hf, hrow, ← hgr, hg, Option.map_some, Option.map_some, Option.some.injEq] at hfr
    rw [hg, Option.map_some, eq_comm, Option.map_eq_some_iff] at hgr
    obtain ⟨r, hr, hrg⟩ := hgr
    rw [(recipe_eq.mp hfr).1, ← (recipe_eq.mp hrg).1]
    exact hbytes r hr
  · exact hk
  · exact hnow

/-- A read that finds a live record and its bytes answers what they decode to. -/
theorem served_of_record {file : StoredFile} {raw : Bytes} (hrec : recordOf w b k = some file)
    (hlive : past w.now file.expiresAt = false) (hraw : rawOf sm.host w b k file = some raw) :
    served sm w b k =
      (sm.decoded w.db file raw).map fun content => (content, some file.contentType) := by
  simp only [served_eq, readResult, hrec, hlive, hraw, Bool.false_eq_true, ↓reduceIte]

/-- Decoding reads a key at most. -/
theorem decodeContent_uses (sm : StorageManager) (file : StoredFile) (raw : Bytes) :
    (sm.decodeContent file raw).Uses (fun a => ∃ keyId, a = .selectKey keyId) := by
  simp only [decodeContent, decryptContent, getKey, ofSqlx, step_eq, Prog.bind_eq, Prog.pure_eq,
    Prog.act_bind, Prog.ret_bind]
  refine Prog.Uses.bind ?_ fun content => ?_
  · split
    · refine Prog.Uses.bind (Prog.uses_ofExcept _) fun alg => ?_
      split
      · refine ⟨⟨_, rfl⟩, fun r => ?_⟩
        refine Prog.Uses.bind (Prog.Uses.bind (Prog.uses_ofExcept _) fun key => ?_)
          fun _ => Prog.uses_ofExcept _
        cases key <;> trivial
      · exact Prog.uses_ofExcept _
    · trivial
  · split
    · exact Prog.uses_ofExcept _
    · trivial

end StorageManager

end LocalStorage
