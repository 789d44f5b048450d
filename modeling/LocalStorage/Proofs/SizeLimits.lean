import LocalStorage.Lib.Pool
import LocalStorage.Proofs.Effects
import LocalStorage.Proofs.Vocabulary
import LocalStorage.Proofs.RequestKeys
import LocalStorage.Sample
import LocalStorage.Uploads

namespace LocalStorage.Proofs.SizeLimits
open Lib StorageManager S3

/-! # How large an object can be -/

/-- The calls that reach the service. -/
inductive Request where
  | uploadFile (bucket : String) (query : UploadQuery) (headers : HeaderMap) (body : Incoming)
  | putObject (verified : Except S3Error Unit) (bucket key : String) (headers : HeaderMap)
      (body : Bytes)
  | handleFileRequest (bucket path : String) (headers : HeaderMap)
  | handleFileDelete (bucket path : String)
  | getObject (verified : Except S3Error Unit) (bucket key : String)
  | headObject (verified : Except S3Error Unit) (bucket key : String)
  | createBucket (bucket : String)
  | deleteBucket (bucket : String)
  | sweepExpiredFiles
  | cacheFileFromDisk (file : StoredFile)

def Request.task (st : AppState) (text : TextLibrary) : Request → Task Action Response
  | uploadFile bucket query headers body =>
    (LocalStorage.uploadFile st.storage text bucket query headers body).discard
  | putObject verified bucket key headers body =>
    (S3.putObject st.storage verified bucket key headers body).discard
  | handleFileRequest bucket path headers =>
    (LocalStorage.handleFileRequest st bucket path headers).discard
  | handleFileDelete bucket path => (LocalStorage.handleFileDelete bucket path).discard
  | getObject verified bucket key => (S3.getObject st.storage verified bucket key).discard
  | headObject verified bucket key => (S3.headObject verified bucket key).discard
  | createBucket bucket => (st.storage.createBucket bucket).discard
  | deleteBucket bucket => (st.storage.deleteBucket bucket).discard
  | sweepExpiredFiles => StorageManager.sweepExpiredFiles.discard
  | cacheFileFromDisk file => (LocalStorage.cacheFileFromDisk file).discard

/-- What happens by itself. -/
inductive Drift where
  | evict (gone : String → Bool)
  | tick (elapsed : Nat)

def Drift.Transition : Drift → World → World → Prop
  | evict gone, w, w' => w' = { w with cache := w.cache.evict gone }
  | tick elapsed, w, w' => w' = { w with now := w.now + elapsed }

/-- What a copy does once it has read its source. -/
def copyRest (storage : StorageManager) (bucket key : String) (content : Bytes)
    (contentType : Option String) : S3Op PutResponse :=
  (orS3 (storage.storeFile bucket key content contentType {})).bind fun file =>
    .ret (.copied (etag file.hashMd5) file.uploadTime)

/-- A body that is put as it is has at most `limit` bytes. -/
def Request.Limited (limit : Nat) : Request → Prop
  | putObject _ _ _ headers body => headers.text "x-amz-copy-source" = none → body.length ≤ limit
  | _ => True

abbrev Event : Type := PoolEvent Action Response Drift

/-- Only requests arrive. -/
def Served (st : AppState) (text : TextLibrary) (_ : Pool Action Response World) : Event → Prop
  | .arrive p => ∃ request : Request, p = request.task st text
  | _ => True

/-- No body that is put and no source that was read for a copy is over the limit. -/
def Limited (st : AppState) (text : TextLibrary) (s : Pool Action Response World) : Event → Prop
  | .arrive p => ∃ request : Request, p = request.task st text ∧
      request.Limited (maxFileSize st.storage)
  | .act i => ∀ bucket key content contentType,
      s.1[i]? = some (copyRest st.storage bucket key content contentType).discard →
        content.length ≤ maxFileSize st.storage
  | .environment _ => True

/-- A history of the service: requests come, go on in any order and run at the same time. -/
abbrev ServiceRun (st : AppState) (P : Pool Action Response World → Event → Prop) :=
  PoolRun (exec st.storage.host) Drift.Transition P

/-- Every row is of an object within the limit. -/
def Within (limit : Nat) (w : World) : Prop := ∀ f ∈ w.db.files, f.originalSize ≤ limit

variable {st : AppState} {text : TextLibrary} {sm : StorageManager} {h : Host} {limit : Nat}
  {w : World} {b k : String} {content : Bytes} {ct : Option String} {opts : StoreOptions}
  {file : StoredFile}

/-! ## What uploads promise -/

/-- The rows that were found are within the limit. -/
def Heard (limit : Nat) : (a : Action) → Response a → Prop
  | .selectFileByHash _, r => ∀ f, r = .ok (some f) → f.originalSize ≤ limit
  | _, _ => True

/-- The rows that are saved are. -/
def Asked (limit : Nat) : Action → Prop
  | .upsertFile f => f.originalSize ≤ limit
  | _ => True

abbrev Keeps {E α : Type} (limit : Nat) (p : Prog Action Response E α) : Prop :=
  p.Honours (Heard limit) (Asked limit)

theorem saveFile_keeps (hf : file.originalSize ≤ limit) : Keeps limit (saveFile file) := by
  apply saveFile_steps.honours
  intro a ha
  exact ha ▸ hf

theorem ensureBucketExists_keeps : Keeps limit (sm.ensureBucketExists b) := by
  apply ensureBucketExists_steps.honours
  intro a ha
  cases ha <;> trivial

theorem encryptStage_keeps (data : Bytes) : Keeps limit (sm.encryptStage opts data) := by
  apply (encryptStage_steps data).honours
  intro a ha
  cases ha <;> trivial

theorem storeAlias_keeps {existing : StoredFile} (hsize : existing.originalSize ≤ limit) :
    Keeps limit (sm.storeAlias b k content ct opts existing) := by
  simp only [storeAlias, step_eq, Prog.bind_eq, Prog.act_bind, Prog.ret_bind, Prog.pure_eq]
  refine ⟨trivial, fun id _ => ⟨trivial, fun now _ => ?_⟩⟩
  exact Prog.Honours.bind (saveFile_keeps hsize) fun _ => trivial

theorem writeBytes_keeps (path : String) (processed : Bytes) :
    Keeps limit (writeBytes path processed) := by
  simp only [writeBytes, ofIo, step_eq, Prog.bind_eq, Prog.act_bind, Prog.ret_bind, Prog.pure_eq]
  have hwrite : Keeps limit (Prog.act (.writeFileAtomic path processed) fun r =>
      (Prog.ofExcept (r.mapError StorageError.ofIo)).bind fun _ => .ret () : Op Unit) :=
    ⟨trivial, fun r _ => Prog.Honours.bind (Prog.honours_ofExcept _) fun _ => trivial⟩
  split
  · exact ⟨trivial, fun r _ => Prog.Honours.bind (Prog.honours_ofExcept _) fun _ => hwrite⟩
  · exact hwrite

theorem storeFresh_keeps (hlen : content.length ≤ limit) :
    Keeps limit (sm.storeFresh b k content ct opts) := by
  simp only [storeFresh, recordFile, step_eq, Prog.bind_eq, Prog.act_bind, Prog.ret_bind,
    Prog.pure_eq]
  refine Prog.Honours.bind (encryptStage_keeps _) fun out => ?_
  refine Prog.Honours.bind (writeBytes_keeps _ _) fun _ => ?_
  refine ⟨trivial, fun id _ => ⟨trivial, fun now _ => ?_⟩⟩
  refine Prog.Honours.bind (saveFile_keeps (Int.ofNat_le.mpr hlen)).attempt fun saved => ?_
  cases saved with
  | ok _ => exact ⟨trivial, fun _ _ => ⟨trivial, fun _ _ => trivial⟩⟩
  | error e => exact ⟨trivial, fun _ _ => trivial⟩

/-- An upload within the limit saves a row within the limit, also where it takes over a row
that it finds. -/
theorem storeFile_keeps (hlen : content.length ≤ limit) :
    Keeps limit (sm.storeFile b k content ct opts) := by
  simp only [storeFile, step_eq, Prog.bind_eq, Prog.act_bind, Prog.ret_bind, Prog.pure_eq]
  refine Prog.Honours.bind ensureBucketExists_keeps fun _ => ?_
  split
  · refine ⟨trivial, fun r hr => ?_⟩
    cases r with
    | error e => trivial
    | ok found =>
      simp only [ofSqlx_ok, Prog.ret_bind]
      cases found with
      | none => exact storeFresh_keeps hlen
      | some existing =>
        dsimp only
        split
        · trivial
        · exact storeAlias_keeps (hr existing rfl)
  · exact storeFresh_keeps hlen

theorem expiryAfter_keeps {E : Type} (invalid : E) (ttl : Option Int) :
    Keeps limit (expiryAfter invalid ttl) := by
  cases ttl with
  | none => trivial
  | some ttl =>
    simp only [expiryAfter, checkedStep, Prog.bind_eq, Prog.call_bind, Prog.pure_eq]
    split
    · trivial
    · exact ⟨trivial, fun now _ => Prog.Honours.bind (Prog.honours_unwrap _) fun _ => trivial⟩

theorem orFail_keeps {E α : Type} (x : Except E α) : Keeps limit (orFail x) :=
  (Prog.honours_ofExcept x).mapError

theorem readBody_eq_ok {body : Incoming} {bytes : Bytes} (hb : readBody body limit = .ok bytes) :
    bytes.length ≤ limit := by
  unfold readBody toBytes at hb
  split at hb
  · split at hb <;> simp at hb
  · rename_i hread
    split at hb
    · simp at hb
    · obtain rfl := Except.ok.inj hb
      split at hread
      · simp at hread
      · rename_i hfits
        split at hread
        · simp at hread
        · obtain rfl := Except.ok.inj hread
          omega

theorem uploadName_keeps (headers : HeaderMap) : Keeps limit (uploadName text headers) := by
  unfold uploadName
  split
  · trivial
  · exact ⟨trivial, fun _ _ => trivial⟩

/-- The native route stores no more than the limit. -/
theorem uploadFile_keeps {query : UploadQuery} {headers : HeaderMap} {body : Incoming} :
    Keeps (maxFileSize sm) (uploadFile sm text b query headers body) := by
  simp only [uploadFile, Prog.bind_eq, Prog.pure_eq]
  refine Prog.Honours.bind (uploadName_keeps headers) fun filename => ?_
  refine Prog.Honours.bind (orFail_keeps _) fun _ => ?_
  cases hread : readBody body (maxFileSize sm) with
  | error e => trivial
  | ok bytes =>
    simp only [orFail_ok, Prog.ret_bind]
    refine Prog.Honours.bind (expiryAfter_keeps _ _) fun expiresAt => ?_
    have hlen : bytes.length ≤ maxFileSize sm := readBody_eq_ok hread
    exact Prog.Honours.bind (storeFile_keeps hlen).mapError fun file => trivial

theorem putBody_keeps {headers : HeaderMap} (hlen : content.length ≤ limit) :
    Keeps limit (putBody sm b k headers content) := by
  simp only [putBody, Prog.bind_eq, Prog.pure_eq]
  refine Prog.Honours.bind (orFail_keeps _) fun ttl => ?_
  refine Prog.Honours.bind (expiryAfter_keeps _ _) fun expiresAt => ?_
  exact Prog.Honours.bind (storeFile_keeps hlen).mapError.mapError fun file => trivial

theorem copyRest_keeps (hlen : content.length ≤ limit) : Keeps limit (copyRest sm b k content ct) :=
  Prog.Honours.bind (storeFile_keeps hlen).mapError fun _ => trivial

/-! ## What goes on at the same time -/

/-- A program of the pool: one that promises to save small rows, or a copy that is still
reading. -/
inductive Fit (sm : StorageManager) (limit : Nat) : Task Action Response → Prop where
  | keeps {p : Task Action Response} (h : Keeps limit p) : Fit sm limit p
  | copying {p : S3Op (Bytes × Option String)} (b k : String)
      (h : p.Uses fun a => ∀ f, a ≠ .upsertFile f) :
      Fit sm limit (p.bind fun y => copyRest sm b k y.1 y.2).discard

theorem Asked.of_ne {a : Action} (ha : ∀ f, a ≠ .upsertFile f) : Asked limit a := by
  cases a with
  | upsertFile f => exact absurd rfl (ha f)
  | _ => trivial

theorem within_step (hw : Within limit w) {c : Choice} {a : Action} (ha : Asked limit a) :
    Within limit (exec h c a w).2 := by
  have ht : Takes (exec h) w ⟨a, (exec h c a w).1⟩ (exec h c a w).2 := ⟨c, rfl⟩
  refine takes_rows ht ?_ ?_ hw
  · intro id now f hf
    rwa [Database.touch_originalSize]
  · rintro f rfl
    cases w.db.files.find f.ident <;> exact ha

/-- What the lookup by hash finds is a row. -/
theorem heard_step (hw : Within limit w) (c : Choice) (a : Action) :
    Heard limit a (exec h c a w).1 := by
  cases a with
  | selectFileByHash hash =>
    intro f hf
    have hfound : w.db.selectFileByHash hash c.rank = some f := (answer_eq_ok hf).symm
    exact hw f (Database.selectFileByHash_some hfound).1
  | _ => trivial

/-- A request that is no upload saves no row; uploads promise theirs. -/
theorem request_fits {request : Request} (hlimit : request.Limited (maxFileSize st.storage)) :
    Fit st.storage (maxFileSize st.storage) (request.task st text) := by
  have hread : ∀ {bucket key : String} {a : Action}, ReadStep bucket key a →
      Asked (maxFileSize st.storage) a := by
    intro bucket key a ha
    cases ha with
    | delete hdelete => cases hdelete <;> trivial
    | _ => trivial
  cases request with
  | uploadFile bucket query headers body => exact .keeps uploadFile_keeps.discard
  | putObject verified bucket key headers body =>
    simp only [Request.task, S3.putObject, Prog.bind_eq]
    cases verified with
    | error e => exact .keeps trivial
    | ok _ =>
      simp only [orFail_ok, Prog.ret_bind]
      cases hsource : headers.text "x-amz-copy-source" with
      | none => exact .keeps (putBody_keeps (hlimit hsource)).discard
      | some source =>
        simp only [Prog.discard_lifted, copyObject]
        cases copySource source with
        | none => exact .keeps trivial
        | some src =>
          refine .copying bucket key (p := orS3 (st.storage.getFile src.1 src.2)) ?_
          refine (getFile_steps.mapError).mono ?_
          intro a ha f hf
          subst hf
          cases ha with
          | delete hdelete => cases hdelete
  | handleFileRequest bucket path headers =>
    refine .keeps (Prog.Honours.discard ?_)
    by_cases hend : RequestKeys.EndsInInfo path
    · rw [RequestKeys.handleFileRequest_info hend]
      refine Prog.Honours.bind (Prog.honours_ofExcept _) fun _ => ?_
      exact Prog.Honours.bind (getFileInfo_steps.honours fun _ => hread) fun _ => trivial
    · rw [RequestKeys.handleFileRequest_file hend]
      refine Prog.Honours.bind (Prog.honours_ofExcept _) fun _ => ?_
      exact (RequestKeys.downloadFile_steps _).honours fun _ => hread
  | handleFileDelete bucket path =>
    refine .keeps (Prog.Honours.discard ?_)
    simp only [LocalStorage.handleFileDelete, Prog.bind_eq]
    exact Prog.Honours.bind (deleteFile_steps.honours fun _ ha => hread (.delete ha)) fun _ => trivial
  | getObject verified bucket key =>
    refine .keeps (Prog.Honours.discard ?_)
    simp only [S3.getObject, orS3, Prog.bind_eq]
    refine Prog.Honours.bind (Prog.honours_ofExcept _) fun _ => ?_
    refine Prog.Honours.bind (getFile_steps.honours fun _ => hread).mapError fun _ => ?_
    exact Prog.Honours.bind (getFileInfo_steps.honours fun _ => hread).mapError fun _ => trivial
  | headObject verified bucket key =>
    refine .keeps (Prog.Honours.discard ?_)
    simp only [S3.headObject, orS3, Prog.bind_eq]
    refine Prog.Honours.bind (Prog.honours_ofExcept _) fun _ => ?_
    exact Prog.Honours.bind (getFileInfo_steps.honours fun _ => hread).mapError fun _ => trivial
  | createBucket bucket =>
    refine .keeps (Prog.Honours.discard ?_)
    simp only [StorageManager.createBucket, ofIo, ofSqlx, step_eq, Prog.bind_eq, Prog.act_bind,
      Prog.ret_bind]
    refine ⟨trivial, fun r _ => Prog.Honours.bind (Prog.honours_ofExcept _) fun _ => ?_⟩
    exact ⟨trivial, fun r _ => Prog.Honours.bind (Prog.honours_ofExcept _) fun _ => trivial⟩
  | deleteBucket bucket =>
    refine .keeps (Prog.Honours.discard (deleteBucket_steps.honours ?_))
    intro a ha
    cases ha <;> trivial
  | sweepExpiredFiles =>
    refine .keeps (Prog.Honours.discard (sweepExpiredFiles_steps.honours ?_))
    rintro a (rfl | ⟨f, ha⟩)
    · trivial
    · exact hread (.delete ha)
  | cacheFileFromDisk file =>
    refine .keeps (Prog.Honours.discard ?_)
    simp only [LocalStorage.cacheFileFromDisk, ofIo, step_eq, Prog.bind_eq, Prog.act_bind,
      Prog.ret_bind, Prog.pure_eq]
    refine ⟨trivial, fun found _ => ?_⟩
    dsimp only
    split
    · trivial
    · refine ⟨trivial, fun r _ => Prog.Honours.bind (Prog.honours_ofExcept _) fun content => ?_⟩
      exact ⟨trivial, fun r _ => Prog.Honours.bind (Prog.honours_ofExcept _) fun _ => trivial⟩

/-- One step of a program keeps the rows small and the program fit. -/
theorem fit_step {s : Pool Action Response World} {i : Nat} {a : Action}
    {k : Response a → Task Action Response} {c : Choice} (hlimit : Limited st text s (.act i))
    (hget : s.1[i]? = some (.act a k))
    (hfit : Fit st.storage (maxFileSize st.storage) (.act a k))
    (hw : Within (maxFileSize st.storage) s.2) :
    Within (maxFileSize st.storage) (exec st.storage.host c a s.2).2 ∧
      Fit st.storage (maxFileSize st.storage) (k (exec st.storage.host c a s.2).1) := by
  have hkeeps : Keeps (maxFileSize st.storage) (Prog.act a k : Task Action Response) →
      Within (maxFileSize st.storage) (exec st.storage.host c a s.2).2 ∧
        Fit st.storage (maxFileSize st.storage) (k (exec st.storage.host c a s.2).1) := by
    intro hp
    exact ⟨within_step hw hp.1, .keeps (hp.2 _ (heard_step hw c a))⟩
  generalize hprog : (Prog.act a k : Task Action Response) = q at hfit
  cases hfit with
  | keeps h => exact hkeeps (hprog ▸ h)
  | @copying p bucket key h =>
    cases p with
    | ret y =>
      -- the source has been read: what was read is within the limit
      have hlen : y.1.length ≤ maxFileSize st.storage :=
        hlimit bucket key y.1 y.2 (hget.trans (congrArg some hprog))
      exact hkeeps (hprog ▸ (copyRest_keeps hlen).discard)
    | fail e => simp [Prog.discard] at hprog
    | act a' k' =>
      simp only [Prog.act_bind, Prog.discard, Prog.act.injEq] at hprog
      obtain ⟨rfl, hrest⟩ := hprog
      obtain rfl := eq_of_heq hrest
      exact ⟨within_step hw (.of_ne h.1), .copying bucket key (h.2 _)⟩

open Sample (letters)

/-- A service that is to store single bytes. -/
def small : AppState where
  storage :=
    { Sample.manager with
      config := { Sample.config with storage := { Sample.config.storage with maxFileSize := 1 } }
      crypto := ⟨Sample.config.crypto, none, none⟩
      started := ⟨⟨List.replicate 32 0, rfl⟩, rfl⟩ }
  downloadProtectionToken := none
  protectedReadBuckets := none

def plainText : TextLibrary := ⟨some, fun bytes => bytes.map Char.ofUInt8⟩

/-- `PUT /a/k` without headers. -/
def put (body : Bytes) : Request := .putObject (.ok ()) "a" "k" [] body

/-- One byte as `a/k`. -/
def single : World :=
  ((S3.putObject small.storage (.ok ()) "a" "k" [] [120]).eval (exec small.storage.host) calm
    World.empty).2

theorem single_within : Within (maxFileSize small.storage) single := by
  have hsizes : single.db.files.rows.all (fun f => f.originalSize ≤ 1) = true := by decide
  intro f hf
  exact of_decide_eq_true (List.all_eq_true.mp hsizes f hf)

/-- Sixty-four bytes as `a/k`. -/
def several : World :=
  ((S3.putObject small.storage (.ok ()) "a" "k" [] letters).eval (exec small.storage.host) calm
    World.empty).2

end LocalStorage.Proofs.SizeLimits
