import LocalStorage.Proofs.OneSource
import LocalStorage.Proofs.RequestKeys
import LocalStorage.Proofs.RequestLimit
import LocalStorage.Proofs.RoundTrip
import LocalStorage.Proofs.ServerRuns

namespace LocalStorage.Proofs.RowRecords
open Lib StorageManager Service RoundTrip OneSource

/-! # What the rows say of their objects, at any moment -/

/-- A row is the record of `content`, processed as `opts` ask. -/
structure Records (sm : StorageManager) (content : Bytes) (opts : StoreOptions) (f : StoredFile) :
    Prop where
  hashBlake3 : f.hashBlake3 = sm.lib.blake3 content
  hashMd5 : f.hashMd5 = sm.lib.md5 content
  originalSize : f.originalSize = content.length
  fileSize : f.fileSize = processedSize sm opts content
  isCompressed : f.isCompressed = some (sm.compressStage opts content).2
  isEncrypted : f.isEncrypted = some (sm.shouldEncrypt opts)
  compressionAlgorithm : f.compressionAlgorithm =
    if (sm.compressStage opts content).2 then some (sm.compressionAlgo opts) else none
  encryptionAlgorithm : f.encryptionAlgorithm =
    if sm.shouldEncrypt opts then some sm.config.crypto.algorithm else none
  compressionRatio : f.compressionRatio = if (sm.compressStage opts content).2 then
    some ⟨(sm.compressStage opts content).1.length, max content.length 1⟩ else none
  encryptionKeyId : f.encryptionKeyId = opts.encryptionKeyId
  filePath : ∃ b k, f.filePath = sm.getFilePath b k

def Described (sm : StorageManager) (f : StoredFile) : Prop :=
  ∃ content opts, Records sm content opts f

variable {sm : StorageManager} {app : App} {h : Host} {w : World} {b k : String} {content : Bytes}
  {ct : Option String} {opts : StoreOptions} {file : StoredFile}

theorem Records.touched {id : Uuid} {now : Time} (hr : Records sm content opts file) :
    Records sm content opts (Database.touch id now file) := by
  unfold Database.touch
  split
  · exact { hr with }
  · exact hr

theorem Records.merged {old : Option StoredFile} (hr : Records sm content opts file) :
    Records sm content opts (Database.mergeRow old file) := by
  cases old <;> exact { hr with }

/-- Neither stage makes content larger than the nonce and the tag do. -/
theorem Records.fileSize_le (hr : Records sm content opts file) :
    file.fileSize ≤ file.originalSize + 28 := by
  have hpacked : (sm.compressStage opts content).1.length ≤ content.length := by
    cases hc : (sm.compressStage opts content).2 with
    | true => exact (compressStage_kept hc).2.le
    | false => rw [compressStage_unchanged hc]
  rw [hr.fileSize, hr.originalSize]
  unfold processedSize
  dsimp only
  split <;> omega

/-! ## What uploads promise -/

/-- The row found by a hash has it, and is a record. -/
def Heard (sm : StorageManager) : (a : Action) → Response a → Prop
  | .selectFileByHash hash, r => ∀ f, r = .ok (some f) → f.hashBlake3 = hash ∧ Described sm f
  | _, _ => True

/-- The rows that are saved are records. -/
def Asked (sm : StorageManager) : Action → Prop
  | .upsertFile f => Described sm f
  | _ => True

abbrev Keeps {E α : Type} (sm : StorageManager) (p : Prog Action Response E α) : Prop :=
  p.Honours (Heard sm) (Asked sm)

theorem Asked.of_addsNone {a : Action} (ha : AddsNone a) : Asked sm a := by
  cases a with
  | upsertFile f => simp [AddsNone, addsRow] at ha
  | _ => trivial

/-- What inserts no row promises nothing. -/
theorem keeps_of_addsNone {E α : Type} {p : Prog Action Response E α} (hp : p.Uses AddsNone) :
    Keeps sm p :=
  hp.honours fun _ => Asked.of_addsNone

theorem saveFile_keeps (hf : Described sm file) : Keeps sm (saveFile file) := by
  apply saveFile_steps.honours
  rintro a rfl
  exact hf

theorem ensureBucketExists_addsNone : (sm.ensureBucketExists b).Uses AddsNone := by
  apply ensureBucketExists_steps.mono
  intro a ha
  cases ha <;> rfl

theorem encryptStage_addsNone (data : Bytes) : (sm.encryptStage opts data).Uses AddsNone := by
  apply (encryptStage_steps data).mono
  intro a ha
  cases ha <;> rfl

/-- What the encryption stage returns tells whether it was asked for, and has the length of the
stored form. -/
theorem encryptStage_yields (law : sm.lib.toCiphers.Lawful) :
    (sm.encryptStage opts (sm.compressStage opts content).1).Yields fun out =>
      out.1.length = processedSize sm opts content ∧ out.2 = sm.shouldEncrypt opts := by
  simp only [encryptStage, processedSize, step_eq, Prog.bind_eq, Prog.act_bind, Prog.ret_bind,
    Prog.pure_eq]
  cases hs : sm.shouldEncrypt opts with
  | false => exact ⟨by simp, rfl⟩
  | true =>
    simp only [if_true, Bool.true_and]
    refine Prog.Yields.bind (P := fun _ => True) (Prog.yields_ofExcept fun _ _ => trivial) fun alg _ => ?_
    cases hid : opts.encryptionKeyId with
    | some keyId =>
      refine Prog.Yields.bind (P := fun _ => True) ?_ fun key _ nonce => ?_
      · simp only [getKey, ofSqlx, step_eq, Prog.bind_eq, Prog.act_bind, Prog.ret_bind]
        refine fun r => Prog.Yields.bind (P := fun _ => True) (Prog.yields_ofExcept fun _ _ => trivial)
          fun found _ => ?_
        cases found <;> trivial
      · refine Prog.Yields.bind (Prog.yields_ofExcept fun _ h => h) fun out hout => ⟨?_, rfl⟩
        simpa using CryptoManager.encryptWithKey_length law hout
    | none =>
      refine fun nonce => Prog.Yields.bind (Prog.yields_ofExcept fun _ h => h) fun out hout => ⟨?_, rfl⟩
      simpa using CryptoManager.encrypt_length law hout

theorem writeBytes_addsNone (path : String) (processed : Bytes) :
    (writeBytes path processed).Uses AddsNone := by
  simp only [writeBytes, ofIo, step_eq, Prog.bind_eq, Prog.act_bind, Prog.ret_bind, Prog.pure_eq]
  have hwrite : (Prog.act (.writeFileAtomic path processed) fun r =>
      (Prog.ofExcept (r.mapError StorageError.ofIo)).bind fun _ => .ret () : Op Unit).Uses AddsNone :=
    ⟨rfl, fun r => Prog.Uses.bind (Prog.uses_ofExcept _) fun _ => trivial⟩
  split
  · exact ⟨rfl, fun r => Prog.Uses.bind (Prog.uses_ofExcept _) fun _ => hwrite⟩
  · exact hwrite

/-- The row of a fresh upload records its content. -/
theorem records_fresh {processed : Bytes} {id : Uuid} {now : Time}
    (hlen : processed.length = processedSize sm opts content) :
    Records sm content opts (sm.freshFile b k content ct opts (sm.compressStage opts content).2
      (sm.compressStage opts content).1.length processed (sm.shouldEncrypt opts) id now) where
  hashBlake3 := rfl
  hashMd5 := rfl
  originalSize := rfl
  fileSize := congrArg Nat.cast hlen
  isCompressed := rfl
  isEncrypted := rfl
  compressionAlgorithm := rfl
  encryptionAlgorithm := rfl
  compressionRatio := rfl
  encryptionKeyId := rfl
  filePath := ⟨b, k, rfl⟩

/-- The row of an alias records the same content as the row it repeats. -/
theorem described_aliased (hinj : Function.Injective sm.lib.blake3) {existing : StoredFile}
    {id : Uuid} {now : Time} (hhash : existing.hashBlake3 = sm.lib.blake3 content)
    (hd : Described sm existing) :
    Described sm (sm.aliasedFile b k content ct opts existing id now) := by
  obtain ⟨content', opts', hr⟩ := hd
  obtain rfl : content' = content := hinj (hr.hashBlake3.symm.trans hhash)
  exact ⟨content', opts',
    { hashBlake3 := rfl
      hashMd5 := rfl
      originalSize := hr.originalSize
      fileSize := hr.fileSize
      isCompressed := hr.isCompressed
      isEncrypted := hr.isEncrypted
      compressionAlgorithm := hr.compressionAlgorithm
      encryptionAlgorithm := hr.encryptionAlgorithm
      compressionRatio := hr.compressionRatio
      encryptionKeyId := hr.encryptionKeyId
      filePath := hr.filePath }⟩

theorem storeFresh_keeps (law : sm.lib.toCiphers.Lawful) :
    Keeps sm (sm.storeFresh b k content ct opts) := by
  simp only [storeFresh, recordFile, step_eq, Prog.bind_eq, Prog.act_bind, Prog.ret_bind,
    Prog.pure_eq]
  refine Prog.Honours.bind_of (keeps_of_addsNone (encryptStage_addsNone _)) (encryptStage_yields law) ?_
  rintro ⟨processed, isEncrypted⟩ ⟨hlen, rfl⟩
  refine Prog.Honours.bind (keeps_of_addsNone (writeBytes_addsNone _ _)) fun _ => ?_
  refine ⟨trivial, fun id _ => ⟨trivial, fun now _ => ?_⟩⟩
  have hf : Records sm content opts (sm.freshFile b k content ct opts (sm.compressStage opts content).2
      (sm.compressStage opts content).1.length processed (sm.shouldEncrypt opts) id now) :=
    records_fresh hlen
  refine Prog.Honours.bind (saveFile_keeps ⟨content, opts, hf⟩).attempt fun saved => ?_
  cases saved with
  | ok _ => exact ⟨trivial, fun _ _ => ⟨trivial, fun _ _ => trivial⟩⟩
  | error e => exact ⟨trivial, fun _ _ => trivial⟩

theorem storeFile_keeps (law : sm.lib.toCiphers.Lawful) (hinj : Function.Injective sm.lib.blake3) :
    Keeps sm (sm.storeFile b k content ct opts) := by
  simp only [storeFile, storeAlias, step_eq, Prog.bind_eq, Prog.act_bind, Prog.ret_bind, Prog.pure_eq]
  refine Prog.Honours.bind (keeps_of_addsNone ensureBucketExists_addsNone) fun _ => ?_
  split
  · refine ⟨trivial, fun r hr => ?_⟩
    cases r with
    | error e => trivial
    | ok found =>
      simp only [ofSqlx_ok, Prog.ret_bind]
      cases found with
      | none => exact storeFresh_keeps law
      | some existing =>
        dsimp only
        split
        · trivial
        · obtain ⟨hhash, hd⟩ := hr existing rfl
          refine ⟨trivial, fun id _ => ⟨trivial, fun now _ => ?_⟩⟩
          exact Prog.Honours.bind (saveFile_keeps (described_aliased hinj hhash hd)) fun _ => trivial
  · exact storeFresh_keeps law

theorem expiryAfter_addsNone {E : Type} (invalid : E) (ttl : Option Int) :
    (expiryAfter invalid ttl).Uses AddsNone := by
  cases ttl with
  | none => trivial
  | some ttl =>
    simp only [expiryAfter, checkedStep, Prog.bind_eq, Prog.call_bind, Prog.pure_eq]
    split
    · trivial
    · refine ⟨rfl, fun now => Prog.Uses.bind ?_ fun _ => trivial⟩
      cases addSeconds now ttl <;> trivial

theorem orFail_addsNone {E α : Type} (x : Except E α) : (orFail x : Handler E α).Uses AddsNone :=
  (Prog.uses_ofExcept x).mapError

theorem uploadFile_keeps (law : sm.lib.toCiphers.Lawful) (hinj : Function.Injective sm.lib.blake3)
    {text : TextLibrary} {query : UploadQuery} {headers : HeaderMap} {body : Incoming} :
    Keeps sm (LocalStorage.uploadFile sm text b query headers body) := by
  simp only [LocalStorage.uploadFile, Prog.bind_eq, Prog.pure_eq]
  have hname : (uploadName text headers).Uses AddsNone := by
    unfold uploadName
    split
    · trivial
    · exact ⟨rfl, fun _ => trivial⟩
  refine Prog.Honours.bind (keeps_of_addsNone hname) fun filename => ?_
  refine Prog.Honours.bind (keeps_of_addsNone (orFail_addsNone _)) fun _ => ?_
  refine Prog.Honours.bind (keeps_of_addsNone (orFail_addsNone _)) fun bytes => ?_
  refine Prog.Honours.bind (keeps_of_addsNone (expiryAfter_addsNone _ _)) fun expiresAt => ?_
  exact Prog.Honours.bind (storeFile_keeps law hinj).mapError fun _ => trivial

theorem putObject_keeps (law : sm.lib.toCiphers.Lawful) (hinj : Function.Injective sm.lib.blake3)
    {verified : Except S3.S3Error Unit} {headers : HeaderMap} {body : Bytes} :
    Keeps sm (S3.putObject sm verified b k headers body) := by
  simp only [S3.putObject, S3.putBody, S3.copyObject, S3.orS3, Prog.bind_eq, Prog.pure_eq]
  refine Prog.Honours.bind (keeps_of_addsNone (orFail_addsNone _)) fun _ => ?_
  split
  · refine Prog.Honours.mapError ?_
    split
    · trivial
    · rename_i srcBucket srcKey hsource
      have hread : (sm.getFile srcBucket srcKey).Uses AddsNone :=
        getFile_steps.mono fun _ => ReadStep.addsNone
      refine Prog.Honours.bind (keeps_of_addsNone hread.mapError) fun source => ?_
      exact Prog.Honours.bind (storeFile_keeps law hinj).mapError fun _ => trivial
  · refine Prog.Honours.bind (keeps_of_addsNone (orFail_addsNone _)) fun ttl => ?_
    refine Prog.Honours.bind (keeps_of_addsNone (expiryAfter_addsNone _ _)) fun expiresAt => ?_
    exact Prog.Honours.bind (storeFile_keeps law hinj).mapError.mapError fun _ => trivial

/-! ## The other requests -/

theorem handleFileRequest_addsNone {st : AppState} {path : String} {headers : HeaderMap} :
    (LocalStorage.handleFileRequest st b path headers).Uses AddsNone := by
  by_cases hend : RequestKeys.EndsInInfo path
  · rw [RequestKeys.handleFileRequest_info hend]
    refine Prog.Uses.bind (Prog.uses_ofExcept _) fun _ => ?_
    exact Prog.Uses.bind (getFileInfo_steps.mono fun _ => ReadStep.addsNone) fun _ => trivial
  · rw [RequestKeys.handleFileRequest_file hend]
    refine Prog.Uses.bind (Prog.uses_ofExcept _) fun _ => ?_
    exact (RequestKeys.downloadFile_steps _).mono fun _ => ReadStep.addsNone

theorem deleteFile_addsNone : (deleteFile b k).Uses AddsNone :=
  deleteFile_steps.mono fun _ => DeleteStep.addsNone

theorem deleteObjects_addsNone {keys : List String} {result : S3.DeleteResult} :
    (S3.deleteObjects b keys result).Uses AddsNone := by
  induction keys generalizing result with
  | nil => trivial
  | cons key keys ih =>
    simp only [S3.deleteObjects, S3.orS3, Prog.bind_eq]
    refine Prog.Uses.bind deleteFile_addsNone.attempt.mapError fun x => ?_
    cases x with
    | ok _ => exact ih
    | error e => cases e <;> exact ih

theorem createBucket_addsNone : (sm.createBucket b).Uses AddsNone := by
  simp only [StorageManager.createBucket, ofIo, ofSqlx, step_eq, Prog.bind_eq, Prog.act_bind,
    Prog.ret_bind]
  refine ⟨rfl, fun r => Prog.Uses.bind (Prog.uses_ofExcept _) fun _ => ?_⟩
  exact ⟨rfl, fun r => Prog.Uses.bind (Prog.uses_ofExcept _) fun _ => trivial⟩

theorem deleteBucket_addsNone : (sm.deleteBucket b).Uses AddsNone :=
  deleteBucket_steps.mono fun _ => DeleteBucketStep.addsNone

theorem listFiles_addsNone {keyPrefix : Option String} {limit offset : Option Int} :
    (StorageManager.listFiles b keyPrefix limit offset).Uses AddsNone := by
  simp only [StorageManager.listFiles, ofSqlx, step_eq, Prog.bind_eq, Prog.act_bind, Prog.ret_bind]
  exact ⟨rfl, fun r => Prog.Uses.bind (Prog.uses_ofExcept _) fun _ => trivial⟩

theorem searchFiles_addsNone {bucket : Option String} {query : String} {limit : Option Int} :
    (StorageManager.searchFiles bucket query limit).Uses AddsNone := by
  simp only [StorageManager.searchFiles, ofSqlx, step_eq, Prog.bind_eq, Prog.act_bind, Prog.ret_bind]
  exact ⟨rfl, fun r => Prog.Uses.bind (Prog.uses_ofExcept _) fun _ => trivial⟩

/-! ## The server -/

/-- The answers of the service to its programs on the objects are those that they rely on. -/
def ServerHeard (sm : StorageManager) : (a : ServiceAction) → ServiceResponse a → Prop
  | .object a, r => Heard sm a r
  | _, _ => True

def ServerAsked (sm : StorageManager) : ServiceAction → Prop
  | .object a => Asked sm a
  | _ => True

abbrev ServerKeeps {E α : Type} (sm : StorageManager)
    (p : Prog ServiceAction ServiceResponse E α) : Prop :=
  p.Honours (ServerHeard sm) (ServerAsked sm)

/-- The programs on the objects save records only. -/
theorem objectPart_keeps (law : app.storage.lib.toCiphers.Lawful)
    (hinj : Function.Injective app.storage.lib.blake3) {call : Call}
    {p : Prog Action Response Unit Unit} (hp : objectPart app call = some p) :
    Keeps app.storage p := by
  cases call with
  | uploadFile bucket query headers body =>
    obtain rfl := Option.some.inj hp
    exact (uploadFile_keeps law hinj).discard
  | listFiles bucket query headers =>
    obtain rfl := Option.some.inj hp
    refine keeps_of_addsNone (Prog.Uses.discard ?_)
    exact Prog.Uses.bind (Prog.uses_ofExcept _) fun _ => listFiles_addsNone
  | searchFiles query headers =>
    obtain rfl := Option.some.inj hp
    refine keeps_of_addsNone (Prog.Uses.discard ?_)
    exact Prog.Uses.bind (Prog.uses_ofExcept _) fun _ => searchFiles_addsNone
  | handleFileRequest bucket path headers =>
    obtain rfl := Option.some.inj hp
    exact keeps_of_addsNone handleFileRequest_addsNone.discard
  | handleFileDelete bucket path =>
    obtain rfl := Option.some.inj hp
    refine keeps_of_addsNone (Prog.Uses.discard ?_)
    simp only [LocalStorage.handleFileDelete, Prog.bind_eq, Prog.pure_eq]
    exact Prog.Uses.bind deleteFile_addsNone fun _ => trivial
  | createBucket bucket =>
    obtain rfl := Option.some.inj hp
    exact keeps_of_addsNone createBucket_addsNone.discard
  | deleteBucket bucket =>
    obtain rfl := Option.some.inj hp
    exact keeps_of_addsNone deleteBucket_addsNone.discard
  | sweepExpiredFiles =>
    obtain rfl := Option.some.inj hp
    exact keeps_of_addsNone sweepExpiredFiles_addsNone.discard
  | v2 verified call =>
    cases call with
    | listBuckets => simp [objectPart] at hp
    | createBucket bucket =>
      obtain rfl := Option.some.inj hp
      refine keeps_of_addsNone (Prog.Uses.discard (Prog.Uses.bind (Prog.uses_ofExcept _) fun _ => ?_))
      exact createBucket_addsNone.mapError
    | deleteBucket bucket =>
      obtain rfl := Option.some.inj hp
      refine keeps_of_addsNone (Prog.Uses.discard (Prog.Uses.bind (Prog.uses_ofExcept _) fun _ => ?_))
      exact deleteBucket_addsNone.mapError
    | listObjectsV2 bucket query =>
      obtain rfl := Option.some.inj hp
      refine keeps_of_addsNone (Prog.Uses.discard ?_)
      simp only [S3.listObjectsV2, S3.orS3, Prog.bind_eq]
      refine Prog.Uses.bind (Prog.uses_ofExcept _) fun _ => ?_
      exact Prog.Uses.bind listFiles_addsNone.mapError fun _ => trivial
    | bucketPost bucket query body =>
      obtain rfl := Option.some.inj hp
      refine keeps_of_addsNone (Prog.Uses.discard ?_)
      simp only [S3.bucketPost, Prog.bind_eq]
      refine Prog.Uses.bind (Prog.uses_ofExcept _) fun _ => ?_
      split
      · exact Prog.Uses.bind (Prog.uses_ofExcept _) fun _ => deleteObjects_addsNone
      · trivial
    | putObject bucket key headers body =>
      obtain rfl := Option.some.inj hp
      exact (putObject_keeps law hinj).discard
    | getObject bucket key =>
      obtain rfl := Option.some.inj hp
      refine keeps_of_addsNone (Prog.Uses.discard ?_)
      simp only [S3.getObject, S3.orS3, Prog.bind_eq]
      refine Prog.Uses.bind (Prog.uses_ofExcept _) fun _ => ?_
      refine Prog.Uses.bind (getFile_steps.mono fun _ => ReadStep.addsNone).mapError fun _ => ?_
      exact Prog.Uses.bind (getFileInfo_steps.mono fun _ => ReadStep.addsNone).mapError fun _ => trivial
    | headObject bucket key =>
      obtain rfl := Option.some.inj hp
      refine keeps_of_addsNone (Prog.Uses.discard ?_)
      simp only [S3.headObject, S3.orS3, Prog.bind_eq]
      refine Prog.Uses.bind (Prog.uses_ofExcept _) fun _ => ?_
      exact Prog.Uses.bind (getFileInfo_steps.mono fun _ => ReadStep.addsNone).mapError fun _ => trivial
    | deleteObject bucket key =>
      obtain rfl := Option.some.inj hp
      refine keeps_of_addsNone (Prog.Uses.discard ?_)
      simp only [S3.deleteObject, S3.orS3, Prog.bind_eq]
      refine Prog.Uses.bind (Prog.uses_ofExcept _) fun _ => ?_
      refine Prog.Uses.bind deleteFile_addsNone.attempt.mapError fun x => ?_
      cases x with
      | ok _ => trivial
      | error e => cases e <;> trivial
  | _ => simp [objectPart] at hp

/-- Whatever is asked of the service, it saves records only. -/
theorem call_keeps (law : app.storage.lib.toCiphers.Lawful)
    (hinj : Function.Injective app.storage.lib.blake3) (call : Call) :
    ServerKeeps app.storage (call.task app) := by
  refine call_honours (fun p hp => objectPart_keeps law hinj hp) (fun a ha => ?_)
    (fun _ _ => trivial) fun _ _ => trivial
  cases a with
  | object a => cases a with
    | upsertFile f => exact ha.elim
    | _ => trivial
  | _ => trivial

/-! ## Any history of the server -/

def AllDescribed (sm : StorageManager) (w : World) : Prop := ∀ f ∈ w.db.files, Described sm f

/-- One step that saves records only keeps the table one of records. -/
theorem described_step {c : ServiceChoice} {a : ServiceAction} (hw : AllDescribed sm w)
    (ha : ServerAsked sm a) : AllDescribed sm (execService h c a w).2 := by
  by_cases hobject : ∃ o, a = .object o
  · obtain ⟨o, rfl⟩ := hobject
    have ht : Takes (exec h) w ⟨o, (exec h c.toChoice o w).1⟩ (exec h c.toChoice o w).2 := ⟨_, rfl⟩
    refine takes_rows ht ?_ ?_ hw
    · rintro id now f ⟨content, opts, hr⟩
      exact ⟨content, opts, hr.touched⟩
    · rintro f rfl
      obtain ⟨content, opts, hr⟩ := ha
      exact ⟨content, opts, hr.merged⟩
  · have hkeys : OnlyKeys w (execService h c a w).2 :=
      execService_onlyKeys fun o ho => hobject ⟨o, ho⟩
    intro f hf
    exact hw f (hkeys.files ▸ hf)

/-- What the lookup by hash finds is a row of that hash. -/
theorem heard_step (hw : AllDescribed sm w) (c : ServiceChoice) (a : ServiceAction) :
    ServerHeard sm a (execService h c a w).1 := by
  cases a with
  | object a =>
    cases a with
    | selectFileByHash hash =>
      intro f hf
      have hfound : w.db.selectFileByHash hash c.rank = some f := (answer_eq_ok hf).symm
      obtain ⟨hmem, hhash⟩ := Database.selectFileByHash_some hfound
      exact ⟨hhash, hw f hmem⟩
    | _ => trivial
  | _ => trivial

open RequestLimit (app₀)

/-- `PUT /v2/a/k` with a single byte. -/
def put : Call := .v2 (.ok ()) (.putObject "a" "k" [] [120])

def single : World :=
  ((S3.putObject app₀.storage (.ok ()) "a" "k" [] [120]).eval (exec app₀.storage.host) calm
    World.empty).2

theorem put_served : ∃ es, ServerRun app₀ (Gated.opened maxConcurrentRequests World.empty) es
    ⟨maxConcurrentRequests, [.running put false (.ret ())], single⟩ := by
  have hruns : (S3.putObject app₀.storage (.ok ()) "a" "k" [] [120]).Runs (exec app₀.storage.host)
      World.empty _ single := Prog.eval_runs calm _ _
  cases hx : ((S3.putObject app₀.storage (.ok ()) "a" "k" [] [120]).eval (exec app₀.storage.host)
      calm World.empty).1 with
  | ok response =>
    rw [hx] at hruns
    exact served_alone rfl rfl (onObjects_runs hruns)
  | error e =>
    have hok : ((S3.putObject app₀.storage (.ok ()) "a" "k" [] [120]).eval (exec app₀.storage.host)
        calm World.empty).1.toOption.isSome = true := by decide
    simp [hx, Except.toOption] at hok

end LocalStorage.Proofs.RowRecords
