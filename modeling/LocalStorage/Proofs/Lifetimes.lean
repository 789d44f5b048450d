import LocalStorage.Auth
import LocalStorage.Proofs.Effects
import LocalStorage.Proofs.Vocabulary
import LocalStorage.Sample
import LocalStorage.Uploads

namespace LocalStorage.Proofs.Lifetimes
open Lib Lib.Text StorageManager S3 Sample

/-! # How long an upload is asked to live -/

/-- The clock is never read later than `T`. -/
def Until (T : Time) : (a : Action) → Response a → Prop
  | .utcNow, now => now ≤ T
  | _, _ => True

/-- A lifetime in seconds that a duration can hold, from an instant that leaves room for it in
the calendar. -/
def Fits (T : Time) (ttl : Int) : Prop := ttl ≤ 9223372036854775 ∧ T + ttl * 1000000 ≤ lastInstant

/-- The statuses of errors of the client. -/
def ClientError (status : Nat) : Prop := 400 ≤ status ∧ status < 500

/-- Every row expires at `expiresAt`, or when a row of its key did before. -/
def Expiring (expiresAt : Option Time) (w t : World) : Prop :=
  ∀ f ∈ t.db.files, f.expiresAt = expiresAt ∨
    ∃ g ∈ w.db.files, g.ident = f.ident ∧ g.expiresAt = f.expiresAt

/-- How a request with a lifetime should end: the client's error, or the end of an upload that
expires so long after the time that was read. -/
inductive Timed {E α : Type} (sm : StorageManager) (b : String) (status : E → Nat)
    (answered : Except StorageError StoredFile → Except (Stop E) α) (ttl : Int) (w : World)
    (x : Except (Stop E) α) (t : World) : Prop where
  | refused (e : E) (result : x = .error (.error e)) (client : ClientError (status e))
      (unchanged : t.db = w.db)
  | computed (m : World) (k : String) (content : Bytes) (contentType : Option String)
      (opts : StoreOptions) (y : Except StorageError StoredFile) (later : w.now ≤ m.now)
      (kept : m.db = w.db) (expiry : opts.expiresAt = some (m.now + ttl * 1000000))
      (ahead : m.now < m.now + ttl * 1000000)
      (stored : (sm.storeFile b k content contentType opts).Runs (exec sm.host) m y t)
      (result : x = answered y) (rows : Expiring opts.expiresAt w t)

variable {sm : StorageManager} {text : TextLibrary} {b k : String} {query : UploadQuery}
  {headers : HeaderMap} {body : Incoming} {content : Bytes} {ct : Option String}
  {opts : StoreOptions} {verified : Except S3Error Unit} {ttl : Int} {T : Time} {w t : World}

/-! ## The expiry -/

theorem addSeconds_of_fits (h : Fits T ttl) : addSeconds T ttl = some (T + ttl * 1000000) := if_pos h

theorem addSeconds_of_not_fits (h : ¬ Fits T ttl) : addSeconds T ttl = none := if_neg h

/-- A lifetime that fits at some time fits at every time before. -/
theorem Fits.earlier {now : Time} (h : Fits T ttl) (hle : now ≤ T) : Fits now ttl :=
  ⟨h.1, Int.le_trans (Int.add_le_add_right hle _) h.2⟩

section Expiry
variable {E : Type} {invalid : E}

theorem expiryAfter_refused (h : ttl ≤ 0) :
    expiryAfter invalid (some ttl) = .fail (.error invalid) := if_pos h

theorem expiryAfter_positive (h : ¬ ttl ≤ 0) : expiryAfter invalid (some ttl) =
    Prog.act .utcNow fun now : Time =>
      (Prog.unwrap (addSeconds now ttl)).bind fun expiresAt => .ret (some expiresAt) := by
  simp only [expiryAfter, if_neg h, checkedStep, Prog.bind_eq, Prog.call_bind, Prog.pure_eq]

/-- With room until the last reading, the expiry is the lifetime after the time that was read. -/
theorem expiryAfter_runs {h : Host} {x : Except (Stop E) (Option Time)} (hpos : ¬ ttl ≤ 0)
    (hfits : Fits T ttl)
    (hr : (expiryAfter invalid (some ttl)).RunsWith (exec h) (Until T) w x t) :
    w.now ≤ t.now ∧ t.db = w.db ∧ x = .ok (some (t.now + ttl * 1000000)) := by
  rw [expiryAfter_positive hpos] at hr
  obtain ⟨c, hread, hr⟩ := hr
  have hle : w.now + (c.elapsed : Int) ≤ T := hread
  have hsum : addSeconds (w.now + (c.elapsed : Int)) ttl =
      some (w.now + (c.elapsed : Int) + ttl * 1000000) := addSeconds_of_fits (hfits.earlier hle)
  simp only [exec, hsum, Prog.unwrap_some, Prog.ret_bind, Prog.runsWith_ret] at hr
  obtain ⟨rfl, rfl⟩ := hr
  exact ⟨Int.le_add_of_nonneg_right (Int.natCast_nonneg _), rfl, rfl⟩

/-- Without, the clock can be read so late that the sum panics. -/
theorem expiryAfter_panics (h : Host) (invalid : E) (hpos : ¬ ttl ≤ 0) (hfits : ¬ Fits T ttl)
    (hT : w.now ≤ T) : ∃ t, (expiryAfter invalid (some ttl)).RunsWith (exec h) (Until T) w (.error .panic) t := by
  have helapsed : w.now + ((T - w.now).toNat : Int) = T := by
    rw [Int.toNat_of_nonneg (Int.sub_nonneg_of_le hT)]
    exact (Int.add_comm _ _).trans (Int.sub_add_cancel T w.now)
  rw [expiryAfter_positive hpos]
  refine ⟨{ w with now := T }, { elapsed := (T - w.now).toNat }, ?_, ?_⟩
  · exact Int.le_of_eq helapsed
  · have hnone : addSeconds T ttl = none := addSeconds_of_not_fits hfits
    simp only [exec, helapsed, hnone]
    exact ⟨rfl, rfl⟩

end Expiry

/-! ## What an upload leaves in the table -/

/-- A step that saves no row but with this expiry. -/
def SavesWith (expiresAt : Option Time) (a : Action) : Prop :=
  ∀ f, a = .upsertFile f → f.expiresAt = expiresAt

theorem expiring_of_runs {E α : Type} {h : Host} {p : Prog Action Response E α} {x : Except E α}
    {expiresAt : Option Time} (hp : p.Uses (SavesWith expiresAt)) (hr : p.Runs (exec h) w x t) :
    Expiring expiresAt w t := by
  refine hr.keeps (P := SavesWith expiresAt) (I := fun s => Expiring expiresAt w s) ?_ hp
    fun f hf => .inr ⟨f, hf, rfl, rfl⟩
  intro c a s ha hs
  have ht : Takes (exec h) s ⟨a, (exec h c a s).1⟩ (exec h c a s).2 := ⟨c, rfl⟩
  refine takes_rows ht ?_ ?_ hs
  · intro id now f hf
    rwa [Database.touch_expiresAt, Database.touch_ident]
  · rintro f rfl
    exact .inl ((Database.mergeRow_expiresAt _ f).trans (ha f rfl))

theorem storeFile_saves (opts : StoreOptions) :
    (sm.storeFile b k content ct opts).Uses (SavesWith opts.expiresAt) := by
  refine storeFile_steps.mono ?_
  rintro a ha f rfl
  cases ha with
  | ensure h => cases h
  | fresh h =>
    cases h with
    | encrypt h => cases h
    | upsertFile _ hrow => exact hrow.expiresAt

theorem getFile_saves {expiresAt : Option Time} :
    (sm.getFile b k).Uses (SavesWith expiresAt) := by
  refine getFile_steps.mono ?_
  rintro a ha f rfl
  cases ha with
  | delete h => cases h

/-- An upload that goes on with the expiry of its lifetime ends as it should. -/
theorem timed_of_stored {E α : Type} {status : E → Nat}
    {answered : Except StorageError StoredFile → Except (Stop E) α} {x : Except (Stop E) α}
    {m : World} {y : Except StorageError StoredFile} (hpos : ¬ ttl ≤ 0) (hlater : w.now ≤ m.now)
    (hkept : m.db = w.db) (hexpiry : opts.expiresAt = some (m.now + ttl * 1000000))
    (hr : (sm.storeFile b k content ct opts).Runs (exec sm.host) m y t) (hx : x = answered y) :
    Timed sm b status answered ttl w x t := by
  refine .computed m k content ct opts y hlater hkept hexpiry ?_ hr hx ?_
  · have hlong : 0 < ttl * 1000000 := Int.mul_pos (Int.not_le.mp hpos) (by decide)
    exact Int.lt_add_of_pos_right _ hlong
  · have hrows : Expiring opts.expiresAt m t := expiring_of_runs (storeFile_saves opts) hr
    rwa [Expiring, hkept] at hrows

/-! ## The native route -/

/-- A check before the lifetime turns the upload away. -/
def TurnedAway (sm : StorageManager) (headers : HeaderMap) (body : Incoming) : Prop :=
  (∃ e, checkDeclared headers (maxFileSize sm) = .error e) ∨
    ∃ e, readBody body (maxFileSize sm) = .error e

def created (y : Except StorageError StoredFile) : Except (Stop StorageError) HttpResponse :=
  (y.mapError Stop.error).map fun file =>
    ⟨201, [("content-type", "application/json")], .json (FileInfo.ofStored file)⟩

theorem badRequest_client (msg : String) : ClientError (StorageError.badRequest msg).status := by
  simp [ClientError, StorageError.status]

theorem payloadTooLarge_client (msg : String) :
    ClientError (StorageError.payloadTooLarge msg).status := by
  simp [ClientError, StorageError.status]

theorem checkDeclared_client {maxSize : Nat} {e : StorageError}
    (h : checkDeclared headers maxSize = .error e) : ClientError e.status := by
  unfold checkDeclared at h
  split at h
  · split at h
    · obtain rfl := Except.error.inj h
      exact payloadTooLarge_client _
    · simp at h
  · simp at h

theorem readBody_client {maxSize : Nat} {e : StorageError}
    (h : readBody body maxSize = .error e) : ClientError e.status := by
  unfold readBody at h
  split at h
  · split at h
    · obtain rfl := Except.error.inj h
      exact payloadTooLarge_client _
    · obtain rfl := Except.error.inj h
      exact badRequest_client _
  · split at h
    · obtain rfl := Except.error.inj h
      exact badRequest_client _
    · simp at h

theorem uploadName_runs {x : Except (Stop StorageError) String}
    (hr : (uploadName text headers).RunsWith (exec sm.host) (Until T) w x t) :
    w.now ≤ t.now ∧ t.db = w.db ∧ ∃ filename, x = .ok filename := by
  unfold uploadName at hr
  split at hr
  · obtain ⟨rfl, rfl⟩ := hr
    exact ⟨Int.le_refl _, rfl, _, rfl⟩
  · obtain ⟨c, -, rfl, rfl⟩ := hr
    exact ⟨Int.le_add_of_nonneg_right (Int.natCast_nonneg _), rfl, _, rfl⟩

theorem uploadName_possible (sm : StorageManager) (text : TextLibrary) (headers : HeaderMap)
    (hT : w.now ≤ T) : ∃ filename t,
    (uploadName text headers).RunsWith (exec sm.host) (Until T) w (.ok filename) t ∧ t.now ≤ T := by
  unfold uploadName
  split
  · exact ⟨_, w, ⟨rfl, rfl⟩, hT⟩
  · have hcalm : w.now + ((calm.elapsed : Nat) : Int) ≤ T := by simpa [calm] using hT
    exact ⟨_, _, ⟨calm, hcalm, rfl, rfl⟩, hcalm⟩

/-- The upload after its checks. -/
theorem uploadFile_eq : uploadFile sm text b query headers body =
    (uploadName text headers).bind fun filename =>
      (orFail (checkDeclared headers (maxFileSize sm))).bind fun _ =>
        (orFail (readBody body (maxFileSize sm))).bind fun bytes =>
          (expiryAfter (invalidTtlSeconds query) query.ttlSeconds).bind fun expiresAt =>
            ((sm.storeFile b filename bytes
                (some ((headers.text "content-type").getD "application/octet-stream"))
                { compress := query.compress
                  encrypt := query.encrypt
                  expiresAt := expiresAt
                  compressionAlgorithm := query.compressionAlgorithm
                  compressionLevel := query.compressionLevel
                  encryptionKeyId := query.encryptionKeyId }).lifted).bind fun file =>
              .ret ⟨201, [("content-type", "application/json")], .json (FileInfo.ofStored file)⟩ := rfl

theorem created_ne_panic (y : Except StorageError StoredFile) : created y ≠ .error .panic := by
  cases y <;> simp [created, Except.map, Except.mapError]

theorem upload_timed {x : Except (Stop StorageError) HttpResponse}
    (hquery : query.ttlSeconds = some ttl) (hcond : TurnedAway sm headers body ∨ ttl ≤ 0 ∨ Fits T ttl)
    (hr : (uploadFile sm text b query headers body).RunsWith (exec sm.host) (Until T) w x t) :
    x ≠ .error .panic ∧ Timed sm b StorageError.status created ttl w x t := by
  rw [uploadFile_eq, hquery] at hr
  rcases Prog.runsWith_bind.mp hr with ⟨e, hname, rfl⟩ | ⟨filename, u, hname, hr⟩
  · obtain ⟨-, -, filename, hfilename⟩ := uploadName_runs hname
    simp at hfilename
  obtain ⟨hlater, hdb, -⟩ := uploadName_runs hname
  cases hdeclared : checkDeclared headers (maxFileSize sm) with
  | error e =>
    rw [hdeclared, orFail_error, Prog.fail_bind] at hr
    obtain ⟨rfl, rfl⟩ := hr
    exact ⟨by simp, .refused e rfl (checkDeclared_client hdeclared) hdb⟩
  | ok _ =>
    rw [hdeclared, orFail_ok, Prog.ret_bind] at hr
    cases hread : readBody body (maxFileSize sm) with
    | error e =>
      rw [hread, orFail_error, Prog.fail_bind] at hr
      obtain ⟨rfl, rfl⟩ := hr
      exact ⟨by simp, .refused e rfl (readBody_client hread) hdb⟩
    | ok bytes =>
      rw [hread, orFail_ok, Prog.ret_bind] at hr
      by_cases hpos : ttl ≤ 0
      · rw [expiryAfter_refused hpos, Prog.fail_bind] at hr
        obtain ⟨rfl, rfl⟩ := hr
        exact ⟨by simp, .refused _ rfl (badRequest_client _) hdb⟩
      · have hfits : Fits T ttl := by
          rcases hcond with haway | hneg | hfits
          · simp [TurnedAway, hdeclared, hread] at haway
          · exact absurd hneg hpos
          · exact hfits
        rcases Prog.runsWith_bind.mp hr with ⟨e, hexpiry, -⟩ | ⟨expiresAt, m, hexpiry, hr⟩
        · have hok := (expiryAfter_runs hpos hfits hexpiry).2.2
          simp at hok
        · obtain ⟨hm, hmdb, hok⟩ := expiryAfter_runs hpos hfits hexpiry
          obtain rfl := Except.ok.inj hok
          obtain ⟨z, rfl, hz⟩ := Prog.runs_bind_ret.mp hr.runs
          obtain ⟨y, rfl, hy⟩ := Prog.runs_lifted.mp hz
          exact ⟨created_ne_panic y,
            timed_of_stored hpos (Int.le_trans hlater hm) (hmdb.trans hdb) rfl hy rfl⟩

theorem upload_panics (sm : StorageManager) (text : TextLibrary) (b : String) (hquery : query.ttlSeconds = some ttl) (hT : w.now ≤ T)
    (hcond : ¬ (TurnedAway sm headers body ∨ ttl ≤ 0 ∨ Fits T ttl)) :
    ∃ t, (uploadFile sm text b query headers body).RunsWith (exec sm.host) (Until T) w
      (.error .panic) t := by
  simp only [not_or] at hcond
  obtain ⟨haway, hpos, hfits⟩ := hcond
  simp only [TurnedAway, not_or, not_exists] at haway
  obtain ⟨filename, u, hname, hu⟩ := uploadName_possible sm text headers hT
  obtain ⟨t, hpanic⟩ := expiryAfter_panics sm.host (invalidTtlSeconds query) hpos hfits hu
  refine ⟨t, ?_⟩
  rw [uploadFile_eq, hquery]
  refine Prog.runsWith_bind.mpr (.inr ⟨filename, u, hname, ?_⟩)
  cases hdeclared : checkDeclared headers (maxFileSize sm) with
  | error e => exact absurd hdeclared (haway.1 e)
  | ok _ =>
    cases hread : readBody body (maxFileSize sm) with
    | error e => exact absurd hread (haway.2 e)
    | ok bytes =>
      rw [orFail_ok, orFail_ok, Prog.ret_bind, Prog.ret_bind]
      exact Prog.runsWith_bind.mpr (.inl ⟨_, hpanic, rfl⟩)

/-! ## The S3 route -/

def put (y : Except StorageError StoredFile) : Except (Stop S3Error) PutResponse :=
  ((y.mapError S3Error.ofStorage).mapError Stop.error).map fun file => .stored (etag file.hashMd5)

theorem put_ne_panic (y : Except StorageError StoredFile) : put y ≠ .error .panic := by
  cases y <;> simp [put, Except.map, Except.mapError]

/-- The signature check lets the request pass, and the lifetime is none or fits; or the check
blames the client. -/
def Admitted (verified : Except S3Error Unit) (T : Time) (ttl : Int) : Prop :=
  match verified with
  | .ok _ => ttl ≤ 0 ∨ Fits T ttl
  | .error e => ClientError e.status

theorem putObject_eq (hplain : headers.text "x-amz-copy-source" = none)
    (httl : ttlSeconds headers = .ok (some ttl)) : putObject sm verified b k headers content =
      (orFail verified).bind fun _ =>
        (expiryAfter invalidTtl (some ttl)).bind fun expiresAt =>
          ((orS3 (sm.storeFile b k content (headers.text "content-type")
            { expiresAt := expiresAt })).lifted).bind fun file =>
              .ret (.stored (etag file.hashMd5)) := by
  simp only [putObject, hplain, putBody, httl, orFail_ok, Prog.bind_eq, Prog.ret_bind, Prog.pure_eq]

theorem put_timed {x : Except (Stop S3Error) PutResponse}
    (hplain : headers.text "x-amz-copy-source" = none)
    (httl : ttlSeconds headers = .ok (some ttl)) (hcond : Admitted verified T ttl)
    (hr : (putObject sm verified b k headers content).RunsWith (exec sm.host) (Until T) w x t) :
    x ≠ .error .panic ∧ Timed sm b S3Error.status put ttl w x t := by
  rw [putObject_eq hplain httl] at hr
  cases verified with
  | error e =>
    rw [orFail_error, Prog.fail_bind] at hr
    obtain ⟨rfl, rfl⟩ := hr
    exact ⟨by simp, .refused e rfl hcond rfl⟩
  | ok _ =>
    rw [orFail_ok, Prog.ret_bind] at hr
    by_cases hpos : ttl ≤ 0
    · rw [expiryAfter_refused hpos, Prog.fail_bind] at hr
      obtain ⟨rfl, rfl⟩ := hr
      exact ⟨by simp, .refused _ rfl ⟨by decide, by decide⟩ rfl⟩
    · have hfits : Fits T ttl := hcond.resolve_left hpos
      rcases Prog.runsWith_bind.mp hr with ⟨e, hexpiry, -⟩ | ⟨expiresAt, m, hexpiry, hr⟩
      · have hok := (expiryAfter_runs hpos hfits hexpiry).2.2
        simp at hok
      · obtain ⟨hm, hmdb, hok⟩ := expiryAfter_runs hpos hfits hexpiry
        obtain rfl := Except.ok.inj hok
        obtain ⟨z, rfl, hz⟩ := Prog.runs_bind_ret.mp hr.runs
        obtain ⟨v, rfl, hv⟩ := Prog.runs_lifted.mp hz
        obtain ⟨y, rfl, hy⟩ := Prog.runs_mapError.mp hv
        exact ⟨put_ne_panic y, timed_of_stored hpos hm hmdb rfl hy rfl⟩

theorem put_panics (sm : StorageManager) (b k : String) (content : Bytes)
    (hplain : headers.text "x-amz-copy-source" = none) (httl : ttlSeconds headers = .ok (some ttl))
    (hT : w.now ≤ T) (hpos : ¬ ttl ≤ 0) (hfits : ¬ Fits T ttl) :
    ∃ t, (putObject sm (.ok ()) b k headers content).RunsWith (exec sm.host) (Until T) w
      (.error .panic) t := by
  obtain ⟨t, hpanic⟩ := expiryAfter_panics sm.host invalidTtl hpos hfits hT
  refine ⟨t, ?_⟩
  rw [putObject_eq hplain httl, orFail_ok, Prog.ret_bind]
  exact Prog.runsWith_bind.mpr (.inl ⟨_, hpanic, rfl⟩)

/-! ## Requests that fail the signature check -/

section Verification
variable {lib : SigningLibrary} {now : Time} {method : List Char} {uri : Uri} {s3Config : S3Config}

/-- The error of a sequence is one of its parts. -/
theorem except_bind_error {ε α β : Type} {p : Except ε α} {f : α → Except ε β} {e : ε}
    (h : p >>= f = .error e) : p = .error e ∨ ∃ a, p = .ok a ∧ f a = .error e := by
  cases p with
  | error e' => exact .inl (congrArg Except.error (Except.error.inj h))
  | ok a => exact .inr ⟨a, rfl, h⟩

/-- What the signature check answers with. -/
def Answers (e : S3Error) : Prop := e.status = 400 ∨ e.status = 403 ∨ e.status = 501

theorem okOr_answers {α : Type} {e e' : S3Error} {a : Option α} (he : Answers e)
    (h : okOr e a = .error e') : Answers e' := by
  cases a with
  | none =>
    obtain rfl := Except.error.inj h
    exact he
  | some a => simp [okOr] at h

/-- The check fails with an error of the client's, or with the one for chunked payloads. -/
theorem verifySigv4_answers {e : S3Error}
    (h : verifySigv4 lib now headers method uri content s3Config = .error e) : Answers e := by
  have hdate : ∀ e, checkedDate lib now headers uri = .error e → Answers e := by
    intro e he
    unfold checkedDate at he
    rcases except_bind_error he with he | ⟨amzDate, -, he⟩
    · exact okOr_answers (.inl rfl) he
    · rcases except_bind_error he with he | ⟨requestTime, -, he⟩
      · exact okOr_answers (.inl rfl) he
      · split at he
        · obtain rfl := Except.error.inj he
          exact .inr (.inl rfl)
        · simp at he
  have hpayload : ∀ e, checkedPayload lib headers uri content = .error e → Answers e := by
    intro e he
    unfold checkedPayload at he
    split at he
    · simp at he
    · split at he
      · simp at he
      · split at he
        · obtain rfl := Except.error.inj he
          exact .inr (.inr rfl)
        · split at he
          · simp at he
          · obtain rfl := Except.error.inj he
            exact .inr (.inl rfl)
  unfold verifySigv4 at h
  rcases except_bind_error h with h | ⟨authHeader, -, h⟩
  · exact okOr_answers (.inr (.inl rfl)) h
  rcases except_bind_error h with h | ⟨parsed, -, h⟩
  · exact okOr_answers (.inl rfl) h
  split at h
  · obtain rfl := Except.error.inj h
    exact .inr (.inl rfl)
  · rcases except_bind_error h with h | ⟨amzDate, -, h⟩
    · exact hdate e h
    rcases except_bind_error h with h | ⟨hashedPayload, -, h⟩
    · exact hpayload e h
    dsimp only at h
    split at h
    · simp at h
    · obtain rfl := Except.error.inj h
      exact .inr (.inl rfl)

theorem ofStorage_status (e : StorageError) :
    ClientError (S3Error.ofStorage e).status ∨ (S3Error.ofStorage e).status = 500 := by
  cases e with
  | notFound | alreadyExists | invalidBucket | validation | badRequest | payloadTooLarge =>
    simp [ClientError, S3Error.ofStorage, S3Error.noSuchKey, S3Error.invalidRequest]
  | _ => exact .inr rfl

/-- A refusal of the check that looks like the end of an upload is the client's. -/
theorem client_of_timed {e : S3Error} (he : Answers e)
    (h : Timed sm b S3Error.status put ttl w (.error (.error e)) t) : ClientError e.status := by
  cases h with
  | refused e' result client =>
    obtain rfl : e = e' := by simpa using result
    exact client
  | computed m k content contentType opts y later kept expiry ahead stored result rows =>
    cases y with
    | ok file => simp [put, Except.map, Except.mapError] at result
    | error e' =>
      obtain rfl : e = S3Error.ofStorage e' := by simpa [put, Except.map, Except.mapError] using result
      rcases ofStorage_status e' with hclient | hinternal
      · exact hclient
      · rcases he with he | he | he <;> rw [hinternal] at he <;> simp at he

end Verification

/-! ## Copies -/

theorem copy_expiring {source : String} {x : Except (Stop S3Error) PutResponse}
    (hsource : headers.text "x-amz-copy-source" = some source)
    (hr : (putObject sm verified b k headers content).Runs (exec sm.host) w x t) :
    x ≠ .error .panic ∧ Expiring none w t := by
  have heq : putObject sm verified b k headers content =
      ((Prog.ofExcept verified).bind fun _ => copyObject sm b k source).lifted := by
    rw [Prog.lifted_bind]
    simp only [putObject, hsource, orFail, Prog.bind_eq]
  rw [heq] at hr
  obtain ⟨y, rfl, hy⟩ := Prog.runs_lifted.mp hr
  refine ⟨?_, expiring_of_runs ?_ hy⟩
  · cases y <;> simp [Except.mapError]
  · refine Prog.Uses.bind (Prog.uses_ofExcept _) fun _ => ?_
    unfold copyObject
    split
    · trivial
    · simp only [orS3, Prog.bind_eq, Prog.pure_eq]
      refine Prog.Uses.bind getFile_saves.mapError fun read => ?_
      exact Prog.Uses.bind (storeFile_saves {}).mapError fun file => trivial

/-! ## Which lifetimes do -/

/-- An upload on the native route. -/
structure NativeUpload where
  text : TextLibrary
  bucket : String
  query : UploadQuery
  headers : HeaderMap
  body : Incoming

def NativeUpload.serve (sm : StorageManager) (r : NativeUpload) : Handler StorageError HttpResponse :=
  uploadFile sm r.text r.bucket r.query r.headers r.body

/-- An upload on the S3 route, with what its signature is checked against. -/
structure S3Upload where
  lib : SigningLibrary
  now : Time
  method : List Char
  uri : Uri
  s3Config : S3Config
  bucket : String
  key : String
  headers : HeaderMap
  body : Bytes

def S3Upload.signature (r : S3Upload) : Except S3Error Unit :=
  verifySigv4 r.lib r.now r.headers r.method r.uri r.body r.s3Config

def S3Upload.serve (sm : StorageManager) (r : S3Upload) : Handler S3Error PutResponse :=
  putObject sm r.signature r.bucket r.key r.headers r.body

/-- While the clock is read no later than at `T`, every upload with a lifetime ends with an
error of the client's or is given an expiry that lies ahead exactly when an earlier check turns
it away, the lifetime is not positive, or it fits from `T` on. A copy never panics and takes
over no lifetime. -/
theorem lifetime_iff (sm : StorageManager) (native : NativeUpload) (s3 : S3Upload)
    (hT : w.now ≤ T) :
    (native.query.ttlSeconds = some ttl →
      ((∀ x t, (native.serve sm).RunsWith (exec sm.host) (Until T) w x t → x ≠ .error .panic ∧
          Timed sm native.bucket StorageError.status created ttl w x t) ↔
        TurnedAway sm native.headers native.body ∨ ttl ≤ 0 ∨ Fits T ttl)) ∧
    (s3.headers.text "x-amz-copy-source" = none → ttlSeconds s3.headers = .ok (some ttl) →
      ((∀ x t, (s3.serve sm).RunsWith (exec sm.host) (Until T) w x t → x ≠ .error .panic ∧
          Timed sm s3.bucket S3Error.status put ttl w x t) ↔
        Admitted s3.signature T ttl)) ∧
    (∀ source x t, s3.headers.text "x-amz-copy-source" = some source →
      (s3.serve sm).Runs (exec sm.host) w x t → x ≠ .error .panic ∧ Expiring none w t) := by
  refine ⟨fun hquery => ⟨fun hall => ?_, fun hcond x t hr => upload_timed hquery hcond hr⟩,
    fun hplain httl => ⟨fun hall => ?_, fun hcond x t hr => put_timed hplain httl hcond hr⟩,
    fun source x t hsource hr => copy_expiring hsource hr⟩
  · by_contra hcond
    obtain ⟨t, hpanic⟩ := upload_panics sm native.text native.bucket hquery hT hcond
    exact (hall _ _ hpanic).1 rfl
  · unfold S3Upload.serve at hall
    cases hverified : s3.signature with
    | error e =>
      rw [hverified] at hall
      have hrefused : (putObject sm (.error e) s3.bucket s3.key s3.headers s3.body).RunsWith
          (exec sm.host) (Until T) w (.error (.error e)) w := ⟨rfl, rfl⟩
      obtain ⟨-, htimed⟩ := hall _ _ hrefused
      exact client_of_timed (verifySigv4_answers hverified) htimed
    | ok _ =>
      rw [hverified] at hall
      by_contra hcond
      obtain ⟨hpos, hfits⟩ := not_or.mp hcond
      obtain ⟨t, hpanic⟩ := put_panics sm s3.bucket s3.key s3.body hplain httl hT hpos hfits
      exact (hall _ _ hpanic).1 rfl

/-! ## A minute, and too many seconds -/

def noText : TextLibrary := ⟨some, fun bytes => bytes.map Char.ofUInt8⟩

/-- Hashes nothing, and takes every time for the first one. -/
def trusting : SigningLibrary :=
  { noText with
    hmacSha256 := fun _ _ => []
    sha256 := fun _ => []
    parseTime := fun _ => some 0
    day := fun _ => [] }

/-- Signed headers that ask for a lifetime. -/
def lasting (ttl : String) : HeaderMap :=
  [("authorization", asBytes
      "AWS4-HMAC-SHA256 Credential=a/d/c/s3/aws4_request, SignedHeaders=host, Signature=".toList),
   ("x-amz-date", asBytes "d".toList), ("x-ttl-seconds", asBytes ttl.toList)]

/-- One byte, to be kept for so long. -/
def uploadFor (ttl : Int) : NativeUpload :=
  ⟨noText, "a", { ttlSeconds := some ttl }, [], ⟨[120], none⟩⟩

def putFor (ttl : String) : S3Upload :=
  ⟨trusting, 0, "PUT".toList, ⟨"/a/k".toList, none⟩, ⟨"a", "b", "c"⟩, "a", "k", lasting ttl, [120]⟩

theorem uploadFor_arrives (ttl : Int) :
    ¬ TurnedAway manager (uploadFor ttl).headers (uploadFor ttl).body := by
  have hdeclared : checkDeclared [] (maxFileSize manager) = .ok () := rfl
  have hread : readBody ⟨[120], none⟩ (maxFileSize manager) = .ok [120] := by decide +kernel
  rintro (⟨e, he⟩ | ⟨e, he⟩)
  · simp [uploadFor, hdeclared] at he
  · simp [uploadFor, hread] at he

theorem lifetime_iff_minute :
    ((∀ x t, ((uploadFor 60).serve manager).RunsWith (exec manager.host) (Until 0) World.empty x t →
        x ≠ .error .panic ∧ Timed manager "a" StorageError.status created 60 World.empty x t) ↔
      TurnedAway manager [] ⟨[120], none⟩ ∨ (60 : Int) ≤ 0 ∨ Fits 0 60) ∧
    ((∀ x t, ((putFor "60").serve manager).RunsWith (exec manager.host) (Until 0) World.empty x t →
        x ≠ .error .panic ∧ Timed manager "a" S3Error.status put 60 World.empty x t) ↔
      Admitted (putFor "60").signature 0 60) ∧
    Fits 0 60 ∧ (putFor "60").signature = .ok () := by
  have hnow : World.empty.now ≤ 0 := Int.le_refl 0
  have hplain : (putFor "60").headers.text "x-amz-copy-source" = none := by decide +kernel
  have httl : ttlSeconds (putFor "60").headers = .ok (some 60) := by decide +kernel
  have hverified : (putFor "60").signature = .ok () := by decide +kernel
  obtain ⟨hupload, hput, -⟩ := lifetime_iff manager (uploadFor 60) (putFor "60") hnow
  exact ⟨hupload rfl, hput hplain httl, ⟨by decide, by decide⟩, hverified⟩

/-- The greatest number of seconds is positive, and takes the service down on both routes. -/
theorem greatest_lifetime_panics :
    (∃ t, ((uploadFor 9223372036854775807).serve manager).Runs (exec manager.host) World.empty
      (.error .panic) t) ∧
    ∃ t, ((putFor "9223372036854775807").serve manager).Runs (exec manager.host) World.empty
      (.error .panic) t := by
  have hnow : World.empty.now ≤ 0 := Int.le_refl 0
  have hfits : ¬ Fits 0 9223372036854775807 := fun h => absurd h.1 (by decide)
  have hpos : ¬ (9223372036854775807 : Int) ≤ 0 := by decide
  have harrives := uploadFor_arrives 9223372036854775807
  have hplain : (putFor "9223372036854775807").headers.text "x-amz-copy-source" = none := by
    decide +kernel
  have httl : ttlSeconds (putFor "9223372036854775807").headers = .ok (some 9223372036854775807) := by
    decide +kernel
  have hverified : (putFor "9223372036854775807").signature = .ok () := by decide +kernel
  obtain ⟨t, hupload⟩ := upload_panics manager noText "a"
    (show (uploadFor 9223372036854775807).query.ttlSeconds = some 9223372036854775807 from rfl) hnow
    (not_or.mpr ⟨harrives, not_or.mpr ⟨hpos, hfits⟩⟩)
  obtain ⟨u, hput⟩ := put_panics manager "a" "k" [120] hplain httl hnow hpos hfits
  refine ⟨⟨t, hupload.runs⟩, u, ?_⟩
  rw [S3Upload.serve, hverified]
  exact hput.runs

end LocalStorage.Proofs.Lifetimes
