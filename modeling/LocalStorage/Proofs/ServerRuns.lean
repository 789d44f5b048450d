import LocalStorage.Proofs.KeyEvents
import LocalStorage.Sample
import LocalStorage.Service

namespace LocalStorage.Service
open Lib StorageManager

/-! # What holds through a history of the server -/

variable {app : App} {h : Host} {w : World} {s : Server} {es : List ServerEvent}

/-- The statements of the service that are not about objects change nothing but keys. -/
theorem execService_onlyKeys {c : ServiceChoice} {a : ServiceAction} (ha : ∀ o, a ≠ .object o) :
    OnlyKeys w (execService h c a w).2 := by
  cases a with
  | object o => exact absurd rfl (ha o)
  | insertKey keyId keyData =>
    obtain hsame | ⟨db, hdb, hsame⟩ :=
      statement_world (c := c.toChoice) (w := w) (x := w.db.createKey keyId keyData)
    · simp only [execService, hsame]
      exact OnlyKeys.refl w
    · obtain ⟨hfiles, hkeys⟩ := Database.createKey_ok hdb
      simp only [execService, hsame]
      exact ⟨hfiles, rfl, rfl, rfl, hkeys⟩
  | deactivateKey keyId =>
    obtain hsame | ⟨db, hdb, hsame⟩ :=
      statement_world (c := c.toChoice) (w := w) (x := .ok (w.db.deactivateKey keyId))
    · simp only [execService, hsame]
      exact OnlyKeys.refl w
    · obtain rfl := Except.ok.inj hdb
      simp only [execService, hsame]
      exact ⟨rfl, rfl, rfl, rfl, Database.deactivateKey_kept keyId⟩
  | _ => exact OnlyKeys.refl w

/-! ## What a request does -/

/-- The program on the objects that a request comes to, where it comes to one. -/
def objectPart (app : App) : Call → Option (Prog Action Response Unit Unit)
  | .uploadFile bucket query headers body =>
    some (LocalStorage.uploadFile app.storage app.text bucket query headers body).discard
  | .listFiles bucket query headers => some (Service.listFiles app.state bucket query headers).discard
  | .searchFiles query headers => some (Service.searchFiles app.state query headers).discard
  | .handleFileRequest bucket path headers =>
    some (LocalStorage.handleFileRequest app.state bucket path headers).discard
  | .handleFileDelete bucket path => some (LocalStorage.handleFileDelete bucket path).discard
  | .createBucket bucket => some (app.storage.createBucket bucket).discard
  | .deleteBucket bucket => some (app.storage.deleteBucket bucket).discard
  | .sweepExpiredFiles => some StorageManager.sweepExpiredFiles.discard
  | .v2 verified (.createBucket bucket) => some ((Prog.ofExcept verified).bind fun _ =>
      S3.orS3 (app.storage.createBucket bucket)).discard
  | .v2 verified (.deleteBucket bucket) => some ((Prog.ofExcept verified).bind fun _ =>
      S3.orS3 (app.storage.deleteBucket bucket)).discard
  | .v2 verified (.listObjectsV2 bucket query) => some (S3.listObjectsV2 verified bucket query).discard
  | .v2 verified (.bucketPost bucket query body) =>
    some (S3.bucketPost app.parseDelete verified bucket query body).discard
  | .v2 verified (.putObject bucket key headers body) =>
    some (S3.putObject app.storage verified bucket key headers body).discard
  | .v2 verified (.getObject bucket key) => some (S3.getObject app.storage verified bucket key).discard
  | .v2 verified (.headObject bucket key) => some (S3.headObject verified bucket key).discard
  | .v2 verified (.deleteObject bucket key) => some (S3.deleteObject verified bucket key).discard
  | _ => none

theorem discard_relay {A A' E α : Type} {R : A → Type} {R' : A' → Type} {f : A → A'}
    {back : ∀ a, R' (f a) → R a} (p : Prog A R E α) :
    (p.relay f back).discard = p.discard.relay f back := by
  induction p with
  | ret a => rfl
  | fail e => rfl
  | act a k ih => simp only [Prog.relay_act, Prog.discard, ih]

theorem discard_bind_ret {A E α β : Type} {R : A → Type} (p : Prog A R E α) (f : α → β) :
    (p.bind fun a => .ret (f a)).discard = p.discard := by
  induction p with
  | ret a => rfl
  | fail e => rfl
  | act a k ih => simp only [Prog.act_bind, Prog.discard, ih]

theorem task_onObjects {call : Call} {p : Prog Action Response Unit Unit}
    (hp : objectPart app call = some p) : call.task app = onObjects p := by
  cases call with
  | v2 verified call =>
    cases call with
    | listBuckets => simp [objectPart] at hp
    | _ =>
      obtain rfl := Option.some.inj hp
      exact discard_relay _
  | createBucket bucket =>
    obtain rfl := Option.some.inj hp
    exact (discard_bind_ret _ _).trans (discard_relay _)
  | deleteBucket bucket =>
    obtain rfl := Option.some.inj hp
    exact (discard_bind_ret _ _).trans (discard_relay _)
  | uploadFile bucket query headers body =>
    obtain rfl := Option.some.inj hp
    exact discard_relay _
  | listFiles bucket query headers =>
    obtain rfl := Option.some.inj hp
    exact discard_relay _
  | searchFiles query headers =>
    obtain rfl := Option.some.inj hp
    exact discard_relay _
  | handleFileRequest bucket path headers =>
    obtain rfl := Option.some.inj hp
    exact discard_relay _
  | handleFileDelete bucket path =>
    obtain rfl := Option.some.inj hp
    exact discard_relay _
  | sweepExpiredFiles =>
    obtain rfl := Option.some.inj hp
    exact discard_relay _
  | _ => simp [objectPart] at hp

/-- The statements of the other requests that change nothing. -/
def Looks : ServiceAction → Prop
  | .object (.selectFiles _ _ _ _) => True
  | .object .utcNow => True
  | .object _ => False
  | .insertKey _ _ => False
  | .deactivateKey _ => False
  | _ => True

/-- What a request promises: what its program on the objects does, or, where it is about keys or
figures, little. -/
theorem call_honours {Heard : (a : ServiceAction) → ServiceResponse a → Prop}
    {Asked : ServiceAction → Prop} {call : Call}
    (hobjects : ∀ p, objectPart app call = some p →
      p.Honours (fun a r => Heard (.object a) r) (fun a => Asked (.object a)))
    (hlooks : ∀ a, Looks a → Asked a) (hinsert : ∀ id (data : CipherKey), Asked (.insertKey id data.val))
    (hdeactivate : ∀ id, call = .deactivateKey id → Asked (.deactivateKey id)) :
    (call.task app).Honours Heard Asked := by
  have hrelayed : ∀ p, objectPart app call = some p → (call.task app).Honours Heard Asked := by
    intro p hp
    rw [task_onObjects hp]
    exact (hobjects p hp).relay (fun _ h => h) fun _ _ h => h
  have hsqlx : ∀ {α : Type} (x : Query α), (orSqlx x).Honours Heard Asked :=
    fun _ => Prog.honours_ofExcept _
  have hbuckets : Service.listBuckets.Honours Heard Asked :=
    ⟨hlooks .selectBuckets trivial, fun _ _ => hsqlx _⟩
  cases call with
  | healthCheck => trivial
  | healthCheckDeep => exact ⟨hlooks .selectOne trivial, fun _ _ => trivial⟩
  | listBuckets => exact hbuckets.discard
  | getBucketStats bucket =>
    refine Prog.Honours.discard ?_
    simp only [Service.getBucketStats, serviceStep, Prog.bind_eq, Prog.call_bind, Prog.pure_eq]
    refine ⟨hlooks (.selectBucketStats bucket) trivial, fun r _ => Prog.Honours.bind (hsqlx _) fun _ => ?_⟩
    refine ⟨hlooks (.object _) trivial, fun r _ => Prog.Honours.bind (hsqlx _) fun _ => ?_⟩
    exact ⟨hlooks (.object .utcNow) trivial, fun _ _ => trivial⟩
  | getStorageStats =>
    refine Prog.Honours.discard ?_
    simp only [Service.getStorageStats, serviceStep, Prog.bind_eq, Prog.call_bind, Prog.pure_eq]
    refine ⟨hlooks .selectTotalStats trivial, fun r _ => Prog.Honours.bind (hsqlx _) fun _ => ?_⟩
    exact ⟨hlooks (.object .utcNow) trivial, fun _ _ => trivial⟩
  | createKey algorithm =>
    refine Prog.Honours.discard ?_
    simp only [Service.createKey, Service.createEncryptionKey, serviceStep, Prog.bind_eq,
      Prog.call_bind, Prog.pure_eq]
    refine Prog.Honours.bind ?_ fun _ => trivial
    refine Prog.Honours.bind (Prog.honours_ofExcept _) fun _ => ?_
    refine ⟨hlooks .randomKey trivial, fun drawn _ => ?_⟩
    exact ⟨hinsert drawn.1 drawn.2, fun r _ => Prog.Honours.bind (hsqlx _) fun _ => trivial⟩
  | listKeys =>
    refine Prog.Honours.discard ?_
    simp only [Service.listKeys, serviceStep, Prog.bind_eq, Prog.call_bind, Prog.pure_eq]
    exact ⟨hlooks .selectKeys trivial, fun r _ => Prog.Honours.bind (hsqlx _) fun _ => trivial⟩
  | deactivateKey keyId =>
    refine Prog.Honours.discard ?_
    simp only [Service.deactivateKey, serviceStep, Prog.bind_eq, Prog.call_bind, Prog.pure_eq]
    exact ⟨hdeactivate keyId rfl, fun r _ => Prog.Honours.bind (hsqlx _) fun _ => trivial⟩
  | v2 verified call =>
    cases call with
    | listBuckets =>
      refine Prog.Honours.discard (Prog.Honours.bind (Prog.honours_ofExcept _) fun _ => ?_)
      exact hbuckets.mapError
    | _ => exact hrelayed _ rfl
  | _ => exact hrelayed _ rfl

/-! ## Histories -/

/-- What every call asks and every answer gives keeps `I`, through every history of the server:
requests interleaved in any way, limited, and dropped at any point. -/
theorem server_keeps {I : World → Prop} {Heard : (a : ServiceAction) → ServiceResponse a → Prop}
    {Asked : ServiceAction → Prop} (hcall : ∀ call : Call, (call.task app).Honours Heard Asked)
    (hstep : ∀ c a w, I w → Asked a → I (execService app.storage.host c a w).2)
    (hheard : ∀ c a w, I w → Heard a (execService app.storage.host c a w).1)
    (hcache : ∀ w cache, I w → I { w with cache := cache })
    (hclock : ∀ w now, I w → I { w with now := now })
    (hrun : ServerRun app (Gated.opened maxConcurrentRequests w) es s) (hw : I w) : I s.state := by
  obtain ⟨fs, u, hpool, hsame⟩ := hrun.pooled
    (Q := fun _ e => ∀ p, e = .arrive p → ∃ call : Call, p = call.task app) (Ungated.opened w)
    (fun _ _ call p hserved q hq => ⟨call, PoolEvent.arrive.inj hq ▸ hserved⟩)
    (fun _ _ _ hq => by cases hq) (fun _ _ _ hq => by cases hq)
  have hnone : ∀ p ∈ ([] : List ServiceTask), p.Honours Heard Asked := by simp
  have hstate : I u.2 := by
    refine (hpool.pool (I := I) hw hnone ?_ ?_ ?_).1
    · intro v p harrives
      obtain ⟨call, rfl⟩ := harrives p rfl
      exact hcall call
    · intro v i a k c _ _ hfit hv
      exact ⟨hstep c a v.2 hv hfit.1, hfit.2 _ (hheard c a v.2 hv)⟩
    · intro d v v' hdrift hv
      cases d with
      | evict gone =>
        obtain rfl : v' = { v with cache := v.cache.evict gone } := hdrift
        exact hcache v _ hv
      | tick elapsed =>
        obtain rfl : v' = { v with now := v.now + elapsed } := hdrift
        exact hclock v _ hv
  exact hsame.1 ▸ hstate

/-! ## One program -/

def zeroKey : CipherKey := ⟨List.replicate 32 0, rfl⟩

/-- A program on the objects runs in the service as it does alone. -/
theorem onObjects_runs {E α : Type} {p : Prog Action Response E α} {u v : World} {x : Except E α}
    (hr : p.Runs (exec h) u x v) : (onObjects p).Runs (execService h) u x v :=
  hr.relay fun c _ _ => ⟨⟨c, fun _ => 0, fun _ => 0, "", zeroKey⟩, rfl⟩

/-- A request that needs no permit and runs alone is a history of the server. -/
theorem served_alone {E α : Type} {call : Call} {p : Prog ServiceAction ServiceResponse E α}
    {x : Except E α} {u v : World} (hlimit : call.limited = false) (hp : call.task app = p.discard)
    (hr : p.Runs (execService app.storage.host) u x v) : ∃ es,
      ServerRun app (Gated.opened maxConcurrentRequests u) es
        ⟨maxConcurrentRequests, [.running call false (Prog.ofExcept x).discard], v⟩ := by
  have hgated : ∃ es, ServerRun app
      ⟨maxConcurrentRequests, [.running call false (call.task app)], u⟩ es
        ⟨maxConcurrentRequests, [.running call false (Prog.ofExcept x).discard], v⟩ := by
    rw [hp]
    exact hr.gated fun _ _ => trivial
  obtain ⟨es, hgated⟩ := hgated
  have harrives : ServerRun app (Gated.opened maxConcurrentRequests u)
      [.arrive call (call.task app)]
      ⟨maxConcurrentRequests, [.running call false (call.task app)], u⟩ := by
    refine Run.snoc (.nil _) (show Served app _ (.arrive call (call.task app)) from rfl) ?_
    simp [GateEvent.Transition, accept, hlimit, Gated.opened]
  exact ⟨_, harrives.append hgated⟩

end LocalStorage.Service
