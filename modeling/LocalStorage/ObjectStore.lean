import Mathlib.Logic.Function.Basic
import LocalStorage.Crashes

namespace LocalStorage

/-! # What the service is for

A clock, and for each bucket and key at most one object. Rows, files, caches, processed bytes
and keys do not show. -/

structure Object where
  content : Bytes
  contentType : String
  expiresAt : Option Time
deriving DecidableEq

structure ObjectStore where
  object : String × String → Option Object
  now : Time

namespace Object

/-- The object's time is over. -/
def lapsed (o : Object) (now : Time) : Bool := o.expiresAt.any (· ≤ now)

/-- What a reader of the object gets: one whose time is over is not found. -/
def answer (o : Object) (now : Time) (bucket key : String) : Result (Bytes × Option String) :=
  if o.lapsed now then .error (.notFound bucket key) else .ok (o.content, some o.contentType)

theorem lapsed_mono {o : Object} {now later : Time} (h : now ≤ later) (ho : o.lapsed now = true) :
    o.lapsed later = true := by
  unfold lapsed at ho ⊢
  cases ht : o.expiresAt with
  | none => simp [ht] at ho
  | some t =>
    simp only [ht, Option.any_some, decide_eq_true_eq] at ho ⊢
    exact le_trans ho h

end Object

namespace ObjectStore

/-- The store with nothing in it. -/
def vacant (now : Time) : ObjectStore := ⟨fun _ => none, now⟩

def read (s : ObjectStore) (bucket key : String) : Result (Bytes × Option String) :=
  match s.object (bucket, key) with
  | none => .error (.notFound bucket key)
  | some o => o.answer s.now bucket key

/-- The type of an upload: as it says itself, or else the general one, or that of an object of
the same content. -/
def Typed (s : ObjectStore) (content : Bytes) (ct : Option String) (type : String) : Prop :=
  type = ct.getD "application/octet-stream" ∨
    ∃ id o, s.object id = some o ∧ o.content = content ∧ type = ct.getD o.contentType

/-- The object is put in place, or the same content is there already. -/
def Stored (s s' : ObjectStore) (id : String × String) (content : Bytes) (ct : Option String)
    (expiresAt : Option Time) : Prop :=
  (∃ type, s.Typed content ct type ∧
    s'.object = Function.update s.object id (some ⟨content, type, expiresAt⟩)) ∨
  s'.object = s.object ∧ ∃ o, s.object id = some o ∧ o.content = content

/-- What a call does to the objects. A read that fails may find the object lapsed or lost, and
then drops it. -/
def Effect (s s' : ObjectStore) : Event → Prop
  | .storeFile b k content ct opts (.ok _) => Stored s s' (b, k) content ct opts.expiresAt
  | .getFile b k (.ok y) => s.read b k = .ok y ∧ s'.object = s.object
  | .getFile b k (.error e) => s'.object = s.object ∨
      e = .notFound b k ∧ s'.object = Function.update s.object (b, k) none
  | .deleteFile b k (.ok _) => (s.object (b, k)).isSome = true ∧
      s'.object = Function.update s.object (b, k) none
  | .deleteBucket b (.ok _) => s'.object = fun id => if id.1 = b then none else s.object id
  | .sweepExpiredFiles _ => ∀ id, s'.object id = s.object id ∨
      s'.object id = none ∧ ∃ o, s.object id = some o ∧ o.lapsed s'.now = true
  | .tick elapsed => s'.object = s.object ∧ s'.now = s.now + elapsed
  | .storeFile _ _ _ _ _ (.error _) | .deleteFile _ _ (.error _) | .deleteBucket _ (.error _)
  | .getFileRangeIfPlain .. | .getCompressedFileRange .. | .evict _ => s'.object = s.object

/-- A call takes its time. -/
structure Step (e : Event) (s s' : ObjectStore) : Prop where
  clock : s.now ≤ s'.now
  effect : Effect s s' e

/-- Keys do not show. A call that is killed does what it does with one of its answers, though
nobody gets it. -/
def Transition : LifeEvent → ObjectStore → ObjectStore → Prop
  | .serve (.call e), s, s' => Step e s s'
  | .serve (.createEncryptionKey ..), s, s' => s' = s
  | .serve (.deactivateEncryptionKey ..), s, s' => s' = s
  | .killed e, s, s' => ∃ e', e.SameCall e' ∧ Step e' s s'

end ObjectStore

end LocalStorage
