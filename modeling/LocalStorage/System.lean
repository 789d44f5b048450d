import LocalStorage.Storage
import LocalStorage.Lib.Runs

namespace LocalStorage
open Lib Lib.Paths

/-! # The service as a transition system

One label for each completed call with its result, and one for what happens by itself
between calls. -/

inductive Event where
  | storeFile (bucket key : String) (content : Bytes) (contentType : Option String)
      (opts : StoreOptions) (result : Result StoredFile)
  | getFile (bucket key : String) (result : Result (Bytes × Option String))
  | getFileRangeIfPlain (bucket key : String) (start stop : Nat)
      (result : Result (Option (Bytes × String × Nat)))
  | getCompressedFileRange (bucket key : String) (start stop : Nat)
      (result : Result (Option (Bytes × String × Nat)))
  | deleteFile (bucket key : String) (result : Result Unit)
  | deleteBucket (bucket : String) (result : Result Unit)
  | sweepExpiredFiles (result : Result Nat)
  /-- The cache lets go of entries. -/
  | evict (gone : String → Bool)
  /-- Time passes. -/
  | tick (elapsed : Nat)

/-- `e` can take the service from the first world to the second. -/
def Event.Transition (sm : StorageManager) : Event → World → World → Prop
  | storeFile b k content ct opts x, w, w' =>
    (sm.storeFile b k content ct opts).Runs (exec sm.host) w x w'
  | getFile b k x, w, w' => (sm.getFile b k).Runs (exec sm.host) w x w'
  | getFileRangeIfPlain b k start stop x, w, w' =>
    (StorageManager.getFileRangeIfPlain b k start stop).Runs (exec sm.host) w x w'
  | getCompressedFileRange b k start stop x, w, w' =>
    (sm.getCompressedFileRange b k start stop).Runs (exec sm.host) w x w'
  | deleteFile b k x, w, w' => (StorageManager.deleteFile b k).Runs (exec sm.host) w x w'
  | deleteBucket b x, w, w' => (sm.deleteBucket b).Runs (exec sm.host) w x w'
  | sweepExpiredFiles x, w, w' => StorageManager.sweepExpiredFiles.Runs (exec sm.host) w x w'
  | evict gone, w, w' => w' = { w with cache := w.cache.evict gone }
  | tick elapsed, w, w' => w' = { w with now := w.now + elapsed }

/-- Calls one after another, each guarded by `P`. -/
abbrev SystemRun (sm : StorageManager) (P : World → Event → Prop) :=
  Run (Event.Transition sm) P

/-! ## Replaying calls -/

/-- One call with a fixed choice; the label that comes back carries its actual result. -/
def Event.perform (sm : StorageManager) (c : Choice) : Event → World → Event × World
  | storeFile b k content ct opts _, w =>
    let r := (sm.storeFile b k content ct opts).eval (exec sm.host) c w
    (storeFile b k content ct opts r.1, r.2)
  | getFile b k _, w =>
    let r := (sm.getFile b k).eval (exec sm.host) c w
    (getFile b k r.1, r.2)
  | getFileRangeIfPlain b k start stop _, w =>
    let r := (StorageManager.getFileRangeIfPlain b k start stop).eval (exec sm.host) c w
    (getFileRangeIfPlain b k start stop r.1, r.2)
  | getCompressedFileRange b k start stop _, w =>
    let r := (sm.getCompressedFileRange b k start stop).eval (exec sm.host) c w
    (getCompressedFileRange b k start stop r.1, r.2)
  | deleteFile b k _, w =>
    let r := (StorageManager.deleteFile b k).eval (exec sm.host) c w
    (deleteFile b k r.1, r.2)
  | deleteBucket b _, w =>
    let r := (sm.deleteBucket b).eval (exec sm.host) c w
    (deleteBucket b r.1, r.2)
  | sweepExpiredFiles _, w =>
    let r := StorageManager.sweepExpiredFiles.eval (exec sm.host) c w
    (sweepExpiredFiles r.1, r.2)
  | evict gone, w => (evict gone, { w with cache := w.cache.evict gone })
  | tick elapsed, w => (tick elapsed, { w with now := w.now + elapsed })

theorem Event.perform_transition (sm : StorageManager) (c : Choice) (e : Event) (w : World) :
    (e.perform sm c w).1.Transition sm w (e.perform sm c w).2 := by
  cases e <;> first | exact Prog.eval_runs _ _ _ | rfl

def replay (sm : StorageManager) : List (Event × Choice) → List Event × World → List Event × World
  | [], acc => acc
  | (e, c) :: script, (es, w) =>
    let r := e.perform sm c w
    replay sm script (es ++ [r.1], r.2)

/-- Every replayed call meets the guard. -/
def Guarded (sm : StorageManager) (P : World → Event → Prop) :
    List (Event × Choice) → World → Prop
  | [], _ => True
  | (e, c) :: script, w =>
    P w (e.perform sm c w).1 ∧ Guarded sm P script (e.perform sm c w).2

instance Guarded.decide (sm : StorageManager) (P : World → Event → Prop)
    [∀ w e, Decidable (P w e)] :
    (script : List (Event × Choice)) → (w : World) → Decidable (Guarded sm P script w)
  | [], _ => isTrue trivial
  | (e, c) :: script, w =>
    have := Guarded.decide sm P script (e.perform sm c w).2
    inferInstanceAs (Decidable (_ ∧ _))

theorem replay_run {sm : StorageManager} {P : World → Event → Prop} {s w : World}
    {es : List Event} {script : List (Event × Choice)} (h : SystemRun sm P s es w)
    (hg : Guarded sm P script w) :
    SystemRun sm P s (replay sm script (es, w)).1 (replay sm script (es, w)).2 := by
  induction script generalizing es w with
  | nil => exact h
  | cons ec script ih =>
    exact ih (.snoc h hg.1 (Event.perform_transition sm ec.2 ec.1 w)) hg.2

end LocalStorage
