import LocalStorage.EncryptionKeys
import LocalStorage.Lib.Cuts

namespace LocalStorage
open Lib

/-! # A process that is killed

Tables and disk outlive the process; the next one starts with an empty in-process cache. -/

/-- `t` is a world in which the call is stopped, somewhere on its way. The result in the label
is the one that nobody gets. -/
def Event.Stopped (sm : StorageManager) : Event → World → World → Prop
  | storeFile b k content ct opts _, w, t => (sm.storeFile b k content ct opts).Cut (exec sm.host) w t
  | getFile b k _, w, t => (sm.getFile b k).Cut (exec sm.host) w t
  | getFileRangeIfPlain b k start stop _, w, t =>
    (StorageManager.getFileRangeIfPlain b k start stop).Cut (exec sm.host) w t
  | getCompressedFileRange b k start stop _, w, t =>
    (sm.getCompressedFileRange b k start stop).Cut (exec sm.host) w t
  | deleteFile b k _, w, t => (StorageManager.deleteFile b k).Cut (exec sm.host) w t
  | deleteBucket b _, w, t => (sm.deleteBucket b).Cut (exec sm.host) w t
  | sweepExpiredFiles _, w, t => StorageManager.sweepExpiredFiles.Cut (exec sm.host) w t
  | evict _, w, t => t = w
  | tick _, w, t => t = w

/-- The call is the same one, whatever it answers. -/
inductive Event.SameCall : Event → Event → Prop where
  | storeFile (b k : String) (content : Bytes) (ct : Option String) (opts : StoreOptions)
      (x y : Result StoredFile) :
      SameCall (.storeFile b k content ct opts x) (.storeFile b k content ct opts y)
  | getFile (b k : String) (x y : Result (Bytes × Option String)) :
      SameCall (.getFile b k x) (.getFile b k y)
  | getFileRangeIfPlain (b k : String) (start stop : Nat)
      (x y : Result (Option (Bytes × String × Nat))) :
      SameCall (.getFileRangeIfPlain b k start stop x) (.getFileRangeIfPlain b k start stop y)
  | getCompressedFileRange (b k : String) (start stop : Nat)
      (x y : Result (Option (Bytes × String × Nat))) :
      SameCall (.getCompressedFileRange b k start stop x) (.getCompressedFileRange b k start stop y)
  | deleteFile (b k : String) (x y : Result Unit) : SameCall (.deleteFile b k x) (.deleteFile b k y)
  | deleteBucket (b : String) (x y : Result Unit) : SameCall (.deleteBucket b x) (.deleteBucket b y)
  | sweepExpiredFiles (x y : Result Nat) : SameCall (.sweepExpiredFiles x) (.sweepExpiredFiles y)
  | evict (gone : String → Bool) : SameCall (.evict gone) (.evict gone)
  | tick (elapsed elapsed' : Nat) : SameCall (.tick elapsed) (.tick elapsed')

/-- What a service goes through, from its first start on. -/
inductive LifeEvent where
  | serve (e : ServiceEvent)
  /-- The process is killed during the call and started again. -/
  | killed (e : Event)

def LifeEvent.Transition (sm : StorageManager) : LifeEvent → World → World → Prop
  | serve e, w, w' => e.Transition sm w w'
  | killed e, w, w' => ∃ t, e.Stopped sm w t ∧ w' = t.cold

/-- Calls, key events and restarts one after another. -/
abbrev LifeRun (sm : StorageManager) (P : World → LifeEvent → Prop) :=
  Run (LifeEvent.Transition sm) P

end LocalStorage
