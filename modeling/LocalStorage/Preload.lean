import LocalStorage.Lib.Relay
import LocalStorage.Storage

namespace LocalStorage
open Lib

/-! # Caching popular files ahead of their reads -/

/-- The row of `cache_config`. A size is the rational number that the float is. -/
structure CacheConfig where
  maxCacheSizeGb : Option Rat
  preloadEnabled : Option Bool
  minAccessCount : Option Int
deriving DecidableEq

/-- `as u64` cuts fractions off and stops at the ends of the range. -/
def f64AsU64 (x : Rat) : Nat := min x.floor.toNat (2 ^ 64 - 1)

/-- A missing size is one gigabyte. -/
def CacheConfig.maxCacheSizeBytes (config : CacheConfig) : Nat :=
  f64AsU64 (config.maxCacheSizeGb.getD 1 * 1024 * 1024 * 1024)

namespace Database

/-! ## Statements -/

def setStatus (id : Uuid) (status : String) (cacheHits : Option Int) (now : Time) (f : StoredFile) :
    StoredFile :=
  if f.id = id then
    { f with cacheStatus := some status, lastCacheUpdate := some now
             cacheHits := cacheHits.or f.cacheHits }
  else f

theorem setStatus_ident (id : Uuid) (status : String) (cacheHits : Option Int) (now : Time)
    (f : StoredFile) : (setStatus id status cacheHits now f).ident = f.ident := by
  unfold setStatus
  split <;> rfl

def updateCacheStatus (db : Database) (id : Uuid) (status : String) (cacheHits : Option Int)
    (now : Time) : Except DbError Database :=
  match db.files.rows.find? (·.id = id) with
  | none => .ok db
  | some f => do
    fits status 20
    check "files" "valid_cache_status" (cacheStatusValid (some status))
    refreshStats { db with
      files := db.files.update (setStatus id status cacheHits now)
        (setStatus_ident id status cacheHits now) } f.bucket

/-- A status that is `NULL` differs from nothing. -/
def popularUncached (minAccessCount : Int) (f : StoredFile) : Bool :=
  minAccessCount ≤ f.accessCount && f.cacheStatus.any (· ≠ "cached") && f.fileSize ≤ 10485760

/-- `DESC`, where `NULL` comes first. -/
def descNullsFirst : Option Int → Option Int → Ordering
  | none, none => .eq
  | none, some _ => .lt
  | some _, none => .gt
  | some x, some y => compare y x

/-- `DESC NULLS LAST`. -/
def descNullsLast : Option Int → Option Int → Ordering
  | none, none => .eq
  | none, some _ => .gt
  | some _, none => .lt
  | some x, some y => compare y x

def byPopularity (f g : StoredFile) : Ordering :=
  ((descNullsFirst f.cachePriority g.cachePriority).then (compare g.accessCount f.accessCount)).then
    (descNullsLast f.lastAccessed g.lastAccessed)

/-- Rows that are equally popular come in the environment's order. -/
def selectPopularUncached (db : Database) (rank : StoredFile → Nat) (minAccessCount limit : Int) :
    Except DbError (List StoredFile) :=
  page ((orderBy rank (db.files.rows.filter (popularUncached minAccessCount))).insertionSort
    (fun f g => (byPopularity f g).isLE)) limit 0

end Database

/-! ## Atomic steps -/

/-- What the service shares, with the row of the cache configuration. -/
structure PreloadWorld where
  world : World
  cacheConfig : Option CacheConfig

inductive PreloadAction where
  | getCacheConfig
  | getPopularUncachedFiles (minAccessCount limit : Int)
  | updateCacheStatus (fileId : Uuid) (status : String) (cacheHits : Option Int)
  /-- A step on the way of one file from the disk to the cache. -/
  | caching (file : StoredFile) (a : Action)

abbrev PreloadResponse : PreloadAction → Type
  | .getCacheConfig => Query CacheConfig
  | .getPopularUncachedFiles _ _ => Query (List StoredFile)
  | .updateCacheStatus _ _ _ => Query Unit
  | .caching _ a => Response a

/-- `fetch_one`. -/
def fetchOne {α : Type} : Option α → Query α
  | none => .error (.other "no rows returned by a query that expected to return at least one row")
  | some row => .ok row

def PreloadWorld.exec (h : Host) (c : Choice) :
    (a : PreloadAction) → PreloadWorld → PreloadResponse a × PreloadWorld
  | .getCacheConfig, s => (answer c s.cacheConfig >>= fetchOne, s)
  | .getPopularUncachedFiles minAccessCount limit, s =>
    (answerPage c (s.world.db.selectPopularUncached c.rank minAccessCount limit), s)
  | .updateCacheStatus id status cacheHits, s =>
    let (r, w) := statement c s.world (s.world.db.updateCacheStatus id status cacheHits s.world.now)
    (r, { s with world := w })
  | .caching _ a, s =>
    let (r, w) := LocalStorage.exec h c a s.world
    (r, { s with world := w })

/-! ## The service -/

abbrev PreloadOp := Prog PreloadAction PreloadResponse StorageError

def preloadStep (a : PreloadAction) : PreloadOp (PreloadResponse a) := Prog.call a

/-- The `?` operator on a query. -/
def orDatabase {α : Type} (x : Query α) : PreloadOp α :=
  Prog.ofExcept (x.mapError StorageError.ofSqlx)

def updateCacheStatus (fileId : Uuid) (status : String) (cacheHits : Option Int) : PreloadOp Unit := do
  orDatabase (← preloadStep (.updateCacheStatus fileId status cacheHits))

/-- One file's way into the cache, told apart from those of other files. -/
def cachingFile (file : StoredFile) : PreloadOp Nat :=
  (cacheFileFromDisk file).relay (.caching file) fun _ r => r

/-- What the last line of a pass logs. -/
structure Preloaded where
  cachedFiles : Nat
  currentCacheSize : Nat
deriving DecidableEq, Repr

/-- The loop: a file that fails does not count and does not stop it. -/
def preloadFiles (maxCacheSizeBytes : Nat) : List StoredFile → Preloaded → PreloadOp Preloaded
  | [], done => return done
  | file :: files, done =>
    if maxCacheSizeBytes ≤ done.currentCacheSize then return done
    else do
      match ← (cachingFile file).attempt with
      | .ok cachedSize =>
        updateCacheStatus file.id "cached" none
        preloadFiles maxCacheSizeBytes files
          ⟨done.cachedFiles + 1, (done.currentCacheSize + cachedSize) % 2 ^ 64⟩
      | .error _ =>
        updateCacheStatus file.id "not_cached" none
        preloadFiles maxCacheSizeBytes files done

/-- Without preloading nothing is logged. -/
def preloadPopularFiles : PreloadOp (Option Preloaded) := do
  let cacheConfig ← orDatabase (← preloadStep .getCacheConfig)
  if !cacheConfig.preloadEnabled.getD false then return none
  else
    let minAccessCount := cacheConfig.minAccessCount.getD 5
    let popularFiles ← orDatabase (← preloadStep (.getPopularUncachedFiles minAccessCount 1000))
    return some (← preloadFiles cacheConfig.maxCacheSizeBytes popularFiles ⟨0, 0⟩)

end LocalStorage
