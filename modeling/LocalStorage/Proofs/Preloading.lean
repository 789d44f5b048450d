import LocalStorage.Preload
import LocalStorage.Proofs.Effects
import LocalStorage.Sample

namespace LocalStorage.Proofs.Preloading
open Lib Lib.Prog

/-! # What a pass over the popular files leaves -/

/-- The bytes that a step puts into the cache. -/
def inserted : (a : PreloadAction) → PreloadResponse a → Nat
  | .caching _ (.setFileContent _ _ x), _ => if x.length ≤ Cache.maxCacheSize then x.length else 0
  | _, _ => 0

/-- The query answers with `files`, and the disk with `reads` for each of them. -/
def Answered (files : List StoredFile) (reads : StoredFile → Option Bytes) :
    (a : PreloadAction) → PreloadResponse a → Prop
  | .getPopularUncachedFiles _ _, r => ∀ answer, r = .ok answer → answer = files
  | .caching f (.fileExists _), r => r = false → reads f = none
  | .caching f (.readFile _), r => r.toOption = reads f
  | _, _ => True

/-- The pass with a count of the bytes it puts into the cache. -/
abbrev counting (h : Host) := metered (PreloadWorld.exec h) inserted

/-- A row with this id is marked as cached. -/
def Marked (s : PreloadWorld) (id : Uuid) : Prop :=
  ∃ f ∈ s.world.db.files, f.id = id ∧ f.cacheStatus = some "cached"

/-- The files that the loop reads while its count is below the budget, with what it reads. -/
def taken (reads : StoredFile → Option Bytes) (budget : Nat) :
    Nat → List StoredFile → List (StoredFile × Bytes)
  | _, [] => []
  | size, f :: files =>
    if budget ≤ size then []
    else
      match reads f with
      | some x => (f, x) :: taken reads budget ((size + x.length) % 2 ^ 64) files
      | none => taken reads budget size files

variable {h : Host} {files popular : List StoredFile} {reads : StoredFile → Option Bytes} {f : StoredFile}
  {s t : PreloadWorld} {n m budget : Nat} {id : Uuid} {status : String}

/-! ## One file -/

/-- A file is read and handed to the cache, or there is nothing to read. -/
theorem cachingFile_runs {y : Except StorageError Nat}
    (hr : (cachingFile f).RunsWith (counting h) (Answered popular reads) (s, n) y (t, m)) :
    (∃ x, y = .ok x.length ∧ reads f = some x ∧ s.world.bytesAt h f.filePath = some x ∧
      t = { s with world := { s.world with
        cache := s.world.cache.setFileContent f.bucket f.key x } } ∧
      m = n + if x.length ≤ Cache.maxCacheSize then x.length else 0) ∨
    (∃ e, y = .error e) ∧ reads f = none ∧ t = s ∧ m = n := by
  simp only [cachingFile, cacheFileFromDisk, ofIo, step_eq, bind_eq, act_bind, ret_bind, pure_eq,
    relay_act, runsWith_act] at hr
  obtain ⟨c, hexists, hr⟩ := hr
  split at hr
  · rename_i habsent
    obtain ⟨rfl, heq⟩ := hr
    obtain ⟨rfl, rfl⟩ := Prod.mk.inj heq
    exact .inr ⟨⟨_, rfl⟩, hexists (by simpa using habsent), rfl, rfl⟩
  · simp only [relay_act, relay_bind, relay_ofExcept, runsWith_act] at hr
    obtain ⟨c', hread, hr⟩ := hr
    have hanswer : (execReadFile h c' f.filePath s.world).toOption = reads f := hread
    have hsame : (counting h c' (.caching f (.readFile f.filePath))
        (counting h c (.caching f (.fileExists f.filePath)) (s, n)).2) =
      (execReadFile h c' f.filePath s.world, s, n) := rfl
    rw [hsame] at hr
    cases hx : execReadFile h c' f.filePath s.world with
    | error e =>
      rw [hx] at hanswer hr
      obtain ⟨rfl, heq⟩ := hr
      obtain ⟨rfl, rfl⟩ := Prod.mk.inj heq
      exact .inr ⟨⟨_, rfl⟩, hanswer.symm, rfl, rfl⟩
    | ok x =>
      rw [hx] at hanswer hr
      obtain ⟨c'', -, rfl, heq⟩ := hr
      obtain ⟨rfl, rfl⟩ := Prod.mk.inj heq
      exact .inl ⟨x, rfl, hanswer.symm, (takes_readFile ⟨c', congrArg (·, s.world) hx⟩), rfl, rfl⟩

/-! ## One mark -/

theorem setStatus_id (status : String) (hits : Option Int) (now : Time) (f : StoredFile) :
    (Database.setStatus id status hits now f).id = f.id := by
  unfold Database.setStatus
  split <;> rfl

theorem updateCacheStatus_ok {db db' : Database} {hits : Option Int} {now : Time}
    (hr : db.updateCacheStatus id status hits now = .ok db') :
    db'.files.rows = db.files.rows.map (Database.setStatus id status hits now) := by
  unfold Database.updateCacheStatus at hr
  cases hfound : db.files.rows.find? (·.id = id) with
  | none =>
    rw [hfound] at hr
    obtain rfl := Except.ok.inj hr
    have hsame : db.files.rows.map (Database.setStatus id status hits now) = db.files.rows.map (fun f => f) := by
      apply List.map_congr_left
      intro f hf
      have hne : ¬ decide (f.id = id) = true := List.find?_eq_none.mp hfound f hf
      exact if_neg (by simpa using hne)
    rw [hsame, List.map_id']
  | some f =>
    simp only [hfound, except_bind_ok] at hr
    obtain ⟨-, -, -, -, hr⟩ := hr
    rw [(Database.refreshStats_ok hr).1]
    rfl

/-- The rows with the id get the status, nothing else changes but what the statement counts. -/
theorem updateCacheStatus_runs
    (hr : (updateCacheStatus id status none).RunsWith (counting h) (Answered popular reads) (s, n)
      (.ok ()) (t, m)) :
    t.world.db.files.rows = s.world.db.files.rows.map
        (Database.setStatus id status none s.world.now) ∧
      t.world.fs = s.world.fs ∧ t.world.cache = s.world.cache ∧ m = n := by
  simp only [updateCacheStatus, orDatabase, preloadStep, bind_eq, call_bind] at hr
  obtain ⟨c, -, hr⟩ := hr
  cases hx : statement c s.world (s.world.db.updateCacheStatus id status none s.world.now) with
  | mk r w =>
    have hstep : counting h c (.updateCacheStatus id status none) (s, n) =
        (r, { s with world := w }, n) := by
      simp [metered, PreloadWorld.exec, hx, inserted]
    rw [hstep] at hr
    obtain ⟨hok, heq⟩ := runsWith_ofExcept.mp hr
    obtain ⟨rfl, rfl⟩ := Prod.mk.inj heq
    cases r with
    | error e => simp [Except.mapError] at hok
    | ok u =>
      obtain ⟨db, hdb, rfl⟩ := statement_eq_ok hx
      exact ⟨updateCacheStatus_ok hdb, rfl, rfl, rfl⟩

theorem mem_of_rows {change : StoredFile → StoredFile} {r : StoredFile}
    (hrows : t.world.db.files.rows = s.world.db.files.rows.map change) :
    r ∈ t.world.db.files ↔ ∃ f ∈ s.world.db.files, change f = r := by
  rw [Table.mem_def, hrows, List.mem_map]
  rfl

theorem marked_cached {now : Time}
    (hrows : t.world.db.files.rows = s.world.db.files.rows.map
      (Database.setStatus id "cached" none now))
    (hrow : ∃ f ∈ s.world.db.files, f.id = id) (id' : Uuid) :
    Marked t id' ↔ Marked s id' ∨ id' = id := by
  constructor
  · rintro ⟨g, hg, hid, hstatus⟩
    obtain ⟨f, hf, rfl⟩ := (mem_of_rows hrows).mp hg
    rw [setStatus_id] at hid
    by_cases hfid : f.id = id
    · exact .inr (hid.symm.trans hfid)
    · rw [Database.setStatus, if_neg hfid] at hstatus
      exact .inl ⟨f, hf, hid, hstatus⟩
  · rintro (⟨f, hf, hid, hstatus⟩ | rfl)
    · refine ⟨_, (mem_of_rows hrows).mpr ⟨f, hf, rfl⟩, (setStatus_id _ _ _ f).trans hid, ?_⟩
      unfold Database.setStatus
      split
      · rfl
      · exact hstatus
    · obtain ⟨f, hf, hid⟩ := hrow
      refine ⟨_, (mem_of_rows hrows).mpr ⟨f, hf, rfl⟩, (setStatus_id _ _ _ f).trans hid, ?_⟩
      rw [Database.setStatus, if_pos hid]

theorem marked_not_cached {now : Time}
    (hrows : t.world.db.files.rows = s.world.db.files.rows.map
      (Database.setStatus id "not_cached" none now))
    (hnot : ¬ Marked s id) (id' : Uuid) : Marked t id' ↔ Marked s id' := by
  constructor
  · rintro ⟨g, hg, hid, hstatus⟩
    obtain ⟨f, hf, rfl⟩ := (mem_of_rows hrows).mp hg
    rw [setStatus_id] at hid
    by_cases hfid : f.id = id
    · rw [Database.setStatus, if_pos hfid] at hstatus
      simp at hstatus
    · rw [Database.setStatus, if_neg hfid] at hstatus
      exact ⟨f, hf, hid, hstatus⟩
  · rintro ⟨f, hf, hid, hstatus⟩
    have hfid : f.id ≠ id := by
      rintro rfl
      exact hnot ⟨f, hf, rfl, hstatus⟩
    refine ⟨_, (mem_of_rows hrows).mpr ⟨f, hf, rfl⟩, (setStatus_id _ _ _ f).trans hid, ?_⟩
    rwa [Database.setStatus, if_neg hfid]

/-! ## The loop -/

/-- The cache after the contents were put into it, one after the other. -/
def filled (cache : Cache) (files : List (StoredFile × Bytes)) : Cache :=
  files.foldl (fun cache p => cache.setFileContent p.1.bucket p.1.key p.2) cache

/-- What the loop has done with the files it took, from where it started. -/
structure Passed (h : Host) (files : List (StoredFile × Bytes)) (s : PreloadWorld) (n size : Nat)
    (report : Preloaded) (t : PreloadWorld) (m : Nat) : Prop where
  read : ∀ p ∈ files, s.world.bytesAt h p.1.filePath = some p.2
  marked : ∀ id, Marked t id ↔ Marked s id ∨ ∃ p ∈ files, p.1.id = id
  size : report.currentCacheSize = files.foldl (fun size p => (size + p.2.length) % 2 ^ 64) size
  inserted : m = n + (files.map fun p =>
    if p.2.length ≤ Cache.maxCacheSize then p.2.length else 0).sum
  cache : t.world.cache = filled s.world.cache files

theorem Passed.nil {report : Preloaded} : Passed h [] s n report.currentCacheSize report s n where
  read _ hp := absurd hp List.not_mem_nil
  marked id := by simp
  size := rfl
  inserted := rfl
  cache := rfl

/-- The files of the rows are where they were, and the ids stay. -/
theorem rows_kept {hits : Option Int} {now : Time}
    (hset : t.world.db.files.rows = s.world.db.files.rows.map
      (Database.setStatus id status hits now))
    (hrows : ∀ f ∈ files, ∃ g ∈ s.world.db.files, g.id = f.id) :
    ∀ f ∈ files, ∃ g ∈ t.world.db.files, g.id = f.id := by
  intro f hf
  obtain ⟨g, hg, hid⟩ := hrows f hf
  exact ⟨_, (mem_of_rows hset).mpr ⟨g, hg, rfl⟩, (setStatus_id _ _ _ g).trans hid⟩

/-- A file that was not read leaves everything to the others. -/
theorem Passed.skip {rest : List (StoredFile × Bytes)} {size : Nat} {report : Preloaded}
    {v : PreloadWorld} (hp : Passed h rest v n size report t m) (hfs : v.world.fs = s.world.fs)
    (hmarked : ∀ id, Marked v id ↔ Marked s id) (hcache : v.world.cache = s.world.cache) :
    Passed h rest s n size report t m where
  read p hmem := (World.bytesAt_congr (by rw [hfs])).symm.trans (hp.read p hmem)
  marked id := by rw [hp.marked, hmarked]
  size := hp.size
  inserted := hp.inserted
  cache := by rw [hp.cache, hcache]

/-- One file more. -/
theorem Passed.cons {rest : List (StoredFile × Bytes)} {size : Nat} {report : Preloaded}
    {v : PreloadWorld} {x : Bytes}
    (hp : Passed h rest v (n + if x.length ≤ Cache.maxCacheSize then x.length else 0)
      ((size + x.length) % 2 ^ 64) report t m)
    (hbytes : s.world.bytesAt h f.filePath = some x) (hfs : v.world.fs = s.world.fs)
    (hmarked : ∀ id, Marked v id ↔ Marked s id ∨ id = f.id)
    (hcache : v.world.cache = s.world.cache.setFileContent f.bucket f.key x) :
    Passed h ((f, x) :: rest) s n size report t m where
  read := by
    rw [List.forall_mem_cons]
    exact ⟨hbytes, fun p hmem => (World.bytesAt_congr (by rw [hfs])).symm.trans (hp.read p hmem)⟩
  marked id := by
    rw [hp.marked, hmarked, or_assoc]
    simp [eq_comm]
  size := hp.size
  inserted := by
    rw [hp.inserted, List.map_cons, List.sum_cons, Nat.add_assoc]
  cache := by rw [hp.cache, hcache]; rfl

theorem preloadFiles_passed {done report : Preloaded} (hids : (files.map (·.id)).Nodup)
    (hrows : ∀ f ∈ files, ∃ g ∈ s.world.db.files, g.id = f.id)
    (hfresh : ∀ f ∈ files, ¬ Marked s f.id)
    (hr : (preloadFiles budget files done).RunsWith (counting h) (Answered popular reads) (s, n)
      (.ok report) (t, m)) :
    Passed h (taken reads budget done.currentCacheSize files) s n done.currentCacheSize report t m := by
  induction files generalizing done s n with
  | nil =>
    obtain ⟨hreport, hstate⟩ := hr
    obtain rfl := Except.ok.inj hreport
    obtain ⟨rfl, rfl⟩ := Prod.mk.inj hstate
    exact .nil
  | cons f files ih =>
    simp only [List.map_cons, List.nodup_cons] at hids
    obtain ⟨hrow, hrows⟩ := List.forall_mem_cons.mp hrows
    obtain ⟨hnot, hfresh⟩ := List.forall_mem_cons.mp hfresh
    rw [preloadFiles] at hr
    split at hr
    · rename_i hfull
      obtain ⟨hreport, hstate⟩ := hr
      obtain rfl := Except.ok.inj hreport
      obtain ⟨rfl, rfl⟩ := Prod.mk.inj hstate
      rw [taken, if_pos hfull]
      exact .nil
    · rename_i hroom
      obtain ⟨y, ⟨u, k⟩, hattempt, hrest⟩ := runsWith_bind_ok.mp hr
      obtain ⟨y, hy, hfile⟩ := runsWith_attempt.mp hattempt
      obtain rfl := Except.ok.inj hy
      rcases cachingFile_runs hfile with ⟨x, rfl, hread, hbytes, rfl, rfl⟩ | ⟨⟨e, rfl⟩, hread, rfl, rfl⟩
      · obtain ⟨_, ⟨v, l⟩, hmark, hloop⟩ := runsWith_bind_ok.mp hrest
        obtain ⟨hset, hfs, hcache, rfl⟩ := updateCacheStatus_runs hmark
        have hmarked : ∀ id, Marked v id ↔ Marked s id ∨ id = f.id := marked_cached hset hrow
        have hpassed := ih hids.2 (rows_kept hset hrows) (fun g hg hv => ?_) hloop
        · rw [taken, if_neg hroom, hread]
          refine hpassed.cons hbytes hfs hmarked hcache
        · rcases (hmarked g.id).mp hv with hv | hv
          · exact hfresh g hg hv
          · exact hids.1 (hv ▸ List.mem_map_of_mem hg)
      · obtain ⟨_, ⟨v, l⟩, hmark, hloop⟩ := runsWith_bind_ok.mp hrest
        obtain ⟨hset, hfs, hcache, rfl⟩ := updateCacheStatus_runs hmark
        have hmarked : ∀ id, Marked v id ↔ Marked u id := marked_not_cached hset hnot
        have hpassed := ih hids.2 (rows_kept hset hrows) (fun g hg hv =>
          hfresh g hg ((hmarked g.id).mp hv)) hloop
        rw [taken, if_neg hroom, hread]
        exact hpassed.skip hfs hmarked hcache

/-! ## Which files the loop takes -/

/-- The bytes that are read of a file, or none. -/
def readLength (reads : StoredFile → Option Bytes) (f : StoredFile) : Nat :=
  ((reads f).map List.length).getD 0

/-- The loop comes to `f`: what can be read of the files before it leaves room in the budget. -/
def Due (reads : StoredFile → Option Bytes) (budget size : Nat) (files : List StoredFile)
    (f : StoredFile) : Prop :=
  ∃ before after, files = before ++ f :: after ∧ size + (before.map (readLength reads)).sum < budget

theorem due_cons {size : Nat} {g : StoredFile} : Due reads budget size (g :: files) f ↔
    size < budget ∧ f = g ∨ Due reads budget (size + readLength reads g) files f := by
  constructor
  · rintro ⟨before, after, heq, hroom⟩
    cases before with
    | nil =>
      obtain ⟨rfl, -⟩ := List.cons.inj heq
      exact .inl ⟨by simpa using hroom, rfl⟩
    | cons b before =>
      obtain ⟨rfl, hfiles⟩ := List.cons.inj heq
      rw [List.map_cons, List.sum_cons, ← Nat.add_assoc] at hroom
      exact .inr ⟨before, after, hfiles, hroom⟩
  · rintro (⟨hroom, rfl⟩ | ⟨before, after, rfl, hroom⟩)
    · exact ⟨[], files, rfl, by simpa using hroom⟩
    · refine ⟨g :: before, after, rfl, ?_⟩
      rw [List.map_cons, List.sum_cons, ← Nat.add_assoc]
      exact hroom

theorem Due.room {size : Nat} (hdue : Due reads budget size files f) : size < budget := by
  obtain ⟨before, after, -, hroom⟩ := hdue
  exact Nat.lt_of_le_of_lt (Nat.le_add_right _ _) hroom

/-- A file that is due and can be read is taken: below the budget the count has not wrapped. -/
theorem Due.taken {size : Nat} {x : Bytes} (hbudget : budget ≤ 2 ^ 64)
    (hdue : Due reads budget size files f) (hread : reads f = some x) :
    (f, x) ∈ taken reads budget size files := by
  induction files generalizing size with
  | nil =>
    obtain ⟨before, after, heq, -⟩ := hdue
    simp at heq
  | cons g files ih =>
    have hroom : ¬ budget ≤ size := Nat.not_le.mpr hdue.room
    rw [Preloading.taken, if_neg hroom]
    rcases due_cons.mp hdue with ⟨-, rfl⟩ | hlater
    · rw [hread]
      exact List.mem_cons_self
    · have hsum := hlater.room
      cases hg : reads g with
      | none =>
        have hlength : readLength reads g = 0 := by simp [readLength, hg]
        rw [hlength] at hlater
        exact ih hlater
      | some y =>
        have hlength : readLength reads g = y.length := by simp [readLength, hg]
        rw [hlength] at hlater hsum
        have hwrap : (size + y.length) % 2 ^ 64 = size + y.length :=
          Nat.mod_eq_of_lt (Nat.lt_of_lt_of_le hsum hbudget)
        dsimp only
        rw [hwrap]
        exact List.mem_cons_of_mem _ (ih hlater)

/-- What is taken is due as long as the files that are due are small. -/
theorem taken_due {size : Nat} (hfits : size + files.length * Cache.maxCacheSize < 2 ^ 64)
    (hsmall : ∀ f x, Due reads budget size files f → reads f = some x →
      x.length ≤ Cache.maxCacheSize) {p : StoredFile × Bytes}
    (hp : p ∈ taken reads budget size files) :
    Due reads budget size files p.1 := by
  induction files generalizing size with
  | nil => simp [taken] at hp
  | cons g files ih =>
    rw [taken] at hp
    split at hp
    · simp at hp
    · rename_i hroom
      have hfirst : Due reads budget size (g :: files) g := due_cons.mpr (.inl ⟨Nat.not_le.mp hroom, rfl⟩)
      rw [List.length_cons, Nat.add_mul, Nat.one_mul] at hfits
      cases hg : reads g with
      | none =>
        have hlength : readLength reads g = 0 := by simp [readLength, hg]
        have hlater : ∀ f, Due reads budget size files f → Due reads budget size (g :: files) f := by
          intro f hf
          rw [due_cons, hlength]
          exact .inr hf
        rw [hg] at hp
        exact hlater _ (ih (by omega) (fun f x hf => hsmall f x (hlater f hf)) hp)
      | some y =>
        have hlength : readLength reads g = y.length := by simp [readLength, hg]
        have hlater : ∀ f, Due reads budget (size + y.length) files f →
            Due reads budget size (g :: files) f := by
          intro f hf
          rw [due_cons, hlength]
          exact .inr hf
        have hy := hsmall g y hfirst hg
        have hwrap : (size + y.length) % 2 ^ 64 = size + y.length := Nat.mod_eq_of_lt (by omega)
        rw [hg] at hp
        dsimp only at hp
        rw [hwrap] at hp
        rcases List.mem_cons.mp hp with rfl | hp
        · exact hfirst
        · exact hlater _ (ih (by omega) (fun f x hf => hsmall f x (hlater f hf)) hp)

theorem length_taken_le (size : Nat) : (taken reads budget size files).length ≤ files.length := by
  induction files generalizing size with
  | nil => exact Nat.le_refl 0
  | cons g files ih =>
    rw [taken]
    split
    · exact Nat.zero_le _
    · cases reads g with
      | none => exact Nat.le_succ_of_le (ih size)
      | some x => exact Nat.succ_le_succ (ih _)

theorem taken_subset {size : Nat} {p : StoredFile × Bytes} (hp : p ∈ taken reads budget size files) :
    p.1 ∈ files ∧ reads p.1 = some p.2 := by
  induction files generalizing size with
  | nil => simp [taken] at hp
  | cons g files ih =>
    rw [taken] at hp
    split at hp
    · simp at hp
    · cases hg : reads g with
      | none =>
        rw [hg] at hp
        exact ⟨List.mem_cons_of_mem _ (ih hp).1, (ih hp).2⟩
      | some x =>
        rw [hg] at hp
        rcases List.mem_cons.mp hp with rfl | hp
        · exact ⟨List.mem_cons_self, hg⟩
        · exact ⟨List.mem_cons_of_mem _ (ih hp).1, (ih hp).2⟩

/-! ## What small files add up to -/

/-- Nothing is skipped by the cache. -/
def Small (files : List (StoredFile × Bytes)) : Prop := ∀ p ∈ files, p.2.length ≤ Cache.maxCacheSize

def total (files : List (StoredFile × Bytes)) : Nat := (files.map fun p => p.2.length).sum

variable {loaded : List (StoredFile × Bytes)} {size : Nat}

/-- The count of small files does not wrap. -/
theorem Small.counted (hsmall : Small loaded)
    (hfits : size + loaded.length * Cache.maxCacheSize < 2 ^ 64) :
    loaded.foldl (fun size p => (size + p.2.length) % 2 ^ 64) size = size + total loaded := by
  induction loaded generalizing size with
  | nil => rfl
  | cons p loaded ih =>
    obtain ⟨hp, hrest⟩ := List.forall_mem_cons.mp hsmall
    rw [List.length_cons, Nat.add_mul, Nat.one_mul] at hfits
    have hwrap : (size + p.2.length) % 2 ^ 64 = size + p.2.length := Nat.mod_eq_of_lt (by omega)
    rw [List.foldl_cons, hwrap, ih hrest (by omega)]
    simp only [total, List.map_cons, List.sum_cons]
    omega

theorem Small.inserted (hsmall : Small loaded) :
    (loaded.map fun p => if p.2.length ≤ Cache.maxCacheSize then p.2.length else 0).sum =
      total loaded := by
  rw [total]
  congr 1
  exact List.map_congr_left fun p hp => if_pos (hsmall p hp)

/-- The loop stops at the first file that fills the budget. -/
theorem taken_overshoot (hroom : size < budget) (hsmall : Small (taken reads budget size files))
    (hfits : size + files.length * Cache.maxCacheSize < 2 ^ 64) :
    size + total (taken reads budget size files) < budget ∨
      ∃ p ∈ taken reads budget size files,
        size + total (taken reads budget size files) < budget + p.2.length := by
  induction files generalizing size with
  | nil => exact .inl hroom
  | cons g files ih =>
    rw [taken, if_neg (Nat.not_le.mpr hroom)] at hsmall ⊢
    rw [List.length_cons, Nat.add_mul, Nat.one_mul] at hfits
    cases hg : reads g with
    | none =>
      rw [hg] at hsmall
      exact ih hroom hsmall (by omega)
    | some x =>
      rw [hg] at hsmall
      obtain ⟨hx, hrest⟩ := List.forall_mem_cons.mp hsmall
      dsimp only at hx hrest ⊢
      have hwrap : (size + x.length) % 2 ^ 64 = size + x.length := Nat.mod_eq_of_lt (by omega)
      rw [hwrap] at hrest ⊢
      have hsum : ∀ rest, size + total ((g, x) :: rest) = size + x.length + total rest := by
        intro rest
        simp only [total, List.map_cons, List.sum_cons]
        omega
      rw [hsum]
      by_cases hfull : size + x.length < budget
      · rcases ih hfull hrest (by omega) with hlt | ⟨p, hp, hlt⟩
        · exact .inl hlt
        · exact .inr ⟨p, List.mem_cons_of_mem _ hp, hlt⟩
      · have hnil : taken reads budget (size + x.length) files = [] := by
          cases files with
          | nil => rfl
          | cons g' files => exact if_pos (Nat.not_lt.mp hfull)
        refine .inr ⟨(g, x), List.mem_cons_self, ?_⟩
        rw [hnil]
        exact Nat.add_lt_add_right hroom _

/-! ## What the cache holds afterwards -/

/-- Nothing that is larger than the limit is cached. -/
def Bounded (cache : Cache) : Prop :=
  ∀ b k x, cache.getFileContent b k = some x → x.length ≤ Cache.maxCacheSize

theorem Bounded.setFileContent {cache : Cache} (hc : Bounded cache) (b k : String) (x : Bytes) :
    Bounded (cache.setFileContent b k x) := by
  by_cases hx : x.length ≤ Cache.maxCacheSize
  · intro b' k' y hy
    rw [Cache.getFileContent_setFileContent hx] at hy
    split at hy
    · obtain rfl := Option.some.inj hy
      exact hx
    · exact hc b' k' y hy
  · rwa [Cache.setFileContent_large (Nat.not_le.mp hx)]

/-- No step of the service puts more into the cache. -/
theorem Bounded.step {w : World} (hc : Bounded w.cache) (c : Choice) (a : Action) :
    Bounded (exec h c a w).2.cache := by
  have ht : Takes (exec h) w ⟨a, (exec h c a w).1⟩ (exec h c a w).2 := ⟨c, rfl⟩
  rw [takes_cache ht]
  cases a with
  | setFileContent b k x => exact hc.setFileContent b k x
  | invalidateFile b k =>
    intro b' k' y hy
    simp only [Action.onCache, Cache.getFileContent_invalidateFile] at hy
    split at hy
    · simp at hy
    · exact hc b' k' y hy
  | _ => exact hc

theorem Bounded.filled {cache : Cache} (hc : Bounded cache) : Bounded (filled cache loaded) := by
  induction loaded generalizing cache with
  | nil => exact hc
  | cons p loaded ih => exact ih (hc.setFileContent _ _ _)

theorem filled_elsewhere {cache : Cache} {b k : String}
    (hslot : ∀ p ∈ loaded, ¬ Cache.SameSlot b k p.1.bucket p.1.key) :
    (filled cache loaded).getFileContent b k = cache.getFileContent b k := by
  induction loaded generalizing cache with
  | nil => rfl
  | cons p loaded ih =>
    obtain ⟨hp, hrest⟩ := List.forall_mem_cons.mp hslot
    exact (ih hrest).trans (Cache.getFileContent_setFileContent_ne p.2 hp)

/-- Small files that do not disagree about a slot are all found. -/
theorem filled_found {cache : Cache} (hsmall : Small loaded)
    (hapart : ∀ p ∈ loaded, ∀ q ∈ loaded,
      Cache.SameSlot p.1.bucket p.1.key q.1.bucket q.1.key → p.2 = q.2) :
    ∀ p ∈ loaded, (filled cache loaded).getFileContent p.1.bucket p.1.key = some p.2 := by
  induction loaded generalizing cache with
  | nil =>
    intro p hp
    simp at hp
  | cons q loaded ih =>
    obtain ⟨hq, hrest⟩ := List.forall_mem_cons.mp hsmall
    have hlater : ∀ p ∈ loaded, (filled (cache.setFileContent q.1.bucket q.1.key q.2)
        loaded).getFileContent p.1.bucket p.1.key = some p.2 := ih hrest
      fun p hp r hr => hapart p (List.mem_cons_of_mem _ hp) r (List.mem_cons_of_mem _ hr)
    rw [List.forall_mem_cons]
    refine ⟨?_, hlater⟩
    by_cases hslot : ∃ r ∈ loaded, Cache.SameSlot q.1.bucket q.1.key r.1.bucket r.1.key
    · obtain ⟨r, hr, hslot⟩ := hslot
      have hkey : Cache.contentKey q.1.bucket q.1.key = Cache.contentKey r.1.bucket r.1.key :=
        Cache.contentKey_eq.mpr hslot
      have hfound := hlater r hr
      rw [Cache.getFileContent, ← hkey] at hfound
      rw [hapart q List.mem_cons_self r (List.mem_cons_of_mem _ hr) hslot]
      exact hfound
    · have hnone : ∀ r ∈ loaded, ¬ Cache.SameSlot q.1.bucket q.1.key r.1.bucket r.1.key :=
        fun r hr h => hslot ⟨r, hr, h⟩
      have hput : (cache.setFileContent q.1.bucket q.1.key q.2).getFileContent q.1.bucket q.1.key =
          some q.2 := by
        rw [Cache.getFileContent_setFileContent hq, if_pos (Cache.SameSlot.refl _ _)]
      exact (filled_elsewhere hnone).trans hput

/-! ## A whole pass -/

variable {config : CacheConfig} {report : Option Preloaded}

/-- The rows that are asked for are rows that are not marked, each once and at most as many as
were asked for. -/
structure Selected (db : Database) (minAccessCount : Int) (files : List StoredFile) : Prop where
  rows : ∀ f ∈ files, f ∈ db.files ∧ Database.popularUncached minAccessCount f = true
  nodup : files.Nodup
  length : files.length ≤ 1000

theorem selected_of_ok {db : Database} {rank : StoredFile → Nat} {minAccessCount : Int}
    (hr : db.selectPopularUncached rank minAccessCount 1000 = .ok files) :
    Selected db minAccessCount files := by
  simp only [Database.selectPopularUncached, Database.page] at hr
  rw [if_neg (by decide), if_neg (by decide)] at hr
  obtain rfl := Except.ok.inj hr
  have hrows : db.files.rows.Nodup := List.Nodup.of_map _ db.files.keyed
  refine ⟨fun f hf => ?_, ?_, List.length_take_le _ _⟩
  · have hmem := List.mem_of_mem_drop (List.mem_of_mem_take hf)
    rw [List.mem_insertionSort, Database.mem_orderBy, List.mem_filter] at hmem
    exact hmem
  · refine (List.Nodup.sublist ((List.take_sublist _ _).trans (List.drop_sublist _ _)) ?_)
    rw [(List.perm_insertionSort _ _).nodup_iff, Database.orderBy,
      (List.perm_insertionSort _ _).nodup_iff]
    exact hrows.filter _

/-- `files_pkey`. -/
def UniqueIds (db : Database) : Prop := ∀ f ∈ db.files, ∀ g ∈ db.files, f.id = g.id → f = g

theorem Selected.ids {db : Database} {minAccessCount : Int} (hids : UniqueIds db)
    (hsel : Selected db minAccessCount files) : (files.map (·.id)).Nodup := by
  refine List.Nodup.map_on ?_ hsel.nodup
  intro f hf g hg heq
  exact hids f (hsel.rows f hf).1 g (hsel.rows g hg).1 heq

theorem Selected.not_marked {minAccessCount : Int} (hids : UniqueIds s.world.db)
    (hsel : Selected s.world.db minAccessCount files) (hf : f ∈ files) : ¬ Marked s f.id := by
  rintro ⟨g, hg, hid, hstatus⟩
  obtain ⟨hrow, hpopular⟩ := hsel.rows f hf
  obtain rfl := hids g hg f hrow hid
  simp [Database.popularUncached, hstatus] at hpopular

theorem selected_of_page {db : Database} {c : Choice} {minAccessCount : Int}
    (hr : answerPage c (db.selectPopularUncached c.rank minAccessCount 1000) = .ok files) :
    ∃ rank, db.selectPopularUncached rank minAccessCount 1000 = .ok files := by
  refine ⟨c.rank, ?_⟩
  unfold answerPage at hr
  split at hr
  · simp at hr
  · rename_i rows _ hrows
    rw [hrows]
    exact congrArg Except.ok (Except.ok.inj hr)
  · simp at hr

theorem orDatabase_ok {α : Type} {x : Query α} {a : α}
    (hx : .ok a = x.mapError StorageError.ofSqlx) : x = .ok a := by
  cases x with
  | error e => simp [Except.mapError] at hx
  | ok b => exact congrArg Except.ok (Except.ok.inj hx).symm

theorem orDatabase_runs {α : Type} {x : Query α} {a : α} {σ : Type} {u v : σ} {C : Type}
    {exec : C → (a : PreloadAction) → σ → PreloadResponse a × σ}
    {Good : (a : PreloadAction) → PreloadResponse a → Prop}
    (hr : (orDatabase x).RunsWith exec Good u (.ok a) v) : x = .ok a ∧ v = u := by
  obtain ⟨hx, hv⟩ := runsWith_ofExcept.mp hr
  exact ⟨orDatabase_ok hx, hv⟩

/-- A pass once its configuration is read. -/
def passFor (config : CacheConfig) : PreloadOp (Option Preloaded) :=
  if config.preloadEnabled = some true then
    .act (.getPopularUncachedFiles (config.minAccessCount.getD 5) 1000) fun r =>
      (orDatabase r).bind fun files =>
        (preloadFiles config.maxCacheSizeBytes files ⟨0, 0⟩).bind fun done => .ret (some done)
  else .ret none

theorem preloadPopularFiles_eq :
    preloadPopularFiles = Prog.act .getCacheConfig fun r => (orDatabase r).bind passFor := by
  simp only [preloadPopularFiles, preloadStep, bind_eq, call_bind, pure_eq]
  congr 1
  funext r
  congr 1
  funext config
  unfold passFor
  rcases config with ⟨size, _ | _ | _, count⟩ <;> rfl

/-- A pass ends at once, or it goes over the files that the query answers with. -/
theorem preload_passed (hids : UniqueIds s.world.db) (hconfig : s.cacheConfig = some config)
    (hr : preloadPopularFiles.RunsWith (counting h) (Answered popular reads) (s, n) (.ok report)
      (t, m)) :
    (config.preloadEnabled ≠ some true ∧ report = none ∧ t = s ∧ m = n) ∨
    config.preloadEnabled = some true ∧
      (∃ rank, s.world.db.selectPopularUncached rank (config.minAccessCount.getD 5) 1000 =
        .ok popular) ∧
      ∃ done, report = some done ∧
        Passed h (taken reads config.maxCacheSizeBytes 0 popular) s n 0 done t m := by
  rw [preloadPopularFiles_eq] at hr
  obtain ⟨c, -, hr⟩ := hr
  obtain ⟨row, ⟨u, k⟩, hrow, hrest⟩ := runsWith_bind_ok.mp hr
  obtain ⟨hanswer, hstate⟩ := orDatabase_runs hrow
  have hsame : (u, k) = (s, n) := hstate
  have hread : (answer c s.cacheConfig >>= fetchOne) = .ok row := hanswer
  obtain ⟨stored, hstored, hfetched⟩ := except_bind_ok.mp hread
  rw [answer_eq_ok hstored, hconfig] at hfetched
  obtain rfl := Except.ok.inj hfetched
  rw [hsame, passFor] at hrest
  split at hrest
  · rename_i henabled
    obtain ⟨c', hquery, hrest⟩ := hrest
    obtain ⟨answer, ⟨u', k'⟩, hselect, hloop⟩ := runsWith_bind_ok.mp hrest
    obtain ⟨hfiles, hstate'⟩ := orDatabase_runs hselect
    have hsame' : (u', k') = (s, n) := hstate'
    rw [hsame'] at hloop
    obtain rfl : answer = popular := hquery answer hfiles
    obtain ⟨rank, hrank⟩ := selected_of_page hfiles
    obtain ⟨done, ⟨v, l⟩, hdone, hreport⟩ := runsWith_bind_ok.mp hloop
    obtain ⟨hreport, hend⟩ := hreport
    obtain ⟨rfl, rfl⟩ := Prod.mk.inj hend
    have hsel := selected_of_ok hrank
    refine .inr ⟨henabled, ⟨rank, hrank⟩, done, Except.ok.inj hreport, ?_⟩
    exact preloadFiles_passed (hsel.ids hids)
      (fun f hf => ⟨f, (hsel.rows f hf).1, rfl⟩) (fun f hf => hsel.not_marked hids hf) hdone
  · rename_i hdisabled
    obtain ⟨hreport, hend⟩ := hrest
    obtain ⟨rfl, rfl⟩ := Prod.mk.inj hend
    exact .inl ⟨hdisabled, Except.ok.inj hreport, rfl, rfl⟩

/-! ## Every pass has its answers -/

/-- Steps on the way of one of these files, and statements. -/
def Concerns (files : List StoredFile) : PreloadAction → Prop
  | .caching f _ => f ∈ files
  | _ => True

theorem Concerns.answered {reads' : StoredFile → Option Bytes} {a : PreloadAction}
    {r : PreloadResponse a} (hsame : ∀ f ∈ files, reads f = reads' f) (ha : Concerns files a)
    (hr : Answered popular reads a r) : Answered popular reads' a r := by
  cases a with
  | caching f a =>
    have hf := hsame f ha
    cases a with
    | fileExists path =>
      intro habsent
      rw [← hf]
      exact hr habsent
    | readFile path => exact Eq.trans hr hf
    | _ => trivial
  | _ => exact hr

theorem cachingFile_uses (f : StoredFile) : (cachingFile f).Uses (Concerns [f]) := by
  have hconcerns : ∀ a, Concerns [f] (.caching f a) := fun _ => List.mem_singleton_self f
  exact uses_relay hconcerns _

theorem updateCacheStatus_uses : (updateCacheStatus id status none).Uses
    fun a => a = .updateCacheStatus id status none :=
  ⟨rfl, fun _ => uses_ofExcept _⟩

theorem Concerns.mono {files' : List StoredFile} {a : PreloadAction} (hsub : files ⊆ files')
    (ha : Concerns files a) : Concerns files' a := by
  cases a with
  | caching f a => exact hsub ha
  | _ => trivial

theorem preloadFiles_uses (done : Preloaded) : (preloadFiles budget files done).Uses (Concerns files) := by
  induction files generalizing done with
  | nil => trivial
  | cons f files ih =>
    have hmark : ∀ status done', ((updateCacheStatus f.id status none).bind fun _ =>
        preloadFiles budget files done').Uses (Concerns (f :: files)) := by
      intro status done'
      refine Uses.bind (updateCacheStatus_uses.mono ?_) fun _ => ?_
      · rintro a rfl
        trivial
      · exact (ih done').mono fun a ha => ha.mono (List.subset_cons_self f files)
    rw [preloadFiles]
    split
    · trivial
    · refine Uses.bind ((cachingFile_uses f).attempt.mono fun a ha => ha.mono ?_) fun y => ?_
      · simp
      · cases y with
        | ok x => exact hmark _ _
        | error e => exact hmark _ _

theorem cachingFile_answered (popular : List StoredFile) {y : Except StorageError Nat} {u v : PreloadWorld × Nat}
    (hr : (cachingFile f).Runs (counting h) u y v) :
    ∃ o, (cachingFile f).RunsWith (counting h) (Answered popular fun _ => o) u y v := by
  simp only [cachingFile, cacheFileFromDisk, ofIo, step_eq, bind_eq, act_bind, ret_bind, pure_eq,
    relay_act, runs_act] at hr
  simp only [cachingFile, cacheFileFromDisk, ofIo, step_eq, bind_eq, act_bind, ret_bind, pure_eq,
    relay_act, runsWith_act]
  obtain ⟨c, hr⟩ := hr
  split at hr
  · rename_i habsent
    exact ⟨none, c, fun _ => rfl, by rw [if_pos habsent]; exact hr⟩
  · rename_i hpresent
    simp only [relay_act, runs_act] at hr
    obtain ⟨c', hr⟩ := hr
    refine ⟨(execReadFile h c' f.filePath u.1.world).toOption, c, ?_, ?_⟩
    · intro habsent
      exact absurd (by simpa using habsent) hpresent
    · rw [if_neg hpresent]
      refine ⟨c', rfl, ?_⟩
      refine hr.runsWith (P := fun a => ∃ b k x, a = .caching f (.setFileContent b k x)) ?_ ?_
      · rintro a r ⟨b, k, x, rfl⟩
        trivial
      · simp only [relay_bind, relay_ofExcept, relay_act, relay_ret]
        refine Uses.bind (uses_ofExcept _) fun x => ⟨⟨_, _, _, rfl⟩, fun r => ?_⟩
        exact Uses.bind (uses_ofExcept _) fun _ => trivial

/-- With the answer for `f`, a mark on `f` and the loop over the others have their answers. -/
theorem marking_answered {done report : Preloaded} {u v : PreloadWorld × Nat} {o : Option Bytes}
    (hnew : f ∉ files) (hloops : ∀ {w},
      (preloadFiles budget files done).Runs (counting h) w (.ok report) v →
      ∃ reads, (preloadFiles budget files done).RunsWith (counting h) (Answered popular reads) w
        (.ok report) v)
    (hr : ((updateCacheStatus f.id status none).bind fun _ =>
      preloadFiles budget files done).Runs (counting h) u (.ok report) v) :
    ∃ reads, reads f = o ∧ ((updateCacheStatus f.id status none).bind fun _ =>
      preloadFiles budget files done).RunsWith (counting h) (Answered popular reads) u
        (.ok report) v := by
  obtain ⟨a, w, hupdate, hloop⟩ := runs_bind_ok.mp hr
  obtain ⟨reads, hloop⟩ := hloops hloop
  refine ⟨Function.update reads f o, Function.update_self .., ?_⟩
  refine runsWith_bind_ok.mpr ⟨a, w, hupdate.runsWith ?_ updateCacheStatus_uses, ?_⟩
  · rintro a r rfl
    trivial
  · refine hloop.imp (fun a r ha hgood => ha.answered ?_ hgood) (preloadFiles_uses done)
    intro g hg
    rw [Function.update_of_ne]
    rintro rfl
    exact hnew hg

/-- What the disk answered for each file of the loop. -/
theorem preloadFiles_answered {done report : Preloaded} {u v : PreloadWorld × Nat}
    (hnodup : files.Nodup) (hr : (preloadFiles budget files done).Runs (counting h) u (.ok report) v) :
    ∃ reads, (preloadFiles budget files done).RunsWith (counting h) (Answered popular reads) u
      (.ok report) v := by
  induction files generalizing done u with
  | nil => exact ⟨fun _ => none, hr⟩
  | cons f files ih =>
    obtain ⟨hnew, hnodup⟩ := List.nodup_cons.mp hnodup
    rw [preloadFiles] at hr ⊢
    split at hr
    · rename_i hfull
      exact ⟨fun _ => none, by rw [if_pos hfull]; exact hr⟩
    · rename_i hroom
      rw [if_neg hroom]
      obtain ⟨y, w, hattempt, hrest⟩ := runs_bind_ok.mp hr
      obtain ⟨z, hz, hfile⟩ := runs_attempt.mp hattempt
      obtain rfl := Except.ok.inj hz
      obtain ⟨o, hfile⟩ := cachingFile_answered popular hfile
      have hread : ∀ {reads : StoredFile → Option Bytes}, reads f = o →
          (cachingFile f).attempt.RunsWith (counting h) (Answered popular reads) u (.ok y) w := by
        intro reads hf
        refine runsWith_attempt.mpr ⟨y, rfl, hfile.imp (fun a r ha hgood => ha.answered ?_ hgood)
          (cachingFile_uses f)⟩
        intro g hg
        rw [List.mem_singleton.mp hg, hf]
      cases y with
      | ok x =>
        obtain ⟨reads, hf, hrest⟩ := marking_answered hnew (fun hloop => ih hnodup hloop) hrest
        exact ⟨reads, runsWith_bind_ok.mpr ⟨_, w, hread hf, hrest⟩⟩
      | error e =>
        obtain ⟨reads, hf, hrest⟩ := marking_answered hnew (fun hloop => ih hnodup hloop) hrest
        exact ⟨reads, runsWith_bind_ok.mpr ⟨_, w, hread hf, hrest⟩⟩

theorem preload_answered {v : PreloadWorld × Nat}
    (hr : preloadPopularFiles.Runs (counting h) (s, n) (.ok report) v) :
    ∃ popular reads, preloadPopularFiles.RunsWith (counting h) (Answered popular reads) (s, n)
      (.ok report) v := by
  rw [preloadPopularFiles_eq] at hr ⊢
  obtain ⟨c, hr⟩ := hr
  obtain ⟨row, u, hrow, hrest⟩ := runs_bind_ok.mp hr
  have hconfig : ∀ {popular reads}, (passFor row).RunsWith (counting h) (Answered popular reads) u
      (.ok report) v → ∃ popular reads,
        (Prog.act .getCacheConfig fun r => (orDatabase r).bind passFor).RunsWith (counting h)
          (Answered popular reads) (s, n) (.ok report) v := by
    intro popular reads hpass
    exact ⟨popular, reads, c, trivial, runsWith_bind_ok.mpr
      ⟨row, u, runsWith_ofExcept.mpr (runs_ofExcept.mp hrow), hpass⟩⟩
  unfold passFor at hrest
  split at hrest
  · rename_i henabled
    obtain ⟨c', hrest⟩ := hrest
    obtain ⟨popular, u', hselect, hloop⟩ := runs_bind_ok.mp hrest
    obtain ⟨hfiles, -⟩ := runs_ofExcept.mp hselect
    obtain ⟨done, v', hdone, hreport⟩ := runs_bind_ok.mp hloop
    have hpopular : answerPage c' (u.1.world.db.selectPopularUncached c'.rank
        (row.minAccessCount.getD 5) 1000) = .ok popular := orDatabase_ok hfiles
    obtain ⟨rank, hrank⟩ := selected_of_page hpopular
    obtain ⟨reads, hdone⟩ := preloadFiles_answered (selected_of_ok hrank).nodup hdone
    suffices hpass : (passFor row).RunsWith (counting h) (Answered popular reads) u (.ok report) v from
      hconfig hpass
    rw [passFor, if_pos henabled]
    refine ⟨c', ?_, runsWith_bind_ok.mpr ⟨popular, u', runsWith_ofExcept.mpr (runs_ofExcept.mp hselect),
      runsWith_bind_ok.mpr ⟨done, v', hdone, hreport⟩⟩⟩
    intro answer hanswer
    exact Except.ok.inj (hanswer.symm.trans hpopular)
  · rename_i hdisabled
    have hpass : (passFor row).RunsWith (counting h) (Answered [] fun _ => none) u (.ok report) v := by
      rw [passFor, if_neg hdisabled]
      exact hrest
    exact hconfig hpass

/-! ## Which files do no harm -/

/-- What a pass promises: every row it marked has its bytes in the cache, the count is of the
bytes that went there, and it is over the budget by less than one of the files. -/
structure Faithful (h : Host) (s : PreloadWorld) (budget : Nat) (report : Option Preloaded)
    (inserted : Nat) (t : PreloadWorld) : Prop where
  cached : ∀ f ∈ s.world.db.files, ¬ Marked s f.id → Marked t f.id →
    ∃ x, s.world.bytesAt h f.filePath = some x ∧
      t.world.cache.getFileContent f.bucket f.key = some x
  counted : (report.map (·.currentCacheSize)).getD 0 = inserted
  overshoot : inserted ≤ budget ∨ ∃ f ∈ s.world.db.files, ¬ Marked s f.id ∧ Marked t f.id ∧
    ∃ x, s.world.bytesAt h f.filePath = some x ∧ inserted < budget + x.length

/-- No file that is due is larger than what the cache takes, and no two of them with different
bytes share a place in it. -/
structure Harmless (reads : StoredFile → Option Bytes) (budget : Nat) (files : List StoredFile) :
    Prop where
  small : ∀ f x, Due reads budget 0 files f → reads f = some x → x.length ≤ Cache.maxCacheSize
  apart : ∀ f g x y, Due reads budget 0 files f → Due reads budget 0 files g → reads f = some x →
    reads g = some y → Cache.SameSlot f.bucket f.key g.bucket g.key → x = y

theorem maxCacheSizeBytes_lt (config : CacheConfig) : config.maxCacheSizeBytes < 2 ^ 64 := by
  have hle : config.maxCacheSizeBytes ≤ 2 ^ 64 - 1 := Nat.min_le_right _ _
  omega

section Pass
variable {minAccessCount : Int} {done : Preloaded}

/-- A file that was taken is marked as it was not before, and the others are as they were. -/
theorem newly_marked (hids : UniqueIds s.world.db) (hsel : Selected s.world.db minAccessCount popular)
    (hp : Passed h (taken reads budget 0 popular) s 0 0 done t m) (hf : f ∈ s.world.db.files)
    (hnot : ¬ Marked s f.id) (hmarked : Marked t f.id) :
    ∃ x, (f, x) ∈ taken reads budget 0 popular := by
  obtain ⟨⟨g, x⟩, hg, hid⟩ := ((hp.marked f.id).mp hmarked).resolve_left hnot
  obtain rfl := hids g (hsel.rows g (taken_subset hg).1).1 f hf hid
  exact ⟨x, hg⟩

theorem taken_marked (hids : UniqueIds s.world.db) (hsel : Selected s.world.db minAccessCount popular)
    (hp : Passed h (taken reads budget 0 popular) s 0 0 done t m) {p : StoredFile × Bytes}
    (hmem : p ∈ taken reads budget 0 popular) :
    p.1 ∈ s.world.db.files ∧ ¬ Marked s p.1.id ∧ Marked t p.1.id :=
  ⟨(hsel.rows _ (taken_subset hmem).1).1, hsel.not_marked hids (taken_subset hmem).1,
    (hp.marked _).mpr (.inr ⟨p, hmem, rfl⟩)⟩

theorem faithful_of_harmless (hids : UniqueIds s.world.db)
    (hsel : Selected s.world.db minAccessCount popular)
    (hp : Passed h (taken reads budget 0 popular) s 0 0 done t m)
    (hharmless : Harmless reads budget popular) : Faithful h s budget (some done) m t := by
  have hfits : 0 + popular.length * Cache.maxCacheSize < 2 ^ 64 := by
    have hle : popular.length * Cache.maxCacheSize ≤ 1000 * Cache.maxCacheSize :=
      Nat.mul_le_mul_right _ hsel.length
    have hlimit : 1000 * Cache.maxCacheSize < 2 ^ 64 := by decide
    omega
  have hdue : ∀ p ∈ taken reads budget 0 popular, Due reads budget 0 popular p.1 ∧
      reads p.1 = some p.2 :=
    fun p hmem => ⟨taken_due hfits hharmless.small hmem, (taken_subset hmem).2⟩
  have hsmall : Small (taken reads budget 0 popular) :=
    fun p hmem => hharmless.small _ _ (hdue p hmem).1 (hdue p hmem).2
  have hinserted : m = total (taken reads budget 0 popular) := by
    rw [hp.inserted, hsmall.inserted, Nat.zero_add]
  refine ⟨fun f hf hnot hmarked => ?_, ?_, ?_⟩
  · obtain ⟨x, hmem⟩ := newly_marked hids hsel hp hf hnot hmarked
    have hfound : (filled s.world.cache (taken reads budget 0 popular)).getFileContent f.bucket f.key =
        some x := filled_found hsmall
      (fun p hpm q hqm => hharmless.apart _ _ _ _ (hdue p hpm).1 (hdue q hqm).1 (hdue p hpm).2
        (hdue q hqm).2) (f, x) hmem
    exact ⟨x, hp.read _ hmem, hp.cache ▸ hfound⟩
  · have hcount : done.currentCacheSize = 0 + total (taken reads budget 0 popular) := by
      have hlength : (taken reads budget 0 popular).length ≤ popular.length := length_taken_le 0
      rw [hp.size]
      apply hsmall.counted
      exact Nat.lt_of_le_of_lt (Nat.add_le_add_left (Nat.mul_le_mul_right _ hlength) _) hfits
    rw [hinserted]
    simpa using hcount
  · by_cases hroom : 0 < budget
    · rcases taken_overshoot hroom hsmall hfits with hlt | ⟨p, hmem, hlt⟩
      · rw [hinserted]
        exact .inl (by omega)
      · obtain ⟨hrow, hnot, hmarked⟩ := taken_marked hids hsel hp hmem
        rw [hinserted]
        exact .inr ⟨p.1, hrow, hnot, hmarked, p.2, hp.read p hmem, by omega⟩
    · have hnil : taken reads budget 0 popular = [] := by
        cases popular with
        | nil => rfl
        | cons g rest => exact if_pos (Nat.not_lt.mp hroom)
      rw [hinserted, hnil]
      exact .inl (Nat.zero_le _)

theorem harmless_of_faithful (hids : UniqueIds s.world.db) (hcache : Bounded s.world.cache)
    (hsel : Selected s.world.db minAccessCount popular) (hbudget : budget < 2 ^ 64)
    (hp : Passed h (taken reads budget 0 popular) s 0 0 done t m) {report : Option Preloaded}
    (hfaithful : Faithful h s budget report m t) : Harmless reads budget popular := by
  have hfound : ∀ f x, Due reads budget 0 popular f → reads f = some x →
      t.world.cache.getFileContent f.bucket f.key = some x := by
    intro f x hdue hread
    have hmem : (f, x) ∈ taken reads budget 0 popular := hdue.taken (Nat.le_of_lt hbudget) hread
    obtain ⟨hrow, hnot, hmarked⟩ := taken_marked hids hsel hp hmem
    obtain ⟨y, hbytes, hcached⟩ := hfaithful.cached f hrow hnot hmarked
    have hstored : s.world.bytesAt h f.filePath = some x := hp.read _ hmem
    rw [← hstored, hbytes]
    exact hcached
  have hend : Bounded t.world.cache := by
    rw [hp.cache]
    exact hcache.filled
  refine ⟨fun f x hdue hread => hend _ _ _ (hfound f x hdue hread), ?_⟩
  intro f g x y hf hg hx hy hslot
  have hkey : Cache.contentKey f.bucket f.key = Cache.contentKey g.bucket g.key :=
    Cache.contentKey_eq.mpr hslot
  have hfx := hfound f x hf hx
  rw [Cache.getFileContent, hkey] at hfx
  exact Option.some.inj (hfx.symm.trans (hfound g y hg hy))

end Pass

/-- Every pass that succeeds has its answers from the table and the disk, and it keeps its
promise exactly when the files that are due do no harm. -/
theorem preloaded_iff (hids : UniqueIds s.world.db) (hcache : Bounded s.world.cache)
    (hconfig : s.cacheConfig = some config)
    (hr : preloadPopularFiles.Runs (PreloadWorld.exec h) s (.ok report) t) :
    (∃ popular reads inserted, preloadPopularFiles.RunsWith (counting h) (Answered popular reads)
      (s, 0) (.ok report) (t, inserted)) ∧
    ∀ popular reads inserted, preloadPopularFiles.RunsWith (counting h) (Answered popular reads)
        (s, 0) (.ok report) (t, inserted) →
      (config.preloadEnabled = some true →
        (∃ rank, s.world.db.selectPopularUncached rank (config.minAccessCount.getD 5) 1000 =
          .ok popular) ∧
        ∀ f x, Due reads config.maxCacheSizeBytes 0 popular f → reads f = some x →
          s.world.bytesAt h f.filePath = some x) ∧
      (Faithful h s config.maxCacheSizeBytes report inserted t ↔
        (config.preloadEnabled = some true →
          Harmless reads config.maxCacheSizeBytes popular)) := by
  constructor
  · obtain ⟨inserted, hmetered⟩ := hr.metered 0
    obtain ⟨popular, reads, hwith⟩ := preload_answered hmetered
    exact ⟨popular, reads, inserted, hwith⟩
  · intro popular reads inserted hwith
    have hbudget := maxCacheSizeBytes_lt config
    rcases preload_passed hids hconfig hwith with
      ⟨hdisabled, rfl, rfl, rfl⟩ | ⟨henabled, ⟨rank, hrank⟩, done, rfl, hp⟩
    · refine ⟨fun h => absurd h hdisabled, fun _ h => absurd h hdisabled, fun _ => ?_⟩
      exact ⟨fun f _ hnot hmarked => absurd hmarked hnot, rfl, .inl (Nat.zero_le _)⟩
    · have hsel := selected_of_ok hrank
      refine ⟨fun _ => ⟨⟨rank, hrank⟩, fun f x hdue hread =>
        hp.read _ (hdue.taken (Nat.le_of_lt hbudget) hread)⟩, ?_, ?_⟩
      · intro hfaithful _
        exact harmless_of_faithful hids hcache hsel hbudget hp hfaithful
      · intro hharmless
        exact faithful_of_harmless hids hsel hp (hharmless henabled)

/-! ## One popular file -/

open Sample (host)

def popularRow : StoredFile where
  id := 1
  bucket := "a"
  key := "k"
  filename := "k"
  filePath := "/storage/a/k"
  fileSize := 1
  originalSize := 1
  contentType := "text/plain"
  hashBlake3 := ""
  hashMd5 := ""
  metadata := none
  isCompressed := some false
  isEncrypted := some false
  compressionAlgorithm := none
  encryptionAlgorithm := none
  compressionRatio := none
  uploadTime := some 0
  lastAccessed := some 0
  accessCount := 5
  encryptionKeyId := none
  compressionEnabled := some false
  encryptionEnabled := some false
  compressionLevel := none
  cacheStatus := some "not_cached"
  lastCacheUpdate := none
  cacheHits := some 0
  cachePriority := some 0
  expiresAt := none

/-- The service with its first configuration, and one row whose file has these bytes. -/
def holding (x : Bytes) : PreloadWorld where
  world := { World.empty with
    db := { Database.empty with files := ⟨[popularRow], List.nodup_singleton _⟩, buckets := ["a"] }
    fs := FileTree.empty.putFile (host.target "/storage/a/k") x }
  cacheConfig := some ⟨some 1, some true, some 5⟩

def passed (x : Bytes) : Except StorageError (Option Preloaded) × (PreloadWorld × Nat) :=
  preloadPopularFiles.eval (counting host) calm (holding x, 0)

theorem passed_ok (x : Bytes) : (passed x).1 = .ok (some ⟨1, (0 + x.length) % 2 ^ 64⟩) := by
  with_unfolding_all rfl

theorem passed_cache (x : Bytes) :
    (passed x).2.1.world.cache = Cache.empty.setFileContent "a" "k" x := by
  with_unfolding_all rfl

theorem passed_inserted (x : Bytes) :
    (passed x).2.2 = 0 + if x.length ≤ Cache.maxCacheSize then x.length else 0 := by
  with_unfolding_all rfl

theorem passed_rows (x : Bytes) : (passed x).2.1.world.db.files.rows =
    [Database.setStatus 1 "cached" none 0 popularRow] := by
  with_unfolding_all rfl

theorem holding_uniqueIds (x : Bytes) : UniqueIds (holding x).world.db := by
  intro f hf g hg _
  rw [List.mem_singleton.mp hf, List.mem_singleton.mp hg]

theorem holding_bounded (x : Bytes) : Bounded (holding x).world.cache := by
  intro b k y hy
  simp [holding, World.empty, Cache.empty, Cache.getFileContent] at hy

/-- One byte more than the cache takes. -/
def megabyte : Bytes := List.replicate (Cache.maxCacheSize + 1) 0

/-- The row is marked, the bytes are counted, and the cache is empty. -/
theorem megabyte_not_cached : ∃ t, preloadPopularFiles.Runs (counting host) (holding megabyte, 0)
      (.ok (some ⟨1, 1048577⟩)) (t, 0) ∧
    ¬ Marked (holding megabyte) popularRow.id ∧ Marked t popularRow.id ∧
    t.world.cache.getFileContent "a" "k" = none := by
  have hlength : megabyte.length = 1048577 := List.length_replicate
  have hlarge : ¬ megabyte.length ≤ Cache.maxCacheSize := by
    rw [hlength]
    decide
  have hruns : preloadPopularFiles.Runs (counting host) (holding megabyte, 0) (passed megabyte).1
    (passed megabyte).2 := eval_runs calm _ _
  rw [passed_ok, hlength] at hruns
  refine ⟨(passed megabyte).2.1, ?_, ?_, ?_, ?_⟩
  · have hend : (passed megabyte).2 = ((passed megabyte).2.1, 0) := by
      rw [Prod.ext_iff]
      exact ⟨rfl, (passed_inserted megabyte).trans (by rw [if_neg hlarge])⟩
    rwa [hend] at hruns
  · rintro ⟨f, hf, -, hstatus⟩
    rw [List.mem_singleton.mp hf] at hstatus
    exact absurd hstatus (by decide)
  · refine ⟨Database.setStatus 1 "cached" none 0 popularRow, ?_, rfl, rfl⟩
    rw [Table.mem_def, passed_rows]
    exact List.mem_singleton_self _
  · rw [passed_cache, Cache.setFileContent_large (Nat.not_le.mp hlarge)]
    rfl

theorem preloaded_iff_byte : ∃ t inserted,
    preloadPopularFiles.Runs (counting host) (holding [120], 0) (.ok (some ⟨1, 1⟩)) (t, inserted) ∧
      Faithful host (holding [120]) 1073741824 (some ⟨1, 1⟩) inserted t := by
  have hok : (preloadPopularFiles.eval (PreloadWorld.exec host) calm (holding [120])).1 =
      .ok (some ⟨1, 1⟩) := by
    with_unfolding_all rfl
  have hruns : preloadPopularFiles.Runs (PreloadWorld.exec host) (holding [120]) _ _ :=
    eval_runs calm _ _
  rw [hok] at hruns
  have hbudget : CacheConfig.maxCacheSizeBytes ⟨some 1, some true, some 5⟩ = 1073741824 := by
    decide +kernel
  obtain ⟨⟨popular, reads, inserted, hwith⟩, hall⟩ :=
    preloaded_iff (holding_uniqueIds _) (holding_bounded _) rfl hruns
  obtain ⟨hstore, hiff⟩ := hall popular reads inserted hwith
  obtain ⟨⟨rank, hrank⟩, hdisk⟩ := hstore rfl
  rw [hbudget] at hdisk hiff
  have honly : ∀ f x, Due reads 1073741824 0 popular f → reads f = some x → x = [120] := by
    intro f x hdue hread
    have hbytes := hdisk f x hdue hread
    obtain ⟨before, after, hfiles, -⟩ := hdue
    have hrow := ((selected_of_ok hrank).rows f (by simp [hfiles])).1
    rw [List.mem_singleton.mp hrow] at hbytes
    have hstored : (holding [120]).world.bytesAt host popularRow.filePath = some [120] := by
      with_unfolding_all rfl
    exact Option.some.inj (hbytes.symm.trans hstored)
  refine ⟨_, inserted, hwith.runs, hiff.mpr fun _ => ⟨fun f x hdue hread => ?_, ?_⟩⟩
  · rw [honly f x hdue hread]
    decide
  · intro f g x y hf hg hx hy _
    rw [honly f x hf hx, honly g y hg hy]

end LocalStorage.Proofs.Preloading
