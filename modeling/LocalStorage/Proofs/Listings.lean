import LocalStorage.Proofs.LapsedReads
import LocalStorage.Lib.Paging

namespace LocalStorage.Proofs.Listings
open Lib Lib.Paging StorageManager

/-! # What a listing shows -/

variable {sm : StorageManager} {w u : World} {b : String} {keyPrefix : Option String}
  {rows files : List StoredFile} {infos : List FileInfo} {limit offset : Option Int}

/-- When a row was uploaded, as a listing orders it. -/
def uploaded (f : StoredFile) : Time := f.uploadTime.getD 0

/-- The rows that a listing of the bucket with this prefix is about. -/
def matching (w : World) (b : String) (keyPrefix : Option String) : List StoredFile :=
  w.db.files.rows.filter fun f => f.bucket = b && Database.prefixMatches keyPrefix f

theorem mem_matching {f : StoredFile} : f ∈ matching w b keyPrefix ↔
    f ∈ w.db.files ∧ f.bucket = b ∧ Database.prefixMatches keyPrefix f = true := by
  simp [matching, Table.mem_def]

theorem rows_nodup (w : World) : w.db.files.rows.Nodup := w.db.files.keyed.of_map _

theorem matching_nodup : (matching w b keyPrefix).Nodup := (rows_nodup w).filter _

/-- A row of the table is known by its entry in a listing. -/
theorem ofStored_injOn {f g : StoredFile} (hf : f ∈ w.db.files) (hg : g ∈ w.db.files)
    (h : FileInfo.ofStored f = FileInfo.ofStored g) : f = g := by
  apply Table.eq_of_key hf hg
  have hbucket := congrArg FileInfo.bucket h
  have hkey := congrArg FileInfo.key h
  exact Prod.ext_iff.mpr ⟨hbucket, hkey⟩

/-! ## Orders -/

theorem newestFirst_listing (rank : StoredFile → Nat) (rows : List StoredFile) :
    Listing uploaded rows (Database.newestFirst rank rows) where
  perm := (List.perm_insertionSort _ _).trans (List.perm_insertionSort _ _)
  descending := by
    have htotal : Std.Total (fun f g : StoredFile => g.uploadTime.getD 0 ≤ f.uploadTime.getD 0) :=
      ⟨fun f g => le_total _ _⟩
    have htrans : IsTrans StoredFile (fun f g => g.uploadTime.getD 0 ≤ f.uploadTime.getD 0) :=
      ⟨fun f g h hfg hgh => le_trans hgh hfg⟩
    exact List.pairwise_insertionSort _ _

/-- Any order the sort key allows can be the database's. -/
theorem newestFirst_idxOf (hrows : rows.Nodup) (h : Listing uploaded rows files) :
    Database.newestFirst (fun f => files.idxOf f) rows = files := by
  have hfiles : files.Nodup := h.perm.nodup_iff.mpr hrows
  have hsorted : Database.orderBy (fun f => files.idxOf f) rows = files := by
    have htotal : Std.Total (fun f g : StoredFile => files.idxOf f ≤ files.idxOf g) :=
      ⟨fun f g => le_total _ _⟩
    have htrans : IsTrans StoredFile (fun f g => files.idxOf f ≤ files.idxOf g) :=
      ⟨fun f g h hfg hgh => le_trans hfg hgh⟩
    refine List.Perm.eq_of_pairwise ?_ (List.pairwise_insertionSort _ rows) ?_
      ((List.perm_insertionSort _ _).trans h.perm.symm)
    · intro f g hf hg hfg hgf
      have hmem : f ∈ files := h.perm.mem_iff.mpr ((List.mem_insertionSort _).mp hf)
      exact (List.idxOf_inj hmem).mp (le_antisymm hfg hgf)
    · rw [List.pairwise_iff_getElem]
      intro i j hi hj hij
      dsimp only
      rw [hfiles.idxOf_getElem i hi, hfiles.idxOf_getElem j hj]
      exact le_of_lt hij
  unfold Database.newestFirst
  rw [hsorted]
  exact List.Pairwise.insertionSort_eq h.descending

/-- A listing answers with a page of the matching rows, in an order the sort key allows. -/
theorem listFiles_runs (hlimit : 0 ≤ limit.getD 100) (hoffset : 0 ≤ offset.getD 0) :
    (listFiles b keyPrefix limit offset).Runs (exec sm.host) w (.ok infos) u ↔
      u = w ∧ ∃ files, Listing uploaded (matching w b keyPrefix) files ∧
        infos = ((files.drop (offset.getD 0).toNat).take (limit.getD 100).toNat).map
          FileInfo.ofStored := by
  simp only [listFiles, step_eq, Prog.bind_eq, Prog.act_bind, Prog.ret_bind, Prog.pure_eq,
    Prog.runs_act, exec, LapsedReads.page_runs, Database.selectFiles, Database.page,
    if_neg (Int.not_lt.mpr hlimit), if_neg (Int.not_lt.mpr hoffset), Except.ok.injEq, exists_eq_left']
  constructor
  · rintro ⟨c, -, hu, hinfos⟩
    exact ⟨hu, _, newestFirst_listing c.rank _, hinfos⟩
  · rintro ⟨hu, files, hfiles, hinfos⟩
    refine ⟨{ rank := fun f => files.idxOf f }, rfl, hu, ?_⟩
    rw [hinfos]
    conv_lhs => rw [← newestFirst_idxOf matching_nodup hfiles]
    rfl

/-! ## Page after page -/

/-- The answers to the offsets `0`, `size`, `2 * size` and so on, up to the first empty one,
from a table that stays as it is. -/
structure Paged (sm : StorageManager) (w : World) (b : String) (keyPrefix : Option String)
    (size : Nat) (answers : List (List FileInfo)) : Prop where
  answered : ∀ i (hi : i < answers.length), answers[i] ≠ [] ∧
    (listFiles b keyPrefix (some size) (some (i * size : Nat))).Runs (exec sm.host) w
      (.ok answers[i]) w
  last : (listFiles b keyPrefix (some size) (some (answers.length * size : Nat))).Runs
    (exec sm.host) w (.ok []) w

theorem page_runs {size number : Nat} :
    (listFiles b keyPrefix (some size) (some (number * size : Nat))).Runs (exec sm.host) w
        (.ok infos) w ↔
      ∃ files, Listing uploaded (matching w b keyPrefix) files ∧
        infos = (page size number files).map FileInfo.ofStored := by
  rw [listFiles_runs (Int.natCast_nonneg _) (Int.natCast_nonneg _)]
  simp only [Option.getD_some, Int.toNat_natCast, true_and, page]

theorem le_pages_mul (n : Nat) {size : Nat} (hsize : 0 < size) :
    n ≤ (n + size - 1) / size * size := by
  have hlt := Nat.lt_mul_div_succ (n + size - 1) hsize
  rw [Nat.mul_comm, Nat.succ_mul] at hlt
  omega

/-- A table can be paged through in any orders. -/
theorem paged_of_orders {size : Nat} (hsize : 0 < size) {orders : Nat → List StoredFile}
    (horders : ∀ i, Listing uploaded (matching w b keyPrefix) (orders i)) :
    Paged sm w b keyPrefix size ((List.range (((matching w b keyPrefix).length + size - 1) / size)).map
      fun i => (page size i (orders i)).map FileInfo.ofStored) where
  answered i hi := by
    rw [List.length_map, List.length_range] at hi
    have hmul := (Nat.le_div_iff_mul_le hsize).mp hi
    rw [Nat.succ_mul] at hmul
    rw [List.getElem_map, List.getElem_range]
    refine ⟨?_, page_runs.mpr ⟨orders i, horders i, rfl⟩⟩
    intro hnil
    have hlength := congrArg List.length hnil
    rw [List.length_map, page, List.length_take, List.length_drop, (horders i).perm.length_eq,
      List.length_nil] at hlength
    omega
  last := by
    rw [List.length_map, List.length_range]
    refine page_runs.mpr ⟨orders 0, horders 0, ?_⟩
    rw [page, List.drop_eq_nil_of_le, List.take_nil, List.map_nil]
    rw [(horders 0).perm.length_eq]
    exact le_pages_mul _ hsize

/-- Whatever paging shows comes from one order for each page. -/
theorem Paged.orders {size : Nat} {answers : List (List FileInfo)} (hsize : 0 < size)
    (h : Paged sm w b keyPrefix size answers) :
    (matching w b keyPrefix).length ≤ answers.length * size ∧ ∃ orders : Nat → List StoredFile,
      (∀ i, Listing uploaded (matching w b keyPrefix) (orders i)) ∧
      answers = (List.range answers.length).map
        fun i => (page size i (orders i)).map FileInfo.ofStored := by
  constructor
  · obtain ⟨files, hfiles, hnil⟩ := page_runs.mp h.last
    have hlength := congrArg List.length hnil
    rw [List.length_map, page, List.length_take, List.length_drop, hfiles.perm.length_eq,
      List.length_nil] at hlength
    omega
  · have hpage : ∀ i, ∃ files, Listing uploaded (matching w b keyPrefix) files ∧
        ∀ hi : i < answers.length, answers[i] = (page size i files).map FileInfo.ofStored := by
      intro i
      by_cases hi : i < answers.length
      · obtain ⟨files, hfiles, hinfos⟩ := page_runs.mp (h.answered i hi).2
        exact ⟨files, hfiles, fun _ => hinfos⟩
      · obtain ⟨files, hfiles⟩ := exists_listing uploaded (matching w b keyPrefix)
        exact ⟨files, hfiles, fun hi' => absurd hi' hi⟩
    choose orders horders hanswers using hpage
    refine ⟨orders, horders, List.ext_getElem (by simp) ?_⟩
    intro i hi hi'
    rw [List.getElem_map, List.getElem_range]
    exact hanswers i hi

/-- Two lists of rows of the table with the same entries are the same rows. -/
theorem perm_of_map {xs : List StoredFile} (hxs : ∀ f ∈ xs, f ∈ matching w b keyPrefix)
    (h : (xs.map FileInfo.ofStored).Perm ((matching w b keyPrefix).map FileInfo.ofStored)) :
    xs.Perm (matching w b keyPrefix) := by
  have hinfos : ((matching w b keyPrefix).map FileInfo.ofStored).Nodup := by
    refine matching_nodup.map_on ?_
    intro f hf g hg hfg
    exact ofStored_injOn (mem_matching.mp hf).1 (mem_matching.mp hg).1 hfg
  refine (List.perm_ext_iff_of_nodup ((h.nodup_iff.mpr hinfos).of_map _) matching_nodup).mpr ?_
  intro f
  constructor
  · exact hxs f
  · intro hf
    obtain ⟨g, hg, hfg⟩ := List.mem_map.mp (h.mem_iff.mpr (List.mem_map_of_mem hf))
    rwa [← ofStored_injOn (mem_matching.mp (hxs g hg)).1 (mem_matching.mp hf).1 hfg]

theorem flatten_map_pages {size count : Nat} {orders : Nat → List StoredFile} :
    ((List.range count).map fun i => (page size i (orders i)).map FileInfo.ofStored).flatten =
      ((List.range count).flatMap fun i => page size i (orders i)).map FileInfo.ofStored := by
  rw [List.map_flatMap, List.flatMap_def]

/-- The pages, one after another, are the matching rows, each once and in whatever order each
query breaks its ties, exactly when no rows of one upload time go over the end of a page. -/
theorem pages_partition_iff (sm : StorageManager) (w : World) (b : String)
    (keyPrefix : Option String) {size : Nat} (hsize : 0 < size) :
    (∀ answers, Paged sm w b keyPrefix size answers →
      answers.flatten.Perm ((matching w b keyPrefix).map FileInfo.ofStored)) ↔
      Aligned uploaded (matching w b keyPrefix) size := by
  constructor
  · intro hall
    refine (pages_perm_iff matching_nodup hsize (le_pages_mul _ hsize)).mp ?_
    intro orders horders
    have hflatten := hall _ (paged_of_orders hsize horders)
    rw [flatten_map_pages] at hflatten
    refine perm_of_map ?_ hflatten
    intro f hf
    obtain ⟨i, -, hfi⟩ := List.mem_flatMap.mp hf
    exact (horders i).perm.mem_iff.mp (List.mem_of_mem_drop (List.mem_of_mem_take hfi))
  · intro haligned answers hpaged
    obtain ⟨hcount, orders, horders, hanswers⟩ := hpaged.orders hsize
    rw [hanswers, flatten_map_pages]
    exact ((pages_perm_iff matching_nodup hsize hcount).mpr haligned orders horders).map _

open Sample (manager)

/-- Two keys of one bucket, stored in the same instant. -/
def twins : World :=
  (replay manager [(.storeFile "a" "k" [120] none {} (.error (.io "")), { uuid := 1 }),
    (.storeFile "a" "l" [121] none {} (.error (.io "")), { uuid := 2 })] ([], World.empty)).2

theorem pages_partition_iff_twins :
    (∀ answers, Paged manager twins "a" none 1 answers →
      answers.flatten.Perm ((matching twins "a" none).map FileInfo.ofStored)) ↔
      Aligned uploaded (matching twins "a" none) 1 :=
  pages_partition_iff manager twins "a" none (by decide)

theorem twins_rows : (matching twins "a" none).map (·.key) = ["k", "l"] ∧
    (matching twins "a" none).map uploaded = [0, 0] := by
  decide

/-- One key is shown on both pages, the other on none. -/
theorem twins_repeated : ∃ answers, Paged manager twins "a" none 1 answers ∧
    ¬ answers.flatten.Perm ((matching twins "a" none).map FileInfo.ofStored) := by
  obtain ⟨f, g, hrows⟩ : ∃ f g, matching twins "a" none = [f, g] := List.length_eq_two.mp (by decide)
  obtain ⟨hkeys, htimes⟩ := twins_rows
  simp only [hrows, List.map_cons, List.map_nil, List.cons.injEq, and_true] at hkeys htimes
  have horders : ∀ i, Listing uploaded (matching twins "a" none)
      (if i = 0 then [f, g] else [g, f]) := by
    intro i
    rw [hrows]
    split
    · refine ⟨List.Perm.refl _, ?_⟩
      simp [Descending, htimes]
    · refine ⟨List.Perm.swap f g [], ?_⟩
      simp [Descending, htimes]
  refine ⟨_, paged_of_orders Nat.one_pos horders, ?_⟩
  intro hperm
  rw [flatten_map_pages, hrows] at hperm
  have hnames := hperm.map FileInfo.key
  simp [page, List.range_succ, FileInfo.ofStored, hkeys] at hnames

end LocalStorage.Proofs.Listings
