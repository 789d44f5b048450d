import Mathlib.Algebra.Order.BigOperators.Group.List
import LocalStorage.Stats
import LocalStorage.Proofs.Listings

namespace LocalStorage.Proofs.BucketFigures
open Lib StorageManager

/-! # The figures of the statistics -/

inductive Figure where
  | files
  | size
  | compressed
  | encrypted
deriving DecidableEq, Repr

/-- What one row adds to it. -/
def Figure.of : Figure → StoredFile → Int
  | files, _ => 1
  | size, f => f.fileSize
  | compressed, f => if f.compressed then 1 else 0
  | encrypted, f => if f.encrypted then 1 else 0

/-- Where the statistics report it. -/
def reported (s : StorageStats) : Figure → Int
  | .files => s.totalFiles
  | .size => s.totalSize
  | .compressed => s.compressedFiles
  | .encrypted => s.encryptedFiles

/-- The figure of a list of rows. -/
def total (fig : Figure) (rows : List StoredFile) : Int := (rows.map fig.of).sum

variable {db : Database} {rank : StoredFile → Nat} {now : Time} {b : String} {fig : Figure}
  {rows : List StoredFile} {names : List String}

def bucketRows (db : Database) (b : String) : List StoredFile := db.files.rows.filter (·.bucket = b)

/-- A sum that a signed number of 64 bits holds. -/
def InRange (n : Int) : Prop := -2 ^ 63 ≤ n ∧ n < 2 ^ 63

/-- The statistics of the bucket report each figure of its rows. -/
def Exact (db : Database) (rank : StoredFile → Nat) (now : Time) (b : String) : Prop :=
  ∃ s, getBucketStats db rank now b = .ok s ∧ ∀ fig, reported s fig = total fig (bucketRows db b)

/-- No compressed and no encrypted row comes after the first thousand of the listing. -/
def NoneBeyond (db : Database) (rank : StoredFile → Nat) (b : String) : Prop :=
  ∀ f ∈ (Database.newestFirst rank (bucketRows db b)).drop 1000,
    f.compressed = false ∧ f.encrypted = false

theorem total_append (xs ys : List StoredFile) : total fig (xs ++ ys) = total fig xs + total fig ys := by
  simp [total]

theorem total_perm {xs ys : List StoredFile} (h : xs.Perm ys) : total fig xs = total fig ys :=
  (h.map _).sum_eq

theorem total_files : total .files rows = rows.length := by
  induction rows with
  | nil => rfl
  | cons f rows ih =>
    simp only [total, Figure.of, List.map_cons, List.sum_cons, List.length_cons] at ih ⊢
    omega

theorem sum_flag (p : StoredFile → Bool) :
    (rows.map fun f => if p f then (1 : Int) else 0).sum = (rows.filter p).length := by
  induction rows with
  | nil => rfl
  | cons f rows ih =>
    simp only [List.map_cons, List.sum_cons, List.filter_cons, ih]
    split
    · rw [List.length_cons]
      omega
    · omega

theorem total_compressed : total .compressed rows = (rows.filter (·.compressed)).length :=
  sum_flag _

theorem total_encrypted : total .encrypted rows = (rows.filter (·.encrypted)).length := sum_flag _

theorem parsedSum_of_inRange {n : Int} (h : InRange n) : Database.parsedSum n = n := if_pos h

/-- A figure that the rows beyond add nothing to. -/
theorem total_flag_eq_zero (p : StoredFile → Bool) :
    ((rows.filter p).length : Int) = 0 ↔ ∀ f ∈ rows, p f = false := by
  rw [Int.natCast_eq_zero, List.length_eq_zero_iff, List.filter_eq_nil_iff]
  simp only [Bool.not_eq_true]

/-! ## One bucket -/

/-- The rows that the statistics count, and the rows they leave out. -/
def counted (db : Database) (rank : StoredFile → Nat) (b : String) : List StoredFile :=
  (Database.newestFirst rank (bucketRows db b)).take 1000

def beyond (db : Database) (rank : StoredFile → Nat) (b : String) : List StoredFile :=
  (Database.newestFirst rank (bucketRows db b)).drop 1000

theorem total_split : total fig (bucketRows db b) =
    total fig (counted db rank b) + total fig (beyond db rank b) := by
  rw [← total_append, counted, beyond, List.take_append_drop]
  exact total_perm (Listings.newestFirst_listing rank _).perm.symm

/-- What the statistics report: the whole bucket in the first two figures, the rows they count
in the others. -/
theorem getBucketStats_ok (db : Database) (rank : StoredFile → Nat) (now : Time) (b : String) :
    ∃ s, getBucketStats db rank now b = .ok s ∧
      reported s .files = total .files (bucketRows db b) ∧
      reported s .size = Database.parsedSum (total .size (bucketRows db b)) ∧
      reported s .compressed = total .compressed (counted db rank b) ∧
      reported s .encrypted = total .encrypted (counted db rank b) := by
  have hfiles : db.selectFiles rank b none 1000 0 = .ok (counted db rank b) := by
    have hall : (fun f : StoredFile => decide (f.bucket = b) && Database.prefixMatches none f) =
        fun f => decide (f.bucket = b) := by
      funext f
      simp only [Database.prefixMatches, Bool.and_true]
    unfold Database.selectFiles
    rw [hall]
    rfl
  refine ⟨_, by simp only [getBucketStats, hfiles]; rfl, ?_, ?_, ?_, ?_⟩
  · rw [total_files]
    rfl
  · rfl
  · rw [total_compressed]
    rfl
  · rw [total_encrypted]
    rfl

theorem noneBeyond_iff : NoneBeyond db rank b ↔
    total .compressed (beyond db rank b) = 0 ∧ total .encrypted (beyond db rank b) = 0 := by
  rw [total_compressed, total_encrypted, total_flag_eq_zero, total_flag_eq_zero]
  exact forall₂_and

theorem noneBeyond_of_exact (h : Exact db rank now b) : NoneBeyond db rank b := by
  obtain ⟨s, hs, -, -, hcompressed, hencrypted⟩ := getBucketStats_ok db rank now b
  obtain ⟨s', hs', hexact⟩ := h
  rw [hs, Except.ok.injEq] at hs'
  subst hs'
  have hsplit : ∀ fig, total fig (bucketRows db b) =
      total fig (counted db rank b) + total fig (beyond db rank b) := fun _ => total_split
  have hc := hexact .compressed
  have he := hexact .encrypted
  rw [hcompressed, hsplit] at hc
  rw [hencrypted, hsplit] at he
  rw [noneBeyond_iff]
  omega

theorem exact_iff_noneBeyond (hsize : InRange (total .size (bucketRows db b))) :
    Exact db rank now b ↔ NoneBeyond db rank b := by
  refine ⟨noneBeyond_of_exact, ?_⟩
  intro hnone
  obtain ⟨hc, he⟩ := noneBeyond_iff.mp hnone
  obtain ⟨s, hs, hfiles, hbytes, hcompressed, hencrypted⟩ := getBucketStats_ok db rank now b
  refine ⟨s, hs, ?_⟩
  intro fig
  have hsplit : total fig (bucketRows db b) =
      total fig (counted db rank b) + total fig (beyond db rank b) := total_split
  cases fig with
  | files => exact hfiles
  | size => rw [hbytes, parsedSum_of_inRange hsize]
  | compressed => rw [hcompressed, hsplit, hc, Int.add_zero]
  | encrypted => rw [hencrypted, hsplit, he, Int.add_zero]

/-! ## All buckets -/

/-- The names are those of all buckets: none twice, and every row's among them. -/
structure Covers (db : Database) (names : List String) : Prop where
  nodup : names.Nodup
  mem : ∀ f ∈ db.files, f.bucket ∈ names

theorem total_filter_cons (hb : b ∉ names) :
    total fig (rows.filter (fun f => f.bucket ∈ b :: names)) =
      total fig (rows.filter (·.bucket = b)) + total fig (rows.filter (·.bucket ∈ names)) := by
  induction rows with
  | nil => rfl
  | cons f rows ih =>
    simp only [total, List.mem_cons, Bool.decide_or] at ih
    by_cases hf : f.bucket = b
    · have hnot : f.bucket ∉ names := hf ▸ hb
      simp [total, hf, hb, ih, add_assoc]
    · by_cases hmem : f.bucket ∈ names
      · simp [total, hf, hmem, ih, add_left_comm]
      · simp [total, hf, hmem, ih]

/-- The buckets' figures add up to the table's. -/
theorem sum_total (h : Covers db names) :
    (names.map fun b => total fig (bucketRows db b)).sum = total fig db.files.rows := by
  have hsum : ∀ names : List String, names.Nodup →
      (names.map fun b => total fig (bucketRows db b)).sum =
        total fig (db.files.rows.filter (·.bucket ∈ names)) := by
    intro names hnodup
    induction names with
    | nil => simp [total]
    | cons b names ih =>
      obtain ⟨hb, hnames⟩ := List.nodup_cons.mp hnodup
      rw [List.map_cons, List.sum_cons, ih hnames, total_filter_cons hb]
      rfl
  rw [hsum names h.nodup, List.filter_eq_self.mpr]
  intro f hf
  exact decide_eq_true (h.mem f hf)

theorem reported_totalStats (hsize : InRange (total .size db.files.rows)) (fig : Figure) :
    reported (db.getTotalStats now) fig = total fig db.files.rows := by
  cases fig with
  | files => exact total_files.symm
  | size => exact parsedSum_of_inRange hsize
  | compressed => exact total_compressed.symm
  | encrypted => exact total_encrypted.symm

/-- The figures reported for the buckets add up to the ones reported for the whole table. -/
def SumsAgree (db : Database) (ranks : String → StoredFile → Nat) (now : Time)
    (names : List String) : Prop :=
  ∀ stats : String → StorageStats,
    (∀ b ∈ names, getBucketStats db (ranks b) now b = .ok (stats b)) →
      ∀ fig, (names.map fun b => reported (stats b) fig).sum = reported (db.getTotalStats now) fig

theorem eq_zero_of_sum {g : String → Int} (hnonneg : ∀ b, 0 ≤ g b) (h : (names.map g).sum = 0) :
    ∀ b ∈ names, g b = 0 := by
  induction names with
  | nil =>
    intro b hb
    cases hb
  | cons c names ih =>
    rw [List.map_cons, List.sum_cons] at h
    have hrest : 0 ≤ (names.map g).sum := by
      apply List.sum_nonneg
      intro n hn
      obtain ⟨b, -, rfl⟩ := List.mem_map.mp hn
      exact hnonneg b
    have hc := hnonneg c
    intro b hb
    rcases List.mem_cons.mp hb with rfl | hb
    · omega
    · exact ih (by omega) b hb

/-- A figure reported from the counted rows adds up only where nothing lies beyond them. -/
theorem beyond_eq_zero {ranks : String → StoredFile → Nat} (hcovers : Covers db names)
    (hnonneg : ∀ rows, 0 ≤ total fig rows)
    (h : (names.map fun b => total fig (counted db (ranks b) b)).sum = total fig db.files.rows) :
    ∀ b ∈ names, total fig (beyond db (ranks b) b) = 0 := by
  apply eq_zero_of_sum (fun b => hnonneg _)
  have hsplit : (names.map fun b => total fig (bucketRows db b)).sum =
      (names.map fun b => total fig (counted db (ranks b) b)).sum +
        (names.map fun b => total fig (beyond db (ranks b) b)).sum := by
    rw [← List.sum_map_add]
    congr 2
    funext b
    exact total_split
  rw [sum_total hcovers] at hsplit
  omega

theorem sumsAgree_iff {ranks : String → StoredFile → Nat} (hcovers : Covers db names)
    (hsizes : ∀ b ∈ names, InRange (total .size (bucketRows db b)))
    (hsize : InRange (total .size db.files.rows)) :
    SumsAgree db ranks now names ↔ ∀ b ∈ names, NoneBeyond db (ranks b) b := by
  constructor
  · intro hagree b hb
    choose stats hstats hfiles hbytes hcompressed hencrypted using
      fun b => getBucketStats_ok db (ranks b) now b
    have hsums := hagree stats fun b _ => hstats b
    rw [noneBeyond_iff]
    constructor
    · apply beyond_eq_zero hcovers _ _ b hb
      · intro rows
        rw [total_compressed]
        exact Int.natCast_nonneg _
      · rw [← reported_totalStats hsize .compressed, ← hsums .compressed]
        simp only [hcompressed]
    · apply beyond_eq_zero hcovers _ _ b hb
      · intro rows
        rw [total_encrypted]
        exact Int.natCast_nonneg _
      · rw [← reported_totalStats hsize .encrypted, ← hsums .encrypted]
        simp only [hencrypted]
  · intro hnone stats hstats fig
    rw [reported_totalStats hsize, ← sum_total hcovers]
    congr 1
    apply List.map_congr_left
    intro b hb
    have hexact : Exact db (ranks b) now b := (exact_iff_noneBeyond (hsizes b hb)).mpr (hnone b hb)
    obtain ⟨s, hs, hexact⟩ := hexact
    rw [hstats b hb, Except.ok.injEq] at hs
    rw [hs, hexact]

/-- The statistics of a bucket are exact, in whatever order the database lists it, exactly when
no compressed and no encrypted row comes after the first thousand; and that for every bucket is
what makes them add up to the statistics of the whole table. -/
theorem bucket_figures_iff (db : Database) (ranks : String → StoredFile → Nat) (now : Time)
    (names : List String) (hcovers : Covers db names)
    (hsizes : ∀ b ∈ names, InRange (total .size (bucketRows db b)))
    (hsize : InRange (total .size db.files.rows)) :
    (∀ b ∈ names, Exact db (ranks b) now b ↔ NoneBeyond db (ranks b) b) ∧
    (SumsAgree db ranks now names ↔ ∀ b ∈ names, NoneBeyond db (ranks b) b) :=
  ⟨fun b hb => exact_iff_noneBeyond (hsizes b hb), sumsAgree_iff hcovers hsizes hsize⟩

theorem bucket_figures_iff_twins :
    (∀ b ∈ ["a"], Exact Listings.twins.db (fun _ => 0) 5 b ↔ NoneBeyond Listings.twins.db (fun _ => 0) b) ∧
    (SumsAgree Listings.twins.db (fun _ _ => 0) 5 ["a"] ↔
      ∀ b ∈ ["a"], NoneBeyond Listings.twins.db (fun _ => 0) b) :=
  bucket_figures_iff Listings.twins.db (fun _ _ => 0) 5 ["a"]
    ⟨by decide, show ∀ f ∈ Listings.twins.db.files.rows, f.bucket ∈ ["a"] by decide⟩
    (by unfold InRange; decide) (by unfold InRange; decide)

/-! ## A bucket of a thousand and one files -/

/-- The files get older, and the oldest one is compressed. -/
def rowAt (i : Nat) : StoredFile :=
  { Sample.manager.freshFile "a" "k" [120] none {} false 1 [120] false 0 0 with
    key := String.ofList (List.replicate (i + 1) 'a')
    uploadTime := some (1000 - i)
    isCompressed := some (i = 1000) }

theorem rowAt_bucket (i : Nat) : (rowAt i).bucket = "a" := rfl

theorem rowAt_compressed (i : Nat) : (rowAt i).compressed = decide (i = 1000) := rfl

theorem rowAt_keyed : (((List.range 1001).map rowAt).map StoredFile.ident).Nodup := by
  rw [List.map_map]
  refine List.nodup_range.map ?_
  intro i j h
  have hkey := congrArg (fun p => p.2.toList.length) h
  simpa [rowAt, StoredFile.ident] using hkey

def wide : Database :=
  { Database.empty with files := ⟨(List.range 1001).map rowAt, rowAt_keyed⟩, buckets := ["a"] }

theorem wide_listed : Database.newestFirst (fun _ => 0) (bucketRows wide "a") =
    (List.range 1001).map rowAt := by
  have hrows : bucketRows wide "a" = (List.range 1001).map rowAt := by
    simp only [bucketRows, wide]
    rw [List.filter_eq_self]
    intro f hf
    obtain ⟨i, -, rfl⟩ := List.mem_map.mp hf
    exact decide_eq_true (rowAt_bucket i)
  have hanyOrder : Database.orderBy (fun _ => 0) ((List.range 1001).map rowAt) =
      (List.range 1001).map rowAt :=
    List.Pairwise.insertionSort_eq (List.pairwise_of_forall fun _ _ => Nat.le_refl 0)
  rw [hrows, Database.newestFirst, hanyOrder]
  apply List.Pairwise.insertionSort_eq
  rw [List.pairwise_map]
  refine List.pairwise_lt_range.imp ?_
  intro i j hij
  simp only [rowAt, Option.getD_some]
  exact Int.sub_le_sub_left (Int.ofNat_le.mpr (Nat.le_of_lt hij)) 1000

/-- The one compressed file is not counted. -/
theorem wide_not_exact : ¬ Exact wide (fun _ => 0) 0 "a" := by
  intro hexact
  have hmem : rowAt 1000 ∈ (Database.newestFirst (fun _ => 0) (bucketRows wide "a")).drop 1000 := by
    rw [wide_listed, ← List.map_drop]
    apply List.mem_map_of_mem
    rw [List.mem_drop_iff_getElem]
    exact ⟨0, by simp, by simp⟩
  have hplain := (noneBeyond_of_exact hexact (rowAt 1000) hmem).1
  rw [rowAt_compressed, decide_eq_true rfl] at hplain
  cases hplain

end LocalStorage.Proofs.BucketFigures
