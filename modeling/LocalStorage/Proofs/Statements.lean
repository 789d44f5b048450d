import LocalStorage.Database

namespace LocalStorage
open Lib

/-- A successful sequence has a successful first part. -/
theorem except_bind_ok {ε α β : Type} {x : Except ε α} {f : α → Except ε β} {b : β} :
    (x >>= f) = .ok b ↔ ∃ a, x = .ok a ∧ f a = .ok b := by
  cases x <;> simp [bind, Except.bind]

namespace Database

variable {db db' : Database} {f : StoredFile} {b k : String}

/-- The trigger touches nothing but the statistics. -/
theorem refreshStats_ok (h : db.refreshStats b = .ok db') :
    db'.files = db.files ∧ db'.buckets = db.buckets ∧ db'.encryptionKeys = db.encryptionKeys := by
  simp only [refreshStats] at h
  split at h
  · simp only [Except.ok.injEq] at h
    simp [h]
  · simp only [except_bind_ok, Except.ok.injEq] at h
    obtain ⟨-, -, -, -, -, -, rfl⟩ := h
    simp

/-! ## The row an upsert leaves -/

section MergeRow
variable (old : Option StoredFile) (f : StoredFile)

@[simp] theorem mergeRow_ident : (mergeRow old f).ident = f.ident := by cases old <;> rfl
@[simp] theorem mergeRow_bucket : (mergeRow old f).bucket = f.bucket := by cases old <;> rfl
@[simp] theorem mergeRow_key : (mergeRow old f).key = f.key := by cases old <;> rfl
@[simp] theorem mergeRow_filePath : (mergeRow old f).filePath = f.filePath := by cases old <;> rfl
@[simp] theorem mergeRow_hashBlake3 : (mergeRow old f).hashBlake3 = f.hashBlake3 := by
  cases old <;> rfl
@[simp] theorem mergeRow_contentType : (mergeRow old f).contentType = f.contentType := by
  cases old <;> rfl
@[simp] theorem mergeRow_isCompressed : (mergeRow old f).isCompressed = f.isCompressed := by
  cases old <;> rfl
@[simp] theorem mergeRow_isEncrypted : (mergeRow old f).isEncrypted = f.isEncrypted := by
  cases old <;> rfl
@[simp] theorem mergeRow_compressed : (mergeRow old f).compressed = f.compressed := by
  cases old <;> rfl
@[simp] theorem mergeRow_encrypted : (mergeRow old f).encrypted = f.encrypted := by
  cases old <;> rfl
@[simp] theorem mergeRow_encryptionAlgorithm :
    (mergeRow old f).encryptionAlgorithm = f.encryptionAlgorithm := by cases old <;> rfl
@[simp] theorem mergeRow_encryptionKeyId :
    (mergeRow old f).encryptionKeyId = f.encryptionKeyId := by cases old <;> rfl
@[simp] theorem mergeRow_expiresAt : (mergeRow old f).expiresAt = f.expiresAt := by
  cases old <;> rfl

end MergeRow

/-! ## The row a counted access leaves -/

section Touch
variable (id : Uuid) (now : Time) (f : StoredFile)

/-- A column that the access counters are no part of. -/
theorem touch_column {α : Type} (column : StoredFile → α)
    (hcolumn : ∀ accessed count, column { f with lastAccessed := accessed, accessCount := count } =
      column f) : column (touch id now f) = column f := by
  unfold touch
  split
  · exact hcolumn _ _
  · rfl

@[simp] theorem touch_id : (touch id now f).id = f.id :=
  touch_column id now f (·.id) fun _ _ => rfl
@[simp] theorem touch_bucket : (touch id now f).bucket = f.bucket :=
  touch_column id now f (·.bucket) fun _ _ => rfl
@[simp] theorem touch_fileSize : (touch id now f).fileSize = f.fileSize :=
  touch_column id now f (·.fileSize) fun _ _ => rfl
@[simp] theorem touch_originalSize : (touch id now f).originalSize = f.originalSize :=
  touch_column id now f (·.originalSize) fun _ _ => rfl
@[simp] theorem touch_hashBlake3 : (touch id now f).hashBlake3 = f.hashBlake3 :=
  touch_column id now f (·.hashBlake3) fun _ _ => rfl
@[simp] theorem touch_hashMd5 : (touch id now f).hashMd5 = f.hashMd5 :=
  touch_column id now f (·.hashMd5) fun _ _ => rfl
@[simp] theorem touch_compressed : (touch id now f).compressed = f.compressed :=
  touch_column id now f (·.compressed) fun _ _ => rfl
@[simp] theorem touch_encrypted : (touch id now f).encrypted = f.encrypted :=
  touch_column id now f (·.encrypted) fun _ _ => rfl
@[simp] theorem touch_expiresAt : (touch id now f).expiresAt = f.expiresAt :=
  touch_column id now f (·.expiresAt) fun _ _ => rfl

end Touch

theorem upsertFile_ok (h : db.upsertFile f = .ok db') :
    db'.files = db.files.put (mergeRow (db.files.find f.ident) f) ∧
      db'.buckets = db.buckets ∧ db'.encryptionKeys = db.encryptionKeys := by
  unfold upsertFile at h
  simp only [except_bind_ok] at h
  obtain ⟨-, -, h⟩ := h
  split at h
  · simp [bind, Except.bind] at h
  · simp only [except_bind_ok] at h
    obtain ⟨-, -, -, -, h⟩ := h
    exact refreshStats_ok h

theorem deleteFileRow_ok (h : db.deleteFileRow b k = .ok db') :
    db'.files = db.files.erase (b, k) ∧ db'.buckets = db.buckets ∧
      db'.encryptionKeys = db.encryptionKeys := by
  unfold deleteFileRow at h
  split at h
  · rename_i hn
    simp only [Except.ok.injEq] at h
    subst h
    exact ⟨(Table.erase_of_find_none hn).symm, rfl, rfl⟩
  · exact refreshStats_ok h

theorem insertBucket_ok (h : db.insertBucket b = .ok db') :
    db'.files = db.files ∧ db'.encryptionKeys = db.encryptionKeys ∧ b ∈ db'.buckets := by
  unfold insertBucket at h
  simp only [except_bind_ok, Except.ok.injEq] at h
  obtain ⟨-, -, rfl⟩ := h
  split
  · rename_i hb
    exact ⟨rfl, rfl, by simpa using hb⟩
  · exact ⟨rfl, rfl, by simp⟩

theorem deleteBucketRow_some (h : db.deleteBucketRow b = some db') :
    b ∈ db.buckets ∧ db'.files = db.files.filter (fun f => f.bucket ≠ b) ∧
      db'.encryptionKeys = db.encryptionKeys := by
  unfold deleteBucketRow at h
  split at h
  · rename_i hb
    simp only [Option.some.injEq] at h
    subst h
    exact ⟨by simpa using hb, rfl, rfl⟩
  · simp at h

/-- Writing the access counters keeps every row but for the counters. -/
theorem updateAccess_ok {id : Uuid} {now : Time} (h : db.updateAccess id now = .ok db') :
    (db'.files = db.files ∨
      db'.files = db.files.update (touch id now) (touch_ident id now)) ∧
      db'.buckets = db.buckets ∧ db'.encryptionKeys = db.encryptionKeys := by
  unfold updateAccess at h
  split at h
  · simp only [Except.ok.injEq] at h
    simp [h]
  · obtain ⟨hf, hb, hk⟩ := refreshStats_ok h
    exact ⟨.inr hf, hb, hk⟩

/-! ## Selections -/

theorem mem_orderBy {rank : StoredFile → Nat} {rows : List StoredFile} :
    f ∈ orderBy rank rows ↔ f ∈ rows := List.mem_insertionSort _

theorem selectFiles_ok {rank : StoredFile → Nat} {keyPrefix : Option String} {limit offset : Int}
    {files : List StoredFile} (h : db.selectFiles rank b keyPrefix limit offset = .ok files) :
    ∀ f ∈ files, f ∈ db.files ∧ f.bucket = b := by
  intro f hf
  unfold selectFiles page at h
  split at h
  · simp at h
  · split at h
    · simp at h
    · obtain rfl := Except.ok.inj h
      have hmem := List.mem_of_mem_drop (List.mem_of_mem_take hf)
      rw [newestFirst, List.mem_insertionSort, mem_orderBy, List.mem_filter] at hmem
      obtain ⟨hrow, hmatch⟩ := hmem
      simp only [Bool.and_eq_true, decide_eq_true_eq] at hmatch
      exact ⟨hrow, hmatch.1⟩

theorem selectFileByHash_some {hash : String} {rank : StoredFile → Nat}
    (h : db.selectFileByHash hash rank = some f) : f ∈ db.files ∧ f.hashBlake3 = hash := by
  have hm := mem_orderBy.mp (List.mem_of_head? h)
  simpa [Table.mem_def] using hm

theorem selectFileByHash_none {hash : String} {rank : StoredFile → Nat}
    (h : db.selectFileByHash hash rank = none) : ∀ f ∈ db.files, f.hashBlake3 ≠ hash := by
  intro f hf heq
  have hm : f ∈ orderBy rank (db.files.rows.filter (·.hashBlake3 = hash)) :=
    mem_orderBy.mpr (by simpa [heq] using Table.mem_def.mp hf)
  rw [List.head?_eq_none_iff.mp h] at hm
  exact absurd hm List.not_mem_nil

theorem mem_selectBucketFiles {rank : StoredFile → Nat} {path : String} :
    (k, path) ∈ db.selectBucketFiles b rank ↔
      ∃ f ∈ db.files, f.bucket = b ∧ f.key = k ∧ f.filePath = path := by
  simp only [selectBucketFiles, List.mem_map, mem_orderBy, List.mem_filter, decide_eq_true_eq,
    Prod.mk.injEq, Table.mem_def]
  exact ⟨fun ⟨f, ⟨hf, hb⟩, hk, hp⟩ => ⟨f, hf, hb, hk, hp⟩,
    fun ⟨f, hf, hb, hk, hp⟩ => ⟨f, ⟨hf, hb⟩, hk, hp⟩⟩

theorem mem_selectExpired {now : Time} {rank : StoredFile → Nat} :
    (b, k) ∈ db.selectExpired now rank ↔
      ∃ f, db.files.find (b, k) = some f ∧ expired now f = true := by
  simp only [selectExpired, List.mem_map, mem_orderBy, List.mem_filter]
  constructor
  · rintro ⟨f, ⟨hf, hexp⟩, hident⟩
    exact ⟨f, Table.find_eq_some.mpr ⟨hf, hident⟩, hexp⟩
  · rintro ⟨f, hf, hexp⟩
    exact ⟨f, ⟨Table.find_mem hf, hexp⟩, Table.find_key hf⟩

theorem find_names (h : db.files.find (b, k) = some f) : f.bucket = b ∧ f.key = k :=
  Prod.ext_iff.mp (Table.find_key h)

theorem key_mem_selectBucketFiles {rank : StoredFile → Nat} :
    k ∈ (db.selectBucketFiles b rank).map Prod.fst ↔ ∃ f ∈ db.files, f.ident = (b, k) := by
  simp only [List.mem_map, Prod.exists, exists_and_right, exists_eq_right, mem_selectBucketFiles]
  exact ⟨fun ⟨_, f, hf, hb, hk, _⟩ => ⟨f, hf, Prod.ext hb hk⟩,
    fun ⟨f, hf, hi⟩ => ⟨_, f, hf, congrArg Prod.fst hi, congrArg Prod.snd hi, rfl⟩⟩

theorem countOtherReferences_eq_zero {path : String} :
    db.countOtherReferences path b k = 0 ↔
      ∀ f ∈ db.files, f.filePath = path → f.ident = (b, k) := by
  simp [countOtherReferences, List.filter_eq_nil_iff, Table.mem_def]

theorem countReferences_eq_zero {path : String} :
    db.countReferences path = 0 ↔ ∀ f ∈ db.files, f.filePath ≠ path := by
  simp [countReferences, List.filter_eq_nil_iff, Table.mem_def]

end Database

end LocalStorage
