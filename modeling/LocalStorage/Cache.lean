import LocalStorage.Models

namespace LocalStorage

/-- Both backends keep bytes under string keys; metadata and content differ in the prefix
of the key. -/
structure Cache where
  metadata : String → Option StoredFile
  content : String → Option Bytes

namespace Cache

def empty : Cache := ⟨fun _ => none, fun _ => none⟩

def metadataKey (bucket key : String) : String := "file:" ++ bucket ++ ":" ++ key
def contentKey (bucket key : String) : String := "content:" ++ bucket ++ ":" ++ key

/-- Content above 1 MiB is not cached. -/
def maxCacheSize : Nat := 1024 * 1024

variable (c : Cache)

def getFileMetadata (bucket key : String) : Option StoredFile := c.metadata (metadataKey bucket key)
def getFileContent (bucket key : String) : Option Bytes := c.content (contentKey bucket key)

def setFileMetadata (bucket key : String) (file : StoredFile) : Cache :=
  { c with metadata := fun k => if k = metadataKey bucket key then some file else c.metadata k }

/-- Oversized content is skipped; whatever was cached under the key stays. -/
def setFileContent (bucket key : String) (content : Bytes) : Cache :=
  if maxCacheSize < content.length then c
  else { c with content := fun k => if k = contentKey bucket key then some content else c.content k }

def invalidateFile (bucket key : String) : Cache :=
  { metadata := fun k => if k = metadataKey bucket key then none else c.metadata k
    content := fun k => if k = contentKey bucket key then none else c.content k }

/-- Drop the entries of several keys of one bucket. -/
def invalidateFiles (bucket : String) (keys : List String) : Cache :=
  keys.foldl (fun c key => c.invalidateFile bucket key) c

/-- The backend lets go of entries by itself: size pressure and time to live. -/
def evict (gone : String → Bool) : Cache :=
  { metadata := fun k => if gone k then none else c.metadata k
    content := fun k => if gone k then none else c.content k }

/-- Two pairs share their cache entries when the joined keys agree. -/
def SameSlot (b k b' k' : String) : Prop := b ++ ":" ++ k = b' ++ ":" ++ k'

instance (b k b' k' : String) : Decidable (SameSlot b k b' k') :=
  inferInstanceAs (Decidable (_ = _))

theorem metadataKey_eq {b k b' k' : String} :
    metadataKey b k = metadataKey b' k' ↔ SameSlot b k b' k' := by
  simp only [metadataKey, SameSlot, String.append_assoc]
  exact String.append_right_inj _

theorem contentKey_eq {b k b' k' : String} :
    contentKey b k = contentKey b' k' ↔ SameSlot b k b' k' := by
  simp only [contentKey, SameSlot, String.append_assoc]
  exact String.append_right_inj _

/-- Bucket names without a colon make the cache keys unambiguous. -/
theorem SameSlot.eq {b k b' k' : String} (hb : ':' ∉ b.toList) (hb' : ':' ∉ b'.toList)
    (h : SameSlot b k b' k') : b = b' ∧ k = k' := by
  have h' := congrArg String.toList h
  simp only [String.toList_append] at h'
  have hc : ":".toList = [':'] := rfl
  rw [hc, List.append_assoc, List.append_assoc, List.singleton_append, List.singleton_append] at h'
  have key : ∀ l l' r r' : List Char, ':' ∉ l → ':' ∉ l' →
      l ++ ':' :: r = l' ++ ':' :: r' → l = l' ∧ r = r' := by
    intro l
    induction l with
    | nil =>
      intro l' r r' _ hl' he
      cases l' with
      | nil => simpa using he
      | cons x l' =>
        simp only [List.nil_append, List.cons_append, List.cons.injEq] at he
        exact absurd (by simp [← he.1]) hl'
    | cons x l ih =>
      intro l' r r' hl hl' he
      cases l' with
      | nil =>
        simp only [List.nil_append, List.cons_append, List.cons.injEq] at he
        exact absurd (by simp [he.1]) hl
      | cons y l' =>
        simp only [List.cons_append, List.cons.injEq] at he
        obtain ⟨rfl, he⟩ := he
        obtain ⟨rfl, rfl⟩ := ih l' r r' (fun hm => hl (List.mem_cons_of_mem _ hm))
          (fun hm => hl' (List.mem_cons_of_mem _ hm)) he
        exact ⟨rfl, rfl⟩
  obtain ⟨hl, hr⟩ := key _ _ _ _ hb hb' h'
  exact ⟨String.toList_inj.mp hl, String.toList_inj.mp hr⟩

theorem SameSlot.refl (b k : String) : SameSlot b k b k := rfl

/-- A pair of names without a colon shares its cache entries with no other pair. -/
theorem SameSlot.eq_of_plain {b k b' k' : String} (hb : ':' ∉ b.toList) (hk : ':' ∉ k.toList)
    (h : SameSlot b' k' b k) : b' = b ∧ k' = k := by
  refine h.eq ?_ hb
  intro hb'
  have hcount := congrArg (fun s => s.toList.count ':') h
  simp only [String.toList_append, List.count_append, List.count_eq_zero.mpr hb,
    List.count_eq_zero.mpr hk] at hcount
  have hpos : 0 < b'.toList.count ':' := List.count_pos_iff.mpr hb'
  omega

variable {c}

@[simp] theorem setFileMetadata_content (b k : String) (f : StoredFile) :
    (c.setFileMetadata b k f).content = c.content := rfl

@[simp] theorem setFileContent_metadata (b k : String) (x : Bytes) :
    (c.setFileContent b k x).metadata = c.metadata := by
  unfold setFileContent
  split <;> rfl

@[simp] theorem getFileContent_setFileMetadata (b k : String) (f : StoredFile) (b' k' : String) :
    (c.setFileMetadata b k f).getFileContent b' k' = c.getFileContent b' k' := rfl

@[simp] theorem getFileMetadata_setFileContent (b k : String) (x : Bytes) (b' k' : String) :
    (c.setFileContent b k x).getFileMetadata b' k' = c.getFileMetadata b' k' := by
  simp [getFileMetadata]

theorem getFileMetadata_setFileMetadata (b k : String) (f : StoredFile) (b' k' : String) :
    (c.setFileMetadata b k f).getFileMetadata b' k' =
      if SameSlot b' k' b k then some f else c.getFileMetadata b' k' := by
  simp [getFileMetadata, setFileMetadata, metadataKey_eq]

theorem getFileContent_setFileContent {b k : String} {x : Bytes}
    (hx : x.length ≤ maxCacheSize) (b' k' : String) :
    (c.setFileContent b k x).getFileContent b' k' =
      if SameSlot b' k' b k then some x else c.getFileContent b' k' := by
  simp [getFileContent, setFileContent, Nat.not_lt.mpr hx, contentKey_eq]

/-- Whatever its size, content goes into its own slot only. -/
theorem getFileContent_setFileContent_ne {b k b' k' : String} (x : Bytes)
    (h : ¬ SameSlot b' k' b k) :
    (c.setFileContent b k x).getFileContent b' k' = c.getFileContent b' k' := by
  unfold setFileContent
  split
  · rfl
  · simp [getFileContent, contentKey_eq, h]

theorem setFileContent_large {b k : String} {x : Bytes} (hx : maxCacheSize < x.length) :
    c.setFileContent b k x = c := if_pos hx

theorem getFileMetadata_invalidateFile (b k b' k' : String) :
    (c.invalidateFile b k).getFileMetadata b' k' =
      if SameSlot b' k' b k then none else c.getFileMetadata b' k' := by
  simp [getFileMetadata, invalidateFile, metadataKey_eq]

theorem getFileContent_invalidateFile (b k b' k' : String) :
    (c.invalidateFile b k).getFileContent b' k' =
      if SameSlot b' k' b k then none else c.getFileContent b' k' := by
  simp [getFileContent, invalidateFile, contentKey_eq]

/-- What is left after an eviction was there before. -/
theorem getFileMetadata_of_evict {gone : String → Bool} {b k : String} {f : StoredFile}
    (h : (c.evict gone).getFileMetadata b k = some f) : c.getFileMetadata b k = some f := by
  simp only [getFileMetadata, evict] at h ⊢
  split at h
  · simp at h
  · exact h

theorem getFileContent_of_evict {gone : String → Bool} {b k : String} {x : Bytes}
    (h : (c.evict gone).getFileContent b k = some x) : c.getFileContent b k = some x := by
  simp only [getFileContent, evict] at h ⊢
  split at h
  · simp at h
  · exact h

theorem getFileMetadata_invalidateFiles (b : String) (ks : List String) (b' k' : String) :
    (c.invalidateFiles b ks).getFileMetadata b' k' =
      if ∃ k ∈ ks, SameSlot b' k' b k then none else c.getFileMetadata b' k' := by
  induction ks generalizing c with
  | nil => simp [invalidateFiles]
  | cons k ks ih =>
    simp only [invalidateFiles, List.foldl_cons] at ih ⊢
    rw [ih, getFileMetadata_invalidateFile]
    by_cases h : SameSlot b' k' b k <;> simp [h]

theorem getFileContent_invalidateFiles (b : String) (ks : List String) (b' k' : String) :
    (c.invalidateFiles b ks).getFileContent b' k' =
      if ∃ k ∈ ks, SameSlot b' k' b k then none else c.getFileContent b' k' := by
  induction ks generalizing c with
  | nil => simp [invalidateFiles]
  | cons k ks ih =>
    simp only [invalidateFiles, List.foldl_cons] at ih ⊢
    rw [ih, getFileContent_invalidateFile]
    by_cases h : SameSlot b' k' b k <;> simp [h]

end Cache

end LocalStorage
