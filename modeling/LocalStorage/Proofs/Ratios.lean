import LocalStorage.Sample
import LocalStorage.Proofs.OneSource

namespace LocalStorage.Proofs.Ratios
open Lib Database StorageManager OneSource

/-! # The ratio the statistics trigger computes -/

def storedSize (rows : List StoredFile) : Int := (rows.map (·.fileSize)).sum

/-- The size a row is compared with: as it came when it is compressed, as stored otherwise. -/
def baseSize (f : StoredFile) : Int := if f.compressed then f.originalSize else f.fileSize

def originalSize (rows : List StoredFile) : Int := (rows.map baseSize).sum

/-- What is stored exceeds what came in by less than half a ten-thousandth. -/
def Balanced (rows : List StoredFile) : Prop :=
  originalSize rows = 0 ∨
    20000 * (storedSize rows - originalSize rows) < originalSize rows

instance (rows : List StoredFile) : Decidable (Balanced rows) :=
  inferInstanceAs (Decidable (_ ∨ _))

/-- Sizes are not negative. -/
def Sized (f : StoredFile) : Prop := 0 ≤ f.fileSize ∧ 0 ≤ f.originalSize

/-! ## Rounding -/

/-- A negative ratio rounds to zero from less than half a unit. -/
theorem tenThousandths_nonneg_iff {s d : Int} (hd : 0 < d) :
    0 ≤ tenThousandths (d - s) d ↔ 20000 * (s - d) < d := by
  unfold tenThousandths
  split
  · rename_i h
    have hpos : 0 ≤ (20000 * (d - s) + d) / (2 * d) := Int.ediv_nonneg (by omega) (by omega)
    exact iff_of_true hpos (by omega)
  · rename_i h
    have hlow : 0 ≤ (20000 * -(d - s) + d) / (2 * d) := Int.ediv_nonneg (by omega) (by omega)
    have hzero : (20000 * -(d - s) + d) / (2 * d) < 1 ↔ 20000 * -(d - s) + d < 1 * (2 * d) :=
      Int.ediv_lt_iff_lt_mul (by omega)
    constructor
    · intro hn
      have := hzero.mp (by omega)
      omega
    · intro hs
      have := hzero.mpr (by omega)
      omega

theorem tenThousandths_le {s d : Int} (hd : 0 < d) (hs : 0 ≤ s) :
    tenThousandths (d - s) d ≤ 10000 := by
  unfold tenThousandths
  split
  · have hlt : (20000 * (d - s) + d) / (2 * d) < 10001 ↔
        20000 * (d - s) + d < 10001 * (2 * d) := Int.ediv_lt_iff_lt_mul (by omega)
    have := hlt.mpr (by omega)
    omega
  · have hlow : 0 ≤ (20000 * -(d - s) + d) / (2 * d) := Int.ediv_nonneg (by omega) (by omega)
    omega

/-! ## Sums over rows -/

theorem storedSize_nonneg {rows : List StoredFile} (h : ∀ f ∈ rows, Sized f) :
    0 ≤ storedSize rows := by
  induction rows with
  | nil => simp [storedSize]
  | cons f rows ih =>
    have hrest := ih fun g hg => h g (List.mem_cons_of_mem _ hg)
    have hf := (h f (by simp)).1
    simp only [storedSize, List.map_cons, List.sum_cons] at hrest ⊢
    omega

theorem baseSize_nonneg {f : StoredFile} (h : Sized f) : 0 ≤ baseSize f := by
  unfold baseSize
  split
  · exact h.2
  · exact h.1

theorem originalSize_nonneg {rows : List StoredFile} (h : ∀ f ∈ rows, Sized f) :
    0 ≤ originalSize rows := by
  induction rows with
  | nil => simp [originalSize]
  | cons f rows ih =>
    have hrest := ih fun g hg => h g (List.mem_cons_of_mem _ hg)
    have hf := baseSize_nonneg (h f (by simp))
    simp only [originalSize, List.map_cons, List.sum_cons] at hrest ⊢
    omega

/-- Where no compressed row is stored larger than it came, any selection of rows is
balanced. -/
theorem balanced_of_saved {rows : List StoredFile} (h : ∀ f ∈ rows, Sized f)
    (hsaved : ∀ f ∈ rows, f.compressed = true → f.fileSize ≤ f.originalSize) : Balanced rows := by
  have hle : storedSize rows ≤ originalSize rows := by
    clear h
    induction rows with
    | nil => simp [storedSize, originalSize]
    | cons f rows ih =>
      have hrest := ih fun g hg => hsaved g (List.mem_cons_of_mem _ hg)
      have hf : f.fileSize ≤ baseSize f := by
        unfold baseSize
        split
        · rename_i hc
          exact hsaved f (by simp) hc
        · exact le_refl _
      simp only [storedSize, originalSize, List.map_cons, List.sum_cons] at hrest ⊢
      omega
  have hbase := originalSize_nonneg h
  unfold Balanced
  omega

theorem statsOf_ratio (rows : List StoredFile) :
    (statsOf rows).compressionRatio =
      if 0 < originalSize rows then
        tenThousandths (originalSize rows - storedSize rows) (originalSize rows)
      else 0 := rfl

theorem ratio_in_range_iff {rows : List StoredFile} (h : ∀ f ∈ rows, Sized f) :
    0 ≤ (statsOf rows).compressionRatio ∧ (statsOf rows).compressionRatio ≤ 10000 ↔
      Balanced rows := by
  have hstored := storedSize_nonneg h
  have hbase := originalSize_nonneg h
  rw [statsOf_ratio]
  unfold Balanced
  split
  · rename_i hpos
    rw [tenThousandths_nonneg_iff hpos, and_iff_left (tenThousandths_le hpos hstored)]
    omega
  · omega

/-! ## The statements that recompute the ratio -/

inductive RowStatement where
  | saveFile (file : StoredFile)
  | updateAccess (id : Uuid) (now : Time)
  | deleteFileRow (bucket key : String)

namespace RowStatement

def run (db : Database) : RowStatement → Except DbError Database
  | saveFile file => db.upsertFile file
  | updateAccess id now => db.updateAccess id now
  | deleteFileRow b k => db.deleteFileRow b k

/-- The table once the rows are in place, and the bucket the trigger is called for; nothing
when the statement affects no row. -/
def effect (db : Database) : RowStatement → Option (Table StoredFile.ident × String)
  | saveFile f => some (db.files.put (mergeRow (db.files.find f.ident) f), f.bucket)
  | updateAccess id now => (db.files.rows.find? (·.id = id)).map fun f =>
    (db.files.update (touch id now) (touch_ident id now), f.bucket)
  | deleteFileRow b k => (db.files.find (b, k)).map fun _ => (db.files.erase (b, k), b)

/-- The rows the trigger sums over. -/
def aggregated (db : Database) (st : RowStatement) : List StoredFile :=
  (st.effect db).elim [] fun (files, bucket) => files.rows.filter (·.bucket = bucket)

end RowStatement

def numericOverflow : DbError := ⟨"22003", "numeric field overflow"⟩

def validStats : DbError :=
  ⟨"23514", "new row for relation \"storage_stats\" violates check constraint \"valid_stats\""⟩

/-- The ratio is in range, and no error says otherwise. -/
structure RatioFits (db : Database) (st : RowStatement) : Prop where
  nonneg : 0 ≤ (statsOf (st.aggregated db)).compressionRatio
  le_one : (statsOf (st.aggregated db)).compressionRatio ≤ 10000
  accepted : st.run db ≠ .error numericOverflow ∧ st.run db ≠ .error validStats

variable {db : Database} {b : String}

theorem except_bind_error {ε α β : Type} {x : Except ε α} {f : α → Except ε β} {e : ε} :
    (x >>= f) = .error e ↔ x = .error e ∨ ∃ a, x = .ok a ∧ f a = .error e := by
  cases x <;> simp [bind, Except.bind]

/-- The trigger complains about a ratio only when it is out of range. -/
theorem refreshStats_complaint {e : DbError} (h : db.refreshStats b = .error e)
    (he : e = numericOverflow ∨ e = validStats)
    (hsized : ∀ f ∈ db.files.rows.filter (·.bucket = b), Sized f) :
    ¬ Balanced (db.files.rows.filter (·.bucket = b)) := by
  rw [← ratio_in_range_iff hsized]
  have htotal : 0 ≤ (statsOf (db.files.rows.filter (·.bucket = b))).totalSize :=
    storedSize_nonneg hsized
  simp only [refreshStats] at h
  split at h
  · simp at h
  · simp only [except_bind_error, reduceCtorEq, and_false, exists_false, or_false] at h
    obtain hrange | ⟨-, -, hrange | ⟨-, -, hcheck⟩⟩ := h
    · unfold inRange at hrange
      split at hrange
      · simp at hrange
      · simp only [Except.error.injEq] at hrange
        subst hrange
        exact absurd he (by decide)
    · unfold inRange at hrange
      split at hrange
      · simp at hrange
      · omega
    · unfold check at hcheck
      split at hcheck
      · simp at hcheck
      · rename_i hfalse
        simp only [Bool.and_eq_true, decide_eq_true_eq] at hfalse
        omega

/-- The complaint is about the ratio. -/
def Complains (x : Except DbError Unit) : Prop :=
  ∃ e, x = .error e ∧ (e = numericOverflow ∨ e = validStats)

theorem fits_quiet (s : String) (limit : Nat) : ¬ Complains (fits s limit) := by
  intro ⟨e, hfits, he⟩
  unfold fits at hfits
  split at hfits
  · simp at hfits
  · simp only [Except.error.injEq] at hfits
    subst hfits
    simp [tooLong, numericOverflow, validStats] at he

theorem columns_quiet (columns : List (Option String × Nat)) :
    ¬ Complains (columns.forM (fun (s, limit) => match s with
      | some s => fits s limit
      | none => .ok ())) := by
  induction columns with
  | nil =>
    intro ⟨e, hnil, _⟩
    simp [List.forM, pure, Except.pure] at hnil
  | cons c columns ih =>
    obtain ⟨s, limit⟩ := c
    intro ⟨e, hall, he⟩
    rw [List.forM, except_bind_error] at hall
    cases hall with
    | inl hfirst =>
      cases s with
      | none => simp at hfirst
      | some s => exact fits_quiet s limit ⟨e, hfirst, he⟩
    | inr hrest =>
      obtain ⟨-, -, hrest⟩ := hrest
      exact ih ⟨e, hrest, he⟩

theorem notNull_quiet (column : String) (present : Bool) : ¬ Complains (notNull column present) := by
  intro ⟨e, hnull, he⟩
  cases present with
  | true => simp [notNull] at hnull
  | false =>
    simp only [notNull, Bool.false_eq_true, ↓reduceIte, Except.error.injEq] at hnull
    subst hnull
    simp [numericOverflow, validStats] at he

theorem check_files_quiet (name : String) (holds : Bool) : ¬ Complains (check "files" name holds) := by
  intro ⟨e, hcheck, he⟩
  cases holds with
  | true => simp [check] at hcheck
  | false =>
    simp only [check, Bool.false_eq_true, ↓reduceIte, Except.error.injEq] at hcheck
    subst hcheck
    obtain he | he := he
    · simp [numericOverflow] at he
    · have htext := congrArg (fun e : DbError => e.message.toList.drop 22) he
      simp [validStats, toString] at htext

theorem foreignKey_quiet (name : String) (holds : Bool) : ¬ Complains (foreignKey name holds) := by
  intro ⟨e, hkey, he⟩
  cases holds with
  | true => simp [foreignKey] at hkey
  | false =>
    simp only [foreignKey, Bool.false_eq_true, ↓reduceIte, Except.error.injEq] at hkey
    subst hkey
    simp [numericOverflow, validStats] at he

theorem checkRow_quiet (f : StoredFile) : ¬ Complains (checkRow f) := by
  intro ⟨e, hrow, he⟩
  simp only [checkRow, except_bind_error] at hrow
  obtain h | ⟨-, -, h | ⟨-, -, h | ⟨-, -, h | ⟨-, -, h | ⟨-, -, h | ⟨-, -, h | ⟨-, -, h |
    ⟨-, -, h⟩⟩⟩⟩⟩⟩⟩⟩ := hrow
  · exact columns_quiet _ ⟨e, h, he⟩
  · exact notNull_quiet _ _ ⟨e, h, he⟩
  · exact notNull_quiet _ _ ⟨e, h, he⟩
  · exact notNull_quiet _ _ ⟨e, h, he⟩
  · exact check_files_quiet _ _ ⟨e, h, he⟩
  · exact check_files_quiet _ _ ⟨e, h, he⟩
  · exact check_files_quiet _ _ ⟨e, h, he⟩
  · exact check_files_quiet _ _ ⟨e, h, he⟩
  · exact check_files_quiet _ _ ⟨e, h, he⟩

/-- Only the trigger of an upsert complains about the ratio. -/
theorem upsertFile_complaint {f : StoredFile} {e : DbError} (h : db.upsertFile f = .error e)
    (he : e = numericOverflow ∨ e = validStats) :
    Database.refreshStats
      { db with files := db.files.put (mergeRow (db.files.find f.ident) f) } f.bucket = .error e := by
  unfold upsertFile at h
  rw [except_bind_error] at h
  obtain h | ⟨-, -, h⟩ := h
  · exact absurd ⟨e, h, he⟩ (checkRow_quiet _)
  · split at h
    · simp only [bind, Except.bind, Except.error.injEq] at h
      subst h
      simp [numericOverflow, validStats] at he
    · simp only [except_bind_error] at h
      obtain h | ⟨-, -, h | ⟨-, -, h⟩⟩ := h
      · exact absurd ⟨e, h, he⟩ (foreignKey_quiet _ _)
      · exact absurd ⟨e, h, he⟩ (foreignKey_quiet _ _)
      · exact h

theorem run_complaint {st : RowStatement} {e : DbError} (h : st.run db = .error e)
    (he : e = numericOverflow ∨ e = validStats) (hsized : ∀ f ∈ st.aggregated db, Sized f) :
    ¬ Balanced (st.aggregated db) := by
  cases st with
  | saveFile f => exact refreshStats_complaint (upsertFile_complaint h he) he hsized
  | updateAccess id now =>
    simp only [RowStatement.run, updateAccess] at h
    simp only [RowStatement.aggregated, RowStatement.effect] at hsized ⊢
    split at h
    · simp at h
    · rename_i f hf
      rw [hf] at hsized ⊢
      exact refreshStats_complaint h he hsized
  | deleteFileRow b k =>
    simp only [RowStatement.run, deleteFileRow] at h
    simp only [RowStatement.aggregated, RowStatement.effect] at hsized ⊢
    split at h
    · simp at h
    · rename_i f hf
      rw [hf] at hsized ⊢
      exact refreshStats_complaint h he hsized

/-- A statement over rows with sizes is accepted with a ratio in range exactly when the rows
it leaves are balanced. -/
theorem fits_iff_balanced {st : RowStatement} (hsized : ∀ f ∈ st.aggregated db, Sized f) :
    RatioFits db st ↔ Balanced (st.aggregated db) := by
  constructor
  · intro hfits
    exact (ratio_in_range_iff hsized).mp ⟨hfits.nonneg, hfits.le_one⟩
  · intro hbalanced
    obtain ⟨hnonneg, hle⟩ := (ratio_in_range_iff hsized).mpr hbalanced
    refine ⟨hnonneg, hle, ?_, ?_⟩
    · intro h
      exact run_complaint h (.inl rfl) hsized hbalanced
    · intro h
      exact run_complaint h (.inr rfl) hsized hbalanced

/-! ## What calls issue -/

/-- A row that an upload can record. -/
def Recordable (sm : StorageManager) (w : World) (f : StoredFile) : Prop :=
  ∃ b k content ct opts id now,
    (∃ processed enc, EncryptedAs sm w.db opts (sm.compressStage opts content).1 processed enc ∧
      f = sm.freshFile b k content ct opts (sm.compressStage opts content).2
        (sm.compressStage opts content).1.length processed enc id now) ∨
    ∃ existing ∈ w.db.files, existing.hashBlake3 = sm.lib.blake3 content ∧
      f = sm.aliasedFile b k content ct opts existing id now

/-- The statement of an upload, of a read or of a deletion. -/
def Issued (sm : StorageManager) (w : World) : RowStatement → Prop
  | .saveFile f => Recordable sm w f
  | .updateAccess _ _ => True
  | .deleteFileRow _ _ => True

variable {sm : StorageManager} {w w' : World} {es : List Event}

theorem touch_sizes (id : Uuid) (now : Time) (f : StoredFile) :
    inherited (touch id now f) = inherited f := by
  unfold touch
  split <;> rfl

/-- The rows a statement leaves have the sources of the rows before, and of the new one. -/
theorem aggregated_invariant {I : Inherited → Prop} {st : RowStatement}
    (hrows : ∀ f ∈ db.files, I (inherited f)) (hnew : ∀ f, st = .saveFile f → I (inherited f)) :
    ∀ f ∈ st.aggregated db, I (inherited f) := by
  intro f hf
  cases st with
  | saveFile g =>
    simp only [RowStatement.aggregated, RowStatement.effect, Option.elim_some] at hf
    have hput : f ∈ db.files.put (mergeRow (db.files.find g.ident) g) := (List.mem_filter.mp hf).1
    cases Table.mem_put.mp hput with
    | inl hsame =>
      rw [hsame, inherited_mergeRow]
      exact hnew g rfl
    | inr hold => exact hrows f hold.1
  | updateAccess id now =>
    simp only [RowStatement.aggregated, RowStatement.effect] at hf
    cases hfind : db.files.rows.find? (·.id = id) with
    | none => simp [hfind] at hf
    | some g =>
      simp only [hfind, Option.map_some, Option.elim_some] at hf
      have hmem : f ∈ db.files.update (touch id now) (touch_ident id now) :=
        (List.mem_filter.mp hf).1
      obtain ⟨r, hr, rfl⟩ := Table.mem_update.mp hmem
      rw [touch_sizes]
      exact hrows r hr
  | deleteFileRow b k =>
    simp only [RowStatement.aggregated, RowStatement.effect] at hf
    cases hfind : db.files.find (b, k) with
    | none => simp [hfind] at hf
    | some g =>
      simp only [hfind, Option.map_some, Option.elim_some] at hf
      have hmem : f ∈ db.files.erase (b, k) := (List.mem_filter.mp hf).1
      exact hrows f (Table.mem_erase.mp hmem).1

/-- What holds of every row an upload writes and of every row there is holds of a row an
upload can record. -/
theorem Recordable.invariant {I : Inherited → Prop} {f : StoredFile} (hf : Recordable sm w f)
    (hrows : ∀ g ∈ w.db.files, I (inherited g))
    (hfresh : ∀ b k content ct opts processed enc id now,
      EncryptedAs sm w.db opts (sm.compressStage opts content).1 processed enc →
      I (inherited (sm.freshFile b k content ct opts (sm.compressStage opts content).2
        (sm.compressStage opts content).1.length processed enc id now))) : I (inherited f) := by
  obtain ⟨b, k, content, ct, opts, id, now, ⟨processed, enc, henc, rfl⟩ |
    ⟨existing, hmem, -, rfl⟩⟩ := hf
  · exact hfresh b k content ct opts processed enc id now henc
  · exact hrows existing hmem

/-- A compressed form is kept only when it is smaller. -/
theorem compressStage_smaller {opts : StoreOptions} {content : Bytes}
    (hc : (sm.compressStage opts content).2 = true) :
    (sm.compressStage opts content).1.length < content.length := by
  unfold compressStage at hc ⊢
  split at hc
  · rename_i h
    rw [if_pos h]
    cases hz : (sm.compressor opts).compress sm.lib.toCodecs content with
    | error e => simp [hz] at hc
    | ok out =>
      simp only [hz] at hc ⊢
      split at hc
      · rename_i hlt
        simp [hlt]
      · simp at hc
  · simp at hc

/-- Encryption adds a nonce and a tag at most. -/
theorem EncryptedAs.length_le (law : sm.lib.toCiphers.Lawful) {opts : StoreOptions}
    {data out : Bytes} {enc : Bool} (h : EncryptedAs sm db opts data out enc) :
    out.length ≤ data.length + 28 ∧ (enc = false → out = data) := by
  unfold EncryptedAs at h
  split at h
  · obtain ⟨rfl, alg, nonce, -, hout⟩ := h
    refine ⟨?_, by simp⟩
    split at hout
    · obtain ⟨key, -, hseal⟩ := hout
      rw [CryptoManager.encryptWithKey_length law hseal]
    · rw [CryptoManager.encrypt_length law hout]
      split <;> omega
  · exact ⟨by simp [h.2], fun _ => h.2⟩

/-- Where compressed content is also encrypted, the saving is at least the twenty-eight
bytes that adds. -/
def SavesTag (sm : StorageManager) : Event → Prop
  | .storeFile _ _ content _ opts _ => (sm.compressStage opts content).2 = true →
      sm.shouldEncrypt opts = true → (sm.compressStage opts content).1.length + 28 ≤ content.length
  | _ => True

/-- Through a run of such uploads no access update and no deletion is refused for the ratio. -/
theorem ratio_fits_of_savings {st : RowStatement} (law : sm.lib.toCiphers.Lawful)
    (hempty : w.db.files = Table.empty) (hrun : SystemRun sm (fun _ e => SavesTag sm e) w es w')
    (hst : ∀ f, st ≠ .saveFile f) : RatioFits w'.db st := by
  let I : Inherited → Prop := fun i => (0 ≤ i.fileSize ∧ 0 ≤ i.originalSize) ∧
    (i.isCompressed.getD false = true → i.fileSize ≤ i.originalSize)
  have hrows : ∀ f ∈ w'.db.files, I (inherited f) := by
    refine rows_invariant (fun u b k content ct opts x processed enc id now hp henc => ?_) ?_ hrun
    · refine ⟨⟨Int.natCast_nonneg _, Int.natCast_nonneg _⟩, fun hc => ?_⟩
      have hcompressed : (sm.compressStage opts content).2 = true := hc
      have hle : processed.length ≤ content.length := by
        obtain ⟨hlength, hplain⟩ := EncryptedAs.length_le law henc
        have hsmaller := compressStage_smaller hcompressed
        by_cases hs : sm.shouldEncrypt opts = true
        · have := hp hcompressed hs
          omega
        · simp only [EncryptedAs, hs, Bool.false_eq_true, ↓reduceIte] at henc
          rw [henc.2]
          omega
      exact Int.ofNat_le.mpr hle
    · intro f hf
      rw [hempty] at hf
      exact absurd hf Table.not_mem_empty
  have hleft := aggregated_invariant hrows fun f hf => absurd hf (hst f)
  refine (fits_iff_balanced fun f hf => (hleft f hf).1).mpr ?_
  exact balanced_of_saved (fun f hf => (hleft f hf).1) fun f hf => (hleft f hf).2

/-! ## Forty letters, compressed and encrypted -/

def forty : Bytes := List.replicate 40 97

/-- `zstd::bulk::compress(forty, 3)`. -/
def fortyFrame : Bytes :=
  [40, 181, 47, 253, 32, 40, 69, 0, 0, 16, 97, 97, 1, 0, 31, 128, 5]

def fortyCodecs : Codecs where
  gzip _ _ := .error "unavailable"
  gunzip data := ⟨data, some "invalid gzip header", []⟩
  zstd level data :=
    if level = 3 ∧ data = forty then .ok fortyFrame else .error "unavailable"
  unzstd data :=
    if data = fortyFrame then .ok ⟨forty, none, []⟩ else .error "Unknown frame descriptor"

/-- The frame behind the marker of its algorithm: the plain text of the encryption. -/
def fortyPacked : Bytes := 2 :: fortyFrame

def sealedForty : EncryptionAlgorithm → Bytes
  | .aesGcm =>
    [204, 91, 20, 46, 239, 35, 119, 29, 239, 45, 145, 233, 121, 152, 80, 77, 214, 161, 23, 161, 210,
      88, 47, 137, 190, 251, 207, 138, 44, 38, 187, 204, 161, 117]
  | .chaCha20Poly1305 =>
    [223, 47, 240, 239, 73, 142, 8, 55, 100, 88, 173, 17, 190, 241, 165, 104, 170, 136, 253, 167,
      78, 50, 106, 96, 47, 13, 84, 72, 217, 168, 226, 136, 33, 155]

/-- Compression from thirty-two bytes on, and encryption with the configured key. -/
def packer : StorageManager where
  lib := { fortyCodecs, Sample.ciphersOf fortyPacked sealedForty with
    blake3 := fun b =>
      if b = forty then "c8747764088f4329162aae1e5d5badac57a365d0d459bc1de9908c6ddbb411ac"
      else Sample.blake3 b
    md5 := fun b => if b = forty then "4697843037d962f62a5a429e611e0f5f" else Sample.md5 b }
  config := { Sample.config with
    crypto := Sample.cryptoConfig true .aesGcm
    compression := ⟨true, "zstd", 3, 32⟩ }
  host := Sample.host
  crypto := Sample.cryptoManager true .aesGcm
  started := ⟨Sample.cipherKey, by decide⟩

def fortyRow : StoredFile :=
  packer.freshFile "a" "k" forty none {} true 18 (Sample.nonce.val ++ sealedForty .aesGcm) true 0 0

theorem fortyRow_recordable : Recordable packer World.empty fortyRow := by
  refine ⟨"a", "k", forty, none, {}, 0, 0, .inl ⟨Sample.nonce.val ++ sealedForty .aesGcm, true, ?_, ?_⟩⟩
  · exact ⟨rfl, .aesGcm, Sample.nonce, rfl, rfl⟩
  · decide

def plainRow : StoredFile :=
  Sample.manager.freshFile "a" "k" [120] none {} false 1 [120] false 0 0

end LocalStorage.Proofs.Ratios
