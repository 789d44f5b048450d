import LocalStorage.Sample
import LocalStorage.Lib.Panics

namespace LocalStorage.Proofs.Decompression
open Lib CompressionManager

/-! # What decompression makes of a buffer -/

variable {lib : Codecs} {self : CompressionManager} {b out data c : Bytes}

/-- The decoder hands out these bytes and ends cleanly. -/
def Yields (r : Reader) (out : Bytes) : Prop := r.failure = none ∧ r.left = out

theorem readToEnd_ok_iff {r : Reader} : r.readToEnd = .ok out ↔ Yields r out := by
  unfold Reader.readToEnd Yields
  cases r.failure with
  | some e => simp
  | none => simp

theorem decompressGzip_ok_iff : decompressGzip lib b = .ok out ↔ Yields (lib.gunzip b) out := by
  rw [← readToEnd_ok_iff, decompressGzip]
  cases (lib.gunzip b).readToEnd with
  | error e => simp [Except.mapError]
  | ok bytes => simp [Except.mapError]

theorem decompressZstd_ok_iff :
    decompressZstd lib b = .ok out ↔ ∃ r, lib.unzstd b = .ok r ∧ Yields r out := by
  unfold decompressZstd
  cases lib.unzstd b with
  | error e => simp
  | ok r =>
    simp only [Reader.readLoop_eq (by decide : 4096 ≠ 0) (Nat.lt_succ_self r.left.length),
      Except.ok.injEq, exists_eq_left', ← readToEnd_ok_iff]
    cases r.readToEnd with
    | error e => simp [Except.mapError]
    | ok bytes => simp [Except.mapError]

/-! ## Buffers nobody compressed -/

/-- Bytes that were stored as they came are not taken for anything else: what they look like
to the reading side, if anything, decodes to the bytes themselves. -/
def Survives (lib : Codecs) (algorithm : String) (data : Bytes) : Prop :=
  match data with
  | [] => True
  | format :: rest =>
    if format = 1 then Yields (lib.gunzip rest) data
    else if format = 2 then ∃ r, lib.unzstd rest = .ok r ∧ Yields r data
    else if algorithm = "gzip" then data.take 2 = [0x1f, 0x8b] → Yields (lib.gunzip data) data
    else ∀ r out, lib.unzstd data = .ok r → Yields r out → out = data

theorem decompressLegacy_ok_iff
    (halg : self.config.algorithm = "gzip" ∨ self.config.algorithm = "zstd") :
    self.decompressLegacy lib b = .ok b ↔
      if self.config.algorithm = "gzip" then b.take 2 = [0x1f, 0x8b] → Yields (lib.gunzip b) b
      else ∀ r out, lib.unzstd b = .ok r → Yields r out → out = b := by
  unfold decompressLegacy
  split
  · split
    · rename_i hmagic
      simp only [decompressGzip_ok_iff, hmagic, true_implies]
    · rename_i hmagic
      simp only [hmagic, false_implies]
  · rename_i hgzip
    rw [if_pos (halg.resolve_left hgzip)]
    cases hzstd : decompressZstd lib b with
    | ok decoded =>
      obtain ⟨r, hr, hyields⟩ := decompressZstd_ok_iff.mp hzstd
      simp only [Except.ok.injEq, hr]
      constructor
      · intro heq r' out hr' hout
        obtain rfl := hr'
        exact hout.2.symm.trans (hyields.2.trans heq)
      · intro hall
        exact hall r decoded rfl hyields
    | error e =>
      simp only [true_iff]
      intro r out hr hout
      rw [decompressZstd_ok_iff.mpr ⟨r, hr, hout⟩] at hzstd
      cases hzstd

theorem decompress_ok_iff (henabled : self.config.enabled = true)
    (halg : self.config.algorithm = "gzip" ∨ self.config.algorithm = "zstd") :
    self.decompress lib data = .ok data ↔ Survives lib self.config.algorithm data := by
  unfold decompress Survives
  simp only [henabled, Bool.not_true, Bool.false_eq_true, ↓reduceIte]
  cases data with
  | nil => simp only
  | cons format rest =>
    dsimp only
    split
    · exact decompressGzip_ok_iff
    · split
      · exact decompressZstd_ok_iff
      · exact decompressLegacy_ok_iff halg

/-- What compression leaves as it is, and when. -/
theorem compress_cases (h : self.compress lib data = .ok c) :
    (self.config.enabled = false ∨ data = [] ∨ data.length < self.config.minSize) ∧ c = data ∨
      self.config.enabled = true ∧ data ≠ [] ∧ self.config.minSize ≤ data.length ∧
        ((∃ z, lib.gzip self.config.level data = .ok z ∧ c = 1 :: z) ∨
          ∃ z, lib.zstd self.config.level data = .ok z ∧ c = 2 :: z) := by
  unfold compress at h
  split at h
  · rename_i hskip
    simp only [Bool.or_eq_true, Bool.not_eq_true', decide_eq_true_eq, List.isEmpty_iff] at hskip
    left
    refine ⟨?_, (Except.ok.inj h).symm⟩
    rcases hskip with (hoff | hsmall) | hempty
    · exact .inl hoff
    · exact .inr (.inr hsmall)
    · exact .inr (.inl hempty)
  · rename_i hrun
    simp only [Bool.or_eq_true, Bool.not_eq_true', decide_eq_true_eq, List.isEmpty_iff, not_or,
      Bool.not_eq_false, Nat.not_lt] at hrun
    right
    refine ⟨hrun.1.1, hrun.2, hrun.1.2, ?_⟩
    split at h
    · cases hz : lib.gzip self.config.level data with
      | error e => simp [compressGzip, hz, Except.mapError, Except.map] at h
      | ok z =>
        simp only [compressGzip, hz, Except.mapError, Except.map, Except.ok.injEq] at h
        exact .inl ⟨z, rfl, h.symm⟩
    · split at h
      · cases hz : lib.zstd self.config.level data with
        | error e => simp [compressZstd, hz, Except.mapError, Except.map] at h
        | ok z =>
          simp only [compressZstd, hz, Except.mapError, Except.map, Except.ok.injEq] at h
          exact .inr ⟨z, rfl, h.symm⟩
      · simp at h

/-- What compression did to the data is undone; data it left alone comes back exactly when
its first bytes do not mislead the reading side. -/
theorem restored_iff (law : lib.Lawful)
    (halg : self.config.algorithm = "gzip" ∨ self.config.algorithm = "zstd")
    (h : self.compress lib data = .ok c) :
    self.decompress lib c = .ok data ↔
      (self.config.enabled = true → data.length < self.config.minSize →
        Survives lib self.config.algorithm data) := by
  rcases compress_cases h with ⟨hskip, rfl⟩ | ⟨henabled, -, hsize, hcompressed⟩
  · by_cases henabled : self.config.enabled = true
    · rw [decompress_ok_iff henabled halg]
      rcases hskip with hoff | rfl | hsmall
      · rw [henabled] at hoff
        cases hoff
      · simp only [Survives, implies_true]
      · simp only [henabled, hsmall, true_implies]
    · simp only [Bool.not_eq_true] at henabled
      simp only [decompress_disabled henabled, henabled, Bool.false_eq_true, false_implies]
  · have hback : self.decompress lib c = .ok data := by
      rcases hcompressed with ⟨z, hz, rfl⟩ | ⟨z, hz, rfl⟩
      · simp [decompress, henabled, decompressGzip_gzip law hz]
      · simp [decompress, henabled, decompressZstd_zstd law hz]
    simp only [hback, true_iff]
    intro _ hsmall
    omega

/-- Compression on, from a kilobyte on. -/
def gzipManager : CompressionManager := ⟨⟨true, "gzip", 6, 1024⟩⟩

theorem restored_iff_text :
    gzipManager.decompress Sample.codecs [104, 105] = .ok [104, 105] ↔
      (gzipManager.config.enabled = true → [104, 105].length < gzipManager.config.minSize →
        Survives Sample.codecs gzipManager.config.algorithm [104, 105]) :=
  restored_iff Sample.codecs_lawful (.inl rfl) (by decide)

/-- A control character in front of hello world: too short to be compressed, and not what the
reading side can decode. -/
theorem short_data_lost :
    let data : Bytes := 1 :: [104, 101, 108, 108, 111, 32, 119, 111, 114, 108, 100]
    gzipManager.compress Sample.codecs data = .ok data ∧
      gzipManager.decompress Sample.codecs data =
        .error (.compression "Gzip decompression failed: invalid gzip header") := by
  decide

/-! ## Ranges of a compressed buffer -/

/-- `vec![0u8; len]`: a buffer of more than `isize::MAX` bytes is a panic. -/
def allocate (len : Nat) : Option Unit := if len < 2 ^ 63 then some () else none

/-- The decoder that the format byte names. -/
def opened (lib : Codecs) (format : UInt8) (rest : Bytes) : Option Reader :=
  if format = 1 then some (lib.gunzip rest)
  else if format = 2 then (lib.unzstd rest).toOption
  else none

/-- `decompress_range` once more, with the allocation of the buffer for the range as a step
that panics. -/
def decompressRange (lib : Codecs) (data : Bytes) (start len : Nat) :
    Except (Stop StorageError) (Option Bytes) :=
  match data with
  | [] => .ok (some [])
  | format :: rest =>
    match opened lib format rest with
    | none => .ok none
    | some r =>
      match r.skip start start with
      | .error e =>
        .error (.error (.compression s!"Decompression failed while skipping to range start: {e}"))
      | .ok r' =>
        match allocate len with
        | none => .error .panic
        | some () =>
          match r'.fill len len with
          | .error e =>
            .error (.error (.compression s!"Decompression failed while reading range: {e}"))
          | .ok out => .ok (some out)

variable {format : UInt8} {rest D : Bytes} {start len : Nat}

/-- But for a buffer that cannot be allocated, the two are one function. -/
theorem decompressRange_of_lt (hlen : len < 2 ^ 63) : decompressRange lib data start len =
    (CompressionManager.decompressRange lib data start len).mapError .error := by
  cases data with
  | nil => rfl
  | cons format rest =>
    simp only [decompressRange, CompressionManager.decompressRange, opened, allocate, hlen, ↓reduceIte]
    generalize (if format = 1 then some (lib.gunzip rest)
      else if format = 2 then (lib.unzstd rest).toOption else none) = reader
    cases reader with
    | none => rfl
    | some r =>
      dsimp only
      cases r.skip start start with
      | error e => rfl
      | ok r' =>
        dsimp only
        cases r'.fill len len with
        | error e => rfl
        | ok out => rfl

/-- The same decoders, handing their output out in other pieces. -/
def resplit (lib : Codecs) (gunzipPieces unzstdPieces : Bytes → List Nat) : Codecs :=
  { lib with
    gunzip := fun data => { lib.gunzip data with pieces := gunzipPieces data }
    unzstd := fun data => (lib.unzstd data).map fun r => { r with pieces := unzstdPieces data } }

/-- Full decompression of a buffer with a format byte tells what its decoder hands out,
however it splits it. -/
theorem opened_of_decompress (henabled : self.config.enabled = true)
    (hformat : format = 1 ∨ format = 2) (h : self.decompress lib (format :: rest) = .ok D)
    (gunzipPieces unzstdPieces : Bytes → List Nat) :
    ∃ r, opened (resplit lib gunzipPieces unzstdPieces) format rest = some r ∧ Yields r D := by
  simp only [decompress, henabled, Bool.not_true, Bool.false_eq_true, ↓reduceIte] at h
  rcases hformat with rfl | rfl
  · have hyields := decompressGzip_ok_iff.mp h
    exact ⟨_, rfl, hyields⟩
  · obtain ⟨r, hr, hyields⟩ := decompressZstd_ok_iff.mp h
    refine ⟨{ r with pieces := unzstdPieces rest }, ?_, hyields⟩
    simp [opened, resplit, hr, Except.map, Except.toOption]

/-- Only a decoder that cannot be created leaves a range without an answer. -/
theorem decompressRange_none (hformat : format = 1 ∨ format = 2)
    (h : decompressRange lib (format :: rest) start len = .ok none) :
    format = 2 ∧ ∃ e, lib.unzstd rest = .error e := by
  have hopened : opened lib format rest = none := by
    simp only [decompressRange] at h
    cases hr : opened lib format rest with
    | none => rfl
    | some r =>
      simp only [hr] at h
      split at h
      · cases h
      · split at h
        · cases h
        · split at h
          · cases h
          · cases h
  rcases hformat with rfl | rfl
  · simp [opened] at hopened
  · cases hz : lib.unzstd rest with
    | error e => exact ⟨rfl, e, rfl⟩
    | ok r => simp [opened, hz, Except.toOption] at hopened

theorem take_drop_eq_slice (start len : Nat) (D : Bytes) : (D.drop start).take len =
    (D.take (min (start + len) D.length)).drop (min start D.length) := by
  rw [List.drop_take]
  rcases Nat.le_total start D.length with hstart | hstart
  · rw [Nat.min_eq_left hstart]
    rcases Nat.le_total (start + len) D.length with hend | hend
    · rw [Nat.min_eq_left hend, Nat.add_sub_cancel_left]
    · rw [Nat.min_eq_right hend, List.take_of_length_le, List.take_of_length_le] <;>
        rw [List.length_drop]
      omega
  · rw [Nat.min_eq_right hstart, List.drop_eq_nil_of_le hstart, List.drop_eq_nil_of_le (Nat.le_refl _),
      List.take_nil, List.take_nil]

def zstdManager : CompressionManager := ⟨⟨true, "zstd", 3, 1⟩⟩

end LocalStorage.Proofs.Decompression
