import LocalStorage.Models

namespace LocalStorage

/-! ## Decoders -/

/-- A decoder as its `read` calls see it: the bytes still to come, the error it ends in
when it does not end cleanly, and how many bytes each call is willing to hand out. -/
structure Reader where
  left : Bytes
  failure : Option String
  pieces : List Nat
deriving DecidableEq, Repr

namespace Reader

/-- `Read::read` into a buffer of `cap` bytes; an empty answer is the end. -/
def read (r : Reader) (cap : Nat) : Except String (Bytes × Reader) :=
  if cap = 0 then .ok ([], r)
  else if r.left = [] then
    match r.failure with
    | some e => .error e
    | none => .ok ([], r)
  else
    let n := min cap (max 1 (r.pieces.headD cap))
    .ok (r.left.take n, { r with left := r.left.drop n, pieces := r.pieces.tail })

/-- `Read::read_to_end`. -/
def readToEnd (r : Reader) : Except String Bytes :=
  match r.failure with
  | some e => .error e
  | none => .ok r.left

/-- Read through a fixed buffer until an empty answer. -/
def readLoop (buffer : Nat) : Nat → Reader → Except String Bytes
  | 0, _ => .ok []
  | fuel + 1, r =>
    match r.read buffer with
    | .error e => .error e
    | .ok (chunk, r') =>
      if chunk = [] then .ok []
      else (readLoop buffer fuel r').map (chunk ++ ·)

/-- Throw decoded bytes away through the 64 KiB discard buffer. -/
def skip : Nat → Nat → Reader → Except String Reader
  | 0, _, r => .ok r
  | fuel + 1, remaining, r =>
    if remaining = 0 then .ok r
    else
      match r.read (min remaining 65536) with
      | .error e => .error e
      | .ok (chunk, r') => if chunk = [] then .ok r' else skip fuel (remaining - chunk.length) r'

/-- Fill a buffer of `want` bytes; fewer when the decoder ends first. -/
def fill : Nat → Nat → Reader → Except String Bytes
  | 0, _, _ => .ok []
  | fuel + 1, want, r =>
    if want = 0 then .ok []
    else
      match r.read want with
      | .error e => .error e
      | .ok (chunk, r') =>
        if chunk = [] then .ok []
        else (fill fuel (want - chunk.length) r').map (chunk ++ ·)

theorem read_nil {r : Reader} {cap : Nat} (hc : cap ≠ 0) (hl : r.left = []) :
    r.read cap =
      match r.failure with
      | some e => .error e
      | none => .ok ([], r) := by
  simp [read, hc, hl]

/-- A read from a decoder with bytes left hands some of them out. -/
theorem read_cons {r : Reader} {cap : Nat} (hc : cap ≠ 0) (hl : r.left ≠ []) :
    ∃ n, 0 < n ∧ n ≤ cap ∧ r.read cap =
      .ok (r.left.take n, { r with left := r.left.drop n, pieces := r.pieces.tail }) := by
  refine ⟨min cap (max 1 (r.pieces.headD cap)), by omega, by omega, ?_⟩
  simp [read, hc, hl]

/-- The loop collects exactly what reading to the end does. -/
theorem readLoop_eq {buffer fuel : Nat} {r : Reader} (hb : buffer ≠ 0) (hf : r.left.length < fuel) :
    readLoop buffer fuel r = r.readToEnd := by
  induction fuel generalizing r with
  | zero => omega
  | succ fuel ih =>
    by_cases hl : r.left = []
    · cases hr : r.failure <;> simp [readLoop, read_nil hb hl, readToEnd, hr, hl]
    · obtain ⟨n, hn, _, hread⟩ := read_cons hb hl
      have htake : r.left.take n ≠ [] := by
        simp [List.take_eq_nil_iff, hl]
        omega
      have hlen : (r.left.drop n).length < fuel := by
        have := List.length_pos_iff.mpr hl
        simp only [List.length_drop]
        omega
      simp only [readLoop, hread, htake, ↓reduceIte, ih (r := { r with left := r.left.drop n, pieces := r.pieces.tail }) hlen]
      cases hr : r.failure <;> simp [readToEnd, hr, Except.map]

/-- The discard loop comes to its end: nothing remains to skip, or the decoder ends first. -/
inductive Skips : Nat → Reader → Reader → Prop where
  | done (r : Reader) : Skips 0 r r
  | ended {n : Nat} {r r' : Reader} (hn : n ≠ 0) (hread : r.read (min n 65536) = .ok ([], r')) :
      Skips n r r'
  | more {n : Nat} {r r' r'' : Reader} {chunk : Bytes} (hn : n ≠ 0)
      (hread : r.read (min n 65536) = .ok (chunk, r')) (hne : chunk ≠ [])
      (rest : Skips (n - chunk.length) r' r'') : Skips n r r''

/-- The filling loop comes to its end: the buffer is full, or the decoder ends first. -/
inductive Fills : Nat → Reader → Bytes → Prop where
  | done (r : Reader) : Fills 0 r []
  | ended {want : Nat} {r r' : Reader} (hw : want ≠ 0) (hread : r.read want = .ok ([], r')) :
      Fills want r []
  | more {want : Nat} {r r' : Reader} {chunk out : Bytes} (hw : want ≠ 0)
      (hread : r.read want = .ok (chunk, r')) (hne : chunk ≠ [])
      (rest : Fills (want - chunk.length) r' out) : Fills want r (chunk ++ out)

/-- With a turn for each byte to skip, the loop with fuel computes what the loop does. -/
theorem Skips.skip {n : Nat} {r r' : Reader} (h : Skips n r r') {fuel : Nat} (hf : n ≤ fuel) :
    r.skip fuel n = .ok r' := by
  induction h generalizing fuel with
  | done r => cases fuel <;> rfl
  | ended hn hread =>
    cases fuel with
    | zero => omega
    | succ fuel => simp only [Reader.skip, hn, hread, ↓reduceIte]
  | @more n r r' r'' chunk hn hread hne rest ih =>
    have hpos := List.length_pos_iff.mpr hne
    cases fuel with
    | zero => omega
    | succ fuel =>
      simp only [Reader.skip, hn, hread, hne, ↓reduceIte]
      apply ih
      omega

theorem Fills.fill {want : Nat} {r : Reader} {out : Bytes} (h : Fills want r out) {fuel : Nat}
    (hf : want ≤ fuel) : r.fill fuel want = .ok out := by
  induction h generalizing fuel with
  | done r => cases fuel <;> rfl
  | ended hw hread =>
    cases fuel with
    | zero => omega
    | succ fuel => simp only [Reader.fill, hw, hread, ↓reduceIte]
  | @more want r r' chunk out hw hread hne rest ih =>
    have hpos := List.length_pos_iff.mpr hne
    cases fuel with
    | zero => omega
    | succ fuel =>
      have htail : Reader.fill fuel (want - chunk.length) r' = .ok out := by
        apply ih
        omega
      simp only [Reader.fill, hw, hread, hne, ↓reduceIte, htail, Except.map]

/-- However the decoder splits its output, skipping ends, past the end as well when the
decoder ends cleanly. -/
theorem skips_drop {n : Nat} {r : Reader} (h : n ≤ r.left.length ∨ r.failure = none) :
    ∃ r', Skips n r r' ∧ r'.left = r.left.drop n ∧ r'.failure = r.failure := by
  induction n using Nat.strongRecOn generalizing r with
  | _ n ih =>
    by_cases hzero : n = 0
    · subst hzero
      exact ⟨r, .done r, rfl, rfl⟩
    · have hcap : min n 65536 ≠ 0 := by omega
      by_cases hl : r.left = []
      · have hfail : r.failure = none := by
          rcases h with hle | hfail
          · simp only [hl, List.length_nil] at hle
            omega
          · exact hfail
        refine ⟨r, .ended hzero ?_, by simp [hl], rfl⟩
        rw [read_nil hcap hl, hfail]
      · obtain ⟨m, hm, hle, hread⟩ := read_cons hcap hl
        have hpos := List.length_pos_iff.mpr hl
        have hne : r.left.take m ≠ [] := by
          simp [List.take_eq_nil_iff, hl]
          omega
        have hstep : n - (r.left.take m).length < n := by
          rw [List.length_take]
          omega
        obtain ⟨r', hskips, hleft, hfail⟩ := ih (n - (r.left.take m).length) hstep
          (r := { r with left := r.left.drop m, pieces := r.pieces.tail }) (by
            rcases h with hlen | hfail
            · left
              simp only [List.length_take, List.length_drop]
              omega
            · exact .inr hfail)
        refine ⟨r', .more hzero hread hne hskips, ?_, hfail⟩
        rw [hleft, List.length_take, List.drop_drop]
        rcases Nat.le_total m r.left.length with hmle | hmle
        · congr 1
          omega
        · rw [List.drop_eq_nil_of_le (by omega), List.drop_eq_nil_of_le (by omega)]

/-- However the decoder splits its output, filling ends with what the buffer takes of it. -/
theorem fills_take {want : Nat} {r : Reader} (h : want ≤ r.left.length ∨ r.failure = none) :
    Fills want r (r.left.take want) := by
  induction want using Nat.strongRecOn generalizing r with
  | _ want ih =>
    by_cases hzero : want = 0
    · subst hzero
      exact .done r
    · by_cases hl : r.left = []
      · have hfail : r.failure = none := by
          rcases h with hle | hfail
          · simp only [hl, List.length_nil] at hle
            omega
          · exact hfail
        have hend : r.read want = .ok ([], r) := by rw [read_nil hzero hl, hfail]
        rw [hl, List.take_nil]
        exact .ended hzero hend
      · obtain ⟨m, hm, hle, hread⟩ := read_cons hzero hl
        have hpos := List.length_pos_iff.mpr hl
        have hne : r.left.take m ≠ [] := by
          simp [List.take_eq_nil_iff, hl]
          omega
        have hstep : want - (r.left.take m).length < want := by
          rw [List.length_take]
          omega
        have hrest := ih (want - (r.left.take m).length) hstep
          (r := { r with left := r.left.drop m, pieces := r.pieces.tail }) (by
            rcases h with hlen | hfail
            · left
              simp only [List.length_take, List.length_drop]
              omega
            · exact .inr hfail)
        have hjoin : r.left.take want =
            r.left.take m ++ (r.left.drop m).take (want - (r.left.take m).length) := by
          rw [List.length_take]
          rcases Nat.le_total m r.left.length with hmle | hmle
          · have hsplit : want = m + (want - m) := by omega
            conv_lhs => rw [hsplit]
            rw [List.take_add, Nat.min_eq_left hmle]
          · rw [List.take_of_length_le (by omega), List.take_of_length_le hmle,
              List.drop_eq_nil_of_le hmle, List.take_nil, List.append_nil]
        rw [hjoin]
        exact .more hzero hread hne hrest

/-- Skipping stays within what is left. -/
theorem skip_eq {fuel n : Nat} {r : Reader} (hf : n ≤ fuel) (hn : n ≤ r.left.length) :
    ∃ r', skip fuel n r = .ok r' ∧ r'.left = r.left.drop n := by
  obtain ⟨r', hskips, hleft, -⟩ := skips_drop (.inl hn)
  exact ⟨r', hskips.skip hf, hleft⟩

/-- A buffer that is no longer than what is left gets filled. -/
theorem fill_eq {fuel want : Nat} {r : Reader} (hf : want ≤ fuel) (hw : want ≤ r.left.length) :
    fill fuel want r = .ok (r.left.take want) :=
  (fills_take (.inl hw)).fill hf

/-- Skip, then fill: the slice of what is left. -/
theorem skip_fill {start len : Nat} {r : Reader} (h : start + len ≤ r.left.length) :
    ∃ r', skip start start r = .ok r' ∧ fill len len r' = .ok ((r.left.drop start).take len) := by
  obtain ⟨r', hr', hleft⟩ := skip_eq (r := r) (Nat.le_refl start) (show start ≤ r.left.length by omega)
  refine ⟨r', hr', ?_⟩
  rw [← hleft]
  apply fill_eq (Nat.le_refl len)
  rw [hleft, List.length_drop]
  omega

end Reader

/-! ## Codecs -/

/-- The compression libraries. -/
structure Codecs where
  gzip : Int → Bytes → Except String Bytes
  gunzip : Bytes → Reader
  zstd : Int → Bytes → Except String Bytes
  unzstd : Bytes → Except String Reader

/-- Decompression undoes compression. -/
structure Codecs.Lawful (lib : Codecs) : Prop where
  gunzip_gzip : ∀ level data out, lib.gzip level data = .ok out →
    (lib.gunzip out).left = data ∧ (lib.gunzip out).failure = none
  unzstd_zstd : ∀ level data out, lib.zstd level data = .ok out →
    ∃ r, lib.unzstd out = .ok r ∧ r.left = data ∧ r.failure = none

structure CompressionManager where
  config : CompressionConfig
deriving DecidableEq, Repr

namespace CompressionManager

variable (lib : Codecs) (self : CompressionManager)

def compressGzip (data : Bytes) : Result Bytes :=
  (lib.gzip self.config.level data).mapError (fun e => .compression s!"Gzip compression failed: {e}")

def compressZstd (data : Bytes) : Result Bytes :=
  (lib.zstd self.config.level data).mapError (fun e => .compression s!"Zstd compression failed: {e}")

def decompressGzip (data : Bytes) : Result Bytes :=
  (lib.gunzip data).readToEnd.mapError (fun e => .compression s!"Gzip decompression failed: {e}")

def decompressZstd (data : Bytes) : Result Bytes :=
  match lib.unzstd data with
  | .error e => .error (.compression s!"Failed to create zstd decoder: {e}")
  | .ok r =>
    (r.readLoop 4096 (r.left.length + 1)).mapError
      (fun e => .compression s!"Zstd decompression failed: {e}")

def unsupported : StorageError :=
  .compression s!"Unsupported compression algorithm: {self.config.algorithm}"

/-- The first byte of the output names the format. -/
def compress (data : Bytes) : Result Bytes :=
  if !self.config.enabled || data.length < self.config.minSize || data.isEmpty then .ok data
  else if self.config.algorithm = "gzip" then (self.compressGzip lib data).map (1 :: ·)
  else if self.config.algorithm = "zstd" then (self.compressZstd lib data).map (2 :: ·)
  else .error self.unsupported

/-- Data without a known format byte. -/
def decompressLegacy (data : Bytes) : Result Bytes :=
  if self.config.algorithm = "gzip" then
    if data.take 2 = [0x1f, 0x8b] then decompressGzip lib data else .ok data
  else if self.config.algorithm = "zstd" then
    match decompressZstd lib data with
    | .ok out => .ok out
    | .error _ => .ok data
  else .error self.unsupported

def decompress (data : Bytes) : Result Bytes :=
  if !self.config.enabled then .ok data
  else
    match data with
    | [] => .ok []
    | format :: rest =>
      if format = 1 then decompressGzip lib rest
      else if format = 2 then decompressZstd lib rest
      else self.decompressLegacy lib (format :: rest)

/-- `none` when the data does not start with a known format byte. -/
def decompressRange (data : Bytes) (start len : Nat) : Result (Option Bytes) :=
  match data with
  | [] => .ok (some [])
  | format :: rest =>
    let reader : Option Reader :=
      if format = 1 then some (lib.gunzip rest)
      else if format = 2 then (lib.unzstd rest).toOption
      else none
    match reader with
    | none => .ok none
    | some r =>
      match r.skip start start with
      | .error e =>
        .error (.compression s!"Decompression failed while skipping to range start: {e}")
      | .ok r' =>
        match r'.fill len len with
        | .error e => .error (.compression s!"Decompression failed while reading range: {e}")
        | .ok out => .ok (some out)

variable {lib self}

theorem decompress_disabled (h : self.config.enabled = false) (data : Bytes) :
    self.decompress lib data = .ok data := by
  simp [decompress, h]

theorem decompressGzip_gzip (law : lib.Lawful) {level : Int} {data out : Bytes}
    (h : lib.gzip level data = .ok out) : decompressGzip lib out = .ok data := by
  obtain ⟨hl, hf⟩ := law.gunzip_gzip level data out h
  simp [decompressGzip, Reader.readToEnd, hf, hl, Except.mapError]

theorem decompressZstd_zstd (law : lib.Lawful) {level : Int} {data out : Bytes}
    (h : lib.zstd level data = .ok out) : decompressZstd lib out = .ok data := by
  obtain ⟨r, hr, hl, hf⟩ := law.unzstd_zstd level data out h
  simp [decompressZstd, hr, Reader.readLoop_eq, Reader.readToEnd, hf, hl, Except.mapError]

/-- Any enabled manager restores what another one compressed: the format byte decides,
not the configured algorithm. -/
theorem decompress_compress (law : lib.Lawful) {writer : CompressionManager} {data out : Bytes}
    (hself : self.config.enabled = true) (h : writer.compress lib data = .ok out)
    (hne : out ≠ data) : self.decompress lib out = .ok data := by
  unfold compress at h
  split at h
  · exact absurd (Except.ok.inj h).symm hne
  · split at h
    · cases hz : lib.gzip writer.config.level data with
      | error e => simp [compressGzip, hz, Except.mapError, Except.map] at h
      | ok z =>
        simp only [compressGzip, hz, Except.mapError, Except.map, Except.ok.injEq] at h
        subst h
        simp [decompress, hself, decompressGzip_gzip law hz]
    · split at h
      · cases hz : lib.zstd writer.config.level data with
        | error e => simp [compressZstd, hz, Except.mapError, Except.map] at h
        | ok z =>
          simp only [compressZstd, hz, Except.mapError, Except.map, Except.ok.injEq] at h
          subst h
          simp [decompress, hself, decompressZstd_zstd law hz]
      · simp at h

/-- A range of compressed data is the slice of what was compressed, whatever the reading
manager's configuration. -/
theorem decompressRange_compress (law : lib.Lawful) {writer : CompressionManager}
    {data out : Bytes} {start len : Nat} (h : writer.compress lib data = .ok out) (hne : out ≠ data)
    (hlen : start + len ≤ data.length) :
    decompressRange lib out start len = .ok (some ((data.drop start).take len)) := by
  have hslice : ∀ r : Reader, r.left = data → ∃ r', Reader.skip start start r = .ok r' ∧
      Reader.fill len len r' = .ok ((data.drop start).take len) := by
    intro r hl
    rw [← hl] at hlen ⊢
    exact Reader.skip_fill hlen
  unfold compress at h
  split at h
  · exact absurd (Except.ok.inj h).symm hne
  · split at h
    · cases hz : lib.gzip writer.config.level data with
      | error e => simp [compressGzip, hz, Except.mapError, Except.map] at h
      | ok z =>
        simp only [compressGzip, hz, Except.mapError, Except.map, Except.ok.injEq] at h
        subst h
        obtain ⟨r', hskip, hfill⟩ := hslice _ (law.gunzip_gzip _ _ _ hz).1
        simp [decompressRange, hskip, hfill]
    · split at h
      · cases hz : lib.zstd writer.config.level data with
        | error e => simp [compressZstd, hz, Except.mapError, Except.map] at h
        | ok z =>
          simp only [compressZstd, hz, Except.mapError, Except.map, Except.ok.injEq] at h
          subst h
          obtain ⟨r, hr, hl, -⟩ := law.unzstd_zstd _ _ _ hz
          obtain ⟨r', hskip, hfill⟩ := hslice r hl
          simp [decompressRange, hr, Except.toOption, hskip, hfill]
      · simp at h

end CompressionManager

end LocalStorage
