import LocalStorage.Proofs.RangeReads
import LocalStorage.Lib.Panics

namespace LocalStorage.Proofs.RangeBounds
open Lib Lib.Text StorageManager RangeReads

/-! # The arithmetic of a range request

The functions of a range request once more, with every subtraction, addition and slice that the
source does not saturate as a step that panics where it would wrap or leave the bounds. -/

abbrev CheckedOp := Prog Action Response (Stop StorageError)

/-- The outer `none` is a panic. -/
def parseRangeHeader (value : String) (totalLen : Nat) : Option (Option (Nat × Nat)) :=
  match stripPrefix "bytes=".toList value.toList with
  | none => some none
  | some spec =>
    if ',' ∈ spec then some none
    else
      match splitOnce '-' spec with
      | none => some none
      | some (startStr, endStr) =>
        if startStr = [] then
          match parseU64 endStr with
          | none => some none
          | some suffixLen =>
            if suffixLen = 0 ∨ totalLen = 0 then some none
            else do
              let stop ← Checked.sub totalLen 1
              some (some (totalLen - suffixLen, stop))
        else
          match parseU64 startStr with
          | none => some none
          | some start =>
            match (if endStr = [] then some (totalLen - 1) else parseU64 endStr : Option Nat) with
            | none => some none
            | some stop =>
              if stop < start ∨ totalLen ≤ start then some none
              else some (some (start, min stop (totalLen - 1)))

/-- `clamped_end - start + 1`, which must stay within the file. -/
def rangeLength (start clampedEnd total : Nat) : Option Nat := do
  let distance ← Checked.sub clampedEnd start
  let len ← Checked.add distance 1
  if start + len ≤ total then some len else none

def getFileRangeIfPlain (bucket key : String) (start stop : Nat) :
    CheckedOp (Option (Bytes × String × Nat)) := do
  let file ← (readMetadata bucket key).lifted
  if file.compressed || file.encrypted then return none
  else
    let total := asU64 file.fileSize
    let clampedEnd := min stop (total - 1)
    if total = 0 ∨ clampedEnd < start then return none
    else
      let len ← Prog.unwrap (rangeLength start clampedEnd total)
      let buf ← (ofIo (← (step (.readRange file.filePath start len)).lifted)).lifted
      let _ ← (step (.updateAccess file.id)).lifted
      return some (buf, file.contentType, total)

def getCompressedFileRange (self : StorageManager) (bucket key : String) (start stop : Nat) :
    CheckedOp (Option (Bytes × String × Nat)) := do
  let file ← (readMetadata bucket key).lifted
  if file.encrypted || !file.compressed then return none
  else
    let total := asU64 file.originalSize
    let clampedEnd := min stop (total - 1)
    if total = 0 ∨ clampedEnd < start then return none
    else
      let wantLen ← Prog.unwrap (rangeLength start clampedEnd total)
      let compressed ← (ofIo (← (step (.readFile file.filePath)).lifted)).lifted
      match ← (Prog.ofExcept (CompressionManager.decompressRange self.lib.toCodecs compressed start
          wantLen) : Op (Option Bytes)).lifted with
      | none => return none
      | some buf =>
        let _ ← (step (.updateAccess file.id)).lifted
        return some (buf, file.contentType, total)

def fullContent (content : Bytes) (contentType rangeHeader : Option String) :
    CheckedOp HttpResponse := do
  let totalLen := content.length
  let contentType ← (Prog.ofExcept (contentType.elim (pure "application/octet-stream")
    (headerValue · "Invalid content type")) : Op String).lifted
  let headers := [("content-type", contentType), ("accept-ranges", "bytes")]
  let range ← rangeHeader.elim (pure none) fun value =>
    Prog.unwrap (parseRangeHeader value totalLen)
  match range with
  | some (start, stop) =>
    let slice ← Prog.unwrap (Checked.slice content start stop)
    let range ← (Prog.ofExcept (headerValue (contentRange start stop totalLen) "Invalid range") :
      Op String).lifted
    return ⟨206, headers ++ [("content-range", range)], .bytes slice⟩
  | none => return ⟨200, headers, .bytes content⟩

def rangeRequest (storage : StorageManager) (bucket key rangeValue : String) :
    CheckedOp (Option HttpResponse) := do
  match ← (getFileInfo bucket key).lifted.catchErrors with
  | .error _ => return none
  | .ok info =>
    let totalLen := asU64 info.originalSize
    match ← Prog.unwrap (parseRangeHeader rangeValue totalLen) with
    | some (start, stop) =>
      match ← (getFileRangeIfPlain bucket key start stop).catchErrors with
      | .ok (some (slice, contentType, total)) =>
        return some (← (Prog.ofExcept (partialContent slice contentType start stop total) :
          Op HttpResponse).lifted)
      | _ =>
        match ← (getCompressedFileRange storage bucket key start stop).catchErrors with
        | .ok (some (slice, contentType, total)) =>
          return some (← (Prog.ofExcept (partialContent slice contentType start stop total) :
            Op HttpResponse).lifted)
        | _ => return none
    | none =>
      match stripPrefix "bytes=".toList rangeValue.toList with
      | some spec =>
        if ',' ∈ spec then return none
        else
          return some (← (Prog.ofExcept (rangeNotSatisfiable totalLen) : Op HttpResponse).lifted)
      | none => return none

def downloadFile (storage : StorageManager) (bucket key : String) (rangeHeader : Option String) :
    CheckedOp HttpResponse := do
  let early ← rangeHeader.elim (pure none) (rangeRequest storage bucket key)
  match early with
  | some response => return response
  | none =>
    let (content, contentType) ← (storage.getFile bucket key).lifted
    fullContent content contentType rangeHeader

variable {sm : StorageManager} {b k value : String} {start stop total : Nat}

/-! ## Nothing panics -/

theorem parseRangeHeader_checked :
    parseRangeHeader value total = some (LocalStorage.parseRangeHeader value total) := by
  unfold parseRangeHeader LocalStorage.parseRangeHeader
  cases stripPrefix "bytes=".toList value.toList with
  | none => rfl
  | some spec =>
    simp only [Option.bind_eq_bind, Option.bind_some]
    split
    · rfl
    · cases splitOnce '-' spec with
      | none => rfl
      | some halves =>
        obtain ⟨startStr, endStr⟩ := halves
        simp only [Option.bind_some]
        split
        · cases parseU64 endStr with
          | none => rfl
          | some suffixLen =>
            simp only [Option.bind_some]
            split
            · rfl
            · -- the one subtraction that does not saturate
              rw [Checked.sub_of_le (by omega)]
              rfl
        · cases parseU64 startStr with
          | none => rfl
          | some start =>
            simp only [Option.bind_some]
            cases (if endStr = [] then some (total - 1) else parseU64 endStr : Option Nat) with
            | none => rfl
            | some stop =>
              simp only [Option.bind_some]
              split <;> rfl

theorem asU64_lt (n : Int) : asU64 n < 2 ^ 64 := by
  unfold asU64
  omega

/-- Whatever range is asked for of a file of whatever size. -/
theorem rangeLength_eq {n : Int}
    (hrange : ¬ (asU64 n = 0 ∨ min stop (asU64 n - 1) < start)) :
    rangeLength start (min stop (asU64 n - 1)) (asU64 n) =
      some (min stop (asU64 n - 1) - start + 1) := by
  have hsize := asU64_lt n
  unfold rangeLength
  rw [Checked.sub_of_le (by omega), Option.bind_eq_bind, Option.bind_some,
    Checked.add_of_lt (by omega), Option.bind_some, if_pos (by omega)]

theorem getFileRangeIfPlain_checked : getFileRangeIfPlain b k start stop =
    (StorageManager.getFileRangeIfPlain b k start stop).lifted := by
  simp only [getFileRangeIfPlain, StorageManager.getFileRangeIfPlain, Prog.bind_eq, Prog.pure_eq,
    Prog.lifted_bind]
  congr 1
  funext file
  split
  · rfl
  · split
    · rfl
    · rename_i hrange
      simp only [rangeLength_eq hrange, Prog.unwrap_some, Prog.ret_bind, Prog.lifted_bind,
        Prog.lifted_ret]

theorem getCompressedFileRange_checked : getCompressedFileRange sm b k start stop =
    (sm.getCompressedFileRange b k start stop).lifted := by
  simp only [getCompressedFileRange, StorageManager.getCompressedFileRange, Prog.bind_eq,
    Prog.pure_eq, Prog.lifted_bind]
  congr 1
  funext file
  split
  · rfl
  · split
    · rfl
    · rename_i hrange
      simp only [rangeLength_eq hrange, Prog.unwrap_some, Prog.ret_bind, Prog.lifted_bind]
      congr 1
      funext r
      congr 1
      funext compressed
      congr 1
      funext decoded
      cases decoded with
      | none => rfl
      | some buf => simp only [Prog.lifted_bind, Prog.lifted_ret]

theorem ofExcept_bind {α β : Type} (x : Result α) (f : α → Result β) :
    (Prog.ofExcept (x >>= f) : Op β) = (Prog.ofExcept x).bind fun a => Prog.ofExcept (f a) := by
  cases x <;> rfl

theorem fullContent_checked {content : Bytes} {contentType range : Option String} :
    fullContent content contentType range =
      (Prog.ofExcept (LocalStorage.fullContent content contentType range)).lifted := by
  have hparsed : (range.elim (.ret none) fun value =>
      Prog.unwrap (parseRangeHeader value content.length) : CheckedOp (Option (Nat × Nat))) =
        .ret (range.bind (LocalStorage.parseRangeHeader · content.length)) := by
    cases range with
    | none => rfl
    | some value => simp only [Option.elim_some, parseRangeHeader_checked, Prog.unwrap_some,
        Option.bind_some]
  simp only [fullContent, LocalStorage.fullContent, ofExcept_bind, Prog.lifted_bind, Prog.bind_eq,
    Prog.pure_eq, hparsed, Prog.ret_bind]
  congr 1
  funext type
  cases hrange : range.bind (LocalStorage.parseRangeHeader · content.length) with
  | none => rfl
  | some bounds =>
    obtain ⟨start, stop⟩ := bounds
    obtain ⟨value, -, hvalue⟩ := Option.bind_eq_some_iff.mp hrange
    obtain ⟨hle, hlt⟩ := parseRangeHeader_bounds hvalue
    simp only [Checked.slice_of_bounds (Nat.le_succ_of_le hle) hlt, ofExcept_bind, Prog.lifted_bind]
    rfl

/-- A slice is answered alike, whichever of the two reads it is from. -/
theorem sliced_checked {start stop : Nat} (found : Result (Option (Bytes × String × Nat))) :
    (match found with
      | .ok (some (slice, contentType, total)) =>
        (Prog.ofExcept (partialContent slice contentType start stop total) :
          Op HttpResponse).lifted.bind fun response => .ret (some response)
      | _ => .ret none : CheckedOp (Option HttpResponse)) =
    (match found with
      | .ok (some (slice, contentType, total)) =>
        (Prog.ofExcept (partialContent slice contentType start stop total)).bind
          fun response => .ret (some response)
      | _ => .ret none : Op (Option HttpResponse)).lifted := by
  cases found with
  | error e => rfl
  | ok found =>
    cases found with
    | none => rfl
    | some found =>
      obtain ⟨slice, contentType, total⟩ := found
      simp only [Prog.lifted_bind, Prog.lifted_ret]

theorem rangeRequest_checked :
    rangeRequest sm b k value = (LocalStorage.rangeRequest sm b k value).lifted := by
  simp only [rangeRequest, LocalStorage.rangeRequest, Prog.bind_eq, Prog.pure_eq, Prog.lifted_bind,
    Prog.lifted_attempt, parseRangeHeader_checked, Prog.unwrap_some, Prog.ret_bind,
    getFileRangeIfPlain_checked, getCompressedFileRange_checked]
  congr 1
  funext info
  cases info with
  | error e => rfl
  | ok info =>
    dsimp only
    cases LocalStorage.parseRangeHeader value (asU64 info.originalSize) with
    | none =>
      dsimp only
      cases stripPrefix "bytes=".toList value.toList with
      | none => rfl
      | some spec =>
        by_cases hcomma : ',' ∈ spec
        · simp only [hcomma, ↓reduceIte, Prog.lifted_ret]
        · simp only [hcomma, ↓reduceIte, Prog.lifted_bind, Prog.lifted_ret]
    | some range =>
      obtain ⟨start, stop⟩ := range
      simp only [Prog.lifted_bind, Prog.lifted_attempt]
      congr 1
      funext plain
      cases plain with
      | error e =>
        simp only [Prog.lifted_bind, Prog.lifted_attempt]
        congr 1
        funext packed
        exact sliced_checked packed
      | ok found =>
        cases found with
        | none =>
          simp only [Prog.lifted_bind, Prog.lifted_attempt]
          congr 1
          funext packed
          exact sliced_checked packed
        | some found => exact sliced_checked (.ok (some found))

theorem downloadFile_checked {range : Option String} :
    downloadFile sm b k range = (LocalStorage.downloadFile sm b k range).lifted := by
  have hearly : (range.elim (pure none) (rangeRequest sm b k) : CheckedOp (Option HttpResponse)) =
      (range.elim (pure none) (LocalStorage.rangeRequest sm b k)).lifted := by
    cases range with
    | none => rfl
    | some value => exact rangeRequest_checked
  simp only [downloadFile, LocalStorage.downloadFile, Prog.bind_eq, Prog.lifted_bind, hearly]
  congr 1
  funext early
  cases early with
  | some response => rfl
  | none => simp only [Prog.lifted_bind, fullContent_checked]

/-- A parsed range lies within the file; no length, end or slice of a range request wraps or
leaves the bounds, whatever the header, the sizes on record and the decoded content. -/
theorem range_arithmetic_in_bounds (sm : StorageManager) (b k : String) :
    (∀ value total, parseRangeHeader value total =
        some (LocalStorage.parseRangeHeader value total) ∧
      ∀ start stop, LocalStorage.parseRangeHeader value total = some (start, stop) →
        start ≤ stop ∧ stop < total) ∧
    (∀ start stop, getFileRangeIfPlain b k start stop =
      (StorageManager.getFileRangeIfPlain b k start stop).lifted) ∧
    (∀ start stop, getCompressedFileRange sm b k start stop =
      (sm.getCompressedFileRange b k start stop).lifted) ∧
    (∀ content contentType range, fullContent content contentType range =
      (Prog.ofExcept (LocalStorage.fullContent content contentType range)).lifted) ∧
    ∀ range, downloadFile sm b k range = (LocalStorage.downloadFile sm b k range).lifted := by
  refine ⟨fun value total => ⟨parseRangeHeader_checked, fun start stop => parseRangeHeader_bounds⟩,
    fun start stop => getFileRangeIfPlain_checked, fun start stop => getCompressedFileRange_checked,
    fun content contentType range => fullContent_checked, fun range => downloadFile_checked⟩

end LocalStorage.Proofs.RangeBounds
