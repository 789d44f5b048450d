import LocalStorage.Proofs.RequestKeys
import LocalStorage.Proofs.RoundTrip
import LocalStorage.Proofs.SharedBytes

namespace LocalStorage.Proofs.RangeReads
open Lib Lib.Text StorageManager RequestKeys

/-! # Ranges of an object -/

/-- `full[start..=stop]`. -/
def slice (full : Bytes) (start stop : Nat) : Bytes := (full.drop start).take (stop + 1 - start)

/-- The request without its range. -/
def withoutRange (headers : HeaderMap) : HeaderMap := headers.filter (·.1 ≠ "range")

/-- A partial answer is the part its range names of what the request without a range is
answered. -/
structure PartOfWhole (st : AppState) (headers : HeaderMap) (w : World) (b path : String)
    (response : HttpResponse) : Prop where
  part : ∃ full contentType value start stop,
    ((handleFileRequest st b path (withoutRange headers)).eval (exec st.storage.host) calm w).1 =
      .ok (whole full contentType) ∧
    headers.text "range" = some value ∧
    parseRangeHeader value full.length = some (start, stop) ∧
    start ≤ stop ∧ stop < full.length ∧ response.body = .bytes (slice full start stop) ∧
    ("content-range", contentRange start stop full.length) ∈ response.headers

/-- However the request goes, a partial answer is part of the whole one. -/
def RangesAgree (st : AppState) (headers : HeaderMap) (w : World) (b path : String) : Prop :=
  ∀ response t, (handleFileRequest st b path headers).Runs (exec st.storage.host) w (.ok response) t →
    response.status = 206 → PartOfWhole st headers w b path response

/-- Two records with the same answers, ranges included. -/
structure Alike (f g : StoredFile) : Prop where
  recipe : recipe f = recipe g
  fileSize : f.fileSize = g.fileSize
  originalSize : f.originalSize = g.originalSize

/-- The bytes of a row that is not encrypted: its content, or what some compression settings
make of it, kept because it is smaller; both with their sizes. -/
structure RowSound (sm : StorageManager) (w : World) (file : StoredFile) (content raw : Bytes) :
    Prop where
  bytes : w.bytesAt sm.host file.filePath = some raw
  fileSize : file.fileSize = raw.length
  originalSize : file.originalSize = content.length
  bounded : content.length < 2 ^ 63
  packed : if file.compressed then
      raw.length < content.length ∧
        ∃ writer : CompressionManager, writer.compress sm.lib.toCodecs content = .ok raw
    else raw = content

/-- The row of the key is well formed and the cache agrees with it. Nothing is asked of the
bytes of an encrypted row. -/
structure WellFormed (sm : StorageManager) (w : World) (b k : String) : Prop where
  row : ∀ file, w.db.files.find (b, k) = some file → file.encrypted = false →
    ∃ content raw, RowSound sm w file content raw
  metadata : ∀ f, w.cache.getFileMetadata b k = some f →
    ∃ g, w.db.files.find (b, k) = some g ∧ Alike f g
  content : ∀ x, w.cache.getFileContent b k = some x →
    ∃ g, w.db.files.find (b, k) = some g ∧ w.bytesAt sm.host g.filePath = some x

/-- Compression is switched off for the service, and a satisfiable range of a compressed row
is asked for: the range is decompressed, the whole is not. -/
structure Undecoded (st : AppState) (headers : HeaderMap) (w : World) (b path : String) : Prop where
  file : ¬ EndsInInfo path
  allowed : requireDownloadToken st headers (some b) = .ok ()
  disabled : st.storage.config.compression.enabled = false
  row : ∃ file value, w.db.files.find (b, path) = some file ∧
    past w.now file.expiresAt = false ∧ file.compressed = true ∧ file.encrypted = false ∧
    isHeaderValue file.contentType = true ∧ headers.text "range" = some value ∧
    (parseRangeHeader value (asU64 file.originalSize)).isSome = true

variable {st : AppState} {sm : StorageManager} {headers : HeaderMap} {h : Host} {w u v : World}
  {b k path : String} {file : StoredFile} {full : Bytes} {start stop total : Nat}

/-! ## Header texts -/

theorem parseRangeHeader_bounds {value : String}
    (hp : parseRangeHeader value total = some (start, stop)) : start ≤ stop ∧ stop < total := by
  simp only [parseRangeHeader, Option.bind_eq_bind, Option.bind_eq_some_iff] at hp
  obtain ⟨spec, -, hp⟩ := hp
  split at hp
  · simp at hp
  · obtain ⟨⟨startStr, endStr⟩, -, hp⟩ := Option.bind_eq_some_iff.mp hp
    dsimp only at hp
    split at hp
    · obtain ⟨suffixLen, -, hp⟩ := Option.bind_eq_some_iff.mp hp
      split at hp
      · simp at hp
      · simp only [Option.some.injEq, Prod.mk.injEq] at hp
        omega
    · obtain ⟨first, -, hp⟩ := Option.bind_eq_some_iff.mp hp
      obtain ⟨last, -, hp⟩ := Option.bind_eq_some_iff.mp hp
      split at hp
      · simp at hp
      · simp only [Option.some.injEq, Prod.mk.injEq] at hp
        omega

theorem toList_contentRange : (contentRange start stop total).toList =
    "bytes ".toList ++ Nat.toDigits 10 start ++ ['-'] ++ Nat.toDigits 10 stop ++ ['/'] ++
      Nat.toDigits 10 total := by
  have hstring : ∀ s : String, toString s = s := fun _ => rfl
  simp [contentRange, String.toList_append, hstring]

/-- The number after the last slash is the total. -/
theorem contentRange_total {start' stop' total' : Nat}
    (hsame : contentRange start stop total = contentRange start' stop' total') : total = total' := by
  have hdigits : ∀ n, ∀ c ∈ Nat.toDigits 10 n, c ≠ '/' := by
    intro n c hc hslash
    have hdigit := Nat.isDigit_of_mem_toDigits (by decide) (by decide) hc
    rw [hslash] at hdigit
    simp at hdigit
  have hlast : ∀ a b n, ((contentRange a b n).toList.reverse.takeWhile (· ≠ '/')).reverse =
      Nat.toDigits 10 n := by
    intro a b n
    rw [toList_contentRange, List.reverse_append, List.takeWhile_append_of_pos (by simpa using hdigits n)]
    simp
  have hsuffix := hlast start stop total
  rw [hsame, hlast start' stop' total'] at hsuffix
  have hnumber := congrArg (fun ds => Nat.ofDigitChars 10 ds 0) hsuffix
  simpa using hnumber.symm

theorem isHeaderValue_contentRange : isHeaderValue (contentRange start stop total) = true := by
  have hshape : contentRange start stop total =
      "bytes " ++ Nat.repr start ++ "-" ++ Nat.repr stop ++ "/" ++ Nat.repr total := rfl
  have hfixed : isHeaderValue "bytes " = true ∧ isHeaderValue "-" = true ∧
      isHeaderValue "/" = true := by decide
  simp only [hshape, isHeaderValue_append, isHeaderValue_repr, hfixed, Bool.and_self]

/-! ## What a request goes by -/

theorem Alike.refl (f : StoredFile) : Alike f f := ⟨rfl, rfl, rfl⟩

theorem Alike.touch {f : StoredFile} (hf : Alike f file) (id : Uuid) (now : Time) :
    Alike (Database.touch id now f) file := by
  refine ⟨(recipe_touch id now f).trans hf.recipe, ?_, ?_⟩
  · rw [Database.touch_fileSize, hf.fileSize]
  · rw [Database.touch_originalSize, hf.originalSize]

/-- In `u`, later in a request that began in `w`, the key still has the row, and the cache
says nothing else. -/
structure Stands (h : Host) (b k : String) (file : StoredFile) (w u : World) : Prop where
  row : ∃ g, u.db.files.find (b, k) = some g ∧ Alike g file
  metadata : ∀ f, u.cache.getFileMetadata b k = some f → Alike f file
  content : ∀ x, u.cache.getFileContent b k = some x → w.bytesAt h file.filePath = some x
  disk : u.fs = w.fs
  keys : u.db.encryptionKeys = w.db.encryptionKeys
  clock : w.now ≤ u.now

theorem WellFormed.stands (hw : WellFormed sm w b k) (hrow : w.db.files.find (b, k) = some file) :
    Stands sm.host b k file w w where
  row := ⟨file, hrow, .refl file⟩
  metadata := by
    intro f hf
    obtain ⟨g, hg, halike⟩ := hw.metadata f hf
    rw [hrow, Option.some.injEq] at hg
    exact hg ▸ halike
  content := by
    intro x hx
    obtain ⟨g, hg, hbytes⟩ := hw.content x hx
    rw [hrow, Option.some.injEq] at hg
    exact hg ▸ hbytes
  disk := rfl
  keys := rfl
  clock := le_refl _

theorem Stands.cached {g : StoredFile} (hs : Stands h b k file w u) (hg : Alike g file) :
    Stands h b k file w { u with cache := u.cache.setFileMetadata b k g } where
  row := hs.row
  metadata := by
    intro f hf
    rw [Cache.getFileMetadata_setFileMetadata, if_pos (Cache.SameSlot.refl b k),
      Option.some.injEq] at hf
    exact hf ▸ hg
  content := hs.content
  disk := hs.disk
  keys := hs.keys
  clock := hs.clock

theorem Stands.counted {id : Uuid} {db : Database} (hs : Stands h b k file w u)
    (hdb : u.db.updateAccess id u.now = .ok db) : Stands h b k file w { u with db := db } where
  row := by
    obtain ⟨g, hg, halike⟩ := hs.row
    rcases (Database.updateAccess_ok hdb).1 with hf | hf
    · exact ⟨g, by rw [hf]; exact hg, halike⟩
    · refine ⟨Database.touch id u.now g, ?_, halike.touch id u.now⟩
      rw [hf, Table.find_update, hg]
      rfl
  metadata := hs.metadata
  content := hs.content
  disk := hs.disk
  keys := (Database.updateAccess_ok hdb).2.2.trans hs.keys
  clock := hs.clock

theorem Stands.later {now : Time} (hs : Stands h b k file w u) (hnow : u.now ≤ now) :
    Stands h b k file w { u with now := now } :=
  ⟨hs.row, hs.metadata, hs.content, hs.disk, hs.keys, le_trans hs.clock hnow⟩

theorem Stands.recordOf (hs : Stands h b k file w u) :
    ∃ f, recordOf u b k = some f ∧ Alike f file := by
  unfold StorageManager.recordOf
  cases hf : u.cache.getFileMetadata b k with
  | some f => exact ⟨f, rfl, hs.metadata f hf⟩
  | none =>
    obtain ⟨g, hg, halike⟩ := hs.row
    exact ⟨g, hg, halike⟩

theorem Stands.rawOf {f : StoredFile} (hs : Stands h b k file w u) (hf : Alike f file) :
    rawOf h u b k f = w.bytesAt h file.filePath := by
  unfold StorageManager.rawOf
  cases hx : u.cache.getFileContent b k with
  | some x => exact (hs.content x hx).symm
  | none =>
    have hpath := (recipe_eq.mp hf.recipe).1
    simp only [World.bytesAt, hs.disk, hpath]
    rfl

/-- A read answers by the row and its bytes on disk. -/
theorem Stands.readResult (hs : Stands sm.host b k file w u) : readResult sm u b k =
    if past u.now file.expiresAt then .error (.notFound b k)
    else
      match w.bytesAt sm.host file.filePath with
      | none => .error (.notFound b k)
      | some raw => (sm.decoded w.db file raw).map fun full => (full, some file.contentType) := by
  obtain ⟨f, hrecord, halike⟩ := hs.recordOf
  obtain ⟨-, -, -, -, -, htype, hexp⟩ := recipe_eq.mp halike.recipe
  have hkeys : ∀ id, u.db.selectKey id = w.db.selectKey id := by
    intro id
    simp only [Database.selectKey, hs.keys]
  have hdecoded : ∀ raw, sm.decoded u.db f raw = sm.decoded w.db file raw :=
    decoded_congr halike.recipe hkeys
  simp only [StorageManager.readResult, hrecord, hs.rawOf halike, htype, hexp]
  split
  · rfl
  · cases w.bytesAt sm.host file.filePath with
    | none => rfl
    | some raw => simp only [hdecoded]

/-- Whatever `getFile` can answer in `u` it answers in `w`. -/
def Falls (sm : StorageManager) (b k : String) (w u : World) : Prop :=
  ∀ y, readResult sm u b k = .ok y → readResult sm w b k = .ok y

theorem Stands.falls (hw : WellFormed sm w b k) (hrow : w.db.files.find (b, k) = some file)
    (hs : Stands sm.host b k file w u) : Falls sm b k w u := by
  intro y hy
  rw [hs.readResult] at hy
  rw [(hw.stands hrow).readResult]
  cases hu : past u.now file.expiresAt with
  | true => simp [hu] at hy
  | false =>
    have hlive : past w.now file.expiresAt = false := by
      cases hp : past w.now file.expiresAt with
      | false => rfl
      | true => exact absurd (past_mono hp hs.clock) (by simp [hu])
    simpa [hlive, hu] using hy

/-! ## The readers on the way -/

theorem readMetadata_stands (hs : Stands h b k file w u) :
    (readMetadata b k).Ensures (exec h)
      (fun x v => Stands h b k file w v ∧ ∀ f, x = .ok f → Alike f file) u := by
  simp only [readMetadata, dbGetFile, step_eq, Prog.bind_eq, Prog.act_bind, Prog.ret_bind,
    Prog.pure_eq]
  rw [ensures_getFileMetadata]
  cases hc : u.cache.getFileMetadata b k with
  | some f =>
    simp only [Prog.ensures_ret, Except.ok.injEq]
    exact ⟨hs, fun g hg => hg ▸ hs.metadata f hc⟩
  | none =>
    obtain ⟨g, hg, halike⟩ := hs.row
    simp only [Prog.bind_assoc]
    refine ensures_selectFile (fun e => ⟨hs, by simp⟩) ?_
    simp only [Database.selectFile, hg, Prog.ret_bind, ensures_setFileMetadata, Prog.ensures_ret,
      Except.ok.injEq]
    exact ⟨hs.cached halike, fun f hf => hf ▸ halike⟩

theorem getFileRangeIfPlain_stands (hs : Stands h b k file w u) :
    (getFileRangeIfPlain b k start stop).Ensures (exec h) (fun _ v => Stands h b k file w v) u := by
  simp only [getFileRangeIfPlain, ofIo, step_eq, Prog.bind_eq, Prog.act_bind, Prog.ret_bind,
    Prog.pure_eq]
  rw [Prog.ensures_bind]
  refine (readMetadata_stands hs).mono fun x v hx => ?_
  cases x with
  | error e => exact hx.1
  | ok f =>
    dsimp only
    split
    · exact Prog.ensures_ret.mpr hx.1
    · split
      · exact Prog.ensures_ret.mpr hx.1
      · apply ensures_readRange
        intro r
        cases r with
        | error e => exact Prog.ensures_fail.mpr hx.1
        | ok buf =>
          apply ensures_updateAccess
          · exact Prog.ensures_ret.mpr hx.1
          · intro db hdb
            exact Prog.ensures_ret.mpr (hx.1.counted hdb)

theorem getCompressedFileRange_stands (hs : Stands sm.host b k file w u) :
    (sm.getCompressedFileRange b k start stop).Ensures (exec sm.host)
      (fun _ v => Stands sm.host b k file w v) u := by
  simp only [getCompressedFileRange, ofIo, step_eq, Prog.bind_eq, Prog.act_bind, Prog.ret_bind,
    Prog.pure_eq]
  rw [Prog.ensures_bind]
  refine (readMetadata_stands hs).mono fun x v hx => ?_
  cases x with
  | error e => exact hx.1
  | ok f =>
    dsimp only
    split
    · exact Prog.ensures_ret.mpr hx.1
    · split
      · exact Prog.ensures_ret.mpr hx.1
      · apply ensures_readFile
        · intro raw _
          simp only [Except.mapError, Prog.ofExcept_ok, Prog.ret_bind]
          cases CompressionManager.decompressRange sm.lib.toCodecs raw start
              (min stop (asU64 f.originalSize - 1) - start + 1) with
          | error e => exact Prog.ensures_fail.mpr hx.1
          | ok buf =>
            cases buf with
            | none => exact Prog.ensures_ret.mpr hx.1
            | some buf =>
              apply ensures_updateAccess
              · exact Prog.ensures_ret.mpr hx.1
              · intro db hdb
                exact Prog.ensures_ret.mpr (hx.1.counted hdb)
        · intro e
          exact Prog.ensures_fail.mpr hx.1

/-- The lookup before a range finds the live row, or leaves nothing to read that was not
there before. -/
theorem getFileInfo_spec (hw : WellFormed sm w b k) :
    (getFileInfo b k).Ensures (exec sm.host) (fun x u => match x with
      | .ok info => ∃ file, w.db.files.find (b, k) = some file ∧
          past w.now file.expiresAt = false ∧ info = FileInfo.ofStored file ∧
          Stands sm.host b k file w u
      | .error _ => Falls sm b k w u) w := by
  simp only [getFileInfo, dbGetFile, expireFile, step_eq, Prog.bind_eq, Prog.act_bind,
    Prog.ret_bind, Prog.pure_eq, Prog.bind_assoc]
  refine ensures_selectFile (fun e => fun y hy => hy) ?_
  cases hrow : w.db.files.find (b, k) with
  | none =>
    simp only [Database.selectFile, hrow, Prog.fail_bind, Prog.ensures_fail]
    exact fun y hy => hy
  | some file =>
    have hs := hw.stands hrow
    simp only [Database.selectFile, hrow, Prog.ret_bind]
    cases hexp : file.expiresAt with
    | none =>
      simp only [Prog.ret_bind, Prog.ensures_ret]
      exact ⟨file, rfl, by simp [past, hexp], rfl, hs⟩
    | some t =>
      simp only [Prog.act_bind]
      refine ensures_utcNow fun now hnow => ?_
      split
      · rename_i hpast
        simp only [Prog.bind_assoc, Prog.fail_bind]
        rw [Prog.ensures_bind, Prog.ensures_attempt]
        refine deleteFile_spec.mono fun x v hx => ?_
        rw [Prog.ensures_fail]
        intro y hy
        cases x with
        | ok _ =>
          -- the row has gone with its cache entry
          obtain ⟨_, hdeleted⟩ := hx
          have hnone : recordOf v b k = none := by
            simp only [recordOf, hdeleted.cache, Cache.getFileMetadata_invalidateFile,
              if_pos (Cache.SameSlot.refl b k), Database.selectFile, hdeleted.files,
              Table.find_erase_self]
            rfl
          simp [readResult, hnone] at hy
        | error e =>
          obtain rfl : v = { w with now := now } := hx
          rw [(hs.later hnow).readResult, hexp, if_pos (by simp [past, hpast])] at hy
          simp at hy
      · rename_i hlive
        simp only [Prog.ret_bind, Prog.ensures_ret]
        refine ⟨file, rfl, ?_, rfl, hs.later hnow⟩
        rw [hexp]
        simp only [past, decide_eq_false_iff_not]
        exact fun hle => hlive (le_trans hle hnow)

/-! ## The ranges on the way -/

/-- What a reader of a plain or compressed file cuts its range from. -/
structure Cut (sm : StorageManager) (w : World) (b k value : String) (response : HttpResponse) :
    Prop where
  range : ∃ file content raw start stop, w.db.files.find (b, k) = some file ∧
    past w.now file.expiresAt = false ∧ file.encrypted = false ∧ RowSound sm w file content raw ∧
    isHeaderValue file.contentType = true ∧
    parseRangeHeader value content.length = some (start, stop) ∧
    response.body = .bytes (slice content start stop) ∧
    ("content-range", contentRange start stop content.length) ∈ response.headers

theorem RowSound.asU64_originalSize {content raw : Bytes} (hr : RowSound sm w file content raw) :
    asU64 file.originalSize = content.length := by
  have hbound := hr.bounded
  rw [asU64, hr.originalSize]
  omega

theorem RowSound.asU64_fileSize {content raw : Bytes} (hr : RowSound sm w file content raw)
    (hc : file.compressed = false) : asU64 file.fileSize = content.length := by
  have hbound := hr.bounded
  have hsame : raw = content := by simpa [hc] using hr.packed
  rw [asU64, hr.fileSize, hsame]
  omega

theorem partialContent_eq_ok {part : Bytes} {contentType : String} {response : HttpResponse} :
    partialContent part contentType start stop total = .ok response ↔
      isHeaderValue contentType = true ∧ response = ⟨206, [("content-type", contentType),
        ("accept-ranges", "bytes"), ("content-range", contentRange start stop total)],
        .bytes part⟩ := by
  have hrange : headerValue (contentRange start stop total) "Invalid range" =
      .ok (contentRange start stop total) :=
    headerValue_eq_ok.mpr ⟨isHeaderValue_contentRange, rfl⟩
  unfold partialContent
  cases hc : headerValue contentType "Invalid content type" with
  | error e =>
    have hinvalid : isHeaderValue contentType ≠ true := by
      intro hvalid
      rw [headerValue_eq_ok.mpr ⟨hvalid, rfl⟩] at hc
      simp at hc
    simp [hinvalid, bind, Except.bind]
  | ok value =>
    obtain ⟨hvalid, rfl⟩ := headerValue_eq_ok.mp hc
    simp [hrange, hvalid, bind, Except.bind, pure, Except.pure, eq_comm]

/-- The bytes an upload leaves are sound, whatever options it was made with. -/
theorem RowSound.of_processed {content raw : Bytes}
    (hp : SharedBytes.ProcessedBytes sm w.db content raw file) (he : file.encrypted = false)
    (hbytes : w.bytesAt sm.host file.filePath = some raw) (hsize : file.fileSize = raw.length)
    (horiginal : file.originalSize = content.length) (hbound : content.length < 2 ^ 63) :
    RowSound sm w file content raw := by
  refine ⟨hbytes, hsize, horiginal, hbound, ?_⟩
  obtain ⟨opts, enc, hcomp, henc, hencrypted, -⟩ := hp
  obtain rfl : enc = false := by simpa [StoredFile.encrypted, henc] using he
  have hraw : raw = (sm.compressStage opts content).1 := by
    unfold EncryptedAs at hencrypted
    split at hencrypted
    · simp at hencrypted
    · exact hencrypted.2
  simp only [StoredFile.compressed, hcomp, Option.getD_some]
  cases hc : (sm.compressStage opts content).2 with
  | false =>
    simp only [Bool.false_eq_true, ↓reduceIte]
    exact hraw.trans (compressStage_unchanged hc)
  | true =>
    obtain ⟨hz, hlt⟩ := RoundTrip.compressStage_kept hc
    rw [← hraw] at hz hlt
    exact ⟨hlt, sm.compressor opts, hz⟩

/-- A range inside the content is not clamped. -/
theorem clamp {content : Bytes} (hle : start ≤ stop) (hlt : stop < content.length) :
    min stop (content.length - 1) = stop ∧ ¬ (content.length = 0 ∨ stop < start) ∧
      stop - start + 1 = stop + 1 - start := by
  omega

theorem rangeNotSatisfiable_status {response : HttpResponse}
    (hn : rangeNotSatisfiable total = .ok response) : response.status ≠ 206 := by
  unfold rangeNotSatisfiable at hn
  generalize headerValue _ _ = range at hn
  cases range with
  | error e => simp [bind, Except.bind] at hn
  | ok range =>
    simp only [bind, Except.bind, pure, Except.pure, Except.ok.injEq] at hn
    simp [← hn]

section Ranges
variable {content raw part : Bytes} {contentType : String}

theorem plainRange_kind (hs : Stands sm.host b k file w u)
    (hy : plainRange sm.host u b k start stop = some (part, contentType, total)) :
    file.compressed = false ∧ file.encrypted = false := by
  obtain ⟨f, hrecord, halike⟩ := hs.recordOf
  obtain ⟨-, hc, he, -, -, -, -⟩ := recipe_eq.mp halike.recipe
  simp only [plainRange, hrecord, Option.bind_eq_bind, Option.bind_some, hc, he] at hy
  split at hy
  · simp at hy
  · rename_i hkind
    simpa using hkind

theorem compressedRange_kind (hs : Stands sm.host b k file w u)
    (hy : compressedRange sm u b k start stop = some (part, contentType, total)) :
    file.encrypted = false ∧ file.compressed = true := by
  obtain ⟨f, hrecord, halike⟩ := hs.recordOf
  obtain ⟨-, hc, he, -, -, -, -⟩ := recipe_eq.mp halike.recipe
  simp only [compressedRange, hrecord, Option.bind_eq_bind, Option.bind_some, hc, he] at hy
  split at hy
  · simp at hy
  · rename_i hkind
    simpa using hkind

theorem plainRange_eq (hs : Stands sm.host b k file w u) (hr : RowSound sm w file content raw)
    (hc : file.compressed = false) (he : file.encrypted = false) (hle : start ≤ stop)
    (hlt : stop < content.length) : plainRange sm.host u b k start stop =
      some (slice content start stop, file.contentType, content.length) := by
  obtain ⟨f, hrecord, halike⟩ := hs.recordOf
  obtain ⟨hpath, hfc, hfe, -, -, htype, -⟩ := recipe_eq.mp halike.recipe
  have hraw : raw = content := by simpa [hc] using hr.packed
  have hbytes : u.bytesAt sm.host file.filePath = some content := by
    rw [← hraw, ← hr.bytes]
    simp only [World.bytesAt, hs.disk]
  obtain ⟨hmin, hrange, hwidth⟩ := clamp hle hlt
  simp only [plainRange, hrecord, Option.bind_eq_bind, Option.bind_some, hfc, hc, hfe, he,
    halike.fileSize, hr.asU64_fileSize hc, hmin, hrange, hpath, hbytes, htype, hwidth, Bool.or_self,
    Bool.false_eq_true, ↓reduceIte]
  rw [if_pos (by omega)]
  rfl

/-- Whether the service compresses or not. -/
theorem compressedRange_eq (law : sm.lib.toCodecs.Lawful) (hs : Stands sm.host b k file w u)
    (hr : RowSound sm w file content raw) (hc : file.compressed = true)
    (he : file.encrypted = false) (hle : start ≤ stop) (hlt : stop < content.length) :
    compressedRange sm u b k start stop =
      some (slice content start stop, file.contentType, content.length) := by
  obtain ⟨f, hrecord, halike⟩ := hs.recordOf
  obtain ⟨hpath, hfc, hfe, -, -, htype, -⟩ := recipe_eq.mp halike.recipe
  obtain ⟨hsmaller, writer, hwriter⟩ : raw.length < content.length ∧
      ∃ writer : CompressionManager, writer.compress sm.lib.toCodecs content = .ok raw := by
    simpa [hc] using hr.packed
  have hne : raw ≠ content := by
    intro hsame
    rw [hsame] at hsmaller
    omega
  have hbytes : u.bytesAt sm.host file.filePath = some raw := by
    rw [← hr.bytes]
    simp only [World.bytesAt, hs.disk]
  obtain ⟨hmin, hrange, hwidth⟩ := clamp hle hlt
  have hslice : CompressionManager.decompressRange sm.lib.toCodecs raw start (stop + 1 - start) =
      .ok (some ((content.drop start).take (stop + 1 - start))) :=
    CompressionManager.decompressRange_compress law hwriter hne (by omega)
  simp only [compressedRange, hrecord, Option.bind_eq_bind, Option.bind_some, hfc, hc, hfe, he,
    halike.originalSize, hr.asU64_originalSize, hmin, hrange, hpath, hbytes, htype, hwidth, hslice,
    Bool.not_true, Bool.or_self, Bool.false_eq_true, ↓reduceIte]
  rfl

end Ranges

/-- A partial answer of the two readers is cut from the content; what they leave alone falls
through to a read like the first one. -/
theorem rangeRequest_spec (law : sm.lib.toCodecs.Lawful) (hw : WellFormed sm w b k)
    (value : String) : (rangeRequest sm b k value).Ensures (exec sm.host) (fun x u => match x with
      | .ok (some response) => response.status = 206 → Cut sm w b k value response
      | .ok none => Falls sm b k w u
      | .error _ => True) w := by
  simp only [rangeRequest, Prog.bind_eq, Prog.pure_eq]
  rw [Prog.ensures_bind, Prog.ensures_attempt]
  refine (getFileInfo_spec hw).mono fun x u hx => ?_
  cases x with
  | error e => exact Prog.ensures_ret.mpr hx
  | ok info =>
    obtain ⟨file, hrow, hlive, rfl, hs⟩ := hx
    dsimp only
    split
    · rename_i start stop hparse
      -- the answer of either reader, once it has cut its part
      have hanswer : ∀ part contentType total v, file.encrypted = false →
          (∀ content raw, RowSound sm w file content raw → start ≤ stop → stop < content.length →
            (part, contentType, total) = (slice content start stop, file.contentType,
              content.length)) →
          ((Prog.ofExcept (partialContent part contentType start stop total)).bind fun response =>
            .ret (some response) : Op (Option HttpResponse)).Ensures (exec sm.host)
            (fun x u => match x with
              | .ok (some response) => response.status = 206 → Cut sm w b k value response
              | .ok none => Falls sm b k w u
              | .error _ => True) v := by
        intro part contentType total v hplain hcut
        obtain ⟨content, raw, hsound⟩ := hw.row file hrow hplain
        have htotal : asU64 (FileInfo.ofStored file).originalSize = content.length :=
          hsound.asU64_originalSize
        rw [htotal] at hparse
        obtain ⟨hle, hlt⟩ := parseRangeHeader_bounds hparse
        obtain ⟨rfl, hrest⟩ := Prod.mk.inj (hcut content raw hsound hle hlt)
        obtain ⟨rfl, rfl⟩ := Prod.mk.inj hrest
        cases hp : partialContent (slice content start stop) file.contentType start stop
            content.length with
        | error e => simp
        | ok response =>
          obtain ⟨hvalid, rfl⟩ := partialContent_eq_ok.mp hp
          simp only [Prog.ofExcept_ok, Prog.ret_bind, Prog.ensures_ret, forall_const]
          exact ⟨file, content, raw, start, stop, hrow, hlive, hplain, hsound, hvalid, hparse, rfl,
            by simp⟩
      rw [Prog.ensures_bind, Prog.ensures_attempt]
      intro x v hplain
      have hv : Stands sm.host b k file w v := getFileRangeIfPlain_stands hs x v hplain
      dsimp only
      split
      · rename_i part contentType total
        have hy := getFileRangeIfPlain_ok hplain
        obtain ⟨hc, he⟩ := plainRange_kind hs hy
        refine hanswer part contentType total v he fun content raw hr hle hlt => ?_
        rw [plainRange_eq hs hr hc he hle hlt] at hy
        exact (Option.some.inj hy).symm
      · rw [Prog.ensures_bind, Prog.ensures_attempt]
        intro x t hpacked
        have ht : Stands sm.host b k file w t := getCompressedFileRange_stands hv x t hpacked
        dsimp only
        split
        · rename_i part contentType total
          have hy := getCompressedFileRange_ok hpacked
          obtain ⟨he, hc⟩ := compressedRange_kind hv hy
          refine hanswer part contentType total t he fun content raw hr hle hlt => ?_
          rw [compressedRange_eq law hv hr hc he hle hlt] at hy
          exact (Option.some.inj hy).symm
        · exact Prog.ensures_ret.mpr (ht.falls hw hrow)
    · split
      · split
        · exact Prog.ensures_ret.mpr (hs.falls hw hrow)
        · cases hn : rangeNotSatisfiable (asU64 (FileInfo.ofStored file).originalSize) with
          | error e => simp
          | ok response =>
            simp only [Prog.ofExcept_ok, Prog.ret_bind, Prog.ensures_ret]
            intro hstatus
            exact absurd hstatus (rangeNotSatisfiable_status hn)
      · exact Prog.ensures_ret.mpr (hs.falls hw hrow)

/-! ## Part and whole -/

theorem text_withoutRange {name : String} (hname : name ≠ "range") :
    (withoutRange headers).text name = headers.text name := by
  simp only [HeaderMap.text, withoutRange, List.find?_filter]
  congr 2
  funext header
  by_cases hheader : header.1 = name <;> simp [hheader, hname]

theorem text_range_withoutRange : (withoutRange headers).text "range" = none := by
  have hnone : (withoutRange headers).find? (·.1 = "range") = none := by
    simp [withoutRange]
  rw [HeaderMap.text, hnone]
  rfl

theorem eval_whole {contentType : String} (hend : ¬ EndsInInfo path)
    (hallowed : requireDownloadToken st headers (some b) = .ok ())
    (hresult : readResult st.storage w b path = .ok (full, some contentType))
    (hvalid : isHeaderValue contentType = true) :
    ((handleFileRequest st b path (withoutRange headers)).eval (exec st.storage.host) calm w).1 =
      .ok (whole full contentType) := by
  have hsame : requireDownloadToken st (withoutRange headers) (some b) = .ok () := by
    rw [← hallowed]
    simp only [requireDownloadToken, text_withoutRange (show downloadTokenHeader ≠ "range" by decide)]
  rw [handleFileRequest_file hend, hsame, text_range_withoutRange, Prog.ofExcept_ok, Prog.ret_bind]
  rw [← served_eq] at hresult
  exact eval_downloadFile hresult hvalid

theorem fullContent_partial {contentType : String} {range : Option String}
    {response : HttpResponse} (hf : fullContent full (some contentType) range = .ok response)
    (hstatus : response.status = 206) : isHeaderValue contentType = true ∧
      ∃ value start stop, range = some value ∧
        parseRangeHeader value full.length = some (start, stop) ∧
        response.body = .bytes (slice full start stop) ∧
        ("content-range", contentRange start stop full.length) ∈ response.headers := by
  unfold fullContent at hf
  simp only [Option.elim_some] at hf
  cases hc : headerValue contentType "Invalid content type" with
  | error e => simp [hc, bind, Except.bind] at hf
  | ok ct =>
    obtain ⟨hvalid, -⟩ := headerValue_eq_ok.mp hc
    simp only [hc, bind, Except.bind] at hf
    split at hf
    · rename_i start stop hparse
      obtain ⟨value, hvalue, hparse⟩ := Option.bind_eq_some_iff.mp hparse
      have hrange : headerValue (contentRange start stop full.length) "Invalid range" =
          .ok (contentRange start stop full.length) :=
        headerValue_eq_ok.mpr ⟨isHeaderValue_contentRange, rfl⟩
      simp only [hrange, pure, Except.pure, Except.ok.injEq] at hf
      subst hf
      exact ⟨hvalid, value, start, stop, hvalue, hparse, rfl, by simp⟩
    · simp only [pure, Except.pure, Except.ok.injEq] at hf
      subst hf
      simp at hstatus

/-- The whole answer of a row that is not encrypted. -/
theorem RowSound.readResult {content raw : Bytes} (law : sm.lib.toCodecs.Lawful)
    (hw : WellFormed sm w b k) (hrow : w.db.files.find (b, k) = some file)
    (hlive : past w.now file.expiresAt = false) (he : file.encrypted = false)
    (hr : RowSound sm w file content raw) : readResult sm w b k =
      .ok (if sm.config.compression.enabled = true ∨ file.compressed = false then content else raw,
        some file.contentType) := by
  rw [(hw.stands hrow).readResult, hlive, hr.bytes]
  simp only [Bool.false_eq_true, ↓reduceIte, decoded, decrypted, he]
  cases hc : file.compressed with
  | false =>
    have hraw : raw = content := by simpa [hc] using hr.packed
    simp [hraw, Except.map]
  | true =>
    obtain ⟨hsmaller, writer, hwriter⟩ : raw.length < content.length ∧
        ∃ writer : CompressionManager, writer.compress sm.lib.toCodecs content = .ok raw := by
      simpa [hc] using hr.packed
    have hne : raw ≠ content := by
      intro hsame
      rw [hsame] at hsmaller
      omega
    cases hon : sm.config.compression.enabled with
    | true =>
      have hwhole : sm.compression.decompress sm.lib.toCodecs raw = .ok content :=
        CompressionManager.decompress_compress law hon hwriter hne
      simp [hwhole, Except.map]
    | false =>
      have hwhole : sm.compression.decompress sm.lib.toCodecs raw = .ok raw :=
        CompressionManager.decompress_disabled hon raw
      simp [hwhole, Except.map]

theorem Cut.partOfWhole {value : String} {response : HttpResponse}
    (law : st.storage.lib.toCodecs.Lawful) (hw : WellFormed st.storage w b path)
    (hend : ¬ EndsInInfo path) (hallowed : requireDownloadToken st headers (some b) = .ok ())
    (hvalue : headers.text "range" = some value) (hnot : ¬ Undecoded st headers w b path)
    (hcut : Cut st.storage w b path value response) : PartOfWhole st headers w b path response := by
  obtain ⟨file, content, raw, start, stop, hrow, hlive, he, hr, hvalid, hparse, hbody, hrange⟩ :=
    hcut.range
  have hon : st.storage.config.compression.enabled = true ∨ file.compressed = false := by
    by_contra hoff
    simp only [not_or, Bool.not_eq_true, Bool.not_eq_false] at hoff
    apply hnot
    refine ⟨hend, hallowed, hoff.1, file, value, hrow, hlive, hoff.2, he, hvalid, hvalue, ?_⟩
    rw [hr.asU64_originalSize, hparse]
    rfl
  have hresult := hr.readResult law hw hrow hlive he
  rw [if_pos hon] at hresult
  obtain ⟨hle, hlt⟩ := parseRangeHeader_bounds hparse
  exact ⟨content, file.contentType, value, start, stop, eval_whole hend hallowed hresult hvalid,
    hvalue, hparse, hle, hlt, hbody, hrange⟩

theorem ranges_agree (law : st.storage.lib.toCodecs.Lawful) (hw : WellFormed st.storage w b path)
    (hnot : ¬ Undecoded st headers w b path) : RangesAgree st headers w b path := by
  intro response t hrun hstatus
  by_cases hend : EndsInInfo path
  · rw [handleFileRequest_info hend] at hrun
    obtain ⟨_, u, -, hrun₁⟩ := Prog.runs_bind_ok.mp hrun
    obtain ⟨info, v, -, hrun₂⟩ := Prog.runs_bind_ok.mp hrun₁
    obtain ⟨hresponse, -⟩ := Prog.runs_ret.mp hrun₂
    obtain rfl := Except.ok.inj hresponse
    simp at hstatus
  · rw [handleFileRequest_file hend] at hrun
    obtain ⟨_, u, hpassed, hrun₁⟩ := Prog.runs_bind_ok.mp hrun
    obtain ⟨hallowed, rfl⟩ := Prog.runs_ofExcept.mp hpassed
    simp only [downloadFile, Prog.bind_eq, Prog.pure_eq] at hrun₁
    obtain ⟨early, v, hearly, hrun₂⟩ := Prog.runs_bind_ok.mp hrun₁
    cases hvalue : headers.text "range" with
    | none =>
      rw [hvalue, Option.elim_none] at hearly
      obtain ⟨hearly, -⟩ := Prog.runs_ret.mp hearly
      obtain rfl := Except.ok.inj hearly
      obtain ⟨y, x, hread, hfull⟩ := Prog.runs_bind_ok.mp hrun₂
      obtain ⟨hfull, -⟩ := Prog.runs_ofExcept.mp hfull
      obtain ⟨contentType, htype⟩ := readResult_contentType (getFile_ok hread)
      rw [htype] at hfull
      obtain ⟨-, value, -, -, hsome, -⟩ := fullContent_partial hfull.symm hstatus
      rw [hvalue] at hsome
      simp at hsome
    | some value =>
      rw [hvalue, Option.elim_some] at hearly
      have hspec := rangeRequest_spec law hw value _ _ hearly
      cases early with
      | some early =>
        obtain ⟨hresponse, -⟩ := Prog.runs_ret.mp hrun₂
        obtain rfl := Except.ok.inj hresponse
        exact (hspec hstatus).partOfWhole law hw hend hallowed.symm hvalue hnot
      | none =>
        obtain ⟨y, x, hread, hfull⟩ := Prog.runs_bind_ok.mp hrun₂
        obtain ⟨hfull, -⟩ := Prog.runs_ofExcept.mp hfull
        have hresult := hspec y (getFile_ok hread)
        obtain ⟨contentType, htype⟩ := readResult_contentType hresult
        obtain ⟨full, type⟩ := y
        obtain rfl : type = some contentType := htype
        obtain ⟨hvalid, value', start, stop, hvalue', hparse, hbody, hrange⟩ :=
          fullContent_partial hfull.symm hstatus
        obtain ⟨hle, hlt⟩ := parseRangeHeader_bounds hparse
        exact ⟨full, contentType, value', start, stop,
          eval_whole hend hallowed.symm hresult hvalid, hvalue', hparse, hle, hlt, hbody, hrange⟩

/-- The range is decompressed and counts the content, the whole is the compressed bytes. -/
theorem undecoded_disagrees (law : st.storage.lib.toCodecs.Lawful)
    (hw : WellFormed st.storage w b path) (hu : Undecoded st headers w b path) :
    ¬ RangesAgree st headers w b path := by
  intro hagree
  obtain ⟨hend, hallowed, hoff, file, value, hrow, hlive, hc, he, hvalid, hvalue, hparse⟩ := hu
  obtain ⟨content, raw, hr⟩ := hw.row file hrow he
  obtain ⟨hsmaller, -⟩ : raw.length < content.length ∧
      ∃ writer : CompressionManager, writer.compress st.storage.lib.toCodecs content = .ok raw := by
    simpa [hc] using hr.packed
  obtain ⟨⟨start, stop⟩, hparse⟩ := Option.isSome_iff_exists.mp hparse
  have hbounds := parseRangeHeader_bounds hparse
  rw [hr.asU64_originalSize] at hbounds
  have hs := hw.stands hrow
  -- the plain reader declines, in whatever state it ends
  let plain := (getFileRangeIfPlain b path start stop).eval (exec st.storage.host) calm w
  have hplain : (getFileRangeIfPlain b path start stop).Runs (exec st.storage.host) w plain.1 plain.2 :=
    Prog.eval_runs calm _ w
  have hv : Stands st.storage.host b path file w plain.2 := getFileRangeIfPlain_stands hs _ _ hplain
  have hdeclined : ∀ y, plain.1 ≠ .ok (some y) := by
    intro y hy
    rw [hy] at hplain
    obtain ⟨part, contentType, total⟩ := y
    have hkind := (plainRange_kind hs (getFileRangeIfPlain_ok hplain)).1
    rw [hc] at hkind
    simp at hkind
  -- the other one serves the range
  have hserved := eval_getCompressedFileRange
    (compressedRange_eq law hv hr hc he hbounds.1 hbounds.2)
  let packed := (st.storage.getCompressedFileRange b path start stop).eval (exec st.storage.host) calm
    plain.2
  have hpacked : (st.storage.getCompressedFileRange b path start stop).Runs (exec st.storage.host)
      plain.2 packed.1 packed.2 := Prog.eval_runs calm _ plain.2
  let response : HttpResponse := ⟨206, [("content-type", file.contentType), ("accept-ranges", "bytes"),
    ("content-range", contentRange start stop content.length)], .bytes (slice content start stop)⟩
  have hranged : (rangeRequest st.storage b path value).Runs (exec st.storage.host) w
      (.ok (some response)) packed.2 := by
    have hinfo : (getFileInfo b path).Runs (exec st.storage.host) w _ _ := Prog.eval_runs calm _ w
    rw [eval_getFileInfo hrow hlive] at hinfo
    simp only [rangeRequest, Prog.bind_eq, Prog.pure_eq]
    refine Prog.runs_bind_ok.mpr ⟨_, w, Prog.runs_attempt.mpr ⟨_, rfl, hinfo⟩, ?_⟩
    have hsize : (FileInfo.ofStored file).originalSize = file.originalSize := rfl
    simp only [hsize, hparse]
    refine Prog.runs_bind_ok.mpr ⟨_, _, Prog.runs_attempt.mpr ⟨_, rfl, hplain⟩, ?_⟩
    split
    · rename_i hy
      exact absurd hy (hdeclined _)
    · refine Prog.runs_bind_ok.mpr ⟨_, _, Prog.runs_attempt.mpr ⟨_, rfl, hpacked⟩, ?_⟩
      have hanswer : partialContent (slice content start stop) file.contentType start stop
          content.length = .ok response := partialContent_eq_ok.mpr ⟨hvalid, rfl⟩
      rw [show packed.1 = _ from hserved]
      simp only [hanswer, Prog.ofExcept_ok, Prog.ret_bind]
      exact ⟨rfl, rfl⟩
  have hrun : (handleFileRequest st b path headers).Runs (exec st.storage.host) w (.ok response)
      packed.2 := by
    rw [handleFileRequest_file hend, hallowed, hvalue]
    simp only [downloadFile, Prog.bind_eq, Prog.pure_eq, Prog.ofExcept_ok, Prog.ret_bind,
      Option.elim_some]
    exact Prog.runs_bind_ok.mpr ⟨some response, packed.2, hranged, ⟨rfl, rfl⟩⟩
  obtain ⟨full, contentType, _, start', stop', hwhole, -, -, -, -, -, hheader⟩ :=
    (hagree response _ hrun rfl).part
  have hresult := hr.readResult law hw hrow hlive he
  rw [if_neg (by simp [hoff, hc])] at hresult
  rw [eval_whole hend hallowed hresult hvalid] at hwhole
  obtain ⟨-, hfull⟩ : contentType = file.contentType ∧ full = raw := by
    simpa [whole] using (Except.ok.inj hwhole).symm
  have htotal : contentRange start' stop' full.length = contentRange start stop content.length := by
    simpa [response] using hheader
  have hlen := contentRange_total htotal
  rw [hfull] at hlen
  omega

/-- Ranges and wholes agree exactly when a compressed row is not read by a service that has
compression switched off. -/
theorem ranges_agree_iff (law : st.storage.lib.toCodecs.Lawful)
    (hw : WellFormed st.storage w b path) :
    RangesAgree st headers w b path ↔ ¬ Undecoded st headers w b path :=
  ⟨fun hagree hu => undecoded_disagrees law hw hu hagree, ranges_agree law hw⟩

/-! ## A range of a compressed object -/

open Sample (letters lettersFrame codecs_lawful)
open RoundTrip (service stored)

def appState (enabled : Bool) : AppState := ⟨service enabled, none, none⟩

/-- `Range: bytes=0-9`. -/
def firstTen : HeaderMap := [("range", [98, 121, 116, 101, 115, 61, 48, 45, 57])]

theorem stored_row (enabled : Bool) : ∃ file, (stored enabled).2.db.files.find ("a", "k") = some file ∧
    (stored enabled).2.cache.getFileMetadata "a" "k" = some file ∧
    (stored enabled).2.cache.getFileContent "a" "k" = some (2 :: lettersFrame) ∧
    (stored enabled).2.bytesAt (service enabled).host file.filePath = some (2 :: lettersFrame) ∧
    file.fileSize = 18 ∧ file.originalSize = 64 ∧ file.compressed = true ∧
    file.encrypted = false ∧ file.expiresAt = none ∧
    file.contentType = "application/octet-stream" := by
  have hrow : ((stored enabled).2.db.files.find ("a", "k")).any (fun file =>
      (stored enabled).2.cache.getFileMetadata "a" "k" = some file ∧
      (stored enabled).2.cache.getFileContent "a" "k" = some (2 :: lettersFrame) ∧
      (stored enabled).2.bytesAt (service enabled).host file.filePath = some (2 :: lettersFrame) ∧
      file.fileSize = 18 ∧ file.originalSize = 64 ∧ file.compressed = true ∧
      file.encrypted = false ∧ file.expiresAt = none ∧
      file.contentType = "application/octet-stream") = true := by
    cases enabled <;> decide
  obtain ⟨file, hfile, hfacts⟩ := (Option.any_eq_true _ _).mp hrow
  exact ⟨file, hfile, by simpa using hfacts⟩

theorem stored_wellFormed (enabled : Bool) :
    WellFormed (service enabled) (stored enabled).2 "a" "k" := by
  obtain ⟨file, hrow, hcached, hcontent, hbytes, hsize, horiginal, hc, -⟩ := stored_row enabled
  refine ⟨fun f hf _ => ⟨letters, 2 :: lettersFrame, ?_⟩, fun f hf => ?_, fun x hx => ?_⟩
  · rw [hrow, Option.some.injEq] at hf
    subst hf
    refine ⟨hbytes, hsize.trans (by decide), horiginal.trans (by decide), by decide, ?_⟩
    rw [if_pos hc]
    exact ⟨by decide, ⟨⟨true, "zstd", 3, 16⟩⟩, by cases enabled <;> decide⟩
  · rw [hcached, Option.some.injEq] at hf
    exact ⟨file, hrow, hf ▸ .refl file⟩
  · rw [hcontent] at hx
    exact ⟨file, hrow, hbytes.trans hx⟩

theorem ranges_agree_compressing :
    RangesAgree (appState true) firstTen (stored true).2 "a" "k" :=
  (ranges_agree_iff codecs_lawful (stored_wellFormed true)).mpr fun hu =>
    absurd hu.disabled (by decide)

/-- The first ten of sixty-four letters are served as such, the whole as eighteen compressed
bytes. -/
theorem range_of_compressed_disagrees :
    (appState false).storage.lib.toCodecs.Lawful ∧
    WellFormed (appState false).storage (stored false).2 "a" "k" ∧
    ((handleFileRequest (appState false) "a" "k" firstTen).eval (exec (service false).host) calm
      (stored false).2).1 =
        .ok ⟨206, [("content-type", "application/octet-stream"), ("accept-ranges", "bytes"),
          ("content-range", "bytes 0-9/64")], .bytes (letters.take 10)⟩ ∧
    ((handleFileRequest (appState false) "a" "k" []).eval (exec (service false).host) calm
      (stored false).2).1 = .ok (whole (2 :: lettersFrame) "application/octet-stream") ∧
    ¬ RangesAgree (appState false) firstTen (stored false).2 "a" "k" := by
  have hu : Undecoded (appState false) firstTen (stored false).2 "a" "k" := by
    obtain ⟨file, hrow, -, -, -, -, horiginal, hc, he, hexp, htype⟩ := stored_row false
    refine ⟨by unfold EndsInInfo; decide, by decide, by decide, file, "bytes=0-9", hrow, ?_, hc, he,
      ?_, by decide, ?_⟩
    · rw [hexp]
      rfl
    · rw [htype]
      decide
    · rw [horiginal]
      decide
  exact ⟨codecs_lawful, stored_wellFormed false, by decide, by decide,
    undecoded_disagrees codecs_lawful (stored_wellFormed false) hu⟩

end LocalStorage.Proofs.RangeReads
