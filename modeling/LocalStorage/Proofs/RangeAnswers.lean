import LocalStorage.Lib.Delivery
import LocalStorage.Proofs.Effects
import LocalStorage.Proofs.RangeGrammar
import LocalStorage.Proofs.RangeReads
import LocalStorage.Smooth

namespace LocalStorage.Proofs.RangeAnswers
open Lib Lib.Text ByteRange StorageManager RequestKeys RangeReads RangeGrammar

/-! # Which answer a range gets -/

/-- A live row with its bytes in place: `packed` is what encryption started from, and is
`content` or a smaller form of it. The cache says nothing else. -/
structure Stored (sm : StorageManager) (w : World) (b k : String) (file : StoredFile)
    (content packed raw : Bytes) : Prop where
  row : w.db.files.find (b, k) = some file
  live : past w.now file.expiresAt = false
  contentType : isHeaderValue file.contentType = true
  bytes : w.bytesAt sm.host file.filePath = some raw
  opened : sm.decrypted w.db file raw = .ok packed
  fileSize : file.fileSize = raw.length
  originalSize : file.originalSize = content.length
  bounded : content.length < 2 ^ 63
  packed : if file.compressed then
      packed.length < content.length ∧
        ∃ writer : CompressionManager, writer.compress sm.lib.toCodecs content = .ok packed
    else packed = content
  metadata : ∀ f, w.cache.getFileMetadata b k = some f → Alike f file
  cached : ∀ x, w.cache.getFileContent b k = some x → x = raw

/-- The body of the whole answer: a service that does not compress hands out compressed bytes
as they are. -/
def entire (sm : StorageManager) (file : StoredFile) (content packed : Bytes) : Bytes :=
  if sm.config.compression.enabled || !file.compressed then content else packed

/-- 206 for a byte range with bytes in the content, 416 for one without, and the whole for any
other header or none. -/
structure Classified (range : Option String) (content full : Bytes) (contentType : String)
    (response : HttpResponse) : Prop where
  partly : ∀ value r, range = some value → SingleRange value r →
    (r.positions content.length).Nonempty → response.status = 206
  nothing : ∀ value r, range = some value → SingleRange value r →
    ¬ (r.positions content.length).Nonempty → response.status = 416
  wholly : (∀ value r, range = some value → ¬ SingleRange value r) →
    response = whole full contentType

/-- The header names bytes and has no comma. -/
def NamesBytes (value : String) : Prop :=
  ∃ spec, value.toList = "bytes=".toList ++ spec ∧ ',' ∉ spec

/-- An encrypted file whose compression is not undone: the range, read with or without plus
signs, has bytes in the content and none in what the file is served as. -/
structure Lost (sm : StorageManager) (file : StoredFile) (content packed : Bytes) (value : String) :
    Prop where
  encrypted : file.encrypted = true
  compressed : file.compressed = true
  disabled : sm.config.compression.enabled = false
  range : ∃ spec r, value.toList = "bytes=".toList ++ spec ∧ Reads Signed spec r ∧
    r.Below (2 ^ 64) ∧ (r.positions content.length).Nonempty ∧ ¬ (r.positions packed.length).Nonempty

/-- The request is let through to the file, and of the headers that begin like a range it has
none but well-formed ones: no number in it is too long to be read, and the file has, where it
is cut, the bytes the range asks for. -/
structure Regular (st : AppState) (headers : HeaderMap) (b path : String) (file : StoredFile)
    (content packed : Bytes) : Prop where
  allowed : requireDownloadToken st headers (some b) = .ok ()
  download : ¬ EndsInInfo path
  read : ∀ value, headers.text "range" = some value → NamesBytes value →
    ((∃ r, SingleRange value r) ↔ ¬ Lost st.storage file content packed value)
  numbers : ∀ value, headers.text "range" = some value → ¬ Overlong value content.length

variable {st : AppState} {sm : StorageManager} {headers : HeaderMap} {h : Host} {w u v : World}
  {b k path : String} {file f : StoredFile} {content packed raw : Bytes} {start stop total : Nat}

/-! ## Calls that end before the file expires -/

/-- Run without a failing step `p` ends in `Q`, as long as `expiresAt` has not passed. -/
abbrev Timely {E α : Type} (h : Host) (expiresAt : Option Time) (p : Prog Action Response E α)
    (Q : Except E α → World → Prop) (w : World) : Prop :=
  p.Delivers (exec h) Action.Succeeds (fun u => past u.now expiresAt = false) Q w

section Rules
variable {E α β : Type} {expiresAt : Option Time} {p : Prog Action Response E α}
  {Q : Except E α → World → Prop}

theorem expired_late (c : Choice) (a : Action) (u : World)
    (hlive : past (exec h c a u).2.now expiresAt = false) : past u.now expiresAt = false := by
  cases hp : past u.now expiresAt with
  | false => rfl
  | true =>
    have htakes : Takes (exec h) u ⟨a, (exec h c a u).1⟩ (exec h c a u).2 := ⟨c, rfl⟩
    rw [past_mono hp (takes_now htakes)] at hlive
    simp at hlive

theorem Timely.bind {f : α → Prog Action Response E β} {P : Except E α → World → Prop}
    {Q : Except E β → World → Prop} (hp : Timely h expiresAt p P w)
    (hok : ∀ a t, past t.now expiresAt = false → P (.ok a) t → Timely h expiresAt (f a) Q t)
    (herr : ∀ e t, past t.now expiresAt = false → P (.error e) t → Q (.error e) t) :
    Timely h expiresAt (p.bind f) Q w :=
  Prog.Delivers.bind expired_late hp hok herr

theorem timely_attempt {y : Except E α} {I : World → Prop}
    (hp : Timely h expiresAt p (fun x t => x = y ∧ I t) w) :
    Timely h expiresAt p.attempt (fun x t => x = .ok y ∧ I t) w :=
  Prog.Delivers.attempt (hp.mono fun _ _ _ hx => ⟨congrArg Except.ok hx.1, hx.2⟩)

theorem timely_updateAccess {id : Uuid} (hsame : Timely h expiresAt p Q w)
    (hcounted : ∀ db, w.db.updateAccess id w.now = .ok db → Timely h expiresAt p Q { w with db := db }) :
    Timely h expiresAt (.act (.updateAccess id) fun _ => p) Q w := by
  constructor
  · obtain ⟨x, t, hrun, ht⟩ := hsame.1
    exact ⟨x, t, smooth_updateAccess.mpr (.inl hrun), ht⟩
  · intro x t hrun ht
    obtain hrun | ⟨db, hdb, hrun⟩ := smooth_updateAccess.mp hrun
    · exact hsame.2 x t hrun ht
    · exact (hcounted db hdb).2 x t hrun ht

theorem timely_utcNow {f : Time → Prog Action Response E α} (hlive : past w.now expiresAt = false)
    (hlater : ∀ now, w.now ≤ now → past now expiresAt = false →
      Timely h expiresAt (f now) Q { w with now := now }) :
    Timely h expiresAt (.act .utcNow f) Q w := by
  constructor
  · have hzero : w.now + ((0 : Nat) : Time) = w.now := Int.add_zero _
    obtain ⟨x, t, hrun, ht⟩ := (hlater w.now (le_refl _) hlive).1
    exact ⟨x, t, smooth_utcNow.mpr ⟨0, by rw [hzero]; exact hrun⟩, ht⟩
  · intro x t hrun ht
    obtain ⟨elapsed, hrun⟩ := smooth_utcNow.mp hrun
    have hnow : past (w.now + (elapsed : Time)) expiresAt = false :=
      Prog.RunsWith.in_time (L := fun u : World => past u.now expiresAt = false) expired_late hrun ht
    exact (hlater _ (Int.le_add_of_nonneg_right (Int.natCast_nonneg elapsed)) hnow).2 x t hrun ht

theorem timely_readFile {filePath : String} {f : Except IoError Bytes → Prog Action Response E α}
    (hraw : w.bytesAt h filePath = some raw) (hread : Timely h expiresAt (f (.ok raw)) Q w) :
    Timely h expiresAt (.act (.readFile filePath) f) Q w := by
  refine (Prog.delivers_congr fun x t => ?_).mpr hread
  exact smooth_readFile.trans
    ⟨fun ⟨_, hx, hrun⟩ => Option.some.inj (hraw.symm.trans hx) ▸ hrun, fun hrun => ⟨raw, hraw, hrun⟩⟩

theorem timely_readRange {filePath : String} {start len : Nat}
    {f : Except IoError Bytes → Prog Action Response E α} (hraw : w.bytesAt h filePath = some raw)
    (hfits : start + len ≤ raw.length)
    (hread : Timely h expiresAt (f (.ok ((raw.drop start).take len))) Q w) :
    Timely h expiresAt (.act (.readRange filePath start len) f) Q w := by
  refine (Prog.delivers_congr fun x t => ?_).mpr hread
  exact smooth_readRange.trans
    ⟨fun ⟨_, hx, _, hrun⟩ => Option.some.inj (hraw.symm.trans hx) ▸ hrun,
      fun hrun => ⟨raw, hraw, hfits, hrun⟩⟩

end Rules

/-! ## The readers -/

theorem Stored.stands (hw : Stored sm w b k file content packed raw) :
    Stands sm.host b k file w w where
  row := ⟨file, hw.row, .refl file⟩
  metadata := hw.metadata
  content := fun _ hx => hw.cached _ hx ▸ hw.bytes
  disk := rfl
  keys := rfl
  clock := le_refl _

theorem stands_filled (hs : Stands h b k file w u) (hraw : w.bytesAt h file.filePath = some raw) :
    Stands h b k file w { u with cache := u.cache.setFileContent b k raw } where
  row := hs.row
  metadata := by
    intro f hf
    rw [Cache.getFileMetadata_setFileContent] at hf
    exact hs.metadata f hf
  content := by
    intro x hx
    by_cases hlarge : raw.length ≤ Cache.maxCacheSize
    · rw [Cache.getFileContent_setFileContent hlarge, if_pos (Cache.SameSlot.refl b k),
        Option.some.injEq] at hx
      exact hx ▸ hraw
    · rw [Cache.setFileContent_large (Nat.not_le.mp hlarge)] at hx
      exact hs.content x hx
  disk := hs.disk
  keys := hs.keys
  clock := hs.clock

theorem timely_readMetadata (hs : Stands h b k file w u) (hlive : past u.now file.expiresAt = false) :
    Timely h file.expiresAt (readMetadata b k)
      (fun x v => ∃ f, x = .ok f ∧ Alike f file ∧ Stands h b k file w v) u := by
  simp only [readMetadata, dbGetFile, step_eq, Prog.bind_eq, Prog.act_bind, Prog.ret_bind,
    Prog.pure_eq]
  refine (Prog.delivers_congr fun _ _ => smooth_getFileMetadata).mpr ?_
  cases hc : u.cache.getFileMetadata b k with
  | some f => exact Prog.delivers_ret hlive ⟨f, rfl, hs.metadata f hc, hs⟩
  | none =>
    obtain ⟨g, hg, halike⟩ := hs.row
    refine (Prog.delivers_congr fun _ _ => smooth_selectFile).mpr ?_
    simp only [Database.selectFile, hg, ofSqlx_ok, Prog.ret_bind]
    refine (Prog.delivers_congr fun _ _ => smooth_setFileMetadata).mpr ?_
    exact Prog.delivers_ret hlive ⟨g, rfl, halike, hs.cached halike⟩

theorem timely_expireFile (hs : Stands h b k file w u) (hlive : past u.now file.expiresAt = false)
    (hf : f.expiresAt = file.expiresAt) : Timely h file.expiresAt (expireFile b k f)
      (fun x v => x = .ok () ∧ Stands h b k file w v) u := by
  simp only [expireFile, hf, step_eq, Prog.bind_eq, Prog.act_bind, Prog.ret_bind, Prog.pure_eq]
  cases hexp : file.expiresAt with
  | none => exact Prog.delivers_ret rfl ⟨rfl, hs⟩
  | some t =>
    refine timely_utcNow (hexp ▸ hlive) fun now hnow hnot => ?_
    have hlater : ¬ t ≤ now := by simpa [past] using hnot
    rw [if_neg hlater]
    exact Prog.delivers_ret hnot ⟨rfl, hs.later hnow⟩

theorem timely_readContent (hs : Stands h b k file w u) (hlive : past u.now file.expiresAt = false)
    (hraw : w.bytesAt h file.filePath = some raw) (hf : f.filePath = file.filePath) :
    Timely h file.expiresAt (readContent b k f)
      (fun x v => x = .ok raw ∧ Stands h b k file w v) u := by
  simp only [readContent, step_eq, Prog.bind_eq, Prog.act_bind, Prog.ret_bind, Prog.pure_eq]
  refine (Prog.delivers_congr fun _ _ => smooth_getFileContent).mpr ?_
  cases hc : u.cache.getFileContent b k with
  | some x =>
    obtain rfl : x = raw := Option.some.inj ((hs.content x hc).symm.trans hraw)
    exact Prog.delivers_ret hlive ⟨rfl, hs⟩
  | none =>
    have hbytes : u.bytesAt h f.filePath = some raw := by
      simpa only [World.bytesAt, hs.disk, hf] using hraw
    refine timely_readFile hbytes ?_
    refine (Prog.delivers_congr fun _ _ => smooth_setFileContent).mpr ?_
    exact Prog.delivers_ret hlive ⟨rfl, stands_filled hs hraw⟩

/-- Decoding reads the state, if at all, for a key. -/
theorem timely_decodeContent {full : Bytes} {expiresAt : Option Time}
    (hlive : past u.now expiresAt = false) (hfull : sm.decoded u.db f raw = .ok full) :
    Timely sm.host expiresAt (sm.decodeContent f raw) (fun x v => x = .ok full ∧ v = u) u := by
  have hdecrypted : Timely sm.host expiresAt (sm.decryptContent f raw)
      (fun x v => x = sm.decrypted u.db f raw ∧ v = u) u := by
    simp only [decryptContent, decrypted, Prog.bind_eq, Prog.pure_eq]
    cases f.encrypted with
    | false => exact Prog.delivers_ret hlive ⟨rfl, rfl⟩
    | true =>
      simp only [↓reduceIte]
      cases EncryptionAlgorithm.fromStr (f.encryptionAlgorithm.getD "aes-gcm") with
      | error e => exact Prog.delivers_fail hlive ⟨rfl, rfl⟩
      | ok algorithm =>
        simp only [Prog.ofExcept_ok, Prog.ret_bind]
        cases f.encryptionKeyId with
        | none => exact Prog.delivers_ofExcept hlive ⟨rfl, rfl⟩
        | some keyId =>
          simp only [getKey, step_eq, Prog.bind_eq, Prog.act_bind, Prog.ret_bind, Prog.pure_eq]
          refine (Prog.delivers_congr fun _ _ => smooth_selectKey).mpr ?_
          cases u.db.selectKey keyId with
          | none => exact Prog.delivers_fail hlive ⟨rfl, rfl⟩
          | some key => exact Prog.delivers_ofExcept hlive ⟨rfl, rfl⟩
  unfold decoded at hfull
  simp only [decodeContent, Prog.bind_eq, Prog.pure_eq]
  refine hdecrypted.bind (fun plain v hv hplain => ?_) fun e v hv hplain => ?_
  · obtain ⟨hplain, rfl⟩ := hplain
    rw [← hplain] at hfull
    dsimp only at hfull
    split at hfull
    · rename_i hc
      rw [if_pos hc]
      exact Prog.delivers_ofExcept hv ⟨hfull, rfl⟩
    · rename_i hc
      rw [if_neg hc]
      exact Prog.delivers_ret hv ⟨hfull, rfl⟩
  · rw [← hplain.1] at hfull
    simp at hfull

theorem Stored.decoded (law : sm.lib.toCodecs.Lawful) (hw : Stored sm w b k file content packed raw) :
    sm.decoded w.db file raw = .ok (entire sm file content packed) := by
  unfold StorageManager.decoded entire
  rw [hw.opened]
  cases hc : file.compressed with
  | false =>
    have hsame : packed = content := by simpa [hc] using hw.packed
    simp [hsame]
  | true =>
    obtain ⟨hsmaller, writer, hwriter⟩ : packed.length < content.length ∧
        ∃ writer : CompressionManager, writer.compress sm.lib.toCodecs content = .ok packed := by
      simpa [hc] using hw.packed
    have hne : packed ≠ content := fun hsame => absurd hsmaller (by rw [hsame]; exact lt_irrefl _)
    cases hon : sm.config.compression.enabled with
    | true =>
      have hwhole : sm.compression.decompress sm.lib.toCodecs packed = .ok content :=
        CompressionManager.decompress_compress law hon hwriter hne
      simpa using hwhole
    | false =>
      have hwhole : sm.compression.decompress sm.lib.toCodecs packed = .ok packed :=
        CompressionManager.decompress_disabled hon packed
      simpa using hwhole

theorem timely_getFile (law : sm.lib.toCodecs.Lawful) (hw : Stored sm w b k file content packed raw)
    (hs : Stands sm.host b k file w u) (hlive : past u.now file.expiresAt = false) :
    Timely sm.host file.expiresAt (sm.getFile b k)
      (fun x _ => x = .ok (entire sm file content packed, some file.contentType)) u := by
  simp only [getFile, step_eq, Prog.bind_eq, Prog.act_bind, Prog.ret_bind, Prog.pure_eq]
  refine (timely_readMetadata hs hlive).bind (fun f u₁ hlive₁ hx => ?_) fun e v _ hx => ?_
  · obtain ⟨_, heq, halike, hs₁⟩ := hx
    obtain rfl := Except.ok.inj heq
    obtain ⟨hpath, -, -, -, -, htype, hexp⟩ := recipe_eq.mp halike.recipe
    refine (timely_expireFile hs₁ hlive₁ hexp).bind (fun _ u₂ hlive₂ hx => ?_) fun e v _ hx => ?_
    · refine (timely_readContent hx.2 hlive₂ hw.bytes hpath).bind (fun x u₃ hlive₃ hx => ?_)
        fun e v _ hx => ?_
      · obtain ⟨heq, hs₃⟩ := hx
        obtain rfl := Except.ok.inj heq
        have hkeys : ∀ id, u₃.db.selectKey id = w.db.selectKey id := by
          intro id
          simp only [Database.selectKey, hs₃.keys]
        have hdecoded : sm.decoded u₃.db f x = .ok (entire sm file content packed) :=
          (decoded_congr halike.recipe hkeys x).trans (hw.decoded law)
        refine (timely_decodeContent hlive₃ hdecoded).bind (fun full u₄ hlive₄ hx => ?_)
          fun e v _ hx => ?_
        · obtain ⟨heq, rfl⟩ := hx
          obtain rfl := Except.ok.inj heq
          rw [htype]
          exact timely_updateAccess (Prog.delivers_ret hlive₄ rfl)
            fun db _ => Prog.delivers_ret hlive₄ rfl
        · simp at hx
      · simp at hx
    · simp at hx
  · simp at hx

/-! ## A range -/

theorem timely_getFileInfo (hw : Stored sm w b k file content packed raw) :
    Timely sm.host file.expiresAt (getFileInfo b k)
      (fun x u => x = .ok (FileInfo.ofStored file) ∧ Stands sm.host b k file w u) w := by
  simp only [getFileInfo, dbGetFile, step_eq, Prog.bind_eq, Prog.act_bind, Prog.ret_bind,
    Prog.pure_eq, Prog.bind_assoc]
  refine (Prog.delivers_congr fun _ _ => smooth_selectFile).mpr ?_
  simp only [Database.selectFile, hw.row, ofSqlx_ok, Prog.ret_bind]
  refine (timely_expireFile hw.stands hw.live rfl).bind (fun _ u hlive hx => ?_) fun e v _ hx => ?_
  · exact Prog.delivers_ret hlive ⟨rfl, hx.2⟩
  · simp at hx

theorem Stored.rowSound (hw : Stored sm w b k file content packed raw)
    (he : file.encrypted = false) : RowSound sm w file content raw := by
  have hsame : raw = packed := by simpa [decrypted, he] using hw.opened
  subst hsame
  exact ⟨hw.bytes, hw.fileSize, hw.originalSize, hw.bounded, hw.packed⟩

theorem Stored.asU64_originalSize (hw : Stored sm w b k file content packed raw) :
    asU64 file.originalSize = content.length := by
  have hbound := hw.bounded
  rw [asU64, hw.originalSize]
  omega

/-- The reader of plain files has its part, or leaves the file alone. -/
theorem timely_getFileRangeIfPlain (hw : Stored sm w b k file content packed raw)
    (hs : Stands sm.host b k file w u) (hlive : past u.now file.expiresAt = false)
    (hle : start ≤ stop) (hlt : stop < content.length) :
    Timely sm.host file.expiresAt (getFileRangeIfPlain b k start stop)
      (fun x v => x = .ok (if file.compressed || file.encrypted then none
        else some (slice content start stop, file.contentType, content.length)) ∧
        Stands sm.host b k file w v) u := by
  simp only [getFileRangeIfPlain, step_eq, Prog.bind_eq, Prog.act_bind, Prog.ret_bind, Prog.pure_eq]
  refine (timely_readMetadata hs hlive).bind (fun f v hlive₁ hx => ?_) fun e v _ hx => ?_
  · obtain ⟨_, heq, halike, hs₁⟩ := hx
    obtain rfl := Except.ok.inj heq
    obtain ⟨hpath, hfc, hfe, -, -, htype, -⟩ := recipe_eq.mp halike.recipe
    rw [hfc, hfe]
    cases hkind : file.compressed || file.encrypted with
    | true => exact Prog.delivers_ret hlive₁ ⟨rfl, hs₁⟩
    | false =>
      obtain ⟨hc, he⟩ : file.compressed = false ∧ file.encrypted = false := by simpa using hkind
      have hsound := hw.rowSound he
      have hsame : raw = content := by simpa [hc] using hsound.packed
      subst hsame
      obtain ⟨hmin, hrange, hwidth⟩ := clamp hle hlt
      have hbytes : v.bytesAt sm.host f.filePath = some raw := by
        simpa only [World.bytesAt, hs₁.disk, hpath] using hw.bytes
      have htotal : asU64 f.fileSize = raw.length := by
        rw [halike.fileSize, hsound.asU64_fileSize hc]
      have hlen : min stop (asU64 f.fileSize - 1) - start + 1 = stop + 1 - start := by
        rw [htotal, hmin, hwidth]
      simp only [htotal, hmin, hrange, htype, Bool.false_eq_true, ↓reduceIte]
      refine timely_readRange hbytes (by rw [hlen]; omega) ?_
      simp only [ofIo_ok, Prog.ret_bind, hlen]
      exact timely_updateAccess (Prog.delivers_ret hlive₁ ⟨rfl, hs₁⟩)
        fun db hdb => Prog.delivers_ret hlive₁ ⟨rfl, hs₁.counted hdb⟩
  · simp at hx

theorem timely_getCompressedFileRange (law : sm.lib.toCodecs.Lawful)
    (hw : Stored sm w b k file content packed raw) (hs : Stands sm.host b k file w u)
    (hlive : past u.now file.expiresAt = false) (hle : start ≤ stop) (hlt : stop < content.length) :
    Timely sm.host file.expiresAt (sm.getCompressedFileRange b k start stop)
      (fun x v => x = .ok (if file.encrypted || !file.compressed then none
        else some (slice content start stop, file.contentType, content.length)) ∧
        Stands sm.host b k file w v) u := by
  simp only [getCompressedFileRange, step_eq, Prog.bind_eq, Prog.act_bind, Prog.ret_bind,
    Prog.pure_eq]
  refine (timely_readMetadata hs hlive).bind (fun f v hlive₁ hx => ?_) fun e v _ hx => ?_
  · obtain ⟨_, heq, halike, hs₁⟩ := hx
    obtain rfl := Except.ok.inj heq
    obtain ⟨hpath, hfc, hfe, -, -, htype, -⟩ := recipe_eq.mp halike.recipe
    rw [hfc, hfe]
    cases hkind : file.encrypted || !file.compressed with
    | true => exact Prog.delivers_ret hlive₁ ⟨rfl, hs₁⟩
    | false =>
      obtain ⟨he, hc⟩ : file.encrypted = false ∧ file.compressed = true := by simpa using hkind
      obtain ⟨hsmaller, writer, hwriter⟩ : raw.length < content.length ∧
          ∃ writer : CompressionManager, writer.compress sm.lib.toCodecs content = .ok raw := by
        simpa [hc] using (hw.rowSound he).packed
      have hne : raw ≠ content := fun hsame => absurd hsmaller (by rw [hsame]; exact lt_irrefl _)
      obtain ⟨hmin, hrange, hwidth⟩ := clamp hle hlt
      have hbytes : v.bytesAt sm.host f.filePath = some raw := by
        simpa only [World.bytesAt, hs₁.disk, hpath] using hw.bytes
      have hslice : CompressionManager.decompressRange sm.lib.toCodecs raw start (stop + 1 - start) =
          .ok (some ((content.drop start).take (stop + 1 - start))) :=
        CompressionManager.decompressRange_compress law hwriter hne (by omega)
      simp only [halike.originalSize, hw.asU64_originalSize, hmin, hrange, hwidth, htype,
        Bool.false_eq_true, ↓reduceIte]
      refine timely_readFile hbytes ?_
      simp only [ofIo_ok, Prog.ret_bind, hslice, Prog.ofExcept_ok]
      exact timely_updateAccess (Prog.delivers_ret hlive₁ ⟨rfl, hs₁⟩)
        fun db hdb => Prog.delivers_ret hlive₁ ⟨rfl, hs₁.counted hdb⟩
  · simp at hx

/-! ## The answer in one expression -/

/-- A part of `full`, or the whole of it where the header names no part. -/
def cutOrWhole (full : Bytes) (contentType : String) : Option String → HttpResponse
  | none => whole full contentType
  | some value =>
    match parseRangeHeader value full.length with
    | some (start, stop) => ⟨206, [("content-type", contentType), ("accept-ranges", "bytes"),
        ("content-range", contentRange start stop full.length)], .bytes (slice full start stop)⟩
    | none => whole full contentType

def unsatisfiable (total : Nat) : HttpResponse :=
  ⟨416, [("accept-ranges", "bytes"), ("content-range", s!"bytes */{total}")], .empty⟩

open Classical in
/-- An encrypted file is cut after it was read as a whole, any other one from its content. -/
noncomputable def answer (sm : StorageManager) (file : StoredFile) (content packed : Bytes) :
    Option String → HttpResponse
  | none => whole (entire sm file content packed) file.contentType
  | some value =>
    match parseRangeHeader value content.length with
    | some _ => cutOrWhole (if file.encrypted then entire sm file content packed else content)
        file.contentType (some value)
    | none => if NamesBytes value then unsatisfiable content.length
        else whole (entire sm file content packed) file.contentType

section Cases
variable {value : String}

theorem answer_parsed {range : Nat × Nat}
    (hparse : parseRangeHeader value content.length = some range) :
    answer sm file content packed (some value) =
      cutOrWhole (if file.encrypted then entire sm file content packed else content)
        file.contentType (some value) := by
  simp only [answer, hparse]

theorem answer_unsatisfied (hparse : parseRangeHeader value content.length = none)
    (hnames : NamesBytes value) :
    answer sm file content packed (some value) = unsatisfiable content.length := by
  simp only [answer, hparse, if_pos hnames]

/-- Nothing is read out of any other header. -/
theorem namesBytes_of_parsed (hparse : parseRangeHeader value total = some (start, stop)) :
    NamesBytes value := by
  obtain ⟨spec, s, t, hvalue, hcomma, -⟩ := parseRangeHeader_eq.mp hparse
  exact ⟨spec, hvalue, hcomma⟩

theorem parseRangeHeader_other (hnames : ¬ NamesBytes value) (total : Nat) :
    parseRangeHeader value total = none := by
  cases hparse : parseRangeHeader value total with
  | none => rfl
  | some range => exact absurd (namesBytes_of_parsed hparse) hnames

theorem answer_other (hnames : ¬ NamesBytes value) : answer sm file content packed (some value) =
    whole (entire sm file content packed) file.contentType := by
  simp only [answer, parseRangeHeader_other hnames, if_neg hnames]

end Cases

theorem rangeNotSatisfiable_eq (total : Nat) :
    rangeNotSatisfiable total = .ok (unsatisfiable total) := by
  have hshape : s!"bytes */{total}" = "bytes */" ++ Nat.repr total := rfl
  have hfixed : isHeaderValue "bytes */" = true := by decide
  have hvalid : isHeaderValue s!"bytes */{total}" = true := by
    rw [hshape, isHeaderValue_append, hfixed, isHeaderValue_repr]
    rfl
  have hvalue : headerValue s!"bytes */{total}" "Invalid range" = .ok s!"bytes */{total}" :=
    headerValue_eq_ok.mpr ⟨hvalid, rfl⟩
  simp only [rangeNotSatisfiable, hvalue, bind, Except.bind, pure, Except.pure, unsatisfiable]

theorem fullContent_eq {full : Bytes} {contentType : String} (hvalid : isHeaderValue contentType = true)
    (range : Option String) :
    fullContent full (some contentType) range = .ok (cutOrWhole full contentType range) := by
  have htype : headerValue contentType "Invalid content type" = .ok contentType :=
    headerValue_eq_ok.mpr ⟨hvalid, rfl⟩
  have hrange : ∀ start stop, headerValue (contentRange start stop full.length) "Invalid range" =
      .ok (contentRange start stop full.length) :=
    fun _ _ => headerValue_eq_ok.mpr ⟨isHeaderValue_contentRange, rfl⟩
  unfold fullContent cutOrWhole
  simp only [Option.elim_some, htype, hrange, bind, Except.bind, pure, Except.pure]
  cases range with
  | none => rfl
  | some value =>
    simp only [Option.bind_some]
    cases parseRangeHeader value full.length <;> rfl

theorem timely_rangeRequest (law : sm.lib.toCodecs.Lawful)
    (hw : Stored sm w b k file content packed raw) (value : String) :
    Timely sm.host file.expiresAt (rangeRequest sm b k value) (fun x u =>
      Stands sm.host b k file w u ∧
      match parseRangeHeader value content.length with
      | some _ => x = .ok (if file.encrypted then none
          else some (cutOrWhole content file.contentType (some value)))
      | none => (NamesBytes value ∧ x = .ok (some (unsatisfiable content.length))) ∨
          (¬ NamesBytes value ∧ x = .ok none)) w := by
  simp only [rangeRequest, Prog.bind_eq, Prog.pure_eq]
  refine (timely_attempt (timely_getFileInfo hw)).bind (fun x u hlive hx => ?_) fun e v _ hx => ?_
  · obtain ⟨heq, hs⟩ := hx
    obtain rfl := Except.ok.inj heq
    have htotal : asU64 (FileInfo.ofStored file).originalSize = content.length :=
      hw.asU64_originalSize
    simp only [htotal]
    cases hparse : parseRangeHeader value content.length with
    | none =>
      simp only [rangeNotSatisfiable_eq, Prog.ofExcept_ok, Prog.ret_bind]
      cases hspec : stripPrefix "bytes=".toList value.toList with
      | none =>
        refine Prog.delivers_ret hlive ⟨hs, .inr ⟨?_, rfl⟩⟩
        rintro ⟨spec, hvalue, _⟩
        rw [stripPrefix_eq_some.mpr hvalue] at hspec
        simp at hspec
      | some spec =>
        have hvalue := stripPrefix_eq_some.mp hspec
        dsimp only
        split
        · rename_i hcomma
          refine Prog.delivers_ret hlive ⟨hs, .inr ⟨?_, rfl⟩⟩
          rintro ⟨spec', hvalue', hnot⟩
          obtain rfl := List.append_cancel_left (hvalue.symm.trans hvalue')
          exact hnot hcomma
        · rename_i hcomma
          exact Prog.delivers_ret hlive ⟨hs, .inl ⟨⟨spec, hvalue, hcomma⟩, rfl⟩⟩
    | some range =>
      obtain ⟨start, stop⟩ := range
      obtain ⟨hle, hlt⟩ := parseRangeHeader_bounds hparse
      have hpart : partialContent (slice content start stop) file.contentType start stop
          content.length = .ok (cutOrWhole content file.contentType (some value)) := by
        refine partialContent_eq_ok.mpr ⟨hw.contentType, ?_⟩
        simp only [cutOrWhole, hparse]
      dsimp only
      refine (timely_attempt (timely_getFileRangeIfPlain hw hs hlive hle hlt)).bind
        (fun x v hlive hx => ?_) fun e v _ hx => ?_
      · obtain ⟨heq, hs⟩ := hx
        obtain rfl := Except.ok.inj heq
        by_cases hplain : (file.compressed || file.encrypted) = true
        · rw [if_pos hplain]
          refine (timely_attempt (timely_getCompressedFileRange law hw hs hlive hle hlt)).bind
            (fun x v hlive hx => ?_) fun e v _ hx => ?_
          · obtain ⟨heq, hs⟩ := hx
            obtain rfl := Except.ok.inj heq
            cases he : file.encrypted with
            | true => exact Prog.delivers_ret hlive ⟨hs, rfl⟩
            | false =>
              have hc : file.compressed = true := by simpa [he] using hplain
              simp only [hc, Bool.not_true, Bool.or_self, Bool.false_eq_true, ↓reduceIte, hpart,
                Prog.ofExcept_ok, Prog.ret_bind]
              exact Prog.delivers_ret hlive ⟨hs, rfl⟩
          · simp at hx
        · obtain ⟨-, he⟩ : file.compressed = false ∧ file.encrypted = false := by simpa using hplain
          rw [if_neg hplain]
          simp only [he, Bool.false_eq_true, ↓reduceIte, hpart, Prog.ofExcept_ok, Prog.ret_bind]
          exact Prog.delivers_ret hlive ⟨hs, rfl⟩
      · simp at hx
  · simp at hx

theorem timely_downloadFile (law : sm.lib.toCodecs.Lawful)
    (hw : Stored sm w b k file content packed raw) (range : Option String) :
    Timely sm.host file.expiresAt (downloadFile sm b k range)
      (fun x _ => x = .ok (answer sm file content packed range)) w := by
  simp only [downloadFile, Prog.bind_eq, Prog.pure_eq]
  cases range with
  | none =>
    simp only [Option.elim_none, Prog.ret_bind]
    refine (timely_getFile law hw hw.stands hw.live).bind (fun y v hlive hx => ?_) fun e v _ hx => ?_
    · obtain rfl := Except.ok.inj hx
      rw [fullContent_eq hw.contentType]
      exact Prog.delivers_ret hlive rfl
    · simp at hx
  | some value =>
    simp only [Option.elim_some]
    refine (timely_rangeRequest law hw value).bind (fun early u hlive hx => ?_) fun e v _ hx => ?_
    · obtain ⟨hs, hx⟩ := hx
      -- what falls through is cut from the whole file, where that is the same
      have hwhole : ∀ response, cutOrWhole (entire sm file content packed) file.contentType
          (some value) = response → Timely sm.host file.expiresAt
            ((sm.getFile b k).bind fun y =>
              Prog.ofExcept (fullContent y.1 y.2 (some value))) (fun x _ => x = .ok response) u := by
        intro response hresponse
        refine (timely_getFile law hw hs hlive).bind (fun y v hlive hx => ?_) fun e v _ hx => ?_
        · obtain rfl := Except.ok.inj hx
          rw [fullContent_eq hw.contentType]
          exact Prog.delivers_ret hlive (congrArg Except.ok hresponse)
        · simp at hx
      cases hparse : parseRangeHeader value content.length with
      | some range =>
        rw [answer_parsed hparse]
        simp only [hparse] at hx
        obtain rfl := Except.ok.inj hx
        cases he : file.encrypted with
        | true => exact hwhole _ rfl
        | false => exact Prog.delivers_ret hlive rfl
      | none =>
        simp only [hparse] at hx
        obtain ⟨hnames, hx⟩ | ⟨hnames, hx⟩ := hx
        · rw [answer_unsatisfied hparse hnames]
          obtain rfl := Except.ok.inj hx
          exact Prog.delivers_ret hlive rfl
        · rw [answer_other hnames]
          obtain rfl := Except.ok.inj hx
          refine hwhole _ ?_
          simp only [cutOrWhole, parseRangeHeader_other hnames]
    · obtain ⟨-, hx⟩ := hx
      split at hx
      · simp at hx
      · simp at hx

/-! ## The answer by the grammar -/

section Grammar
variable {value : String} {r : ByteRange} {full : Bytes} {contentType : String}

theorem namesBytes_of_range (hr : SingleRange value r) : NamesBytes value := by
  obtain ⟨spec, hvalue, hread⟩ := hr
  exact ⟨spec, hvalue, hread.signed.comma_not_mem⟩

theorem cutOrWhole_status : (cutOrWhole full contentType (some value)).status =
    if (parseRangeHeader value full.length).isSome then 206 else 200 := by
  unfold cutOrWhole
  dsimp only
  cases parseRangeHeader value full.length <;> rfl

theorem cutOrWhole_none (hparse : ¬ (parseRangeHeader value full.length).isSome = true) :
    cutOrWhole full contentType (some value) = whole full contentType := by
  have hnone : parseRangeHeader value full.length = none := by simpa using hparse
  simp only [cutOrWhole, hnone]

/-- What a part is cut from has the length of the content, except for an encrypted file whose
compression is not undone. -/
theorem cut_from (sm : StorageManager) (file : StoredFile) (content packed : Bytes) :
    (if file.encrypted then entire sm file content packed else content) = content ∨
      file.encrypted = true ∧ file.compressed = true ∧ sm.config.compression.enabled = false ∧
        entire sm file content packed = packed := by
  unfold entire
  cases file.encrypted <;> cases file.compressed <;> cases sm.config.compression.enabled <;> simp

/-- The answer to a range that is read in the content. -/
theorem answer_status (hparse : (parseRangeHeader value content.length).isSome = true) :
    (answer sm file content packed (some value)).status = 206 ∨
      Lost sm file content packed value ∧
        answer sm file content packed (some value) =
          whole (entire sm file content packed) file.contentType := by
  obtain ⟨range, hrange⟩ := Option.isSome_iff_exists.mp hparse
  rw [answer_parsed hrange]
  obtain hsame | ⟨he, hc, hoff, hpacked⟩ := cut_from sm file content packed
  · rw [hsame, cutOrWhole_status, if_pos hparse]
    exact .inl rfl
  · rw [if_pos he, hpacked]
    by_cases hcut : (parseRangeHeader value packed.length).isSome = true
    · rw [cutOrWhole_status, if_pos hcut]
      exact .inl rfl
    · refine .inr ⟨⟨he, hc, hoff, ?_⟩, cutOrWhole_none hcut⟩
      obtain ⟨spec, r, hvalue, hread, hbelow, hbytes⟩ := parseRangeHeader_isSome.mp hparse
      refine ⟨spec, r, hvalue, hread, hbelow, hbytes, fun hnone => hcut ?_⟩
      exact parseRangeHeader_isSome.mpr ⟨spec, r, hvalue, hread, hbelow, hnone⟩

theorem Lost.answer (hl : Lost sm file content packed value) :
    answer sm file content packed (some value) =
      whole (entire sm file content packed) file.contentType := by
  obtain ⟨spec, r, hvalue, hread, hbelow, hbytes, hnone⟩ := hl.range
  have hparse := parseRangeHeader_isSome.mpr ⟨spec, r, hvalue, hread, hbelow, hbytes⟩
  obtain ⟨range, hrange⟩ := Option.isSome_iff_exists.mp hparse
  have hpacked : entire sm file content packed = packed := by
    simp [entire, hl.compressed, hl.disabled]
  rw [answer_parsed hrange, if_pos hl.encrypted, hpacked]
  refine cutOrWhole_none fun hcut => hnone ?_
  obtain ⟨spec', r', hvalue', hread', -, hbytes'⟩ := parseRangeHeader_isSome.mp hcut
  obtain rfl := List.append_cancel_left (hvalue.symm.trans hvalue')
  exact hread.unique hread' ▸ hbytes'

theorem answer_unread (hparse : ¬ (parseRangeHeader value content.length).isSome = true)
    (hnames : NamesBytes value) : (answer sm file content packed (some value)).status = 416 := by
  rw [answer_unsatisfied (by simpa using hparse) hnames]
  rfl

theorem classified_iff : Classified (some value) content (entire sm file content packed)
      file.contentType (answer sm file content packed (some value)) ↔
    (NamesBytes value → ((∃ r, SingleRange value r) ↔ ¬ Lost sm file content packed value)) ∧
      ¬ Overlong value content.length := by
  have hwhole : (whole (entire sm file content packed) file.contentType).status = 200 := rfl
  constructor
  · intro hc
    refine ⟨fun hnames => ⟨fun ⟨r, hr⟩ hl => ?_, fun hl => ?_⟩, fun ⟨r, hr, hlarge, hbytes⟩ => ?_⟩
    · obtain ⟨spec, r', hvalue, hread, hbelow, hbytes, -⟩ := hl.range
      have hparse := parseRangeHeader_isSome.mpr ⟨spec, r', hvalue, hread, hbelow, hbytes⟩
      have hstatus := hc.partly value r rfl hr ((hr.parsed_iff _).mp hparse).2
      rw [hl.answer, hwhole] at hstatus
      omega
    · by_contra hnone
      have hanswer := hc.wholly fun value' r heq hr => hnone ⟨r, Option.some.inj heq ▸ hr⟩
      have hstatus := congrArg HttpResponse.status hanswer
      rw [hwhole] at hstatus
      by_cases hparse : (parseRangeHeader value content.length).isSome = true
      · obtain hpart | ⟨hlost, -⟩ := answer_status hparse
        · rw [hpart] at hstatus
          omega
        · exact hl hlost
      · rw [answer_unread hparse hnames] at hstatus
        omega
    · have hstatus := hc.partly value r rfl hr hbytes
      rw [answer_unread (fun hparse => hlarge ((hr.parsed_iff _).mp hparse).1) (namesBytes_of_range hr)] at hstatus
      omega
  · intro ⟨hread, hnumbers⟩
    refine ⟨fun value' r heq hr hbytes => ?_, fun value' r heq hr hnone => ?_, fun hnone => ?_⟩
    · obtain rfl := Option.some.inj heq
      have hbelow : r.Below (2 ^ 64) := by
        by_contra hlarge
        exact hnumbers ⟨r, hr, hlarge, hbytes⟩
      obtain hpart | ⟨hlost, -⟩ := answer_status ((hr.parsed_iff _).mpr ⟨hbelow, hbytes⟩)
      · exact hpart
      · exact absurd hlost ((hread (namesBytes_of_range hr)).mp ⟨r, hr⟩)
    · obtain rfl := Option.some.inj heq
      exact answer_unread (fun hparse => hnone ((hr.parsed_iff _).mp hparse).2) (namesBytes_of_range hr)
    · by_cases hnames : NamesBytes value
      · have hlost : Lost sm file content packed value := by
          by_contra hl
          obtain ⟨r, hr⟩ := (hread hnames).mpr hl
          exact hnone value r rfl hr
        exact hlost.answer
      · exact answer_other hnames

end Grammar

/-! ## The request -/

theorem timely_handleFileRequest (law : st.storage.lib.toCodecs.Lawful)
    (hw : Stored st.storage w b path file content packed raw) (hend : ¬ EndsInInfo path)
    (hallowed : requireDownloadToken st headers (some b) = .ok ()) :
    Timely st.storage.host file.expiresAt (handleFileRequest st b path headers)
      (fun x _ => x = .ok (answer st.storage file content packed (headers.text "range"))) w := by
  rw [handleFileRequest_file hend, hallowed, Prog.ofExcept_ok, Prog.ret_bind]
  exact timely_downloadFile law hw _

/-- A description is none of the three answers. -/
theorem described_not_classified {range : Option String} {full : Bytes} {contentType : String}
    {info : FileInfo} :
    ¬ Classified range content full contentType ⟨200, [("content-type", "application/json")],
      .json info⟩ := by
  intro hc
  by_cases hrange : ∃ value r, range = some value ∧ SingleRange value r
  · obtain ⟨value, r, hvalue, hr⟩ := hrange
    by_cases hbytes : (r.positions content.length).Nonempty
    · simpa using hc.partly value r hvalue hr hbytes
    · simpa using hc.nothing value r hvalue hr hbytes
  · have hwhole := hc.wholly fun value r hvalue hr => hrange ⟨value, r, hvalue, hr⟩
    simp [whole] at hwhole

/-- The three answers go by the grammar exactly when what begins like a range is one, its
numbers fit into 64 bits and the bytes it asks for are not lost. -/
theorem ranges_classified_iff (law : st.storage.lib.toCodecs.Lawful)
    (hw : Stored st.storage w b path file content packed raw) :
    Timely st.storage.host file.expiresAt (handleFileRequest st b path headers)
      (fun x _ => ∃ response, x = .ok response ∧ Classified (headers.text "range") content
        (entire st.storage file content packed) file.contentType response) w ↔
      Regular st headers b path file content packed := by
  constructor
  · intro hrun
    obtain ⟨⟨x, t, hsmooth, hlive⟩, hall⟩ := id hrun
    obtain ⟨response, rfl, hc⟩ := hall x t hsmooth hlive
    have hallowed : requireDownloadToken st headers (some b) = .ok () := by
      obtain ⟨_, u, hpassed, -⟩ := Prog.runs_bind_ok.mp hsmooth.runs
      exact (Prog.runs_ofExcept.mp hpassed).1.symm
    have hend : ¬ EndsInInfo path := by
      intro hend
      have hinfo := hsmooth.runs
      rw [handleFileRequest_info hend] at hinfo
      obtain ⟨_, u, -, hinfo₁⟩ := Prog.runs_bind_ok.mp hinfo
      obtain ⟨info, v, -, hinfo₂⟩ := Prog.runs_bind_ok.mp hinfo₁
      obtain rfl := Except.ok.inj (Prog.runs_ret.mp hinfo₂).1
      exact described_not_classified hc
    obtain ⟨y, u, ⟨response', rfl, hc'⟩, hanswer⟩ :=
      hrun.both (timely_handleFileRequest law hw hend hallowed)
    obtain rfl := Except.ok.inj hanswer
    refine ⟨hallowed, hend, fun value hvalue => ?_, fun value hvalue => ?_⟩
    · rw [hvalue] at hc'
      exact (classified_iff.mp hc').1
    · rw [hvalue] at hc'
      exact (classified_iff.mp hc').2
  · intro hr
    refine (timely_handleFileRequest law hw hr.download hr.allowed).mono fun x t _ hx => ⟨_, hx, ?_⟩
    cases hvalue : headers.text "range" with
    | none =>
      refine ⟨fun value r heq => ?_, fun value r heq => ?_, fun _ => rfl⟩
      · simp at heq
      · simp at heq
    | some value => exact classified_iff.mpr ⟨hr.read value hvalue, hr.numbers value hvalue⟩

/-! ## A compressed object -/

open Sample (letters lettersFrame codecs_lawful)

theorem stored_stored (enabled : Bool) : ∃ file,
    Stored (appState enabled).storage (RoundTrip.stored enabled).2 "a" "k" file letters
      (2 :: lettersFrame) (2 :: lettersFrame) ∧ file.encrypted = false := by
  obtain ⟨file, hrow, hcached, hcontent, hbytes, hsize, horiginal, hc, he, hexp, htype⟩ :=
    stored_row enabled
  refine ⟨file, ⟨hrow, ?_, ?_, hbytes, ?_, hsize.trans (by decide), horiginal.trans (by decide),
    by decide, ?_, fun f hf => ?_, fun x hx => ?_⟩, he⟩
  · rw [hexp]
    rfl
  · rw [htype]
    decide
  · simp [decrypted, he]
  · rw [if_pos hc]
    exact ⟨by decide, ⟨⟨true, "zstd", 3, 16⟩⟩, by cases enabled <;> decide⟩
  · rw [hcached, Option.some.injEq] at hf
    exact hf ▸ .refl file
  · rw [hcontent, Option.some.injEq] at hx
    exact hx.symm

/-- `bytes=0-9` is a range. -/
theorem ranges_classified_firstTen : ∃ file,
    Timely (appState true).storage.host file.expiresAt
      (handleFileRequest (appState true) "a" "k" firstTen)
      (fun x _ => ∃ response, x = .ok response ∧ Classified (firstTen.text "range") letters
        (entire (appState true).storage file letters (2 :: lettersFrame)) file.contentType response)
      (RoundTrip.stored true).2 := by
  obtain ⟨file, hw, he⟩ := stored_stored true
  refine ⟨file, (ranges_classified_iff codecs_lawful hw).mpr ?_⟩
  have htext : firstTen.text "range" = some "bytes=0-9" := by decide
  have hzero : Digits ['0'] 0 := by unfold Digits; decide
  have hnine : Digits ['9'] 9 := by unfold Digits; decide
  have hrange : SingleRange "bytes=0-9" (.between 0 9) :=
    ⟨"0-9".toList, rfl, ['0'], ['9'], rfl, .between hzero hnine (by decide)⟩
  refine ⟨by decide, by unfold EndsInInfo; decide, fun value hvalue _ => ?_, fun value hvalue => ?_⟩
  · obtain rfl := Option.some.inj (htext.symm.trans hvalue)
    exact ⟨fun _ hl => by simp [hl.encrypted] at he, fun _ => ⟨_, hrange⟩⟩
  · obtain rfl := Option.some.inj (htext.symm.trans hvalue)
    intro ⟨r, ⟨spec, hspec, hr⟩, hlarge, _⟩
    obtain ⟨spec', hspec', hr'⟩ := id hrange
    obtain rfl := List.append_cancel_left (hspec.symm.trans hspec')
    rw [hr.signed.unique hr'.signed] at hlarge
    exact hlarge ⟨by decide, by decide⟩

/-- `Range: bytes=abc`. -/
def notNumbers : HeaderMap := [("range", [98, 121, 116, 101, 115, 61, 97, 98, 99])]

/-- What is no range at all is answered 416. -/
theorem malformed_unsatisfiable :
    ((handleFileRequest (appState true) "a" "k" notNumbers).eval (exec (appState true).storage.host)
      calm (RoundTrip.stored true).2).1 = .ok (unsatisfiable 64) ∧
    ∃ file, Stored (appState true).storage (RoundTrip.stored true).2 "a" "k" file letters
        (2 :: lettersFrame) (2 :: lettersFrame) ∧
      ¬ Timely (appState true).storage.host file.expiresAt
        (handleFileRequest (appState true) "a" "k" notNumbers)
        (fun x _ => ∃ response, x = .ok response ∧ Classified (notNumbers.text "range") letters
          (entire (appState true).storage file letters (2 :: lettersFrame)) file.contentType response)
        (RoundTrip.stored true).2 := by
  refine ⟨by decide, ?_⟩
  obtain ⟨file, hw, he⟩ := stored_stored true
  refine ⟨file, hw, fun hrun => ?_⟩
  have hr := (ranges_classified_iff codecs_lawful hw).mp hrun
  have hnames : NamesBytes "bytes=abc" := ⟨"abc".toList, rfl, by decide⟩
  obtain ⟨r, spec, hvalue, s, t, hspec, -⟩ := (hr.read "bytes=abc" (by decide) hnames).mpr
    fun hl => by simp [hl.encrypted] at he
  obtain rfl := List.append_cancel_left
    (hvalue.symm.trans (show "bytes=abc".toList = "bytes=".toList ++ "abc".toList from rfl))
  have hhyphen : '-' ∈ "abc".toList := by
    rw [hspec]
    simp
  exact absurd hhyphen (by decide)

end LocalStorage.Proofs.RangeAnswers
