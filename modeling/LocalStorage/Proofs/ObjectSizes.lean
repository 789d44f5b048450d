import LocalStorage.S3
import LocalStorage.Proofs.LapsedReads
import LocalStorage.Proofs.RequestKeys
import LocalStorage.Proofs.Restart
import LocalStorage.Proofs.StoredBytes

namespace LocalStorage.Proofs.ObjectSizes
open Lib StorageManager OneSource StoredBytes CacheCoherence S3

/-! # The sizes the S3 routes report -/

/-- What is left of the stored bytes after decryption. -/
def packedSize (sm : StorageManager) (f : StoredFile) : Int :=
  if f.encrypted && (f.encryptionKeyId.isSome || sm.config.crypto.enabled) then f.fileSize - 28
  else f.fileSize

/-- How many bytes a read of the row answers with; a compressed one is served as it is when
compression is switched off. -/
def bodySize (sm : StorageManager) (f : StoredFile) : Int :=
  if f.compressed && !sm.config.compression.enabled then packedSize sm f else f.originalSize

variable {sm : StorageManager} {w w' u : World} {b k : String} {before db : Database}
  {f g : StoredFile} {raw plain content : Bytes}

/-! ## Decoding under the keys there are by now -/

/-- A key that is still active decrypts as it did. -/
theorem decrypted_kept (hkept : KeysKept before db) (henc : g.encrypted = f.encrypted)
    (halg : g.encryptionAlgorithm = f.encryptionAlgorithm)
    (hid : g.encryptionKeyId = f.encryptionKeyId)
    (hkey : ∀ keyId, f.encrypted = true → f.encryptionKeyId = some keyId →
      ∃ key, before.selectKey keyId = some key)
    (h : sm.decrypted db g raw = .ok plain) : sm.decrypted before f raw = .ok plain := by
  simp only [decrypted, henc, halg, hid] at h ⊢
  cases hencrypted : f.encrypted with
  | false => simpa only [hencrypted, Bool.false_eq_true, ↓reduceIte] using h
  | true =>
    simp only [hencrypted, ↓reduceIte] at h ⊢
    cases halg' : EncryptionAlgorithm.fromStr (f.encryptionAlgorithm.getD "aes-gcm") with
    | error e => simp [halg'] at h
    | ok alg =>
      simp only [halg'] at h ⊢
      cases hkeyId : f.encryptionKeyId with
      | none => simpa only [hkeyId] using h
      | some keyId =>
        simp only [hkeyId] at h ⊢
        obtain ⟨key, hbefore⟩ := hkey keyId hencrypted hkeyId
        obtain ⟨hfind, -⟩ := Option.filter_eq_some_iff.mp hbefore
        obtain ⟨key', hfind', hdata⟩ := hkept keyId key hfind
        cases hafter : db.selectKey keyId with
        | none => simp [hafter] at h
        | some key'' =>
          obtain ⟨hfind'', -⟩ := Option.filter_eq_some_iff.mp hafter
          obtain rfl : key'' = key' := Option.some.inj (hfind''.symm.trans hfind')
          simp only [hafter, hdata] at h
          simpa only [hbefore] using h

theorem decoded_kept (hkept : KeysKept before db) (henc : g.encrypted = f.encrypted)
    (halg : g.encryptionAlgorithm = f.encryptionAlgorithm)
    (hid : g.encryptionKeyId = f.encryptionKeyId) (hcomp : g.compressed = f.compressed)
    (hkey : ∀ keyId, f.encrypted = true → f.encryptionKeyId = some keyId →
      ∃ key, before.selectKey keyId = some key)
    (h : sm.decoded db g raw = .ok content) : sm.decoded before f raw = .ok content := by
  unfold decoded at h ⊢
  cases hplain : sm.decrypted db g raw with
  | error e => simp [hplain] at h
  | ok plain =>
    rw [decrypted_kept hkept henc halg hid hkey hplain]
    simpa only [hplain, hcomp] using h

/-! ## How long the body is -/

theorem crypto_config (sm : StorageManager) : sm.crypto.config = sm.config.crypto := by
  obtain ⟨random, hstarted⟩ := sm.started
  cases henabled : sm.config.crypto.enabled with
  | false => rw [Restart.new_disabled hstarted henabled]
  | true => exact (Restart.new_enabled hstarted henabled).1

/-- How many bytes an upload is read back as. -/
def answeredSize (sm : StorageManager) (opts : StoreOptions) (content : Bytes) : Nat :=
  if sm.config.compression.enabled = true ∨ (sm.compressStage opts content).2 = false then
    content.length
  else (sm.compressStage opts content).1.length

/-- The sizes of the row are those of its upload. -/
structure Sizes (sm : StorageManager) (opts : StoreOptions) (content : Bytes) (f : StoredFile) :
    Prop where
  stored : f.fileSize = RoundTrip.processedSize sm opts content
  answered : bodySize sm f = answeredSize sm opts content

theorem freshFile_sizes (law : sm.lib.toCiphers.Lawful) {opts : StoreOptions} {ct : Option String}
    {enc : Bool} {id : Uuid} {now : Time}
    (henc : EncryptedAs sm before opts (sm.compressStage opts content).1 raw enc) :
    Sizes sm opts content (sm.freshFile b k content ct opts (sm.compressStage opts content).2
      (sm.compressStage opts content).1.length raw enc id now) := by
  have hflag := RoundTrip.encrypted_flag henc
  have hlength := RoundTrip.processed_length law henc
  constructor
  · simp [freshFile, hlength]
  · have hpacked : packedSize sm (sm.freshFile b k content ct opts (sm.compressStage opts content).2
        (sm.compressStage opts content).1.length raw enc id now) =
          (sm.compressStage opts content).1.length := by
      simp only [RoundTrip.processedSize, crypto_config] at hlength
      simp only [packedSize, freshFile, StoredFile.encrypted, Option.getD_some, hflag, hlength]
      split <;> omega
    rw [bodySize, hpacked, answeredSize]
    cases hc : (sm.compressStage opts content).2 with
    | false => simp [freshFile, StoredFile.compressed]
    | true =>
      cases henabled : sm.config.compression.enabled with
      | false => simp [freshFile, StoredFile.compressed]
      | true => simp [freshFile, StoredFile.compressed]

/-- Reads go by the same columns of rows of one source. -/
theorem SameSource.columns (h : SameSource g f) :
    g.encrypted = f.encrypted ∧ g.compressed = f.compressed ∧
      g.encryptionAlgorithm = f.encryptionAlgorithm ∧ g.encryptionKeyId = f.encryptionKeyId ∧
      g.fileSize = f.fileSize ∧ g.originalSize = f.originalSize := by
  have hsource := h.source
  simp only [inherited, Inherited.mk.injEq] at hsource
  obtain ⟨-, hsize, horiginal, hcompressed, hencrypted, -, halg, hid⟩ := hsource
  exact ⟨by rw [StoredFile.encrypted, StoredFile.encrypted, hencrypted],
    by rw [StoredFile.compressed, StoredFile.compressed, hcompressed], halg, hid, hsize, horiginal⟩

theorem Sizes.source {opts : StoreOptions} (hs : Sizes sm opts content g) (h : SameSource g f) :
    Sizes sm opts content f := by
  obtain ⟨hencrypted, hcompressed, -, hid, hsize, horiginal⟩ := SameSource.columns h
  constructor
  · rw [← hsize, hs.stored]
  · rw [← hs.answered]
    simp only [bodySize, packedSize, hencrypted, hcompressed, hid, hsize, horiginal]

theorem selected_key {opts : StoreOptions} {data : Bytes} {enc : Bool} {keyId : String}
    (henc : EncryptedAs sm before opts data raw enc) (hencrypts : sm.shouldEncrypt opts = true)
    (hkeyId : opts.encryptionKeyId = some keyId) : ∃ key, before.selectKey keyId = some key := by
  unfold EncryptedAs at henc
  rw [if_pos hencrypts] at henc
  obtain ⟨-, alg, nonce, -, henc⟩ := henc
  simp only [hkeyId] at henc
  obtain ⟨key, hkey, -⟩ := henc
  exact ⟨key, hkey⟩

/-- A stored row has the sizes of an upload, and whatever it decodes to is as long as that
upload is read back as. -/
theorem StoredBy.sizes {Q : StoreOptions → Bytes → Prop} (lawC : sm.lib.toCodecs.Lawful)
    (lawE : sm.lib.toCiphers.Lawful) (hs : StoredBy sm Q db f raw) :
    ∃ opts uploaded, Q opts uploaded ∧ Sizes sm opts uploaded f ∧
      ∀ g content, recipe g = recipe f → sm.decoded db g raw = .ok content →
        content.length = answeredSize sm opts uploaded := by
  obtain ⟨before, b, k, uploaded, ct, opts, enc, id, now, hq, hkept, henc, hsame⟩ := hs
  refine ⟨opts, uploaded, hq, (freshFile_sizes lawE henc).source hsame, fun g content hrecipe h => ?_⟩
  obtain ⟨hencrypted, hcompressed, halg, hid, -, -⟩ := SameSource.columns hsame
  obtain ⟨-, hcompressed', hencrypted', halg', hid', -, -⟩ := recipe_eq.mp hrecipe
  have hflag := RoundTrip.encrypted_flag henc
  have hbefore : sm.decoded before (RoundTrip.uploadRecord sm b k uploaded ct opts) raw =
      .ok content := by
    refine decoded_kept hkept ?_ (halg'.trans (halg.symm.trans ?_)) (hid'.trans hid.symm)
      (hcompressed'.trans hcompressed.symm) (fun keyId hencrypts hkeyId => ?_) h
    · rw [hencrypted', ← hencrypted]
      simp [freshFile, RoundTrip.uploadRecord, StoredFile.encrypted, hflag]
    · simp [freshFile, RoundTrip.uploadRecord, hflag]
    · exact selected_key henc hencrypts hkeyId
  rw [RoundTrip.decoded_processed lawC lawE henc] at hbefore
  unfold answeredSize
  split at hbefore
  · rename_i hwhole
    obtain rfl := Except.ok.inj hbefore
    rw [if_pos hwhole]
  · rename_i hpart
    obtain rfl := Except.ok.inj hbefore
    rw [if_neg hpart]

theorem readResult_length {Q : StoreOptions → Bytes → Prop} {ct : Option String}
    (lawC : sm.lib.toCodecs.Lawful) (lawE : sm.lib.toCiphers.Lawful) (hs : Sound sm w)
    (hb : Backed sm Q w) (h : readResult sm w b k = .ok (content, ct)) :
    ∃ f opts uploaded, w.db.files.find (b, k) = some f ∧ past w.now f.expiresAt = false ∧
      Q opts uploaded ∧ Sizes sm opts uploaded f ∧
      content.length = answeredSize sm opts uploaded := by
  unfold readResult at h
  split at h
  · simp at h
  · rename_i g hrecord
    split at h
    · simp at h
    · rename_i hlive
      split at h
      · simp at h
      · rename_i raw hraw
        have hrow := (hs.coherent b k).recordOf
        rw [(hs.coherent b k).rawOf hrecord] at hraw
        rw [hrecord, Option.map_some, eq_comm, Option.map_eq_some_iff] at hrow
        obtain ⟨f, hf, hrecipe⟩ := hrow
        obtain ⟨hpath, -, -, -, -, -, hexpires⟩ := recipe_eq.mp hrecipe
        obtain ⟨raw', hraw', hstored⟩ := hb.bytes f (Table.find_mem hf)
        obtain rfl : raw' = raw := by
          rw [hpath, hraw] at hraw'
          exact (Option.some.inj hraw').symm
        obtain ⟨content', hdecoded, hc⟩ : ∃ content', sm.decoded w.db g raw' = .ok content' ∧
            content' = content := by
          cases hd : sm.decoded w.db g raw' with
          | error e => simp [hd, Except.map] at h
          | ok content' =>
            simp only [hd, Except.map, Except.ok.injEq, Prod.mk.injEq] at h
            exact ⟨content', rfl, h.1⟩
        obtain ⟨opts, uploaded, hq, hsizes, hlength⟩ := StoredBy.sizes lawC lawE hstored
        refine ⟨f, opts, uploaded, hf, ?_, hq, hsizes, hlength g _ hrecipe.symm (hc ▸ hdecoded)⟩
        rw [hexpires]
        simpa using hlive

/-! ## What the routes answer -/

theorem isHeaderValue_toString (n : Int) : isHeaderValue (toString n) = true := by
  cases n with
  | ofNat m => exact isHeaderValue_repr m
  | negSucc m =>
    have hshape : toString (Int.negSucc m) = "-" ++ Nat.repr (m + 1) := rfl
    have hminus : isHeaderValue "-" = true := by decide
    rw [hshape, isHeaderValue_append, hminus, isHeaderValue_repr, Bool.and_self]

/-- The three routes tell one length for the object. -/
structure SizesAgree (sm : StorageManager) (w : World) (b k : String) : Prop where
  head : ∀ verified verified' r r' content u u',
    (getObject sm verified b k).Runs (exec sm.host) w (.ok r) u → r.body = .bytes content →
    (headObject verified' b k).Runs (exec sm.host) w (.ok r') u' →
    r'.header "content-length" = some (toString content.length)
  list : ∀ verified verified' query r r' content result u u',
    (getObject sm verified b k).Runs (exec sm.host) w (.ok r) u → r.body = .bytes content →
    (listObjectsV2 verified' b query).Runs (exec sm.host) w (.ok r') u' → r'.body = .listing result →
    ∀ c ∈ result.contents, c.key = k → c.size = content.length

theorem getObject_ok {verified : Except S3Error Unit} {r : S3Response}
    (hr : (getObject sm verified b k).Runs (exec sm.host) w (.ok r) u) :
    ∃ content ct, r.body = .bytes content ∧ readResult sm w b k = .ok (content, ct) := by
  simp only [getObject, orS3, Prog.bind_eq, Prog.pure_eq] at hr
  obtain ⟨_, v, hverified, hr₁⟩ := Prog.runs_bind_ok.mp hr
  obtain ⟨-, rfl⟩ := Prog.runs_ofExcept.mp hverified
  obtain ⟨⟨content, ct⟩, v₁, hfile, hr₂⟩ := Prog.runs_bind_ok.mp hr₁
  obtain ⟨info, v₂, -, hr₃⟩ := Prog.runs_bind_ok.mp hr₂
  obtain ⟨hret, -⟩ := Prog.runs_ret.mp hr₃
  obtain rfl := Except.ok.inj hret
  exact ⟨content, ct, rfl, getFile_ok (Prog.runs_mapError_ok.mp hfile)⟩

theorem headObject_ok {verified : Except S3Error Unit} {r : S3Response}
    (hr : (headObject verified b k).Runs (exec sm.host) w (.ok r) u) :
    ∃ f, w.db.files.find (b, k) = some f ∧
      r.header "content-length" = some (toString f.fileSize) := by
  simp only [headObject, orS3, Prog.bind_eq, Prog.pure_eq] at hr
  obtain ⟨_, v, hverified, hr₁⟩ := Prog.runs_bind_ok.mp hr
  obtain ⟨-, rfl⟩ := Prog.runs_ofExcept.mp hverified
  obtain ⟨info, v₁, hinfo, hr₂⟩ := Prog.runs_bind_ok.mp hr₁
  obtain ⟨f, hf, -, rfl⟩ := RequestKeys.getFileInfo_ok (Prog.runs_mapError_ok.mp hinfo)
  obtain ⟨hret, -⟩ := Prog.runs_ret.mp hr₂
  obtain rfl := Except.ok.inj hret
  refine ⟨f, hf, ?_⟩
  have hskip : ∀ name value rest, name ≠ "content-length" →
      ((headerIfValid name value ++ rest).find? (·.1 = "content-length")) =
        rest.find? (·.1 = "content-length") := by
    intro name value rest hname
    unfold headerIfValid
    split <;> simp [hname]
  simp only [S3Response.header, List.append_assoc]
  rw [hskip _ _ _ (by decide), hskip _ _ _ (by decide), headerIfValid, if_pos (isHeaderValue_toString _)]
  rfl

theorem listFiles_ok {keyPrefix : Option String} {limit offset : Option Int} {infos : List FileInfo}
    (hr : (listFiles b keyPrefix limit offset).Runs (exec sm.host) w (.ok infos) u) :
    ∀ i ∈ infos, ∃ f ∈ w.db.files, f.bucket = b ∧ i = FileInfo.ofStored f := by
  simp only [listFiles, step_eq, Prog.bind_eq, Prog.act_bind, Prog.ret_bind, Prog.pure_eq,
    Prog.runs_act, exec, LapsedReads.page_runs] at hr
  obtain ⟨c, -, -, files, hfiles, hinfos⟩ := hr
  intro i hi
  rw [hinfos, List.mem_map] at hi
  obtain ⟨f, hf, hif⟩ := hi
  obtain ⟨hrow, hbucket⟩ := Database.selectFiles_ok hfiles f hf
  exact ⟨f, hrow, hbucket, hif.symm⟩

theorem listObjectsV2_ok {verified : Except S3Error Unit} {query : ListObjectsQuery} {r : S3Response}
    {result : ListBucketResult}
    (hr : (listObjectsV2 verified b query).Runs (exec sm.host) w (.ok r) u)
    (hbody : r.body = .listing result) :
    ∀ c ∈ result.contents, ∃ f, w.db.files.find (b, c.key) = some f ∧ c.size = f.fileSize := by
  simp only [listObjectsV2, orS3, Prog.bind_eq, Prog.pure_eq] at hr
  obtain ⟨_, v, hverified, hr₁⟩ := Prog.runs_bind_ok.mp hr
  obtain ⟨-, rfl⟩ := Prog.runs_ofExcept.mp hverified
  obtain ⟨infos, v₁, hinfos, hr₂⟩ := Prog.runs_bind_ok.mp hr₁
  obtain ⟨hret, -⟩ := Prog.runs_ret.mp hr₂
  obtain rfl := Except.ok.inj hret
  simp only [S3Body.listing.injEq] at hbody
  subst hbody
  intro c hc
  obtain ⟨i, hi, rfl⟩ := List.mem_map.mp hc
  obtain ⟨f, hf, hbucket, rfl⟩ :=
    listFiles_ok (Prog.runs_mapError_ok.mp hinfos) i (List.mem_of_mem_take hi)
  refine ⟨f, ?_, rfl⟩
  have hident : f.ident = (b, (FileInfo.ofStored f).key) := Prod.ext_iff.mpr ⟨hbucket, rfl⟩
  rw [← hident]
  exact Table.find_self hf

/-- A row that a read finds can be asked for its header. -/
theorem headObject_runs (hf : w.db.files.find (b, k) = some f)
    (hlive : past w.now f.expiresAt = false) :
    ∃ r, (headObject (.ok ()) b k).Runs (exec sm.host) w (.ok r) w := by
  have hinfo : (getFileInfo b k).Runs (exec sm.host) w
      ((getFileInfo b k).eval (exec sm.host) calm w).1
      ((getFileInfo b k).eval (exec sm.host) calm w).2 := Prog.eval_runs calm (getFileInfo b k) w
  rw [RequestKeys.eval_getFileInfo hf hlive] at hinfo
  simp only [headObject, orS3, Prog.bind_eq, Prog.pure_eq, Prog.ofExcept_ok, Prog.ret_bind]
  refine ⟨⟨200, headerIfValid "content-type" f.contentType ++ headerIfValid "etag" (etag f.hashMd5) ++
    headerIfValid "content-length" (toString f.fileSize), .empty⟩, ?_⟩
  rw [Prog.runs_bind_ok]
  exact ⟨_, w, Prog.runs_mapError_ok.mpr hinfo, Prog.runs_ret.mpr ⟨rfl, rfl⟩⟩

theorem SizesAgree.of_length
    (h : ∀ content ct, readResult sm w b k = .ok (content, ct) →
      ∀ f, w.db.files.find (b, k) = some f → f.fileSize = content.length) : SizesAgree sm w b k := by
  have hsize : ∀ {verified r content u}, (getObject sm verified b k).Runs (exec sm.host) w (.ok r) u →
      r.body = .bytes content →
      ∀ f, w.db.files.find (b, k) = some f → f.fileSize = content.length := by
    intro verified r content u hget hbody
    obtain ⟨content', ct, hbody', hread⟩ := getObject_ok hget
    obtain rfl : content' = content := by
      rw [hbody', S3Body.bytes.injEq] at hbody
      exact hbody
    exact h content' ct hread
  constructor
  · intro verified verified' r r' content u u' hget hbody hhead
    obtain ⟨f, hf, hheader⟩ := headObject_ok hhead
    rw [hheader, hsize hget hbody f hf]
    rfl
  · intro verified verified' query r r' content result u u' hget hbody hlist hresult c hc hkey
    obtain ⟨f, hf, hcsize⟩ := listObjectsV2_ok hlist hresult c hc
    rw [hcsize, hsize hget hbody f (hkey ▸ hf)]

/-- The header can only be right when the row's size is. -/
theorem SizesAgree.fileSize {verified : Except S3Error Unit} {r : S3Response} (h : SizesAgree sm w b k)
    (hget : (getObject sm verified b k).Runs (exec sm.host) w (.ok r) u) (hbody : r.body = .bytes content)
    (hf : w.db.files.find (b, k) = some f) (hlive : past w.now f.expiresAt = false) {size : Nat}
    (hsize : f.fileSize = size) : size = content.length := by
  have hasked : ∃ r', (headObject (.ok ()) b k).Runs (exec sm.host) w (.ok r') w :=
    headObject_runs hf hlive
  obtain ⟨r', hhead⟩ := hasked
  obtain ⟨f', hf', hheader⟩ := headObject_ok hhead
  obtain rfl : f' = f := Option.some.inj (hf'.symm.trans hf)
  have htext := h.head _ _ _ _ _ _ _ hget hbody hhead
  rw [hheader, hsize, Option.some.injEq] at htext
  have hdigits : Nat.toDigits 10 size = Nat.toDigits 10 content.length := by
    have hrepr : Nat.repr size = Nat.repr content.length := htext
    simpa only [Nat.toList_repr] using congrArg String.toList hrepr
  calc
    size = Nat.ofDigitChars 10 (Nat.toDigits 10 size) 0 := Nat.ofDigitChars_ten_toDigits.symm
    _ = Nat.ofDigitChars 10 (Nat.toDigits 10 content.length) 0 := by rw [hdigits]
    _ = content.length := Nat.ofDigitChars_ten_toDigits

/-! ## Whole runs -/

/-- The condition on each step: reads go past the cache unnoticed, and no upload or removal
takes the bytes of other rows. -/
def Steady (sm : StorageManager) (Q : StoreOptions → Bytes → Prop) (w : World) :
    ServiceEvent → Prop
  | .call e => StaysCoherent sm w e ∧ Spares sm w e ∧ Writes sm Q w e
  | _ => True

theorem Sound.onlyKeys (hs : Sound sm w) (h : OnlyKeys w w') : Sound sm w' := by
  constructor
  · intro b k
    apply Coherent.keep (hs.coherent b k)
    · rw [h.files]
    · intro g hg hwarm
      simp only [World.bytesAt, h.disk]
    · rw [h.cache]
      exact fun _ hf => hf
    · rw [h.cache]
      exact fun _ hx => hx
  · rw [h.files]
    exact hs.plain

theorem run_steady {Q : StoreOptions → Bytes → Prop} {es : List ServiceEvent}
    (lawE : sm.lib.toCiphers.Lawful) (hfiles : w.db.files = Table.empty)
    (hcache : w.cache = Cache.empty) (hrun : ServiceRun sm (Steady sm Q) w es w') :
    Sound sm w' ∧ Backed sm Q w' := by
  refine hrun.invariant (I := fun u => Sound sm u ∧ Backed sm Q u)
    ⟨Sound.initial hfiles hcache, Backed.initial hfiles⟩ fun e _ u v hinv hp ht => ?_
  obtain ⟨hs, hb⟩ := hinv
  cases e with
  | call e =>
    obtain ⟨hcoherent, hspares, hwrites⟩ := hp
    exact ⟨step_sound lawE hs hcoherent ht, call_backed hb hspares hwrites ht⟩
  | createEncryptionKey algorithm x =>
    have honly : OnlyKeys u v := by
      obtain ⟨keyId, keyData, c, hc⟩ := ht
      exact createEncryptionKey_onlyKeys hc
    exact ⟨Sound.onlyKeys hs honly, step_backed (e := .createEncryptionKey algorithm x) hb trivial ht⟩
  | deactivateEncryptionKey keyId x =>
    have honly : OnlyKeys u v := by
      obtain ⟨c, hc⟩ := ht
      exact deactivateEncryptionKey_onlyKeys hc
    exact ⟨Sound.onlyKeys hs honly, step_backed (e := .deactivateEncryptionKey keyId x) hb trivial ht⟩

/-- In every run whose steps meet the condition, the routes agree on an object that can be
read just when its row records the length a read answers with as the size of the file. They
agree on all of them when every upload stored as many bytes as it is read back as. -/
theorem sizes_agree_iff {Q : StoreOptions → Bytes → Prop} {es : List ServiceEvent}
    (lawC : sm.lib.toCodecs.Lawful) (lawE : sm.lib.toCiphers.Lawful)
    (hfiles : w.db.files = Table.empty) (hcache : w.cache = Cache.empty)
    (hrun : ServiceRun sm (Steady sm Q) w es w') :
    (∀ b k verified r u, (getObject sm verified b k).Runs (exec sm.host) w' (.ok r) u →
      (SizesAgree sm w' b k ↔
        ∀ f, w'.db.files.find (b, k) = some f → f.fileSize = bodySize sm f)) ∧
    ((∀ opts content, Q opts content →
        RoundTrip.processedSize sm opts content = answeredSize sm opts content) →
      ∀ b k, SizesAgree sm w' b k) := by
  obtain ⟨hs, hb⟩ := run_steady lawE hfiles hcache hrun
  constructor
  · intro b k verified r u hget
    obtain ⟨content, ct, hbody, hread⟩ := getObject_ok hget
    obtain ⟨f, opts, uploaded, hf, hlive, -, hsizes, hlength⟩ := readResult_length lawC lawE hs hb hread
    have hbodySize : bodySize sm f = content.length := by rw [hsizes.answered, hlength]
    constructor
    · intro hagree f' hf'
      obtain rfl : f' = f := Option.some.inj (hf'.symm.trans hf)
      rw [hbodySize, hsizes.stored]
      exact congrArg Nat.cast (hagree.fileSize hget hbody hf hlive hsizes.stored)
    · intro hrow
      refine SizesAgree.of_length fun content' ct' hread' f' hf' => ?_
      obtain rfl : f' = f := Option.some.inj (hf'.symm.trans hf)
      obtain ⟨rfl, -⟩ := Prod.mk.inj (Except.ok.inj (hread'.symm.trans hread))
      rw [hrow f' hf', hbodySize]
  · intro hkeeps b k
    refine SizesAgree.of_length fun content ct hread f' hf' => ?_
    obtain ⟨f, opts, uploaded, hf, -, hq, hsizes, hlength⟩ := readResult_length lawC lawE hs hb hread
    obtain rfl : f' = f := Option.some.inj (hf'.symm.trans hf)
    rw [hsizes.stored, hkeeps opts uploaded hq, hlength]

/-! ## A compressed object -/

open Sample (manager managerWith letters codecs_lawful ciphers_lawful)

def upload (content : Bytes) : Event × Choice :=
  (.storeFile "a" "k" content none {} (.error (.io "")), { uuid := 1 })

/-- The state after one upload to an empty service. -/
def stored (sm : StorageManager) (content : Bytes) : World :=
  (replay sm [upload content] ([], World.empty)).2

def uploadRun (sm : StorageManager) (content : Bytes) : List ServiceEvent :=
  (replay sm [upload content] ([], World.empty)).1.map .call

theorem sizes_agree_plain : SizesAgree manager (stored manager [120]) "a" "k" := by
  have hsteady : ServiceRun manager (Steady manager fun _ _ => True) World.empty
      (uploadRun manager [120]) (stored manager [120]) :=
    calls_run (fun _ _ h => h) (replay_run (P := fun u e => StaysCoherent manager u e ∧
      Spares manager u e ∧ Writes manager (fun _ _ => True) u e) (.nil World.empty) (by decide))
  have hget : ((getObject manager (.ok ()) "a" "k").eval (exec manager.host) calm
      (stored manager [120])).1.toOption.any (fun _ => true) = true := by decide
  obtain ⟨r, u, hr, -⟩ := Prog.eval_ok_runs hget
  have hsize : ((stored manager [120]).db.files.find ("a", "k")).all
      (fun f => decide (f.fileSize = bodySize manager f)) = true := by decide
  refine ((sizes_agree_iff codecs_lawful ciphers_lawful rfl rfl hsteady).1 _ _ _ _ _ hr).mpr ?_
  intro f hf
  simpa [hf] using hsize

def compressing : StorageManager := managerWith ⟨true, "zstd", 3, 16⟩ true

/-- Sixty-four letters are served, and eighteen announced and listed. -/
theorem compressed_size_announced :
    ServiceRun compressing (Steady compressing fun _ _ => True) World.empty
        (uploadRun compressing letters) (stored compressing letters) ∧
      ∃ r r' r'' u u' u'' result,
        (getObject compressing (.ok ()) "a" "k").Runs (exec compressing.host)
          (stored compressing letters) (.ok r) u ∧ r.body = .bytes letters ∧
        (headObject (.ok ()) "a" "k").Runs (exec compressing.host)
          (stored compressing letters) (.ok r') u' ∧ r'.header "content-length" = some "18" ∧
        (listObjectsV2 (.ok ()) "a" ⟨none, none⟩).Runs (exec compressing.host)
          (stored compressing letters) (.ok r'') u'' ∧ r''.body = .listing result ∧
        (∃ c ∈ result.contents, c.key = "k" ∧ c.size = 18) ∧
        ¬ SizesAgree compressing (stored compressing letters) "a" "k" := by
  have hsteady : ServiceRun compressing (Steady compressing fun _ _ => True) World.empty
      (uploadRun compressing letters) (stored compressing letters) :=
    calls_run (fun _ _ h => h) (replay_run (P := fun u e => StaysCoherent compressing u e ∧
      Spares compressing u e ∧ Writes compressing (fun _ _ => True) u e) (.nil World.empty) (by decide))
  have hget : ((getObject compressing (.ok ()) "a" "k").eval (exec compressing.host) calm
      (stored compressing letters)).1.toOption.any (fun r => r.body = .bytes letters) = true := by
    decide
  have hhead : ((headObject (.ok ()) "a" "k").eval (exec compressing.host) calm
      (stored compressing letters)).1.toOption.any
        (fun r => r.header "content-length" = some "18") = true := by decide
  have hlist : ((listObjectsV2 (.ok ()) "a" ⟨none, none⟩).eval (exec compressing.host) calm
      (stored compressing letters)).1.toOption.any (fun r => match r.body with
        | .listing result => result.contents.any (fun c => c.key = "k" ∧ c.size = 18)
        | _ => false) = true := by decide
  obtain ⟨r, u, hr, hbody⟩ := Prog.eval_ok_runs hget
  obtain ⟨r', u', hr', hheader⟩ := Prog.eval_ok_runs hhead
  obtain ⟨r'', u'', hr'', hlisted⟩ := Prog.eval_ok_runs hlist
  cases hresult : r''.body with
  | empty => simp [hresult] at hlisted
  | bytes content => simp [hresult] at hlisted
  | listing result =>
    refine ⟨hsteady, r, r', r'', u, u', u'', result, hr, by simpa using hbody, hr',
      by simpa using hheader, hr'', hresult, by simpa [hresult] using hlisted, fun hagree => ?_⟩
    have htext := hagree.head _ _ _ _ _ _ _ hr (by simpa using hbody) hr'
    rw [of_decide_eq_true hheader] at htext
    revert htext
    decide

end LocalStorage.Proofs.ObjectSizes
