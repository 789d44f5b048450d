import LocalStorage.Proofs.Reading

namespace LocalStorage
open Lib Lib.Paths

/-! # What a read that succeeds has answered

Whatever fails or takes its time on the way: an answer is the one the state the read
started in gives. -/

namespace StorageManager

variable {sm : StorageManager} {h : Host} {w u t : World} {b k : String} {file : StoredFile}
  {start stop : Nat}

theorem dbGetFile_ok (hr : (dbGetFile b k).Runs (exec h) w (.ok file) u) :
    w.db.files.find (b, k) = some file ∧ u = w := by
  have hens : (dbGetFile b k).Ensures (exec h)
      (fun x u => ∀ f, x = .ok f → w.db.files.find (b, k) = some f ∧ u = w) w := by
    simp only [dbGetFile, step_eq, Prog.bind_eq, Prog.act_bind, Prog.ret_bind, Prog.pure_eq]
    refine ensures_selectFile (by simp) ?_
    simp only [Database.selectFile]
    cases w.db.files.find (b, k) with
    | none => simp
    | some f => simp
  exact hens _ _ hr file rfl

theorem readMetadata_ok (hr : (readMetadata b k).Runs (exec h) w (.ok file) u) :
    recordOf w b k = some file ∧ u.db = w.db ∧ u.fs = w.fs ∧ u.now = w.now ∧
      u.cache.content = w.cache.content := by
  have hens : (readMetadata b k).Ensures (exec h)
      (fun x u => ∀ f, x = .ok f → recordOf w b k = some f ∧ u.db = w.db ∧ u.fs = w.fs ∧
        u.now = w.now ∧ u.cache.content = w.cache.content) w := by
    simp only [readMetadata, dbGetFile, step_eq, Prog.bind_eq, Prog.act_bind, Prog.ret_bind,
      Prog.pure_eq, recordOf]
    rw [ensures_getFileMetadata]
    cases w.cache.getFileMetadata b k with
    | some f => simp
    | none =>
      simp only [Prog.bind_assoc]
      refine ensures_selectFile (by simp) ?_
      cases w.db.selectFile b k with
      | none => simp
      | some f =>
        simp only [Prog.ret_bind, ensures_setFileMetadata, Prog.ensures_ret, Except.ok.injEq]
        rintro f rfl
        simp
  exact hens _ _ hr file rfl

/-- What is live when the clock is read was live before. -/
theorem expireFile_ok (hr : (expireFile b k file).Runs (exec h) w (.ok ()) u) :
    past w.now file.expiresAt = false ∧ u.db = w.db ∧ u.fs = w.fs ∧ u.cache = w.cache := by
  have hens : (expireFile b k file).Ensures (exec h) (fun x u => x = .ok () →
      past w.now file.expiresAt = false ∧ u.db = w.db ∧ u.fs = w.fs ∧ u.cache = w.cache) w := by
    simp only [expireFile, step_eq, Prog.bind_eq, Prog.act_bind, Prog.ret_bind, Prog.pure_eq]
    cases file.expiresAt with
    | none => simp [past]
    | some expiresAt =>
      refine ensures_utcNow fun now hnow => ?_
      split
      · rw [Prog.ensures_bind]
        intro x t _
        cases x <;> simp
      · rename_i hlive
        simp only [Prog.ensures_ret, past, decide_eq_false_iff_not, forall_const, and_self, and_true]
        exact fun hle => hlive (le_trans hle hnow)
  exact hens _ _ hr rfl

theorem readContent_ok {raw : Bytes} (hr : (readContent b k file).Runs (exec h) w (.ok raw) u) :
    rawOf h w b k file = some raw ∧ u.db = w.db ∧ u.fs = w.fs := by
  have hens : (readContent b k file).Ensures (exec h) (fun x u => ∀ raw, x = .ok raw →
      rawOf h w b k file = some raw ∧ u.db = w.db ∧ u.fs = w.fs) w := by
    simp only [readContent, step_eq, Prog.bind_eq, Prog.act_bind, Prog.ret_bind, Prog.pure_eq, rawOf]
    rw [ensures_getFileContent]
    cases w.cache.getFileContent b k with
    | some raw => simp
    | none =>
      apply ensures_readFile
      · intro raw hraw
        simp only [ensures_setFileContent, Prog.ensures_ret, Except.ok.injEq]
        rintro raw rfl
        simp [hraw]
      · intro e
        dsimp only
        split
        · rw [Prog.ensures_bind]
          intro x t _
          cases x <;> simp
        · simp
  exact hens _ _ hr raw rfl

theorem getKey_ok {keyId : String} {key : EncryptionKey}
    (hr : (getKey keyId).Runs (exec h) w (.ok key) u) : w.db.selectKey keyId = some key ∧ u = w := by
  have hens : (getKey keyId).Ensures (exec h)
      (fun x u => ∀ key, x = .ok key → w.db.selectKey keyId = some key ∧ u = w) w := by
    simp only [getKey, step_eq, Prog.bind_eq, Prog.act_bind, Prog.ret_bind, Prog.pure_eq]
    refine ensures_selectKey (by simp) ?_
    cases w.db.selectKey keyId with
    | none => simp
    | some key => simp
  exact hens _ _ hr key rfl

theorem decryptContent_ok {raw content : Bytes}
    (hr : (sm.decryptContent file raw).Runs (exec h) w (.ok content) u) :
    sm.decrypted w.db file raw = .ok content ∧ u = w := by
  simp only [decryptContent, Prog.bind_eq, Prog.pure_eq] at hr
  unfold decrypted
  cases hc : file.encrypted with
  | false =>
    simp only [hc, Bool.false_eq_true, ↓reduceIte, Prog.runs_ret, Except.ok.injEq] at hr
    simp [hr.1, hr.2]
  | true =>
    simp only [hc, ↓reduceIte] at hr ⊢
    cases halg : EncryptionAlgorithm.fromStr (file.encryptionAlgorithm.getD "aes-gcm") with
    | error e => simp [halg] at hr
    | ok alg =>
      simp only [halg, Prog.ofExcept_ok, Prog.ret_bind] at hr
      cases hid : file.encryptionKeyId with
      | none =>
        simp only [hid, Prog.runs_ofExcept] at hr
        exact ⟨hr.1.symm, hr.2⟩
      | some keyId =>
        simp only [hid] at hr
        obtain ⟨key, v, hkey, hdecrypt⟩ := Prog.runs_bind_ok.mp hr
        obtain ⟨hkey, rfl⟩ := getKey_ok hkey
        rw [Prog.runs_ofExcept] at hdecrypt
        simp only [hkey]
        exact ⟨hdecrypt.1.symm, hdecrypt.2⟩

theorem decodeContent_ok {raw content : Bytes}
    (hr : (sm.decodeContent file raw).Runs (exec h) w (.ok content) u) :
    sm.decoded w.db file raw = .ok content ∧ u = w := by
  simp only [decodeContent, Prog.bind_eq, Prog.pure_eq] at hr
  obtain ⟨plain, v, hplain, hrest⟩ := Prog.runs_bind_ok.mp hr
  obtain ⟨hplain, rfl⟩ := decryptContent_ok hplain
  simp only [decoded, hplain]
  cases hc : file.compressed with
  | true =>
    simp only [hc, ↓reduceIte, Prog.runs_ofExcept] at hrest ⊢
    exact ⟨hrest.1.symm, hrest.2⟩
  | false =>
    simp only [hc, Bool.false_eq_true, ↓reduceIte, Prog.runs_ret] at hrest ⊢
    exact ⟨hrest.1.symm, hrest.2⟩

theorem getFile_ok {y : Bytes × Option String}
    (hr : (sm.getFile b k).Runs (exec sm.host) w (.ok y) t) : readResult sm w b k = .ok y := by
  simp only [getFile, step_eq, Prog.bind_eq, Prog.pure_eq] at hr
  obtain ⟨file, u, hfile, hr₁⟩ := Prog.runs_bind_ok.mp hr
  obtain ⟨hrecord, hdb, hfs, hnow, hcontent⟩ := readMetadata_ok hfile
  obtain ⟨_, v, hexpire, hr₂⟩ := Prog.runs_bind_ok.mp hr₁
  obtain ⟨hlive, hdb', hfs', hcache'⟩ := expireFile_ok hexpire
  obtain ⟨raw, x, hraw, hr₃⟩ := Prog.runs_bind_ok.mp hr₂
  obtain ⟨hraw, hdb'', -⟩ := readContent_ok hraw
  obtain ⟨content, x', hdecode, hr₄⟩ := Prog.runs_bind_ok.mp hr₃
  obtain ⟨hdecode, -⟩ := decodeContent_ok hdecode
  obtain ⟨c, hc⟩ := Prog.runs_act.mp hr₄
  obtain ⟨hy, -⟩ := Prog.runs_ret.mp hc
  have hsame : rawOf sm.host v b k file = rawOf sm.host w b k file := by
    simp only [rawOf, Cache.getFileContent, hcache', hcontent]
    congr 1
    simp only [World.bytesAt, hfs', hfs]
  rw [hdb'', hdb', hdb] at hdecode
  rw [hnow] at hlive
  simp only [readResult, hrecord, hlive, ← hsame, hraw, hdecode, Bool.false_eq_true, ↓reduceIte,
    Except.map]
  exact hy.symm

/-! ## Ranges -/

/-- What a range read of a plain file serves. -/
def plainRange (h : Host) (w : World) (b k : String) (start stop : Nat) :
    Option (Bytes × String × Nat) := do
  let file ← recordOf w b k
  if file.compressed || file.encrypted then none
  else
    let total := asU64 file.fileSize
    let clampedEnd := min stop (total - 1)
    if total = 0 ∨ clampedEnd < start then none
    else
      let raw ← w.bytesAt h file.filePath
      if start + (clampedEnd - start + 1) ≤ raw.length then
        some ((raw.drop start).take (clampedEnd - start + 1), file.contentType, total)
      else none

/-- What a range read of a compressed file serves. -/
def compressedRange (sm : StorageManager) (w : World) (b k : String) (start stop : Nat) :
    Option (Bytes × String × Nat) := do
  let file ← recordOf w b k
  if file.encrypted || !file.compressed then none
  else
    let total := asU64 file.originalSize
    let clampedEnd := min stop (total - 1)
    if total = 0 ∨ clampedEnd < start then none
    else
      let raw ← w.bytesAt sm.host file.filePath
      match CompressionManager.decompressRange sm.lib.toCodecs raw start (clampedEnd - start + 1) with
      | .ok (some buf) => some (buf, file.contentType, total)
      | _ => none

theorem getFileRangeIfPlain_ok {y : Bytes × String × Nat}
    (hr : (getFileRangeIfPlain b k start stop).Runs (exec h) w (.ok (some y)) t) :
    plainRange h w b k start stop = some y := by
  simp only [getFileRangeIfPlain, ofIo, step_eq, Prog.bind_eq, Prog.act_bind, Prog.ret_bind,
    Prog.pure_eq] at hr
  obtain ⟨file, u, hfile, hr₁⟩ := Prog.runs_bind_ok.mp hr
  obtain ⟨hrecord, -, hfs, -, -⟩ := readMetadata_ok hfile
  simp only [plainRange, hrecord, Option.bind_eq_bind, Option.bind_some]
  split at hr₁
  · simp at hr₁
  · rename_i hkind
    rw [if_neg hkind]
    split at hr₁
    · simp at hr₁
    · rename_i hrange
      rw [if_neg hrange]
      obtain ⟨c, hc⟩ := Prog.runs_act.mp hr₁
      obtain ⟨buf, v, hbuf, hr₂⟩ := Prog.runs_bind_ok.mp hc
      obtain ⟨hbuf, -⟩ := Prog.runs_ofExcept.mp hbuf
      obtain ⟨c', hc'⟩ := Prog.runs_act.mp hr₂
      obtain ⟨hy, -⟩ := Prog.runs_ret.mp hc'
      simp only [exec, execReadRange] at hbuf
      split at hbuf
      · simp [Except.mapError] at hbuf
      · rename_i raw hraw
        have hbytes : w.bytesAt h file.filePath = some raw := by
          rw [← execReadFile_ok hraw]
          simp only [World.bytesAt, hfs]
        rw [hbytes, Option.bind_some]
        split at hbuf
        · rename_i hfits
          simp only [Except.mapError, Except.ok.injEq] at hbuf hy
          rw [if_pos hfits, hy, hbuf]
        · simp [Except.mapError] at hbuf

theorem getCompressedFileRange_ok {y : Bytes × String × Nat}
    (hr : (sm.getCompressedFileRange b k start stop).Runs (exec sm.host) w (.ok (some y)) t) :
    compressedRange sm w b k start stop = some y := by
  simp only [getCompressedFileRange, ofIo, step_eq, Prog.bind_eq, Prog.act_bind, Prog.ret_bind,
    Prog.pure_eq] at hr
  obtain ⟨file, u, hfile, hr₁⟩ := Prog.runs_bind_ok.mp hr
  obtain ⟨hrecord, -, hfs, -, -⟩ := readMetadata_ok hfile
  simp only [compressedRange, hrecord, Option.bind_eq_bind, Option.bind_some]
  split at hr₁
  · simp at hr₁
  · rename_i hkind
    rw [if_neg hkind]
    split at hr₁
    · simp at hr₁
    · rename_i hrange
      rw [if_neg hrange]
      obtain ⟨c, hc⟩ := Prog.runs_act.mp hr₁
      obtain ⟨raw, v, hraw, hr₂⟩ := Prog.runs_bind_ok.mp hc
      obtain ⟨hraw, -⟩ := Prog.runs_ofExcept.mp hraw
      obtain ⟨buf, v', hbuf, hr₃⟩ := Prog.runs_bind_ok.mp hr₂
      obtain ⟨hbuf, -⟩ := Prog.runs_ofExcept.mp hbuf
      have hread : execReadFile sm.host c file.filePath u = .ok raw := by
        cases hx : execReadFile sm.host c file.filePath u with
        | error e => simp [exec, hx, Except.mapError] at hraw
        | ok x => simpa [exec, hx, Except.mapError] using hraw.symm
      have hbytes : w.bytesAt sm.host file.filePath = some raw := by
        rw [← execReadFile_ok hread]
        simp only [World.bytesAt, hfs]
      rw [hbytes, Option.bind_some, ← hbuf]
      cases buf with
      | none => simp at hr₃
      | some buf =>
        obtain ⟨c', hc'⟩ := Prog.runs_act.mp hr₃
        obtain ⟨hy, -⟩ := Prog.runs_ret.mp hc'
        simpa using hy.symm

/-! ## Reads that do succeed -/

theorem calm_readFile {path : String} {raw : Bytes} (hraw : u.bytesAt h path = some raw) :
    exec h calm (.readFile path) u = (.ok raw, u) := by
  simp [exec, execReadFile, calm, lookup_eq_ok.mpr hraw]

theorem eval_getFileRangeIfPlain {y : Bytes × String × Nat}
    (hy : plainRange h w b k start stop = some y) :
    ((getFileRangeIfPlain b k start stop).eval (exec h) calm w).1 = .ok (some y) := by
  simp only [plainRange, Option.bind_eq_bind, Option.bind_eq_some_iff] at hy
  obtain ⟨file, hrecord, hy⟩ := hy
  obtain ⟨u, hu, -, hfs, -, -⟩ := eval_readMetadata (h := h) (w := w) (b := b) (k := k)
  simp only [getFileRangeIfPlain, ofIo, step_eq, Prog.bind_eq, Prog.act_bind, Prog.ret_bind,
    Prog.pure_eq, Prog.eval_bind, hu, hrecord]
  split at hy
  · simp at hy
  · rename_i hkind
    rw [if_neg hkind]
    split at hy
    · simp at hy
    · rename_i hrange
      rw [if_neg hrange]
      obtain ⟨raw, hraw, hy⟩ := Option.bind_eq_some_iff.mp hy
      split at hy
      · rename_i hfits
        have hrawu : u.bytesAt h file.filePath = some raw := by
          simpa only [World.bytesAt, hfs] using hraw
        simp only [Prog.eval, exec, execReadRange, execReadFile, calm, lookup_eq_ok.mpr hrawu,
          if_pos hfits, Except.mapError, Prog.ofExcept_ok, Prog.ret_bind]
        rw [hy]
      · simp at hy

theorem eval_getCompressedFileRange {y : Bytes × String × Nat}
    (hy : compressedRange sm w b k start stop = some y) :
    ((sm.getCompressedFileRange b k start stop).eval (exec sm.host) calm w).1 = .ok (some y) := by
  simp only [compressedRange, Option.bind_eq_bind, Option.bind_eq_some_iff] at hy
  obtain ⟨file, hrecord, hy⟩ := hy
  obtain ⟨u, hu, -, hfs, -, -⟩ := eval_readMetadata (h := sm.host) (w := w) (b := b) (k := k)
  simp only [getCompressedFileRange, ofIo, step_eq, Prog.bind_eq, Prog.act_bind, Prog.ret_bind,
    Prog.pure_eq, Prog.eval_bind, hu, hrecord]
  split at hy
  · simp at hy
  · rename_i hkind
    rw [if_neg hkind]
    split at hy
    · simp at hy
    · rename_i hrange
      rw [if_neg hrange]
      obtain ⟨raw, hraw, hy⟩ := Option.bind_eq_some_iff.mp hy
      have hrawu : u.bytesAt sm.host file.filePath = some raw := by
        simpa only [World.bytesAt, hfs] using hraw
      split at hy
      · rename_i buf hbuf
        simp only [Prog.eval, calm_readFile hrawu, Except.mapError, Prog.ofExcept_ok, Prog.ret_bind,
          hbuf]
        rw [hy]
      · simp at hy

end StorageManager

end LocalStorage
