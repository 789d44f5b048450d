import LocalStorage.Auth
import LocalStorage.Proofs.RequestKeys
import LocalStorage.Proofs.RoundTrip
import LocalStorage.Proofs.StoredBytes
import LocalStorage.Uploads
import LocalStorage.Proofs.UriEncoding

namespace LocalStorage.Proofs.Copies
open Lib Lib.Paths Lib.Text StorageManager S3 CacheCoherence RequestKeys RoundTrip StoredBytes

/-! # What a copy leaves under its destination -/

/-- The source in the S3 form: a slash, the bucket, a slash and the key, percent-encoded. -/
def Names (headers : HeaderMap) (b k : String) : Prop :=
  ∃ p q, headers.text "x-amz-copy-source" = some (String.ofList ('/' :: p ++ '/' :: q)) ∧ '/' ∉ p ∧
    percentDecode p = some (asBytes b.toList) ∧ percentDecode q = some (asBytes k.toList)

section Outcomes
variable (sm : StorageManager) (headers : HeaderMap) (b k : String) (w : World)

/-- The destination holds what the named source held, content and content type. -/
def Copied (t : World) : Prop :=
  ∀ sb sk, Names headers sb sk → ∃ content contentType,
    Holds sm w sb sk content contentType ∧ Holds sm t b k content contentType

/-- The destination holds what it held. -/
def Unchanged (t : World) : Prop :=
  ∀ content contentType,
    Holds sm t b k content contentType ↔ Holds sm { w with now := t.now } b k content contentType

/-- A copy and no plain upload, or an error that leaves the destination as it was. -/
def Obeys : Except (Stop S3Error) PutResponse → World → Prop
  | .ok response, t => (∃ etag time, response = .copied etag time) ∧ Copied sm headers b k w t
  | .error _, t => Unchanged sm b k w t

end Outcomes

/-! ## The condition -/

/-- What a lookup by hash answers. -/
def lookedUp : (a : Action) → Response a → Option (Option StoredFile)
  | .selectFileByHash _, .ok row => some row
  | _, _ => none

/-- The lookup by hash finds this row, or none. -/
def Finds (found : Option StoredFile) (a : Action) (r : Response a) : Prop :=
  ∀ row ∈ lookedUp a r, row = found

/-- Without deduplication nothing is looked up. -/
def reused (sm : StorageManager) (found : Option StoredFile) : Option StoredFile :=
  if sm.config.storage.enableDeduplication then found else none

def Decodes (sm : StorageManager) (w : World) (row : StoredFile) (content : Bytes) : Prop :=
  ∃ raw, w.bytesAt sm.host row.filePath = some raw ∧ sm.decoded w.db row raw = .ok content

/-- What is stored over a row that has the bytes already has the content of this row. If it is
the row of the destination, it also keeps its content type, and the time it expires. -/
def Leaves (sm : StorageManager) (w : World) (now : Time) (b k : String)
    (read : Bytes × Option String) (content : Bytes) (contentType : String) :
    Option StoredFile → Prop
  | none => read = (content, some contentType)
  | some row => Decodes sm w row content ∧
      if row.ident = (b, k) then row.contentType = contentType ∧ past now row.expiresAt = false
      else read.2 = some contentType

/-- The header can be read. What it names, decoded, is what is read under the bucket and the
key as they are written, and what the row has that is found for the hash of this. -/
def CopiesSource (sm : StorageManager) (headers : HeaderMap) (b k : String) (w : World) (now : Time)
    (found : Option StoredFile) : Prop :=
  ∃ source, headers.text "x-amz-copy-source" = some source ∧ ∀ sb sk, Names headers sb sk →
    ∃ rb rk read content contentType, copySource source = some (rb, rk) ∧
      readResult sm w rb rk = .ok read ∧ Holds sm w sb sk content contentType ∧
      Leaves sm w now b k read content contentType (reused sm found)

/-- The header can be read and names another object as it is written. No place is recorded
under two spellings, and the upload finds its content recorded or writes where the destination
does not have its bytes. -/
structure SparesDestination (sm : StorageManager) (headers : HeaderMap) (b k : String) (w : World) :
    Prop where
  readable : (headers.text "x-amz-copy-source").isSome = true
  spelled : WellSpelled sm w
  apart : ∀ source rb rk, headers.text "x-amz-copy-source" = some source →
    copySource source = some (rb, rk) → (rb, rk) ≠ (b, k) ∧
      ∀ read, readResult sm w rb rk = .ok read → Recorded sm w read.1 ∨
        ∀ row, w.db.files.find (b, k) = some row → sm.host.target row.filePath ∉ sm.places b k

variable {sm : StorageManager} {headers : HeaderMap} {b k : String} {w u t : World}

theorem holds_iff {row : StoredFile} {content : Bytes} {contentType : String}
    (hrow : t.db.files.find (b, k) = some row) : Holds sm t b k content contentType ↔
      past t.now row.expiresAt = false ∧ Decodes sm t row content ∧ row.contentType = contentType := by
  constructor
  · intro h
    obtain ⟨file, raw, hfile, hlive, hraw, hdecoded, htype⟩ := h.object
    obtain rfl : row = file := Option.some.inj (hrow.symm.trans hfile)
    exact ⟨hlive, ⟨raw, hraw, hdecoded⟩, htype⟩
  · intro ⟨hlive, ⟨raw, hraw, hdecoded⟩, htype⟩
    exact ⟨row, raw, hrow, hlive, hraw, hdecoded, htype⟩

theorem holds_unique {content content' : Bytes} {contentType contentType' : String}
    (h : Holds sm w b k content contentType) (h' : Holds sm w b k content' contentType') :
    content = content' ∧ contentType = contentType' := by
  obtain ⟨file, raw, hfile, -, hraw, hdecoded, rfl⟩ := h.object
  obtain ⟨-, ⟨raw', hraw', hdecoded'⟩, rfl⟩ := (holds_iff hfile).mp h'
  obtain rfl : raw = raw' := Option.some.inj (hraw.symm.trans hraw')
  exact ⟨Except.ok.inj (hdecoded.symm.trans hdecoded'), rfl⟩

section Decidable
variable (sm : StorageManager) (w : World)

instance (row : StoredFile) (content : Bytes) : Decidable (Decodes sm w row content) :=
  decidable_of_iff ((w.bytesAt sm.host row.filePath).any fun raw =>
    sm.decoded w.db row raw = .ok content) (by simp [Decodes, Option.any_eq_true])

instance (b k : String) (content : Bytes) (contentType : String) :
    Decidable (Holds sm w b k content contentType) :=
  match hrow : w.db.files.find (b, k) with
  | none => isFalse fun h => by
    obtain ⟨row, _, hfound, _⟩ := h.object
    simp [hrow] at hfound
  | some row => decidable_of_iff (past w.now row.expiresAt = false ∧ Decodes sm w row content ∧
      row.contentType = contentType) (holds_iff hrow).symm

instance Leaves.decide (now : Time) (b k : String) (read : Bytes × Option String) (content : Bytes)
    (contentType : String) :
    (row : Option StoredFile) → Decidable (Leaves sm w now b k read content contentType row)
  | none => inferInstanceAs (Decidable (read = (content, some contentType)))
  | some row => inferInstanceAs (Decidable (Decodes sm w row content ∧
      if row.ident = (b, k) then row.contentType = contentType ∧ past now row.expiresAt = false
      else read.2 = some contentType))

instance (found : Option StoredFile) (a : Action) (r : Response a) : Decidable (Finds found a r) :=
  inferInstanceAs (Decidable (∀ row ∈ lookedUp a r, row = found))

end Decidable

/-! ## Headers -/

/-- Every bucket and every key can be named. -/
theorem names_of_encoded {bucket key : String} {preserveSlash : Bool}
    (h : headers.text "x-amz-copy-source" = some (String.ofList
      ('/' :: uriEncode bucket.toList false ++ '/' :: uriEncode key.toList preserveSlash))) :
    Names headers bucket key :=
  ⟨_, _, h, UriEncoding.separator_not_mem_uriEncode (.inl rfl) _, UriEncoding.percentDecode_uriEncode _ _,
    UriEncoding.percentDecode_uriEncode _ _⟩

/-- A header names one object at most. -/
theorem Names.unique {b' k' : String} (h : Names headers b k) (h' : Names headers b' k') :
    b = b' ∧ k = k' := by
  obtain ⟨p, q, htext, hp, hb, hk⟩ := h
  obtain ⟨p', q', htext', hp', hb', hk'⟩ := h'
  rw [htext, Option.some.injEq, String.ofList_inj, List.cons_append, List.cons_append,
    List.cons.injEq] at htext'
  have hsplit : splitOnce '/' (p ++ '/' :: q) = some (p, q) := splitOnce_eq_some.mpr ⟨rfl, hp⟩
  have hsplit' : splitOnce '/' (p ++ '/' :: q) = some (p', q') :=
    splitOnce_eq_some.mpr ⟨htext'.2, hp'⟩
  obtain ⟨rfl, rfl⟩ : p = p' ∧ q = q' := by simpa [hsplit] using hsplit'
  rw [hb, Option.some.injEq] at hb'
  rw [hk, Option.some.injEq] at hk'
  exact ⟨String.toList_inj.mp (asBytes_injective hb'), String.toList_inj.mp (asBytes_injective hk')⟩

/-! ## Objects -/

/-- The object of the key is as it was, as far as a read goes by it. -/
structure Rests (sm : StorageManager) (b k : String) (w t : World) : Prop where
  row : (t.db.files.find (b, k)).map recipe = (w.db.files.find (b, k)).map recipe
  disk : ∀ f, w.db.files.find (b, k) = some f →
    t.bytesAt sm.host f.filePath = w.bytesAt sm.host f.filePath
  keys : t.db.encryptionKeys = w.db.encryptionKeys

theorem Rests.refl (w : World) : Rests sm b k w w := ⟨rfl, fun _ _ => rfl, rfl⟩

theorem Rests.symm (h : Rests sm b k w t) : Rests sm b k t w where
  row := h.row.symm
  disk f hf := by
    have hrow := h.row
    rw [hf, Option.map_some, eq_comm, Option.map_eq_some_iff] at hrow
    obtain ⟨g, hg, hgf⟩ := hrow
    rw [← (recipe_eq.mp hgf).1]
    exact (h.disk g hg).symm
  keys := h.keys.symm

theorem Rests.trans (h : Rests sm b k w u) (h' : Rests sm b k u t) : Rests sm b k w t where
  row := h'.row.trans h.row
  disk f hf := by
    have hrow := h.row
    rw [hf, Option.map_some, Option.map_eq_some_iff] at hrow
    obtain ⟨g, hg, hgf⟩ := hrow
    have hpath := (recipe_eq.mp hgf).1
    rw [← h.disk f hf, ← hpath]
    exact h'.disk g hg
  keys := h'.keys.trans h.keys

theorem Rests.of_kept {ls : List Loc} (hkept : Kept ls w t)
    (hfree : ∀ f, w.db.files.find (b, k) = some f → sm.host.target f.filePath ∉ ls) :
    Rests sm b k w t where
  row := by rw [hkept.files]
  disk f hf := World.bytesAt_congr (hkept.disk _ (hfree f hf))
  keys := hkept.keys

theorem Rests.holds {content : Bytes} {contentType : String} (h : Rests sm b k w t)
    (hnow : t.now = w.now) (hw : Holds sm w b k content contentType) :
    Holds sm t b k content contentType := by
  obtain ⟨file, raw, hfile, hlive, hraw, hdecoded, rfl⟩ := hw.object
  have hrow := h.row
  rw [hfile, Option.map_some, Option.map_eq_some_iff] at hrow
  obtain ⟨g, hg, hgf⟩ := hrow
  obtain ⟨hpath, -, -, -, -, htype, hexp⟩ := recipe_eq.mp hgf
  refine ⟨g, raw, hg, ?_, ?_, ?_, htype⟩
  · rw [hnow, hexp, hlive]
  · rw [hpath, h.disk file hfile, hraw]
  · rw [decoded_congr hgf (selectKey_congr h.keys), hdecoded]

theorem Rests.unchanged (h : Rests sm b k w t) : Unchanged sm b k w t := by
  have hlater : Rests sm b k { w with now := t.now } t := ⟨h.row, h.disk, h.keys⟩
  intro content contentType
  exact ⟨hlater.symm.holds rfl, hlater.holds rfl⟩

/-- A read that succeeds leaves files and keys alone, and of the rows all but who read them. -/
theorem getFile_leaves {read : Bytes × Option String}
    (hr : (sm.getFile b k).Runs (exec sm.host) w (.ok read) t) :
    t.fs = w.fs ∧ t.db.encryptionKeys = w.db.encryptionKeys ∧
      ∀ {β : Type} (g : StoredFile → β), (∀ id now f, g (Database.touch id now f) = g f) → ∀ b' k',
        (t.db.files.find (b', k')).map g = (w.db.files.find (b', k')).map g := by
  simp only [getFile, step_eq, Prog.bind_eq, Prog.pure_eq] at hr
  obtain ⟨file, u, hfile, hr₁⟩ := Prog.runs_bind_ok.mp hr
  obtain ⟨-, hdb, hfs, -⟩ := readMetadata_ok hfile
  obtain ⟨_, v, hexpire, hr₂⟩ := Prog.runs_bind_ok.mp hr₁
  obtain ⟨-, hdb', hfs', -⟩ := expireFile_ok hexpire
  obtain ⟨raw, x, hraw, hr₃⟩ := Prog.runs_bind_ok.mp hr₂
  obtain ⟨-, hdb'', hfs''⟩ := readContent_ok hraw
  obtain ⟨content, x', hdecode, hr₄⟩ := Prog.runs_bind_ok.mp hr₃
  obtain ⟨-, rfl⟩ := decodeContent_ok hdecode
  obtain ⟨c, hc⟩ := Prog.runs_act.mp hr₄
  obtain ⟨-, rfl⟩ := Prog.runs_ret.mp hc
  have hbefore : x'.db = w.db := hdb''.trans (hdb'.trans hdb)
  have htakes : Takes (exec sm.host) x' ⟨.updateAccess file.id, _⟩
      (exec sm.host c (.updateAccess file.id) x').2 := ⟨c, rfl⟩
  refine ⟨?_, ?_, fun g hg b' k' => ?_⟩
  · rw [← hfs, ← hfs', ← hfs'']
    exact statement_fs
  · rw [takes_encryptionKeys htakes, hbefore]
  · rw [takes_row hg htakes rfl, hbefore]

theorem getFile_rests {read : Bytes × Option String} {b' k' : String}
    (hr : (sm.getFile b k).Runs (exec sm.host) w (.ok read) t) : Rests sm b' k' w t := by
  obtain ⟨hfs, hkeys, hrows⟩ := getFile_leaves hr
  exact ⟨hrows recipe recipe_touch b' k', fun f _ => by simp only [World.bytesAt, hfs], hkeys⟩

/-- A read of another key, however it ends, takes nothing of the object. -/
theorem getFile_spares {x : Result (Bytes × Option String)} {b' k' : String}
    (hspelled : WellSpelled sm w) (hne : (b, k) ≠ (b', k'))
    (hr : (sm.getFile b' k').Runs (exec sm.host) w x t) : Rests sm b k w t := by
  have hrow : (t.db.files.find (b, k)).map recipe = (w.db.files.find (b, k)).map recipe := by
    have hstep : ∀ c a u, ReadStep b' k' a →
        ((exec sm.host c a u).2.db.files.find (b, k)).map recipe =
          (u.db.files.find (b, k)).map recipe := by
      intro c a u ha
      have htakes : Takes (exec sm.host) u ⟨a, (exec sm.host c a u).1⟩ (exec sm.host c a u).2 :=
        ⟨c, rfl⟩
      cases ha with
      | delete hdelete =>
        cases hdelete with
        | deleteFileRow => rw [takes_deleteFileRow_ne htakes hne]
        | _ => exact takes_recipe htakes rfl b k
      | _ => exact takes_recipe htakes rfl b k
    apply Prog.Runs.keeps (I := fun u : World => (u.db.files.find (b, k)).map recipe =
      (w.db.files.find (b, k)).map recipe) _ getFile_steps hr rfl
    intro c a u ha hu
    exact (hstep c a u ha).trans hu
  refine ⟨hrow, fun f hf => ?_, ?_⟩
  · rw [hf, Option.map_some, Option.map_eq_some_iff] at hrow
    obtain ⟨g, hg, hgf⟩ := hrow
    have hpath := (recipe_eq.mp hgf).1
    obtain ⟨e, -, hsame, hdisk⟩ := reads_shrink.getFile w x t hr hspelled g (Table.find_mem hg)
    rw [hsame.filePath, hpath] at hdisk
    exact World.bytesAt_congr hdisk
  · apply Prog.Runs.keeps (I := fun u : World => u.db.encryptionKeys = w.db.encryptionKeys) _
      getFile_steps hr rfl
    intro c a u _ hu
    have htakes : Takes (exec sm.host) u ⟨a, (exec sm.host c a u).1⟩ (exec sm.host c a u).2 :=
      ⟨c, rfl⟩
    exact (takes_encryptionKeys htakes).trans hu

/-! ## Uploads by what the lookup finds -/

variable {content : Bytes} {ct : Option String} {opts : StoreOptions} {file : StoredFile}
  {found : Option StoredFile}

/-- Whatever the program is answered, there is one row or none that its lookups find. -/
def FindsOne {E α : Type} (h : Host) (p : Prog Action Response E α) : Prop :=
  ∀ w x t, p.Runs (exec h) w x t → ∃ found, p.RunsWith (exec h) (Finds found) w x t

section FindsOne
variable {h : Host} {E E' α β : Type} {p : Prog Action Response E α}

theorem finds_of_ne {a : Action} (ha : ∀ hash, a ≠ .selectFileByHash hash) (r : Response a) :
    Finds found a r := by
  intro row hrow
  cases a with
  | selectFileByHash hash => exact absurd rfl (ha hash)
  | _ => simp [lookedUp] at hrow

theorem FindsOne.of_uses {P : Action → Prop} (hp : p.Uses P)
    (hne : ∀ a, P a → ∀ hash, a ≠ .selectFileByHash hash) : FindsOne h p :=
  fun _ _ _ hr => ⟨none, hr.runsWith (fun a r ha => finds_of_ne (hne a ha) r) hp⟩

theorem FindsOne.mapError {f : E → E'} (hp : FindsOne h p) : FindsOne h (p.mapError f) := by
  intro w x t hr
  obtain ⟨y, rfl, hy⟩ := Prog.runs_mapError.mp hr
  obtain ⟨found, hy⟩ := hp w y t hy
  exact ⟨found, hy.mapError⟩

/-- The lookup may come after steps that look up nothing. -/
theorem FindsOne.after {P : Action → Prop} {f : α → Prog Action Response E β} (hp : p.Uses P)
    (hne : ∀ a, P a → ∀ hash, a ≠ .selectFileByHash hash) (hf : ∀ a, FindsOne h (f a)) :
    FindsOne h (p.bind f) := by
  have hwith : ∀ {found w y u}, p.Runs (exec h) w y u → p.RunsWith (exec h) (Finds found) w y u :=
    fun hy => hy.runsWith (fun a r ha => finds_of_ne (hne a ha) r) hp
  intro w x t hr
  obtain ⟨e, hy, rfl⟩ | ⟨a, u, hy, hrest⟩ := Prog.runs_bind.mp hr
  · exact ⟨none, Prog.runsWith_bind.mpr (.inl ⟨e, hwith hy, rfl⟩)⟩
  · obtain ⟨found, hrest⟩ := hf a u x t hrest
    exact ⟨found, Prog.runsWith_bind.mpr (.inr ⟨a, u, hwith hy, hrest⟩)⟩

theorem FindsOne.ret {g : α → β} (hp : FindsOne h p) : FindsOne h (p.bind fun a => .ret (g a)) := by
  intro w x t hr
  obtain ⟨e, hy, rfl⟩ | ⟨a, u, hy, hrest⟩ := Prog.runs_bind.mp hr
  · obtain ⟨found, hy⟩ := hp w _ t hy
    exact ⟨found, Prog.runsWith_bind.mpr (.inl ⟨e, hy, rfl⟩)⟩
  · obtain ⟨found, hy⟩ := hp w _ u hy
    exact ⟨found, Prog.runsWith_bind.mpr (.inr ⟨a, u, hy, hrest⟩)⟩

end FindsOne

/-- An upload looks at most once. -/
theorem storeFile_findsOne : FindsOne sm.host (sm.storeFile b k content ct opts) := by
  have hensure : ∀ a, EnsureStep b a → ∀ hash, a ≠ .selectFileByHash hash := by
    intro a ha hash h
    subst h
    cases ha
  have hfresh : ∀ a, FreshStep sm b k opts a → ∀ hash, a ≠ .selectFileByHash hash := by
    intro a ha hash h
    subst h
    cases ha with
    | encrypt h => cases h
  simp only [storeFile, step_eq, Prog.bind_eq, Prog.act_bind, Prog.ret_bind, Prog.pure_eq]
  refine FindsOne.after ensureBucketExists_steps hensure fun _ => ?_
  split
  · intro w x t hr
    obtain ⟨c, hr⟩ := Prog.runs_act.mp hr
    refine ⟨(exec sm.host c (.selectFileByHash (sm.lib.blake3 content)) w).1.toOption.join, c, ?_,
      hr.runsWith (P := FreshStep sm b k opts) (fun a r ha => finds_of_ne (hfresh a ha) r) ?_⟩
    · intro row hrow
      cases hanswer : (exec sm.host c (.selectFileByHash (sm.lib.blake3 content)) w).1 with
      | error e => simp [lookedUp, hanswer] at hrow
      | ok answered =>
        obtain rfl : answered = row := by simpa [lookedUp, hanswer] using hrow
        rfl
    · refine Prog.Uses.bind (Prog.uses_ofExcept _) fun row => ?_
      cases row with
      | none => exact storeFresh_steps
      | some existing =>
        dsimp only
        split
        · trivial
        · exact storeAlias_steps existing
  · exact .of_uses storeFresh_steps hfresh

/-- What a successful upload does with the row it finds. -/
def StoredOver (sm : StorageManager) (b k : String) (content : Bytes) (ct : Option String)
    (opts : StoreOptions) (w t : World) (file : StoredFile) : Option StoredFile → Prop
  | none => ∃ processed enc id now,
      file = sm.freshFile b k content ct opts (sm.compressStage opts content).2
        (sm.compressStage opts content).1.length processed enc id now ∧
      EncryptedAs sm w.db opts (sm.compressStage opts content).1 processed enc ∧
      Written sm.host w t file processed
  | some row => row ∈ w.db.files ∧
      if row.ident = (b, k) then Kept [] w t
      else ∃ id now, Aliased w t (sm.aliasedFile b k content ct opts row id now)

theorem storeFile_found (hr : (sm.storeFile b k content ct opts).RunsWith (exec sm.host) (Finds found) w
    (.ok file) t) : StoredOver sm b k content ct opts w t file (reused sm found) := by
  simp only [storeFile, step_eq, Prog.bind_eq, Prog.act_bind, Prog.ret_bind, Prog.pure_eq] at hr
  obtain ⟨_, u, hensure, hr⟩ := Prog.runsWith_bind_ok.mp hr
  have hu : Kept [] w u := ensureBucketExists_spec _ _ hensure.runs
  have hfresh : (sm.storeFresh b k content ct opts).RunsWith (exec sm.host) (Finds found) u (.ok file) t →
      StoredOver sm b k content ct opts w t file none := by
    intro hr
    obtain ⟨processed, enc, id, now, hfile, henc, hw⟩ := storeFresh_spec _ _ hr.runs
    exact ⟨processed, enc, id, now, hfile, henc.congr hu.keys, hw.after hu⟩
  unfold reused
  split at hr
  · rename_i hdedup
    rw [if_pos hdedup]
    obtain ⟨c, hfinds, hr⟩ := Prog.runsWith_act.mp hr
    cases hanswer : (exec sm.host c (.selectFileByHash (sm.lib.blake3 content)) u).1 with
    | error e => simp [hanswer] at hr
    | ok row =>
      have hrow : row = u.db.selectFileByHash (sm.lib.blake3 content) c.rank := answer_eq_ok hanswer
      rw [hanswer] at hfinds
      obtain rfl : row = found := hfinds row rfl
      simp only [hanswer, ofSqlx_ok, Prog.ret_bind] at hr
      cases row with
      | none => exact hfresh hr
      | some row =>
        have hmem : row ∈ w.db.files := hu.files ▸ (Database.selectFileByHash_some hrow.symm).1
        refine ⟨hmem, ?_⟩
        dsimp only at hr
        split at hr
        · rename_i hsame
          obtain ⟨-, rfl⟩ := Prog.runsWith_ret.mp hr
          rw [if_pos (Prod.ext hsame.1 hsame.2)]
          exact hu
        · rename_i hother
          have hident : row.ident ≠ (b, k) := fun h => hother ⟨congrArg Prod.fst h, congrArg Prod.snd h⟩
          rw [if_neg hident]
          obtain ⟨id, now, db, v, rfl, hv, hdb, rfl⟩ := storeAlias_spec _ _ hr.runs
          have hkept := hu.trans hv
          obtain ⟨hf, -, hk⟩ := Database.upsertFile_ok hdb
          exact ⟨id, now, {
            files := by rw [hf, ← hkept.files]
            keys := hk.trans hkept.keys
            cache := hkept.cache
            disk := fun l => hkept.disk l (by simp)
            clock := hkept.clock }⟩
  · rename_i hdedup
    rw [if_neg hdedup]
    exact hfresh hr

theorem Decodes.iff_of_same {row row' : StoredFile} (hpath : row'.filePath = row.filePath)
    (hdisk : t.bytesAt sm.host row.filePath = w.bytesAt sm.host row.filePath)
    (hdecoded : ∀ raw, sm.decoded t.db row' raw = sm.decoded w.db row raw) :
    Decodes sm t row' content ↔ Decodes sm w row content := by
  simp only [Decodes, hpath, hdisk, hdecoded]

/-- With the options of a copy, what was stored decodes whatever is configured. -/
theorem decoded_copied (lawC : sm.lib.toCodecs.Lawful) (lawE : sm.lib.toCiphers.Lawful)
    {db : Database} {processed : Bytes} {enc : Bool}
    (h : EncryptedAs sm db {} (sm.compressStage {} content).1 processed enc) :
    sm.decoded db (uploadRecord sm b k content ct {}) processed = .ok content := by
  rw [decoded_processed lawC lawE h, if_pos]
  cases henabled : sm.config.compression.enabled with
  | true => exact .inl rfl
  | false =>
    right
    simp [compressStage, shouldCompress, henabled]

theorem fresh_holds_iff (lawC : sm.lib.toCodecs.Lawful) (lawE : sm.lib.toCiphers.Lawful)
    {read processed : Bytes} {readType contentType : String} {enc : Bool} {id : Uuid} {now : Time}
    (henc : EncryptedAs sm w.db {} (sm.compressStage {} read).1 processed enc)
    (hw : Written sm.host w t (sm.freshFile b k read (some readType) {} (sm.compressStage {} read).2
      (sm.compressStage {} read).1.length processed enc id now) processed) :
    Holds sm t b k content contentType ↔ (read, some readType) = (content, some contentType) := by
  obtain rfl := encrypted_flag henc
  obtain ⟨row, hrow, hrecipe⟩ : ∃ row, t.db.files.find (b, k) = some row ∧
      recipe row = recipe (uploadRecord sm b k read (some readType) {}) :=
    ⟨_, hw.find, recipe_mergeRow _ _⟩
  obtain ⟨hpath, -, -, -, -, htype, hexp⟩ := recipe_eq.mp hrecipe
  have hraw : t.bytesAt sm.host row.filePath = some processed := hpath ▸ hw.bytesAt
  have hdecoded : sm.decoded t.db row processed = .ok read := by
    rw [decoded_congr hrecipe (selectKey_congr hw.keys)]
    exact decoded_copied lawC lawE henc
  have hlive : past t.now row.expiresAt = false := by
    rw [hexp]
    rfl
  have htype : row.contentType = readType := htype
  rw [holds_iff hrow, Prod.mk.injEq, Option.some.injEq, htype]
  constructor
  · intro ⟨_, ⟨raw, hraw', hdecoded'⟩, hsame⟩
    obtain rfl : processed = raw := Option.some.inj (hraw.symm.trans hraw')
    exact ⟨Except.ok.inj (hdecoded.symm.trans hdecoded'), hsame⟩
  · intro ⟨hread, hsame⟩
    exact ⟨hlive, ⟨processed, hraw, hread ▸ hdecoded⟩, hsame⟩

theorem kept_holds_iff {row : StoredFile} {contentType : String} (hmem : row ∈ w.db.files)
    (hown : row.ident = (b, k)) (hkept : Kept [] w t) : Holds sm t b k content contentType ↔
      Decodes sm w row content ∧ row.contentType = contentType ∧ past t.now row.expiresAt = false := by
  have hrow : t.db.files.find (b, k) = some row := by
    rw [hkept.files, ← hown]
    exact Table.find_self hmem
  have hdisk : t.bytesAt sm.host row.filePath = w.bytesAt sm.host row.filePath :=
    World.bytesAt_congr (hkept.disk _ (by simp))
  have hdecoded : ∀ raw, sm.decoded t.db row raw = sm.decoded w.db row raw :=
    decoded_congr rfl (selectKey_congr hkept.keys)
  rw [holds_iff hrow, Decodes.iff_of_same rfl hdisk hdecoded]
  exact ⟨fun ⟨hlive, hdec, htype⟩ => ⟨hdec, htype, hlive⟩,
    fun ⟨hdec, htype, hlive⟩ => ⟨hlive, hdec, htype⟩⟩

theorem aliased_holds_iff {row : StoredFile} {read : Bytes} {readType contentType : String} {id : Uuid}
    {now : Time} (ha : Aliased w t (sm.aliasedFile b k read (some readType) {} row id now)) :
    Holds sm t b k content contentType ↔ Decodes sm w row content ∧ readType = contentType := by
  obtain ⟨new, hrow, hrecipe⟩ : ∃ new, t.db.files.find (b, k) = some new ∧
      recipe new = recipe (sm.aliasedFile b k read (some readType) {} row id now) := by
    refine ⟨Database.mergeRow (w.db.files.find (b, k)) _, ?_, recipe_mergeRow _ _⟩
    rw [ha.files]
    simpa using Table.find_put_self (t := w.db.files) (r := Database.mergeRow (w.db.files.find (b, k))
      (sm.aliasedFile b k read (some readType) {} row id now))
  obtain ⟨hpath, -, -, -, -, htype, hexp⟩ := recipe_eq.mp hrecipe
  have hdisk : t.bytesAt sm.host row.filePath = w.bytesAt sm.host row.filePath :=
    World.bytesAt_congr (ha.disk _)
  have hdecoded : ∀ raw, sm.decoded t.db new raw = sm.decoded w.db row raw := by
    intro raw
    rw [decoded_congr hrecipe (selectKey_congr ha.keys)]
    rfl
  have hlive : past t.now new.expiresAt = false := by
    rw [hexp]
    rfl
  have htype : new.contentType = readType := htype
  rw [holds_iff hrow, Decodes.iff_of_same hpath hdisk hdecoded, htype]
  exact ⟨fun h => h.2, fun h => ⟨hlive, h⟩⟩

/-- What the destination holds after the upload of a copy. -/
theorem StoredOver.holds_iff (lawC : sm.lib.toCodecs.Lawful) (lawE : sm.lib.toCiphers.Lawful)
    {read : Bytes} {readType contentType : String} {row : Option StoredFile}
    (h : StoredOver sm b k read (some readType) {} w t file row) :
    Holds sm t b k content contentType ↔
      Leaves sm w t.now b k (read, some readType) content contentType row := by
  cases row with
  | none =>
    obtain ⟨processed, enc, id, now, rfl, henc, hw⟩ := h
    exact fresh_holds_iff lawC lawE henc hw
  | some row =>
    obtain ⟨hmem, h⟩ := h
    by_cases hown : row.ident = (b, k)
    · rw [if_pos hown] at h
      rw [Leaves, if_pos hown]
      exact kept_holds_iff hmem hown h
    · rw [if_neg hown] at h
      obtain ⟨id, now, ha⟩ := h
      rw [Leaves, if_neg hown, Option.some.injEq]
      exact aliased_holds_iff ha

/-! ## Requests -/

variable {verified : Except S3Error Unit} {body : Bytes} {source rb rk : String}

theorem putObject_copy (hsource : headers.text "x-amz-copy-source" = some source) :
    putObject sm verified b k headers body =
      (orFail verified).bind fun _ => (copyObject sm b k source).lifted := by
  simp only [putObject, hsource, Prog.bind_eq]

theorem copyObject_source (hsource : copySource source = some (rb, rk)) :
    copyObject sm b k source = (orS3 (sm.getFile rb rk)).bind fun read =>
      (orS3 (sm.storeFile b k read.1 read.2 {})).bind fun file =>
        .ret (.copied (etag file.hashMd5) file.uploadTime) := by
  simp only [copyObject, hsource, Prog.bind_eq, Prog.pure_eq]

/-- Every run of a request is one with some row found, or with none. -/
theorem putObject_findsOne : FindsOne sm.host (putObject sm verified b k headers body) := by
  have hread : ∀ {rb rk : String} a, ReadStep rb rk a → ∀ hash, a ≠ .selectFileByHash hash := by
    intro rb rk a ha hash h
    subst h
    cases ha with
    | delete h => cases h
  have hclock : ∀ a : Action, a = .utcNow → ∀ hash, a ≠ .selectFileByHash hash := by
    intro a ha hash h
    simp [ha] at h
  have hverified : ∀ {α : Type} (y : Except S3Error α),
      (orFail y : Handler S3Error α).Uses fun a => a = .utcNow :=
    fun y => (Prog.uses_ofExcept y).mapError
  cases hsource : headers.text "x-amz-copy-source" with
  | some source =>
    rw [putObject_copy hsource]
    refine FindsOne.after (hverified verified) hclock fun _ => FindsOne.mapError ?_
    cases hnames : copySource source with
    | none =>
      simp only [copyObject, hnames]
      exact .of_uses (P := fun a => a = .utcNow) trivial hclock
    | some names =>
      rw [copyObject_source hnames]
      exact FindsOne.after getFile_steps.mapError hread fun _ => storeFile_findsOne.mapError.ret
  | none =>
    simp only [putObject, hsource, putBody, Prog.bind_eq, Prog.pure_eq]
    refine FindsOne.after (hverified verified) hclock fun _ => ?_
    refine FindsOne.after (hverified _) hclock fun ttl => ?_
    refine FindsOne.after ?_ hclock fun _ => storeFile_findsOne.mapError.mapError.ret
    cases ttl with
    | none => trivial
    | some ttl =>
      simp only [expiryAfter, checkedStep, Prog.bind_eq, Prog.call_bind, Prog.pure_eq]
      split
      · trivial
      · refine ⟨rfl, fun now => Prog.Uses.bind ?_ fun _ => trivial⟩
        cases addSeconds now ttl <;> trivial

/-- A request whose header cannot be read is a plain upload. -/
theorem putObject_unread {response : PutResponse} (hnone : headers.text "x-amz-copy-source" = none)
    (hr : (putObject sm verified b k headers body).Runs (exec sm.host) w (.ok response) t) :
    ∃ etag, response = .stored etag := by
  simp only [putObject, hnone, putBody, Prog.bind_eq, Prog.pure_eq] at hr
  obtain ⟨_, _, -, hr⟩ := Prog.runs_bind_ok.mp hr
  obtain ⟨ttl, _, -, hr⟩ := Prog.runs_bind_ok.mp hr
  obtain ⟨expiresAt, _, -, hr⟩ := Prog.runs_bind_ok.mp hr
  obtain ⟨file, _, -, hr⟩ := Prog.runs_bind_ok.mp hr
  obtain ⟨hresponse, -⟩ := Prog.runs_ret.mp hr
  exact ⟨_, Except.ok.inj hresponse⟩

/-- A copy that succeeds has read a source and stored what it read. -/
theorem copyObject_ok {response : PutResponse}
    (hr : (copyObject sm b k source).RunsWith (exec sm.host) (Finds found) w (.ok response) t) :
    ∃ rb rk read u file, copySource source = some (rb, rk) ∧
      (sm.getFile rb rk).Runs (exec sm.host) w (.ok read) u ∧
      (sm.storeFile b k read.1 read.2 {}).RunsWith (exec sm.host) (Finds found) u (.ok file) t ∧
      response = .copied (etag file.hashMd5) file.uploadTime := by
  cases hsource : copySource source with
  | none => simp [copyObject, hsource] at hr
  | some names =>
    obtain ⟨rb, rk⟩ := names
    rw [copyObject_source hsource] at hr
    obtain ⟨read, u, hread, hr⟩ := Prog.runsWith_bind_ok.mp hr
    obtain ⟨file, v, hstore, hr⟩ := Prog.runsWith_bind_ok.mp hr
    obtain ⟨hresponse, rfl⟩ := Prog.runsWith_ret.mp hr
    exact ⟨rb, rk, read, u, file, rfl, (Prog.runsWith_mapError_ok.mp hread).runs,
      Prog.runsWith_mapError_ok.mp hstore, Except.ok.inj hresponse⟩

/-- What a row found decodes to does not change with a read. -/
theorem leaves_iff_of_read {read read' : Bytes × Option String} {row : Option StoredFile} {now : Time}
    {contentType : String} (hr : (sm.getFile rb rk).Runs (exec sm.host) w (.ok read') u) :
    Leaves sm u now b k read content contentType row ↔
      Leaves sm w now b k read content contentType row := by
  obtain ⟨hfs, hkeys, -⟩ := getFile_leaves hr
  cases row with
  | none => rfl
  | some row =>
    have hdisk : u.bytesAt sm.host row.filePath = w.bytesAt sm.host row.filePath := by
      simp only [World.bytesAt, hfs]
    have hdecoded : ∀ raw, sm.decoded u.db row raw = sm.decoded w.db row raw :=
      decoded_congr rfl (selectKey_congr hkeys)
    simp only [Leaves, Decodes.iff_of_same rfl hdisk hdecoded]

theorem copyObject_obeys_iff (lawC : sm.lib.toCodecs.Lawful) (lawE : sm.lib.toCiphers.Lawful)
    {response : PutResponse} (hsource : headers.text "x-amz-copy-source" = some source)
    (hr : (copyObject sm b k source).RunsWith (exec sm.host) (Finds found) w (.ok response) t) :
    Obeys sm headers b k w (.ok response) t ↔ CopiesSource sm headers b k w t.now found := by
  obtain ⟨rb, rk, ⟨read, type⟩, u, file, hnames, hread, hstore, rfl⟩ := copyObject_ok hr
  have hresult : readResult sm w rb rk = .ok (read, type) := getFile_ok hread
  obtain ⟨readType, htype⟩ := readResult_contentType hresult
  obtain rfl : type = some readType := htype
  have hover := storeFile_found hstore
  have hholds : ∀ content contentType, Holds sm t b k content contentType ↔
      Leaves sm w t.now b k (read, some readType) content contentType (reused sm found) :=
    fun _ _ => (hover.holds_iff lawC lawE).trans (leaves_iff_of_read hread)
  constructor
  · intro ⟨_, hcopied⟩
    refine ⟨source, hsource, fun sb sk hnamed => ?_⟩
    obtain ⟨content, contentType, hbefore, hafter⟩ := hcopied sb sk hnamed
    exact ⟨rb, rk, _, content, contentType, hnames, hresult, hbefore, (hholds _ _).mp hafter⟩
  · intro ⟨source', hsource', hall⟩
    obtain rfl : source = source' := Option.some.inj (hsource.symm.trans hsource')
    refine ⟨⟨_, _, rfl⟩, fun sb sk hnamed => ?_⟩
    obtain ⟨rb', rk', read', content, contentType, hnames', hresult', hbefore, hleaves⟩ :=
      hall sb sk hnamed
    obtain ⟨rfl, rfl⟩ : rb = rb' ∧ rk = rk' := by
      simpa [hnames] using hnames'
    obtain rfl : (read, some readType) = read' := Except.ok.inj (hresult.symm.trans hresult')
    exact ⟨content, contentType, hbefore, (hholds _ _).mpr hleaves⟩

/-! ## Copies that fail -/

/-- A content that is recorded stays recorded when something is read. -/
theorem recorded_of_read {read : Bytes × Option String}
    (hr : (sm.getFile rb rk).Runs (exec sm.host) w (.ok read) u) (hrec : Recorded sm w content) :
    Recorded sm u content := by
  obtain ⟨hdedup, f, hf, hhash⟩ := hrec
  have hrow := (getFile_leaves hr).2.2 (·.hashBlake3) Database.touch_hashBlake3 f.bucket f.key
  have hfind : w.db.files.find (f.bucket, f.key) = some f := Table.find_self hf
  rw [hfind, Option.map_some, Option.map_eq_some_iff] at hrow
  obtain ⟨g, hg, hgf⟩ := hrow
  exact ⟨hdedup, g, Table.find_mem hg, hgf.trans hhash⟩

/-- An upload that fails spares an object whose bytes lie elsewhere. -/
theorem storeFile_spares {e : StorageError}
    (hr : (sm.storeFile b k content ct opts).Runs (exec sm.host) w (.error e) t)
    (hspare : Recorded sm w content ∨
      ∀ row, w.db.files.find (b, k) = some row → sm.host.target row.filePath ∉ sm.places b k) :
    Rests sm b k w t := by
  cases storeFile_spec _ _ hr with
  | rejected _ hkept => exact .of_kept hkept fun _ _ => List.not_mem_nil
  | broken _ hnew _ hkept =>
    obtain ⟨hdedup, f, hf, hhash⟩ | hfree := hspare
    · exact absurd hhash (hnew hdedup f hf)
    · exact .of_kept hkept hfree

theorem copyObject_spares {e : S3Error} (hsource : headers.text "x-amz-copy-source" = some source)
    (hspares : SparesDestination sm headers b k w)
    (hr : (copyObject sm b k source).Runs (exec sm.host) w (.error e) t) : Rests sm b k w t := by
  cases hnames : copySource source with
  | none =>
    simp only [copyObject, hnames, Prog.runs_fail] at hr
    obtain ⟨-, rfl⟩ := hr
    exact .refl t
  | some names =>
    obtain ⟨rb, rk⟩ := names
    obtain ⟨hne, hfree⟩ := hspares.apart source rb rk hsource hnames
    rw [copyObject_source hnames] at hr
    obtain ⟨e', hread, -⟩ | ⟨read, u, hread, hr⟩ := Prog.runs_bind.mp hr
    · obtain ⟨x, -, hread⟩ := Prog.runs_mapError.mp hread
      exact getFile_spares hspares.spelled (Ne.symm hne) hread
    · have hread := Prog.runs_mapError_ok.mp hread
      have hrests : Rests sm b k w u := getFile_rests hread
      obtain ⟨e', hstore, -⟩ | ⟨file, v, -, hr⟩ := Prog.runs_bind.mp hr
      · obtain ⟨x, hx, hstore⟩ := Prog.runs_mapError.mp hstore
        cases x with
        | ok file => simp [Except.mapError] at hx
        | error e'' =>
          refine hrests.trans (storeFile_spares hstore ?_)
          refine (hfree read (getFile_ok hread)).imp (recorded_of_read hread) fun hfree row hrow => ?_
          have hold := hrests.row
          rw [hrow, Option.map_some, eq_comm, Option.map_eq_some_iff] at hold
          obtain ⟨old, hold, hrecipe⟩ := hold
          rw [← (recipe_eq.mp hrecipe).1]
          exact hfree old hold
      · simp at hr

theorem putObject_obeys_iff (lawC : sm.lib.toCodecs.Lawful) (lawE : sm.lib.toCiphers.Lawful)
    {response : PutResponse}
    (hr : (putObject sm verified b k headers body).RunsWith (exec sm.host) (Finds found) w
      (.ok response) t) :
    Obeys sm headers b k w (.ok response) t ↔ CopiesSource sm headers b k w t.now found := by
  cases hsource : headers.text "x-amz-copy-source" with
  | none =>
    obtain ⟨tag, rfl⟩ := putObject_unread hsource hr.runs
    constructor
    · intro ⟨⟨_, _, hcopied⟩, _⟩
      simp at hcopied
    · intro ⟨source, htext, _⟩
      simp [hsource] at htext
  | some source =>
    rw [putObject_copy hsource] at hr
    cases verified with
    | error e => simp at hr
    | ok _ => exact copyObject_obeys_iff lawC lawE hsource (Prog.runsWith_mapError_ok.mp hr)

theorem putObject_spares {e : Stop S3Error} (hspares : SparesDestination sm headers b k w)
    (hr : (putObject sm verified b k headers body).Runs (exec sm.host) w (.error e) t) :
    Obeys sm headers b k w (.error e) t := by
  apply Rests.unchanged
  obtain ⟨source, hsource⟩ := Option.isSome_iff_exists.mp hspares.readable
  rw [putObject_copy hsource] at hr
  cases verified with
  | error refused =>
    obtain ⟨-, rfl⟩ := hr
    exact .refl t
  | ok _ =>
    obtain ⟨y, hy, hcopy⟩ := Prog.runs_mapError.mp hr
    cases y with
    | ok response => simp [Except.mapError] at hy
    | error refused => exact copyObject_spares hsource hspares hcopy

open Sample (manager codecs_lawful ciphers_lawful)

def sourced (source : String) : HeaderMap := [("x-amz-copy-source", asBytes source.toList)]

/-- `PUT /a/l` with the header. -/
def copyTo (source : String) (body : Bytes) : Handler S3Error PutResponse :=
  putObject manager (.ok ()) "a" "l" (sourced source) body

def stored (key : String) (content : Bytes) (uuid : Uuid) (w : World) : World :=
  ((manager.storeFile "a" key content (some "text/plain") {}).eval (exec manager.host)
    { uuid := uuid } w).2

/-- One byte as `a/k`. -/
def plain : World := stored "k" [120] 1 World.empty

/-- One byte as `a/k 1`, another one as `a/k%201`. -/
def spaced : World := stored "k%201" [121] 2 (stored "k 1" [120] 1 World.empty)

def copied : Except (Stop S3Error) PutResponse × World :=
  (copyTo "/a/k" []).eval (exec manager.host) { uuid := 3 } plain

/-- The row of `a/k` once it was read. -/
def readRow : Option StoredFile :=
  ((manager.getFile "a" "k").eval (exec manager.host) { uuid := 3 } plain).2.db.files.find ("a", "k")

def escaped : Except (Stop S3Error) PutResponse × World :=
  (copyTo "/a/k%201" []).eval (exec manager.host) { uuid := 3 } spaced

/-- The text of this header is none. -/
def unread : Except (Stop S3Error) PutResponse × World :=
  (copyTo "/a/kü" [121]).eval (exec manager.host) { uuid := 3 } plain

end LocalStorage.Proofs.Copies
