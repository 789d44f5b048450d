import LocalStorage.S3
import LocalStorage.Proofs.ConcurrentUploads

namespace LocalStorage.Proofs.EntityTags
open Lib Lib.Paths StorageManager S3 ConcurrentUploads

/-! # An object read while its key is uploaded -/

/-! ## How a read that succeeds has gone -/

/-- The record comes from the cache, or from the table and is then cached. -/
inductive RecordFetched (b k : String) (file : StoredFile) : List (Taken Response) → Prop where
  | cached : RecordFetched b k file [⟨.getFileMetadata b k, (.ok (some file) : Result (Option StoredFile))⟩]
  | selected (r : Result (Option StoredFile)) (r' : Result Unit) (miss : ∀ f, r ≠ .ok (some f)) :
      RecordFetched b k file [⟨.getFileMetadata b k, r⟩,
        ⟨.selectFile b k, (.ok (some file) : Query (Option StoredFile))⟩,
        ⟨.setFileMetadata b k file, r'⟩]

/-- The clock is read when the record can expire, and the record has not. -/
inductive Unexpired (file : StoredFile) : List (Taken Response) → Prop where
  | never (h : file.expiresAt = none) : Unexpired file []
  | notYet (expiresAt now : Time) (h : file.expiresAt = some expiresAt) (hlt : now < expiresAt) :
      Unexpired file [⟨.utcNow, now⟩]

/-- The bytes come from the cache, or from the recorded path and are then cached. -/
inductive ContentFetched (b k : String) (file : StoredFile) (raw : Bytes) :
    List (Taken Response) → Prop where
  | cached : ContentFetched b k file raw [⟨.getFileContent b k, (.ok (some raw) : Result (Option Bytes))⟩]
  | read (r : Result (Option Bytes)) (r' : Result Unit) (miss : ∀ x, r ≠ .ok (some x)) :
      ContentFetched b k file raw [⟨.getFileContent b k, r⟩,
        ⟨.readFile file.filePath, (.ok raw : Except IoError Bytes)⟩, ⟨.setFileContent b k raw, r'⟩]

section
variable {sm : StorageManager} {b k : String} {file : StoredFile} {raw : Bytes}
  {past : List (Taken Response)}

theorem readMetadata_fetched : (readMetadata b k).Ensures record (fun x t => ∀ file, x = .ok file →
    ∃ l, t = past ++ l ∧ RecordFetched b k file l) past := by
  simp only [readMetadata, step_eq, Prog.bind_eq, Prog.act_bind, Prog.ret_bind, Prog.pure_eq]
  refine Prog.ensures_record fun hit => ?_
  have hmiss : (∀ f, hit ≠ .ok (some f)) → ((dbGetFile b k).bind fun file =>
      .act (.setFileMetadata b k file) fun _ => .ret file : Op StoredFile).Ensures record
        (fun x t => ∀ file, x = .ok file → ∃ l, t = past ++ l ∧ RecordFetched b k file l)
        (past ++ [⟨.getFileMetadata b k, hit⟩]) := by
    intro hno
    refine Prog.ensures_record fun r => ?_
    cases r with
    | error e => simp
    | ok row =>
      cases row with
      | none => simp
      | some file =>
        refine Prog.ensures_record fun r' => ?_
        simp only [Prog.ensures_ret, Except.ok.injEq]
        intro f hf
        subst hf
        exact ⟨_, by simp, .selected hit r' hno⟩
  cases hit with
  | error e => exact hmiss (by simp)
  | ok cached =>
    cases cached with
    | none => exact hmiss (by simp)
    | some f =>
      simp only [Prog.ensures_ret, Except.ok.injEq]
      intro file hf
      subst hf
      exact ⟨_, rfl, .cached⟩

theorem expireFile_unexpired (file : StoredFile) :
    (expireFile b k file).Ensures record (fun x t => x = .ok () →
      ∃ l, t = past ++ l ∧ Unexpired file l) past := by
  simp only [expireFile, step_eq, Prog.bind_eq, Prog.act_bind, Prog.ret_bind, Prog.pure_eq]
  cases hexp : file.expiresAt with
  | none =>
    simp only [Prog.ensures_ret, true_implies]
    exact ⟨[], by simp, .never hexp⟩
  | some expiresAt =>
    refine Prog.ensures_record fun now => ?_
    by_cases hle : expiresAt ≤ now
    · simp only [hle, ↓reduceIte]
      rw [Prog.ensures_bind, Prog.ensures_attempt]
      intro x t hrun
      simp
    · simp only [hle, ↓reduceIte, Prog.ensures_ret, true_implies]
      exact ⟨_, rfl, .notYet expiresAt now hexp (Int.not_le.mp hle)⟩

theorem readContent_fetched (file : StoredFile) :
    (readContent b k file).Ensures record (fun x t => ∀ raw, x = .ok raw →
      ∃ l, t = past ++ l ∧ ContentFetched b k file raw l) past := by
  simp only [readContent, step_eq, Prog.bind_eq, Prog.act_bind, Prog.ret_bind, Prog.pure_eq]
  refine Prog.ensures_record fun hit => ?_
  split
  · simp only [Prog.ensures_ret, Except.ok.injEq]
    intro raw hraw
    subst hraw
    exact ⟨_, rfl, .cached⟩
  · rename_i hmiss
    refine Prog.ensures_record fun bytes => ?_
    cases bytes with
    | ok x =>
      refine Prog.ensures_record fun r' => ?_
      simp only [Prog.ensures_ret, Except.ok.injEq]
      intro raw hraw
      subst hraw
      exact ⟨_, by simp, .read hit r' fun y hy => hmiss y hy⟩
    | error e =>
      dsimp only
      split
      · rw [Prog.ensures_bind, Prog.ensures_attempt]
        intro x t hrun
        simp
      · simp

def AsksKeys (l : List (Taken Response)) : Prop := ∀ st ∈ l, ∃ keyId, st.1 = .selectKey keyId

theorem decodeContent_heard (file : StoredFile) (raw : Bytes) :
    (sm.decodeContent file raw).Ensures record (fun x t => ∀ content, x = .ok content →
      ∃ l, t = past ++ l ∧ AsksKeys l ∧
        ∀ db, KeysFrom db l → sm.decoded db file raw = .ok content) past := by
  simp only [decodeContent, Prog.bind_eq, Prog.pure_eq]
  rw [Prog.ensures_bind]
  have hdecrypt : (sm.decryptContent file raw).Ensures record (fun x t => ∀ plain, x = .ok plain →
      ∃ l, t = past ++ l ∧ AsksKeys l ∧
        ∀ db, KeysFrom db l → sm.decrypted db file raw = .ok plain) past := by
    simp only [decryptContent, decrypted, Prog.bind_eq, Prog.pure_eq]
    cases file.encrypted with
    | false =>
      simp only [Bool.false_eq_true, ↓reduceIte, Prog.ensures_ret, Except.ok.injEq]
      intro plain hplain
      exact ⟨[], by simp, by simp [AsksKeys], fun _ _ => hplain⟩
    | true =>
      simp only [↓reduceIte]
      cases EncryptionAlgorithm.fromStr (file.encryptionAlgorithm.getD "aes-gcm") with
      | error e => simp
      | ok alg =>
        simp only [Prog.ofExcept_ok, Prog.ret_bind]
        cases file.encryptionKeyId with
        | none =>
          intro x t hrun plain hx
          subst hx
          obtain ⟨hplain, rfl⟩ := Prog.runs_ofExcept.mp hrun
          exact ⟨[], by simp, by simp [AsksKeys], fun _ _ => hplain.symm⟩
        | some keyId =>
          simp only [getKey, step_eq, Prog.bind_eq, Prog.act_bind, Prog.ret_bind, Prog.pure_eq]
          refine Prog.ensures_record fun r => ?_
          cases r with
          | error e => simp
          | ok key =>
            cases key with
            | none => simp
            | some key =>
              simp only [ofSqlx_ok, Prog.ret_bind]
              intro x t hrun plain hx
              subst hx
              obtain ⟨hplain, rfl⟩ := Prog.runs_ofExcept.mp hrun
              refine ⟨_, rfl, by simp [AsksKeys], fun db hkeys => ?_⟩
              simp only [hkeys keyId key (by simp)]
              exact hplain.symm
  refine hdecrypt.mono fun x t hx => ?_
  cases x with
  | error e => simp
  | ok plain =>
    obtain ⟨l, rfl, hasks, hplain⟩ := hx plain rfl
    dsimp only
    intro y t hrun content hy
    subst hy
    refine ⟨l, ?_, hasks, fun db hkeys => ?_⟩
    · split at hrun
      · exact (Prog.runs_ofExcept.mp hrun).2
      · exact (Prog.runs_ret.mp hrun).2
    · simp only [decoded, hplain db hkeys]
      split at hrun
      · rename_i hcompressed
        rw [if_pos hcompressed]
        exact (Prog.runs_ofExcept.mp hrun).1.symm
      · rename_i hraw
        rw [if_neg hraw]
        exact (Prog.runs_ret.mp hrun).1.symm

theorem getFileInfo_looked : (getFileInfo b k).Ensures record (fun x t => ∀ info, x = .ok info →
    ∃ row l, t = past ++ ⟨.selectFile b k, (.ok (some row) : Query (Option StoredFile))⟩ :: l ∧
      Unexpired row l ∧ info = FileInfo.ofStored row) past := by
  simp only [getFileInfo, dbGetFile, step_eq, Prog.bind_eq, Prog.act_bind, Prog.ret_bind, Prog.pure_eq]
  refine Prog.ensures_record fun r => ?_
  cases r with
  | error e => simp
  | ok found =>
    cases found with
    | none => simp
    | some row =>
      simp only [ofSqlx_ok, Prog.ret_bind]
      rw [Prog.ensures_bind]
      refine (expireFile_unexpired row).mono fun x t hx => ?_
      cases x with
      | error e => simp
      | ok _ =>
        obtain ⟨l, rfl, hlive⟩ := hx rfl
        simp only [Prog.ensures_ret, Except.ok.injEq]
        intro info hinfo
        exact ⟨row, l, by simp, hlive, hinfo.symm⟩

/-- A `get_object` that is answered: the record, the clock, the bytes, the keys, the count of
the access, and at last the row for the tag. -/
inductive GetSteps (sm : StorageManager) (b k : String) : S3Response → List (Taken Response) → Prop
    where
  | answered (file row : StoredFile) (raw content : Bytes) (contentType : String) (r : Query Unit)
      (fetched checked read keys checked' : List (Taken Response))
      (record : RecordFetched b k file fetched) (live : Unexpired file checked)
      (content_fetched : ContentFetched b k file raw read) (asks : AsksKeys keys)
      (decodes : ∀ db, KeysFrom db keys → sm.decoded db file raw = .ok content)
      (live' : Unexpired row checked') :
      GetSteps sm b k
        ⟨200, ("content-type", contentType) :: headerIfValid "etag" (etag row.hashMd5), .bytes content⟩
        (fetched ++ checked ++ read ++ keys ++ [⟨.updateAccess file.id, r⟩] ++
          ⟨.selectFile b k, (.ok (some row) : Query (Option StoredFile))⟩ :: checked')

theorem getObject_steps {verified : Except S3Error Unit} {resp : S3Response}
    {l : List (Taken Response)} (h : (getObject sm verified b k).Runs record [] (.ok resp) l) :
    GetSteps sm b k resp l := by
  simp only [getObject, orS3, Prog.bind_eq, Prog.pure_eq] at h
  obtain ⟨_, t₀, hverified, h₁⟩ := Prog.runs_bind_ok.mp h
  obtain ⟨-, rfl⟩ := Prog.runs_ofExcept.mp hverified
  obtain ⟨⟨content, ct⟩, t₁, hfile, h₂⟩ := Prog.runs_bind_ok.mp h₁
  obtain ⟨info, t₂, hinfo, h₃⟩ := Prog.runs_bind_ok.mp h₂
  obtain ⟨hret, rfl⟩ := Prog.runs_ret.mp h₃
  obtain rfl := Except.ok.inj hret
  have hfile := Prog.runs_mapError_ok.mp hfile
  have hinfo := Prog.runs_mapError_ok.mp hinfo
  simp only [getFile, step_eq, Prog.bind_eq, Prog.pure_eq] at hfile
  obtain ⟨file, s₁, hrecord, hfile₁⟩ := Prog.runs_bind_ok.mp hfile
  obtain ⟨fetched, rfl, hfetched⟩ := readMetadata_fetched _ _ hrecord file rfl
  obtain ⟨_, s₂, hexpire, hfile₂⟩ := Prog.runs_bind_ok.mp hfile₁
  obtain ⟨checked, rfl, hlive⟩ := expireFile_unexpired file _ _ hexpire rfl
  obtain ⟨raw, s₃, hcontent, hfile₃⟩ := Prog.runs_bind_ok.mp hfile₂
  obtain ⟨read, rfl, hread⟩ := readContent_fetched file _ _ hcontent raw rfl
  obtain ⟨content', s₄, hdecode, hfile₄⟩ := Prog.runs_bind_ok.mp hfile₃
  obtain ⟨keys, rfl, hasks, hdecoded⟩ := decodeContent_heard file raw _ _ hdecode content' rfl
  obtain ⟨c, hcount⟩ := Prog.runs_act.mp hfile₄
  obtain ⟨hy, rfl⟩ := Prog.runs_ret.mp hcount
  obtain ⟨rfl, rfl⟩ := Prod.mk.inj (Except.ok.inj hy)
  obtain ⟨row, checked', rfl, hlive', rfl⟩ := getFileInfo_looked _ _ hinfo info rfl
  have hsteps := GetSteps.answered file row raw content
    (((some file.contentType).filter isHeaderValue).getD "application/octet-stream")
    (c (.updateAccess file.id)) _ _ _ _ _ hfetched hlive hread hasks hdecoded hlive'
  simpa [record, FileInfo.ofStored] using hsteps

end

/-! ## The request among uploads of its key -/

section
variable {ι : Type}

abbrev Answer : Option ι → Type
  | none => S3Response
  | some _ => StoredFile

/-- The request is thread `none`. -/
def calls (sm : StorageManager) (b k : String) (verified : Except S3Error Unit)
    (uploads : ι → Upload) : ∀ i : Option ι, S3Op (Answer i)
  | none => getObject sm verified b k
  | some i => orS3 ((uploads i).op sm b k)

def byUpload (kind : Action → Bool) (e : Option ι × Taken Response) : Bool :=
  e.1.isSome && kind e.2.1

def byRequest (kind : Action → Bool) (e : Option ι × Taken Response) : Bool :=
  e.1.isNone && kind e.2.1

/-- The step changes something that a read goes by. -/
def changes (a : Action) : Bool :=
  a.writesFile || a.writesRow || a.writesMetadata || a.writesContent

def fetchesContent : Action → Bool
  | .getFileContent _ _ => true
  | .readFile _ => true
  | _ => false

def selectsRow : Action → Bool
  | .selectFile _ _ => true
  | _ => false

/-- No upload changes anything until the request has fetched the bytes. -/
def ReadsAtOnce (tr : List (Option ι × Taken Response)) : Prop :=
  before (byUpload changes) (byRequest fetchesContent) tr = false

instance (tr : List (Option ι × Taken Response)) : Decidable (ReadsAtOnce tr) :=
  inferInstanceAs (Decidable (_ = _))

/-- The hash in the row after the step. -/
def savedHash (hash : Option String) : Taken Response → Option String
  | ⟨.upsertFile f, (.ok _ : Query Unit)⟩ => some f.hashMd5
  | _ => hash

def hashAfter (hash : Option String) (tr : List (Option ι × Taken Response)) : Option String :=
  tr.foldl (fun h e => savedHash h e.2) hash

/-- The steps before the request looks the row up for the tag. -/
def beforeLookup (tr : List (Option ι × Taken Response)) : List (Option ι × Taken Response) :=
  ((tr.reverse.dropWhile fun e => !byRequest selectsRow e).drop 1).reverse

/-- The tag is the MD5 of the body. -/
def EtagMatches (sm : StorageManager) (r : S3Response) : Prop :=
  ∃ content, r.body = .bytes content ∧ r.header "etag" = some (etag (sm.lib.md5 content))

theorem beforeLookup_split {t₁ t₂ : List (Option ι × Taken Response)}
    {e : Option ι × Taken Response} (he : byRequest selectsRow e = true)
    (hlast : ∀ e' ∈ t₂, byRequest selectsRow e' = false) : beforeLookup (t₁ ++ e :: t₂) = t₁ := by
  have hdrop : ((t₁ ++ e :: t₂).reverse.dropWhile fun e => !byRequest selectsRow e) =
      e :: t₁.reverse := by
    rw [List.reverse_append, List.reverse_cons, List.append_assoc, List.dropWhile_append_of_pos]
    · simp [he]
    · intro e' he'
      simp [hlast e' (List.mem_reverse.mp he')]
  rw [beforeLookup, hdrop]
  simp

variable {sm : StorageManager} {b k : String} {w u : World}

/-- The step leaves the hash of the row, or is the upsert of an upload of the key. -/
theorem takes_hash {st : Taken Response} (ht : Takes (exec sm.host) u st w)
    (hst : st.1.writesRow = true → ∃ f, st.1 = .upsertFile f ∧ f.ident = (b, k)) :
    (w.db.files.find (b, k)).map (·.hashMd5) =
      savedHash ((u.db.files.find (b, k)).map (·.hashMd5)) st := by
  obtain ⟨a, r⟩ := st
  cases hk : a.writesRow with
  | false =>
    rw [takes_row (g := (·.hashMd5)) Database.touch_hashMd5 ht hk b k]
    cases a <;> first | rfl | simp [Action.writesRow] at hk
  | true =>
    obtain ⟨f, hf, hident⟩ := hst hk
    dsimp only at hf
    subst hf
    cases r with
    | error e =>
      rw [takes_upsertFile_error ht]
      rfl
    | ok y =>
      have hrow := takes_upsertFile ht
      rw [hident] at hrow
      rw [hrow]
      cases u.db.files.find (b, k) <;> rfl

theorem hash_after {l : List (Option ι × Taken Response)}
    (hsteps : Steps (exec sm.host) u (l.map Prod.snd) w)
    (hst : ∀ e ∈ l, e.2.1.writesRow = true → ∃ f, e.2.1 = .upsertFile f ∧ f.ident = (b, k)) :
    (w.db.files.find (b, k)).map (·.hashMd5) =
      hashAfter ((u.db.files.find (b, k)).map (·.hashMd5)) l := by
  induction l generalizing u with
  | nil =>
    obtain rfl := hsteps
    rfl
  | cons e l ih =>
    obtain ⟨v, hv, hw⟩ := hsteps
    rw [ih hw fun e' he' => hst e' (List.mem_cons_of_mem _ he'), takes_hash hv (hst e List.mem_cons_self)]
    rfl

variable [DecidableEq ι] {verified : Except S3Error Unit} {uploads : ι → Upload} {t : World}
  {qs : ∀ i : Option ι, S3Op (Answer i)} {tr : List (Option ι × Taken Response)}
  {x : ∀ i : Option ι, Except S3Error (Answer i)} {file row : StoredFile} {raw content : Bytes}

/-- On its way an upload still takes the steps of an upload only. -/
theorem reached_uses (h : Reaches (exec sm.host) (calls sm b k verified uploads) w qs u) (i : ι) :
    (qs (some i)).Uses (StoreStep sm b k (uploads i).opts) := by
  refine h.invariant (I := fun qs _ => (qs (some i)).Uses (StoreStep sm b k (uploads i).opts))
    storeFile_steps.mapError fun qs u j a next c hi hj => ?_
  by_cases hij : some i = j
  · subst hij
    rw [hj] at hi
    simpa using hi.2 _
  · rwa [Function.update_of_ne hij]

/-- What the request finds is as it was at first, as long as it has bytes to fetch. -/
theorem seen_at {O : Type} (obs : World → O) {kind : Action → Bool}
    (hobs : ∀ (st : Taken Response) v v', Takes (exec sm.host) v st v' → kind st.1 = false →
      obs v' = obs v)
    (hkind : ∀ a, kind a = true → changes a = true)
    (hrun : Interleaving (exec sm.host) qs u tr x t) (hread : ReadsAtOnce tr)
    {pre post : List (Taken Response)} {st : Taken Response} (hproj : project none tr = pre ++ st :: post)
    (hpre : ∀ st' ∈ pre, kind st'.1 = false) (hfetch : ∃ st' ∈ st :: post, fetchesContent st'.1 = true) :
    ∃ v v', Takes (exec sm.host) v st v' ∧ obs v = obs u := by
  obtain ⟨t₁, t₂, rfl, h₁, h₂⟩ := project_split hproj
  obtain ⟨v, v', hv, hv', -⟩ := hrun.steps.at_split
  refine ⟨v, v', hv', hv.keep obs fun st' hst' y z hyz => hobs st' y z hyz ?_⟩
  obtain ⟨⟨i, st''⟩, he, rfl⟩ := List.mem_map.mp hst'
  cases i with
  | none => exact hpre st'' (h₁ ▸ mem_project.mpr he)
  | some i =>
    by_contra hchange
    have hchanges : byUpload changes (some i, st'') = true := by
      simp only [byUpload, Option.isSome_some, Bool.true_and]
      exact hkind _ (by simpa using hchange)
    obtain ⟨st₀, hst₀, hfetches⟩ := hfetch
    have hafter : (none, st₀) ∈ (none, st) :: t₂ := by
      rw [← mem_project, project_cons_self, h₂]
      exact hst₀
    obtain ⟨l₁, l₂, rfl⟩ := List.append_of_mem he
    have hbefore : before (byUpload changes) (byRequest fetchesContent)
        (l₁ ++ (some i, st'') :: (l₂ ++ (none, st) :: t₂)) = true :=
      before_of_split hchanges (List.mem_append_right _ hafter) (by simp [byRequest, hfetches])
    rw [ReadsAtOnce, List.append_assoc, List.cons_append, hbefore] at hread
    simp at hread

/-- The record the request goes by reads like the one it finds at first. -/
theorem fetched_record (hrun : Interleaving (exec sm.host) qs u tr x t) (hread : ReadsAtOnce tr)
    {fetched rest : List (Taken Response)} (hproj : project none tr = fetched ++ rest)
    (hfetched : RecordFetched b k file fetched) (hfetch : ∃ st ∈ rest, fetchesContent st.1 = true) :
    (recordOf u b k).map recipe = some (recipe file) := by
  have hmetadata : ∀ a, Action.writesMetadata a = true → changes a = true := fun a ha => by
    simp [changes, ha]
  have hrow : ∀ a, Action.writesRow a = true → changes a = true := fun a ha => by simp [changes, ha]
  obtain ⟨st₀, hst₀, hfetches⟩ := hfetch
  cases hfetched with
  | cached =>
    have hfirst : project none tr =
        [] ++ ⟨.getFileMetadata b k, (.ok (some file) : Result (Option StoredFile))⟩ :: rest := hproj
    obtain ⟨v, v', hv, hsame⟩ := seen_at (fun w => w.cache.getFileMetadata b k)
      (fun st v v' h hk => takes_getFileMetadata h hk b k) hmetadata hrun hread hfirst
      (by simp) ⟨st₀, List.mem_cons_of_mem _ hst₀, hfetches⟩
    have hhit := Except.ok.inj (takes_cached hv)
    simp only [recordOf, ← hsame, ← hhit]
    rfl
  | selected r r' miss =>
    let row : Taken Response := ⟨.selectFile b k, (.ok (some file) : Query (Option StoredFile))⟩
    let cached : Taken Response := ⟨.setFileMetadata b k file, r'⟩
    have hfirst : project none tr = [] ++ ⟨.getFileMetadata b k, r⟩ :: row :: cached :: rest := hproj
    have hsecond : project none tr = [⟨.getFileMetadata b k, r⟩] ++ row :: cached :: rest := hproj
    obtain ⟨v, v', hv, hsame⟩ := seen_at (fun w => w.cache.getFileMetadata b k)
      (fun st v v' h hk => takes_getFileMetadata h hk b k) hmetadata hrun hread hfirst
      (by simp) ⟨st₀, by simp [hst₀], hfetches⟩
    have hnone : u.cache.getFileMetadata b k = none := by
      rw [← hsame]
      cases hm : v.cache.getFileMetadata b k with
      | none => rfl
      | some f => exact absurd ((takes_cached hv).trans (by rw [hm])) (miss f)
    obtain ⟨v, v', hv, hsame⟩ := seen_at (fun w => (w.db.files.find (b, k)).map recipe)
      (fun st v v' h hk => takes_recipe h hk b k) hrow hrun hread hsecond
      (by simp [Action.writesRow]) ⟨st₀, by simp [hst₀], hfetches⟩
    have hsel := takes_selectFile hv
    rw [Database.selectFile] at hsel
    rw [← hsel] at hsame
    simpa [recordOf, hnone, Database.selectFile] using hsame.symm

/-- The bytes the request gets are those it finds at first. -/
theorem fetched_content (hrun : Interleaving (exec sm.host) qs u tr x t) (hread : ReadsAtOnce tr)
    {pre read rest : List (Taken Response)} (hproj : project none tr = pre ++ (read ++ rest))
    (hcontent : ContentFetched b k file raw read)
    (hpre : ∀ st ∈ pre, st.1.writesFile = false ∧ st.1.writesContent = false) :
    rawOf sm.host u b k file = some raw := by
  have hcontents : ∀ a, Action.writesContent a = true → changes a = true := fun a ha => by
    simp [changes, ha]
  have hfiles : ∀ a, Action.writesFile a = true → changes a = true := fun a ha => by
    simp [changes, ha]
  cases hcontent with
  | cached =>
    obtain ⟨v, v', hv, hsame⟩ := seen_at (fun w => w.cache.getFileContent b k)
      (fun st v v' h hk => takes_getFileContent h hk b k) hcontents hrun hread hproj
      (fun st hst => (hpre st hst).2) ⟨_, List.mem_cons_self, rfl⟩
    have hhit := Except.ok.inj (takes_cachedContent hv)
    simp only [rawOf, ← hsame, ← hhit]
    rfl
  | read r r' miss =>
    obtain ⟨v, v', hv, hsame⟩ := seen_at (fun w => w.cache.getFileContent b k)
      (fun st v v' h hk => takes_getFileContent h hk b k) hcontents hrun hread hproj
      (fun st hst => (hpre st hst).2) ⟨_, List.mem_cons_self, rfl⟩
    have hnone : u.cache.getFileContent b k = none := by
      rw [← hsame]
      cases hm : v.cache.getFileContent b k with
      | none => rfl
      | some y => exact absurd ((takes_cachedContent hv).trans (by rw [hm])) (miss y)
    have hproj' : project none tr = (pre ++ [⟨.getFileContent b k, r⟩]) ++
        ⟨.readFile file.filePath, (.ok raw : Except IoError Bytes)⟩ ::
          (⟨.setFileContent b k raw, r'⟩ :: rest) := by
      rw [hproj]
      simp
    obtain ⟨v, v', hv, hsame⟩ := seen_at (fun w => w.bytesAt sm.host file.filePath)
      (fun st v v' h hk => takes_bytesAt h hk _) hfiles hrun hread hproj' (fun st hst => by
        cases List.mem_append.mp hst with
        | inl hst => exact (hpre st hst).1
        | inr hst => rw [List.mem_singleton.mp hst]; rfl)
      ⟨_, List.mem_cons_self, rfl⟩
    have hbytes := takes_readFile hv
    simp only [rawOf, hnone, ← hsame, hbytes]
    rfl

/-- What is unexpired on the way was so at first. -/
theorem unexpired_at_first (hrun : Interleaving (exec sm.host) qs u tr x t)
    {checked : List (Taken Response)} (hlive : Unexpired file checked)
    (hmem : ∀ st ∈ checked, st ∈ project none tr) : past u.now file.expiresAt = false := by
  cases hlive with
  | never h => simp [past, h]
  | notYet expiresAt now h hlt =>
    have hin := mem_project.mp (hmem _ List.mem_cons_self)
    obtain ⟨t₁, t₂, rfl⟩ := List.append_of_mem hin
    obtain ⟨v, v', hv, hv', -⟩ := hrun.steps.at_split
    have hle : u.now ≤ v.now := hv.invariant (I := fun w => u.now ≤ w.now) (Int.le_refl _)
      fun st _ y z hyz hy => Int.le_trans hy (takes_now hyz)
    have hclock : v'.now = now := takes_utcNow hv'
    have hstep := takes_now hv'
    have hnow : u.now ≤ now := hclock ▸ le_trans hle hstep
    simp only [past, h, decide_eq_false_iff_not]
    exact not_le.mpr (lt_of_le_of_lt hnow hlt)

/-- Up to the lookup for the tag the request writes no row, and it looks up none after it. -/
theorem lookup_split {r : S3Response} {l : List (Taken Response)} (h : GetSteps sm b k r l) :
    ∃ row pre checked, l = pre ++
        ⟨.selectFile b k, (.ok (some row) : Query (Option StoredFile))⟩ :: checked ∧
      (∀ st ∈ pre, st.1.writesRow = false) ∧ (∀ st ∈ checked, selectsRow st.1 = false) ∧
      ∃ contentType content, r = ⟨200, ("content-type", contentType) ::
        headerIfValid "etag" (etag row.hashMd5), .bytes content⟩ := by
  cases h with
  | answered file row raw content contentType c fetched checked read keys checked' hrecord hlive hcontent
      hasks hdecodes hlive' =>
    refine ⟨row, _, checked', rfl, fun st hst => ?_, fun st hst => ?_, contentType, content, rfl⟩
    · simp only [List.mem_append, List.mem_singleton] at hst
      obtain (((hst | hst) | hst) | hst) | hst := hst
      · cases hrecord <;> simp only [List.mem_cons, List.not_mem_nil, or_false] at hst
        · rw [hst]; rfl
        · obtain rfl | rfl | rfl := hst <;> rfl
      · cases hlive <;> simp only [List.mem_cons, List.not_mem_nil, or_false] at hst
        rw [hst]; rfl
      · cases hcontent <;> simp only [List.mem_cons, List.not_mem_nil, or_false] at hst
        · rw [hst]; rfl
        · obtain rfl | rfl | rfl := hst <;> rfl
      · obtain ⟨keyId, hkey⟩ := hasks st hst
        rw [hkey]; rfl
      · rw [hst]; rfl
    · cases hlive' <;> simp only [List.mem_cons, List.not_mem_nil, or_false] at hst
      rw [hst]; rfl

/-- The body is what a read at first answers with. -/
theorem body_at_first (hrun : Interleaving (exec sm.host) qs u tr x t) (hread : ReadsAtOnce tr)
    {r : S3Response} (hsteps : GetSteps sm b k r (project none tr)) :
    ∃ content ct, r.body = .bytes content ∧ readResult sm u b k = .ok (content, ct) := by
  generalize hproj : project none tr = l at hsteps
  cases hsteps with
  | answered file row raw content contentType c fetched checked read keys checked' hrecord hlive hcontent
      hasks hdecodes hlive' =>
    refine ⟨content, some file.contentType, rfl, ?_⟩
    have hmem : ∀ st, st ∈ checked ∨ st ∈ keys → st ∈ project none tr := by
      intro st hst
      rw [hproj]
      obtain hst | hst := hst <;> simp [hst]
    have hfetch : ∃ st ∈ read, fetchesContent st.1 = true := by
      cases hcontent <;> exact ⟨_, List.mem_cons_self, rfl⟩
    let counted : List (Taken Response) := [⟨.updateAccess file.id, c⟩]
    let lookup : Taken Response :=
      ⟨.selectFile b k, (.ok (some row) : Query (Option StoredFile))⟩
    have hrecordFirst : project none tr =
        fetched ++ (checked ++ read ++ keys ++ counted ++ lookup :: checked') := by
      rw [hproj]
      simp [counted, lookup]
    have hcontentNext : project none tr =
        (fetched ++ checked) ++ (read ++ (keys ++ counted ++ lookup :: checked')) := by
      rw [hproj]
      simp [counted, lookup]
    have hfound : (recordOf u b k).map recipe = some (recipe file) := by
      refine fetched_record hrun hread hrecordFirst hrecord ?_
      obtain ⟨st, hst, hfetches⟩ := hfetch
      exact ⟨st, by simp [hst], hfetches⟩
    have hraw : rawOf sm.host u b k file = some raw := by
      refine fetched_content hrun hread hcontentNext hcontent fun st hst => ?_
      rw [List.mem_append] at hst
      obtain hst | hst := hst
      · cases hrecord <;> simp only [List.mem_cons, List.not_mem_nil, or_false] at hst
        · rw [hst]; exact ⟨rfl, rfl⟩
        · obtain rfl | rfl | rfl := hst <;> exact ⟨rfl, rfl⟩
      · cases hlive <;> simp only [List.mem_cons, List.not_mem_nil, or_false] at hst
        rw [hst]; exact ⟨rfl, rfl⟩
    have hunexpired := unexpired_at_first hrun hlive fun st hst => hmem st (.inl hst)
    have hkeys : KeysFrom u.db keys := fun id key hm =>
      keysFrom_project hrun none id key (hmem _ (.inr hm))
    rw [Option.map_eq_some_iff] at hfound
    obtain ⟨g, hg, hgf⟩ := hfound
    obtain ⟨hpath, -, -, -, -, hct, hexp⟩ := recipe_eq.mp hgf
    have hraw' : rawOf sm.host u b k g = some raw := by
      rw [← hraw, rawOf, rawOf, hpath]
    have hdecoded : sm.decoded u.db g raw = .ok content :=
      (decoded_congr hgf (fun _ => rfl) raw).trans (hdecodes u.db hkeys)
    simp only [readResult, hg, hexp, hunexpired, hraw', hdecoded, Bool.false_eq_true, ↓reduceIte,
      Except.map, hct]

theorem isHeaderValue_etag {s : String} (h : isHeaderValue s = true) : isHeaderValue (etag s) = true := by
  have hquote : isHeaderValue "\"" = true := by decide
  simp only [etag, isHeaderValue_append, hquote, h, Bool.and_self]

theorem etag_injective {s s' : String} (h : etag s = etag s') : s = s' := by
  have hlists := congrArg String.toList h
  simp only [etag, String.toList_append, List.append_assoc] at hlists
  exact String.toList_inj.mp (List.append_cancel_right (List.append_cancel_left hlists))

theorem etag_header {r : S3Response} {contentType : String}
    (hmd5 : ∀ c, isHeaderValue (sm.lib.md5 c) = true)
    (hr : r = ⟨200, ("content-type", contentType) :: headerIfValid "etag" (etag row.hashMd5),
      .bytes content⟩) : EtagMatches sm r ↔ row.hashMd5 = sm.lib.md5 content := by
  subst hr
  have hskip : ("content-type" : String) ≠ "etag" := by decide
  constructor
  · intro ⟨content', hbody, hheader⟩
    obtain rfl := S3Body.bytes.inj hbody
    simp only [S3Response.header, List.find?_cons, hskip, decide_false, headerIfValid] at hheader
    split at hheader
    · simp only [List.find?_cons, decide_true, Option.map_some, Option.some.injEq] at hheader
      exact etag_injective hheader
    · simp at hheader
  · intro hhash
    refine ⟨content, rfl, ?_⟩
    simp [S3Response.header, hskip, headerIfValid, hhash, isHeaderValue_etag (hmd5 content)]

end

/-! ## A read around an upload -/

open Sample (manager)

/-- The state after an upload of one byte. -/
def stored (key : String) (content : Bytes) (id : Uuid) (w : World) : World :=
  ((manager.storeFile "a" key content none {}).eval (exec manager.host) { uuid := id } w).2

def single : World := stored "k" [120] 1 World.empty

/-- The key is given the content of another, and its cache entries stay. -/
def stale : World := stored "k" [121] 3 (stored "l" [121] 2 single)

/-- Another byte is uploaded to the key of the request. -/
def request : ∀ i : Option Unit, S3Op (Answer i) :=
  calls manager "a" "k" (.ok ()) fun _ => ⟨[121], none, {}⟩

def woven (w : World) (schedule : List (Option Unit)) :=
  weave (exec manager.host) calm schedule request w

/-- The request has its body before the upload, and looks the row up after it. -/
def around : List (Option Unit) :=
  List.replicate 3 none ++ List.replicate 9 (some ()) ++ [none]

/-- The request is answered before the upload begins. -/
def ahead : List (Option Unit) := List.replicate 4 none ++ List.replicate 9 (some ())

theorem md5_header (c : Bytes) : isHeaderValue (manager.lib.md5 c) = true := by
  have hmd5 : manager.lib.md5 c = Sample.md5 c := rfl
  rw [hmd5, Sample.md5]
  split
  · decide
  · split
    · decide
    · split <;> decide

/-- A schedule that finishes both calls gives the request its answer. -/
theorem woven_answer {w : World} {schedule : List (Option Unit)} {p : S3Response → Bool}
    (hupload : ((woven w schedule).2.1 (some ())).result.isSome = true)
    (hanswer : ((woven w schedule).2.1 none).result.any (·.toOption.any p) = true) :
    ∃ x r, Interleaving (exec manager.host) request w (woven w schedule).1 x (woven w schedule).2.2 ∧
      x none = .ok r ∧ p r = true := by
  obtain ⟨y, hy⟩ := Option.isSome_iff_exists.mp hupload
  obtain ⟨z, hz, hok⟩ := (Option.any_eq_true _ _).mp hanswer
  obtain ⟨r, hr, hp⟩ := (Option.any_eq_true _ _).mp hok
  cases z with
  | error e => simp [Except.toOption] at hr
  | ok r' =>
    obtain rfl : r' = r := by simpa [Except.toOption] using hr
    let x : ∀ i : Option Unit, Except S3Error (Answer i) := Option.rec (.ok r') fun _ => y
    refine ⟨x, r', weave_interleaving calm schedule fun i => ?_, rfl, hp⟩
    cases i with
    | none => exact hz
    | some _ => exact hy

/-- In this order of the steps the letter x is served with the tag of the letter y. -/
def Mistagged (w : World) (schedule : List (Option Unit)) : Prop :=
  ∃ x r, Interleaving (exec manager.host) request w (woven w schedule).1 x (woven w schedule).2.2 ∧
    x none = .ok r ∧ r.body = .bytes [120] ∧
    r.header "etag" = some (etag (manager.lib.md5 [121])) ∧ ¬ EtagMatches manager r

end LocalStorage.Proofs.EntityTags
