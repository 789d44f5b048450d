import LocalStorage.Proofs.Effects
import LocalStorage.Proofs.Upload
import LocalStorage.Proofs.Vocabulary

namespace LocalStorage
open Lib Lib.Paths StorageManager

/-! # What the methods ask and hear

Facts about the steps of one call whatever the answers, so that they hold with other
calls going on. -/

instance (a : Action) : Nonempty (Response a) :=
  ⟨(exec ⟨[], id⟩ calm a World.empty).1⟩

/-- The step changes nothing a read depends on. -/
structure Action.Quiet (a : Action) : Prop where
  file : a.writesFile = false
  row : a.writesRow = false
  access : a.countsAccess = false
  metadata : a.writesMetadata = false
  content : a.writesContent = false

/-- The keys heard are the table's. -/
def KeysFrom (db : Database) (l : List (Taken Response)) : Prop :=
  ∀ id key, (⟨.selectKey id, (.ok (some key) : Query (Option EncryptionKey))⟩ : Taken Response) ∈ l →
    db.selectKey id = some key

theorem KeysFrom.left {db : Database} {l l' : List (Taken Response)} (h : KeysFrom db (l ++ l')) :
    KeysFrom db l :=
  fun id key hm => h id key (List.mem_append_left l' hm)

/-- No step changes the keys, so all threads hear those of the start. -/
theorem keysFrom_project {ι E : Type} [DecidableEq ι] {α : ι → Type}
    {ps : ∀ i, Prog Action Response E (α i)} {x : ∀ i, Except E (α i)} {w t : World}
    {tr : List (ι × Taken Response)} {h : Host}
    (hrun : Interleaving (exec h) ps w tr x t) (i : ι) : KeysFrom w.db (project i tr) := by
  intro id key hm
  have hmem : (⟨.selectKey id, (.ok (some key) : Query (Option EncryptionKey))⟩ : Taken Response) ∈
      tr.map Prod.snd := List.mem_map_of_mem (mem_project.mp hm)
  obtain ⟨l₁, l₂, u, v, -, hu, hv, -⟩ := hrun.steps.of_mem hmem
  have hkeys : u.db.encryptionKeys = w.db.encryptionKeys :=
    hu.keep (fun w => w.db.encryptionKeys) fun _ _ _ _ ht => takes_encryptionKeys ht
  rw [← selectKey_congr hkeys id]
  exact (takes_selectKey hv).symm

namespace StorageManager

variable {sm : StorageManager} {b k : String} {content : Bytes} {ct : Option String}
  {opts : StoreOptions} {past : List (Taken Response)}

/-! ## Uploads -/

theorem ensureStep_quiet {a : Action} (h : EnsureStep b a) : a.Quiet := by
  cases h <;> exact ⟨rfl, rfl, rfl, rfl, rfl⟩

theorem encryptStep_quiet {a : Action} (h : EncryptStep a) : a.Quiet := by
  cases h <;> exact ⟨rfl, rfl, rfl, rfl, rfl⟩

theorem encryptStage_quiet (data : Bytes) : (sm.encryptStage opts data).Uses Action.Quiet :=
  (encryptStage_steps data).mono fun _ => encryptStep_quiet

/-- The stored form is the one the keys heard make. -/
theorem encryptStage_heard (data : Bytes) :
    (sm.encryptStage opts data).Ensures record (fun x t => ∀ out enc, x = .ok (out, enc) →
      ∀ db, KeysFrom db t → EncryptedAs sm db opts data out enc) past := by
  simp only [encryptStage, step_eq, Prog.bind_eq, Prog.act_bind, Prog.ret_bind, Prog.pure_eq]
  cases he : sm.shouldEncrypt opts with
  | false => simp [EncryptedAs, he]
  | true =>
    simp only [↓reduceIte]
    cases ha : EncryptionAlgorithm.fromStr sm.config.crypto.algorithm with
    | error e => simp
    | ok alg =>
      simp only [Prog.ofExcept_ok, Prog.ret_bind]
      cases hid : opts.encryptionKeyId with
      | none =>
        refine Prog.ensures_record fun nonce => ?_
        cases hc : sm.crypto.encrypt sm.lib.toCiphers data alg nonce with
        | error e => simp
        | ok sealed =>
          simp only [Prog.ofExcept_ok, Prog.ret_bind, Prog.ensures_ret]
          rintro out enc ⟨rfl, rfl⟩ db -
          simp only [EncryptedAs, he, ↓reduceIte, hid]
          exact ⟨trivial, alg, nonce, ha, hc⟩
      | some keyId =>
        simp only [getKey, step_eq, Prog.bind_eq, Prog.act_bind, Prog.ret_bind, Prog.pure_eq,
          Prog.bind_assoc]
        refine Prog.ensures_record fun r => ?_
        rcases r with e | (_ | key)
        · simp
        · simp
        · simp only [ofSqlx_ok, Prog.ret_bind]
          refine Prog.ensures_record fun nonce => ?_
          cases hc : CryptoManager.encryptWithKey sm.lib.toCiphers data alg key.keyData nonce with
          | error e => simp
          | ok sealed =>
            simp only [Prog.ofExcept_ok, Prog.ret_bind, Prog.ensures_ret]
            rintro out enc ⟨rfl, rfl⟩ db hkeys
            have hkey : db.selectKey keyId = some key := hkeys keyId key (by simp)
            simp only [EncryptedAs, he, ↓reduceIte, hid]
            exact ⟨trivial, alg, nonce, ha, key, hkey, hc⟩

/-- The last steps of a fresh upload that succeeds. -/
def landing (sm : StorageManager) (b k : String) (processed : Bytes) (file : StoredFile)
    (id : Uuid) (now : Time) (r r' : Result Unit) : List (Taken Response) :=
  [⟨.writeFileAtomic (sm.getFilePath b k) processed, (.ok () : Except IoError Unit)⟩,
    ⟨.newUuid, id⟩, ⟨.utcNow, now⟩, ⟨.upsertFile file, (.ok () : Query Unit)⟩,
    ⟨.setFileMetadata b k file, r⟩, ⟨.setFileContent b k processed, r'⟩]

theorem writeBytes_dialogue {path : String} {bytes : Bytes} :
    (writeBytes path bytes).Ensures record (fun x t => x = .ok () →
      ∃ l, (∀ st ∈ l, st.1.Quiet) ∧
        t = past ++ l ++ [⟨.writeFileAtomic path bytes, (.ok () : Except IoError Unit)⟩]) past := by
  simp only [writeBytes, step_eq, Prog.bind_eq, Prog.act_bind, Prog.ret_bind, Prog.pure_eq]
  have hwrite : ∀ l : List (Taken Response), (∀ st ∈ l, st.1.Quiet) →
      (Prog.act (.writeFileAtomic path bytes) fun r => (ofIo r).bind fun _ => .ret ()).Ensures
        record (fun (x : Result Unit) t => x = .ok () → ∃ l, (∀ st ∈ l, st.1.Quiet) ∧
          t = past ++ l ++ [⟨.writeFileAtomic path bytes, (.ok () : Except IoError Unit)⟩])
        (past ++ l) := by
    intro l hl
    refine Prog.ensures_record fun r => ?_
    cases r with
    | error e => simp
    | ok u =>
      simp only [ofIo_ok, Prog.ret_bind, Prog.ensures_ret, true_implies]
      exact ⟨l, hl, rfl⟩
  split
  · rename_i parent _
    refine Prog.ensures_record fun r => ?_
    cases r with
    | error e => simp
    | ok u =>
      refine hwrite [⟨.createDirAll parent, (.ok () : Except IoError Unit)⟩] fun st hst => ?_
      rw [List.mem_singleton.mp hst]
      exact ⟨rfl, rfl, rfl, rfl, rfl⟩
  · simpa using hwrite [] (by simp)

theorem saveFile_dialogue {file : StoredFile} :
    (saveFile file).Ensures record (fun x t => x = .ok () →
      t = past ++ [⟨.upsertFile file, (.ok () : Query Unit)⟩]) past := by
  simp only [saveFile, step_eq, Prog.bind_eq, Prog.act_bind, Prog.ret_bind, Prog.pure_eq]
  refine Prog.ensures_record fun saved => ?_
  cases saved with
  | ok u => simp
  | error e =>
    cases e with
    | database db =>
      dsimp only
      split <;> simp
    | other msg => simp

theorem recordFile_dialogue {file : StoredFile} {processed : Bytes} :
    (recordFile file processed).Ensures record (fun x t => ∀ f, x = .ok f → f = file ∧
      ∃ r r' : Result Unit, t = past ++ [⟨.upsertFile file, (.ok () : Query Unit)⟩,
        ⟨.setFileMetadata file.bucket file.key file, r⟩,
        ⟨.setFileContent file.bucket file.key processed, r'⟩]) past := by
  simp only [recordFile, step_eq, Prog.bind_eq, Prog.act_bind, Prog.ret_bind, Prog.pure_eq]
  rw [Prog.ensures_bind, Prog.ensures_attempt]
  refine saveFile_dialogue.mono fun x t ht => ?_
  cases x with
  | ok u =>
    obtain rfl := ht rfl
    refine Prog.ensures_record fun r => Prog.ensures_record fun r' => ?_
    simp only [Prog.ensures_ret, Except.ok.injEq]
    rintro f rfl
    exact ⟨rfl, r, r', by simp⟩
  | error e => exact Prog.ensures_record fun r => by simp

/-- What a fresh upload that succeeds has done, step by step. -/
structure Landed (sm : StorageManager) (b k : String) (content : Bytes) (ct : Option String)
    (opts : StoreOptions) (file : StoredFile) (processed : Bytes) (l : List (Taken Response)) :
    Prop where
  record : ∃ enc id now, file = sm.freshFile b k content ct opts (sm.compressStage opts content).2
    (sm.compressStage opts content).1.length processed enc id now ∧
    ∀ db, KeysFrom db l → EncryptedAs sm db opts (sm.compressStage opts content).1 processed enc
  steps : ∃ pre id now r r', l = pre ++ landing sm b k processed file id now r r' ∧
    ∀ st ∈ pre, st.1.Quiet

theorem storeFresh_dialogue (hpast : ∀ st ∈ past, st.1.Quiet) :
    (sm.storeFresh b k content ct opts).Ensures record (fun x t => ∀ f, x = .ok f →
      ∃ processed, Landed sm b k content ct opts f processed t) past := by
  simp only [storeFresh, step_eq, Prog.bind_eq, Prog.act_bind, Prog.ret_bind]
  rw [Prog.ensures_bind]
  intro x t hx
  obtain ⟨l, rfl, hl⟩ := (encryptStage_quiet _).recorded past x t hx
  have henc := encryptStage_heard _ x _ hx
  cases x with
  | error e => simp
  | ok out =>
    obtain ⟨processed, enc⟩ := out
    dsimp only
    rw [Prog.ensures_bind]
    refine writeBytes_dialogue.mono fun x t ht => ?_
    cases x with
    | error e => simp
    | ok u =>
      obtain ⟨l', hl', rfl⟩ := ht rfl
      refine Prog.ensures_record fun id => Prog.ensures_record fun now => ?_
      refine recordFile_dialogue.mono fun y t hy => ?_
      rintro f rfl
      obtain ⟨rfl, r, r', rfl⟩ := hy f rfl
      refine ⟨processed, ⟨enc, id, now, rfl, fun db hdb => ?_⟩,
        past ++ l ++ l', id, now, r, r', by simp [landing, freshFile], ?_⟩
      · refine henc processed enc rfl db ?_
        simp only [List.append_assoc] at hdb ⊢
        rw [← List.append_assoc] at hdb
        exact hdb.left
      · intro st hst
        simp only [List.mem_append] at hst
        rcases hst with (hst | hst) | hst
        · exact hpast st hst
        · exact hl st hst
        · exact hl' st hst

theorem storeAlias_dialogue {existing : StoredFile} :
    (sm.storeAlias b k content ct opts existing).Ensures record (fun x t => ∀ f, x = .ok f →
      ∃ id now, f = sm.aliasedFile b k content ct opts existing id now ∧
        t = past ++ [⟨.newUuid, id⟩, ⟨.utcNow, now⟩, ⟨.upsertFile f, (.ok () : Query Unit)⟩])
      past := by
  simp only [storeAlias, step_eq, Prog.bind_eq, Prog.act_bind, Prog.ret_bind, Prog.pure_eq]
  refine Prog.ensures_record fun id => Prog.ensures_record fun now => ?_
  rw [Prog.ensures_bind]
  refine saveFile_dialogue.mono fun x t ht => ?_
  cases x with
  | error e => simp
  | ok u =>
    obtain rfl := ht rfl
    rw [Prog.ensures_ret]
    rintro f hf
    obtain rfl := Except.ok.inj hf
    exact ⟨id, now, rfl, by simp⟩

/-- The lookup of the upload's content has found a row. -/
def matched (sm : StorageManager) (content : Bytes) (existing : StoredFile) : Taken Response :=
  ⟨.selectFileByHash (sm.lib.blake3 content), (.ok (some existing) : Query (Option StoredFile))⟩

/-- How an upload that succeeds has gone, step by step. -/
inductive StoreSteps (sm : StorageManager) (b k : String) (content : Bytes) (ct : Option String)
    (opts : StoreOptions) : StoredFile → List (Taken Response) → Prop where
  | identical (pre : List (Taken Response)) (file : StoredFile)
      (hpre : ∀ st ∈ pre, EnsureStep b st.1) (ident : file.ident = (b, k)) :
      StoreSteps sm b k content ct opts file (pre ++ [matched sm content file])
  | aliased (pre : List (Taken Response)) (existing : StoredFile) (id : Uuid) (now : Time)
      (hpre : ∀ st ∈ pre, EnsureStep b st.1) (ident : existing.ident ≠ (b, k)) :
      StoreSteps sm b k content ct opts (sm.aliasedFile b k content ct opts existing id now)
        (pre ++ [matched sm content existing, ⟨.newUuid, id⟩, ⟨.utcNow, now⟩,
          ⟨.upsertFile (sm.aliasedFile b k content ct opts existing id now), (.ok () : Query Unit)⟩])
  | landed (file : StoredFile) (processed : Bytes) (l : List (Taken Response))
      (h : Landed sm b k content ct opts file processed l)
      (unmatched : ∀ existing, matched sm content existing ∉ l) :
      StoreSteps sm b k content ct opts file l

theorem storeFresh_storeSteps (hpast : ∀ st ∈ past, st.1.Quiet)
    (hnone : ∀ existing, matched sm content existing ∉ past) :
    (sm.storeFresh b k content ct opts).Ensures record (fun x t => ∀ f, x = .ok f →
      StoreSteps sm b k content ct opts f t) past := by
  intro x t ht f hf
  obtain ⟨processed, hl⟩ := storeFresh_dialogue hpast x t ht f hf
  obtain ⟨l, rfl, hsteps⟩ := storeFresh_steps.recorded past x t ht
  refine .landed f processed _ hl fun existing hm => ?_
  rcases List.mem_append.mp hm with hm | hm
  · exact hnone existing hm
  · have hstep : FreshStep sm b k opts (.selectFileByHash (sm.lib.blake3 content)) := hsteps _ hm
    cases hstep with
    | encrypt h => cases h

theorem storeFile_dialogue {l : List (Taken Response)} {file : StoredFile}
    (h : (sm.storeFile b k content ct opts).Runs record [] (.ok file) l) :
    StoreSteps sm b k content ct opts file l := by
  suffices hs : (sm.storeFile b k content ct opts).Ensures record (fun x t => ∀ f, x = .ok f →
      StoreSteps sm b k content ct opts f t) [] from hs _ _ h file rfl
  simp only [storeFile, step_eq, Prog.bind_eq, Prog.act_bind, Prog.ret_bind, Prog.pure_eq]
  rw [Prog.ensures_bind]
  intro x l hx
  obtain ⟨_, rfl, hl⟩ := ensureBucketExists_steps.recorded [] x l hx
  have hquiet : ∀ st ∈ l, st.1.Quiet := fun st hst => ensureStep_quiet (hl st hst)
  have hnone : ∀ existing, matched sm content existing ∉ l := by
    intro existing hm
    have hstep : EnsureStep b (.selectFileByHash (sm.lib.blake3 content)) := hl _ hm
    cases hstep
  cases x with
  | error e => simp
  | ok u =>
    dsimp only
    split
    · refine Prog.ensures_record fun r => ?_
      rcases r with e | (_ | existing)
      · simp
      · refine storeFresh_storeSteps ?_ fun existing hm => ?_
        · intro st hst
          rcases List.mem_append.mp hst with hst | hst
          · exact hquiet st hst
          · rw [List.mem_singleton.mp hst]
            exact ⟨rfl, rfl, rfl, rfl, rfl⟩
        · rcases List.mem_append.mp hm with hm | hm
          · exact hnone existing hm
          · simp [matched] at hm
      · simp only [ofSqlx_ok, Prog.ret_bind]
        split
        · rename_i hsame
          rw [Prog.ensures_ret]
          intro f hf
          obtain rfl := Except.ok.inj hf
          exact .identical l existing hl (Prod.ext hsame.1 hsame.2)
        · rename_i hother
          refine storeAlias_dialogue.mono fun x t ht f hf => ?_
          obtain ⟨id, now, rfl, rfl⟩ := ht f hf
          rw [List.append_assoc]
          refine .aliased l existing id now hl fun hident => ?_
          exact hother ⟨congrArg Prod.fst hident, congrArg Prod.snd hident⟩
    · exact storeFresh_storeSteps hquiet hnone

/-- A successful upload that writes a file has landed. -/
theorem storeFile_landed {l : List (Taken Response)} {file : StoredFile}
    (h : (sm.storeFile b k content ct opts).Runs record [] (.ok file) l)
    (hfresh : ∃ st ∈ l, st.1.writesFile = true) :
    ∃ processed, Landed sm b k content ct opts file processed l := by
  obtain ⟨st, hst, hw⟩ := hfresh
  have hkeep : ∀ pre : List (Taken Response), (∀ st ∈ pre, EnsureStep b st.1) → st ∉ pre := by
    intro pre hpre hm
    simp [(ensureStep_quiet (hpre st hm)).file] at hw
  cases storeFile_dialogue h with
  | identical pre file hpre ident =>
    have hlast := (List.mem_append.mp hst).resolve_left (hkeep pre hpre)
    rw [List.mem_singleton.mp hlast] at hw
    simp [matched, Action.writesFile] at hw
  | aliased pre existing id now hpre ident =>
    have hlast := (List.mem_append.mp hst).resolve_left (hkeep pre hpre)
    simp only [List.mem_cons, List.not_mem_nil, or_false] at hlast
    rcases hlast with rfl | rfl | rfl | rfl <;> simp [matched, Action.writesFile] at hw
  | landed file processed l hl unmatched => exact ⟨processed, hl⟩

theorem storeFile_uncounted {x : Result StoredFile} {l : List (Taken Response)}
    (h : (sm.storeFile b k content ct opts).Runs record [] x l) :
    ∀ st ∈ l, st.1.countsAccess = false := by
  intro st hst
  have hstep : StoreStep sm b k opts st.1 := h.used storeFile_steps st hst
  obtain ⟨act, r⟩ := st
  cases hstep with
  | ensure h => cases h <;> rfl
  | selectFileByHash hash => rfl
  | fresh h =>
    cases h with
    | encrypt h => cases h <;> rfl
    | _ => rfl

namespace Landed

variable {file : StoredFile} {processed : Bytes} {l : List (Taken Response)}

/-- A kind of step that is never quiet is found among the last six only. -/
theorem sole (h : Landed sm b k content ct opts file processed l) (kind : Action → Bool)
    (hkind : ∀ a : Action, a.Quiet → kind a = false) :
    ∃ id now r r', ∀ st ∈ landing sm b k processed file id now r r',
      (∀ st' ∈ landing sm b k processed file id now r r', kind st'.1 = true → st' = st) →
        Sole kind st l := by
  obtain ⟨pre, id, now, r, r', rfl, hpre⟩ := h.steps
  refine ⟨id, now, r, r', fun st hst honly => ⟨List.mem_append_right _ hst, ?_⟩⟩
  intro st' hst' hk
  rcases List.mem_append.mp hst' with hst' | hst'
  · simp [hkind _ (hpre st' hst')] at hk
  · exact honly st' hst' hk

theorem wrote (h : Landed sm b k content ct opts file processed l) :
    Sole Action.writesFile
      ⟨.writeFileAtomic (sm.getFilePath b k) processed, (.ok () : Except IoError Unit)⟩ l := by
  obtain ⟨id, now, r, r', hsole⟩ := h.sole Action.writesFile fun _ hq => hq.file
  exact hsole _ (by simp [landing]) (by simp [landing, Action.writesFile])

theorem upserted (h : Landed sm b k content ct opts file processed l) :
    Sole Action.writesRow ⟨.upsertFile file, (.ok () : Query Unit)⟩ l := by
  obtain ⟨id, now, r, r', hsole⟩ := h.sole Action.writesRow fun _ hq => hq.row
  exact hsole _ (by simp [landing]) (by simp [landing, Action.writesRow])

theorem cachedMetadata (h : Landed sm b k content ct opts file processed l) :
    ∃ r, Sole Action.writesMetadata ⟨.setFileMetadata b k file, r⟩ l := by
  obtain ⟨id, now, r, r', hsole⟩ := h.sole Action.writesMetadata fun _ hq => hq.metadata
  exact ⟨r, hsole _ (by simp [landing]) (by simp [landing, Action.writesMetadata])⟩

theorem cachedContent (h : Landed sm b k content ct opts file processed l) :
    ∃ r, Sole Action.writesContent ⟨.setFileContent b k processed, r⟩ l := by
  obtain ⟨id, now, r, r', hsole⟩ := h.sole Action.writesContent fun _ hq => hq.content
  exact ⟨r', hsole _ (by simp [landing]) (by simp [landing, Action.writesContent])⟩

theorem uncounted (h : Landed sm b k content ct opts file processed l) :
    ∀ st ∈ l, st.1.countsAccess = false := by
  obtain ⟨pre, id, now, r, r', rfl, hpre⟩ := h.steps
  intro st hst
  rcases List.mem_append.mp hst with hst | hst
  · exact (hpre st hst).access
  · simp only [landing, List.mem_cons, List.not_mem_nil, or_false] at hst
    rcases hst with rfl | rfl | rfl | rfl | rfl | rfl <;> rfl

/-- The file is written once. -/
theorem written_once (h : Landed sm b k content ct opts file processed l) {l₁ l₂ : List (Taken Response)}
    (hl : l = l₁ ++ ⟨.writeFileAtomic (sm.getFilePath b k) processed,
      (.ok () : Except IoError Unit)⟩ :: l₂) :
    (∀ st ∈ l₁, st.1.writesFile = false) ∧ ∀ st ∈ l₂, st.1.writesFile = false := by
  obtain ⟨pre, id, now, r, r', hsteps, hpre⟩ := h.steps
  have hleft : (⟨.writeFileAtomic (sm.getFilePath b k) processed,
      (.ok () : Except IoError Unit)⟩ : Taken Response) ∉ pre := by
    intro hm
    simpa [Action.writesFile] using (hpre _ hm).file
  rw [hl, landing] at hsteps
  obtain ⟨rfl, -, rfl⟩ := (List.append_cons_inj_of_notMem hleft (by simp)).mp hsteps.symm
  exact ⟨fun st hst => (hpre st hst).file, by simp [Action.writesFile]⟩

/-- The row is inserted once. -/
theorem inserted_once (h : Landed sm b k content ct opts file processed l) {l₁ l₂ : List (Taken Response)}
    (hl : l = l₁ ++ ⟨.upsertFile file, (.ok () : Query Unit)⟩ :: l₂) :
    (∀ st ∈ l₁, st.1.writesRow = false) ∧ ∀ st ∈ l₂, st.1.writesRow = false := by
  obtain ⟨pre, id, now, r, r', hsteps, hpre⟩ := h.steps
  have hleft : (⟨.upsertFile file, (.ok () : Query Unit)⟩ : Taken Response) ∉ pre ++
      [⟨.writeFileAtomic (sm.getFilePath b k) processed, (.ok () : Except IoError Unit)⟩,
        ⟨.newUuid, id⟩, ⟨.utcNow, now⟩] := by
    intro hm
    rcases List.mem_append.mp hm with hm | hm
    · simpa [Action.writesRow] using (hpre _ hm).row
    · simp at hm
  have hlist : (pre ++ [⟨.writeFileAtomic (sm.getFilePath b k) processed,
        (.ok () : Except IoError Unit)⟩, ⟨.newUuid, id⟩, ⟨.utcNow, now⟩]) ++
      ⟨.upsertFile file, (.ok () : Query Unit)⟩ :: [⟨.setFileMetadata b k file, r⟩,
        ⟨.setFileContent b k processed, r'⟩] =
      l₁ ++ ⟨.upsertFile file, (.ok () : Query Unit)⟩ :: l₂ := by
    rw [← hl, hsteps, landing, List.append_assoc]
    rfl
  obtain ⟨rfl, -, rfl⟩ := (List.append_cons_inj_of_notMem hleft (by simp)).mp hlist
  refine ⟨fun st hst => ?_, by simp [Action.writesRow]⟩
  rcases List.mem_append.mp hst with hst | hst
  · exact (hpre st hst).row
  · simp only [List.mem_cons, List.not_mem_nil, or_false] at hst
    rcases hst with rfl | rfl | rfl <;> rfl

/-- After the record only the content is cached. -/
theorem after_metadata (h : Landed sm b k content ct opts file processed l)
    {l₁ l₂ : List (Taken Response)} {r₀ : Result Unit}
    (hl : l = l₁ ++ ⟨.setFileMetadata b k file, r₀⟩ :: l₂) :
    ∃ r : Result Unit, l₂ = [⟨.setFileContent b k processed, r⟩] := by
  obtain ⟨pre, id, now, r, r', hsteps, hpre⟩ := h.steps
  have hleft : (⟨.setFileMetadata b k file, r₀⟩ : Taken Response) ∉ pre ++
      [⟨.writeFileAtomic (sm.getFilePath b k) processed, (.ok () : Except IoError Unit)⟩,
        ⟨.newUuid, id⟩, ⟨.utcNow, now⟩, ⟨.upsertFile file, (.ok () : Query Unit)⟩] := by
    intro hm
    rcases List.mem_append.mp hm with hm | hm
    · simpa [Action.writesMetadata] using (hpre _ hm).metadata
    · simp at hm
  have hlist : (pre ++ [⟨.writeFileAtomic (sm.getFilePath b k) processed,
        (.ok () : Except IoError Unit)⟩, ⟨.newUuid, id⟩, ⟨.utcNow, now⟩,
        ⟨.upsertFile file, (.ok () : Query Unit)⟩]) ++
      ⟨.setFileMetadata b k file, r⟩ :: [⟨.setFileContent b k processed, r'⟩] =
      l₁ ++ ⟨.setFileMetadata b k file, r₀⟩ :: l₂ := by
    rw [← hl, hsteps, landing, List.append_assoc]
    rfl
  obtain ⟨-, -, hl₂⟩ := (List.append_cons_inj_of_notMem hleft (by simp)).mp hlist
  exact ⟨r', hl₂.symm⟩

end Landed

/-! ## Deletions -/

/-- How a deletion goes: it fails having changed nothing, or removes the row, and then
unlinks the file exactly when it counted no other reference. -/
inductive DeleteSteps (b k : String) : Result Unit → List (Taken Response) → Prop where
  | failed (e : StorageError) (l : List (Taken Response))
      (h : ∀ st ∈ l, st.1.Quiet ∨ ∃ e, st = ⟨.deleteFileRow b k, (.error e : Query Unit)⟩) :
      DeleteSteps b k (.error e) l
  | kept (path : String) (n : Nat) (r : Result Unit) (hn : n ≠ 0) :
      DeleteSteps b k (.ok ()) [⟨.selectFilePath b k, (.ok (some path) : Query (Option String))⟩,
        ⟨.countOtherReferences path b k, (.ok n : Query Nat)⟩,
        ⟨.deleteFileRow b k, (.ok () : Query Unit)⟩, ⟨.invalidateFile b k, r⟩]
  | unlinked (path : String) (r' : Except IoError Unit) (r : Result Unit) :
      DeleteSteps b k (.ok ()) [⟨.selectFilePath b k, (.ok (some path) : Query (Option String))⟩,
        ⟨.countOtherReferences path b k, (.ok 0 : Query Nat)⟩,
        ⟨.deleteFileRow b k, (.ok () : Query Unit)⟩, ⟨.removeFile path, r'⟩,
        ⟨.invalidateFile b k, r⟩]

theorem deleteFile_dialogue {x : Result Unit} {l : List (Taken Response)}
    (h : (deleteFile b k).Runs record [] x l) : DeleteSteps b k x l := by
  suffices hs : (deleteFile b k).Ensures record (DeleteSteps b k) [] from hs _ _ h
  have hsel : (Action.selectFilePath b k).Quiet := ⟨rfl, rfl, rfl, rfl, rfl⟩
  have hcount : ∀ path, (Action.countOtherReferences path b k).Quiet :=
    fun path => ⟨rfl, rfl, rfl, rfl, rfl⟩
  simp only [deleteFile, step_eq, Prog.bind_eq, Prog.act_bind, Prog.ret_bind, Prog.pure_eq]
  refine Prog.ensures_record fun path => ?_
  rcases path with e | (_ | path)
  · exact Prog.ensures_fail.mpr (.failed _ _ (by simp [hsel]))
  · exact Prog.ensures_fail.mpr (.failed _ _ (by simp [hsel]))
  · simp only [ofSqlx_ok, Prog.ret_bind]
    refine Prog.ensures_record fun others => ?_
    rcases others with e | n
    · exact Prog.ensures_fail.mpr (.failed _ _ (by simp [hsel, hcount]))
    · simp only [ofSqlx_ok, Prog.ret_bind]
      refine Prog.ensures_record fun deleted => ?_
      rcases deleted with e | u
      · exact Prog.ensures_fail.mpr (.failed _ _ (by simp [hsel, hcount]))
      · simp only [ofSqlx_ok, Prog.ret_bind]
        split
        · rename_i hn
          subst hn
          refine Prog.ensures_record fun r' => Prog.ensures_record fun r => ?_
          exact Prog.ensures_ret.mpr (.unlinked path r' r)
        · rename_i hn
          refine Prog.ensures_record fun r => ?_
          exact Prog.ensures_ret.mpr (.kept path n r hn)

/-- What a deletion that succeeds has done, step by step. -/
def Removed (b k path : String) (l : List (Taken Response)) : Prop :=
  ∃ n unlinked r, l = [⟨.selectFilePath b k, (.ok (some path) : Query (Option String))⟩,
      ⟨.countOtherReferences path b k, (.ok n : Query Nat)⟩,
      ⟨.deleteFileRow b k, (.ok () : Query Unit)⟩] ++ unlinked ++ [⟨.invalidateFile b k, r⟩] ∧
    (unlinked = [] ∨ ∃ r', unlinked = [⟨.removeFile path, r'⟩])

theorem deleteFile_removed {l : List (Taken Response)}
    (h : (deleteFile b k).Runs record [] (.ok ()) l) : ∃ path, Removed b k path l := by
  cases deleteFile_dialogue h with
  | kept path n r hn => exact ⟨path, n, [], r, rfl, .inl rfl⟩
  | unlinked path r' r => exact ⟨path, 0, _, r, rfl, .inr ⟨r', rfl⟩⟩

namespace Removed

variable {path : String} {l : List (Taken Response)}

theorem deleted (h : Removed b k path l) :
    Sole Action.writesRow ⟨.deleteFileRow b k, (.ok () : Query Unit)⟩ l := by
  obtain ⟨n, unlinked, r, rfl, rfl | ⟨r', rfl⟩⟩ := h
  · exact ⟨by simp, by simp [Action.writesRow]⟩
  · exact ⟨by simp, by simp [Action.writesRow]⟩

theorem invalidated (h : Removed b k path l) :
    ∃ r, Sole Action.writesMetadata ⟨.invalidateFile b k, r⟩ l := by
  obtain ⟨n, unlinked, r, rfl, rfl | ⟨r', rfl⟩⟩ := h
  · exact ⟨r, by simp, by simp [Action.writesMetadata]⟩
  · exact ⟨r, by simp, by simp [Action.writesMetadata]⟩

theorem unlinks (h : Removed b k path l) :
    ∀ st ∈ l, st.1.writesFile = true → st.1 = .removeFile path := by
  obtain ⟨n, unlinked, r, rfl, rfl | ⟨r', rfl⟩⟩ := h
  · simp [Action.writesFile]
  · simp [Action.writesFile]

theorem invalidates (h : Removed b k path l) :
    ∀ st ∈ l, st.1.writesContent = true → st.1 = .invalidateFile b k := by
  obtain ⟨n, unlinked, r, rfl, rfl | ⟨r', rfl⟩⟩ := h
  · simp [Action.writesContent]
  · simp [Action.writesContent]

theorem first (h : Removed b k path l) : ∃ l', l =
    [] ++ (⟨.selectFilePath b k, (.ok (some path) : Query (Option String))⟩ : Taken Response) :: l' := by
  obtain ⟨n, unlinked, r, rfl, -⟩ := h
  exact ⟨_, rfl⟩

/-- Nothing comes after the entries are dropped. -/
theorem last (h : Removed b k path l) {l₁ l₂ : List (Taken Response)} {r : Result Unit}
    (hl : l = l₁ ++ ⟨.invalidateFile b k, r⟩ :: l₂) : l₂ = [] := by
  obtain ⟨n, unlinked, r', rfl, hun⟩ := h
  rcases List.append_eq_append_iff.mp hl with ⟨m, rfl, hm⟩ | ⟨m, hpre, hm⟩
  · cases m with
    | nil =>
      have hnil : r = r' ∧ l₂ = [] := by simpa using hm.symm
      exact hnil.2
    | cons x m => simp at hm
  · cases m with
    | nil => simp_all
    | cons x m =>
      simp only [List.cons_append, List.cons.injEq] at hm
      have hin : (⟨.invalidateFile b k, r⟩ : Taken Response) ∈ l₁ ++ x :: m := by simp [hm.1]
      rw [← hpre] at hin
      rcases hun with rfl | ⟨r'', rfl⟩ <;> simp at hin

end Removed

/-! ## Buckets -/

/-- The clean-up drops the cache entries of every file it is given. -/
theorem cleanFiles_dialogue (files : List (String × String)) :
    (cleanFiles b files).Ensures record (fun x t => x = .ok () ∧ ∃ l, t = past ++ l ∧
      (∀ st ∈ l, st.1.writesRow = false) ∧
      ∀ f ∈ files, ∃ r, (⟨.invalidateFile b f.1, r⟩ : Taken Response) ∈ l) past := by
  induction files generalizing past with
  | nil => exact Prog.ensures_ret.mpr ⟨rfl, [], by simp⟩
  | cons f files ih =>
    obtain ⟨k, path⟩ := f
    simp only [cleanFiles, step_eq, Prog.bind_eq, Prog.act_bind, Prog.ret_bind]
    have hrest : ∀ l : List (Taken Response), (∀ st ∈ l, st.1.writesRow = false) →
        (Prog.act (.invalidateFile b k) fun _ => cleanFiles b files).Ensures record
          (fun x t => x = .ok () ∧ ∃ l, t = past ++ l ∧ (∀ st ∈ l, st.1.writesRow = false) ∧
            ∀ f ∈ (k, path) :: files, ∃ r,
              (⟨.invalidateFile b f.1, r⟩ : Taken Response) ∈ l) (past ++ l) := by
      intro l hl
      refine Prog.ensures_record fun r => ih.mono ?_
      rintro x t ⟨rfl, l', rfl, hl', hall⟩
      refine ⟨rfl, l ++ ⟨.invalidateFile b k, r⟩ :: l', by simp, ?_, ?_⟩
      · intro st hst
        rcases List.mem_append.mp hst with hst | hst
        · exact hl st hst
        · rcases List.mem_cons.mp hst with rfl | hst
          · rfl
          · exact hl' st hst
      · intro f hf
        rcases List.mem_cons.mp hf with rfl | hf
        · exact ⟨r, by simp⟩
        · obtain ⟨r', hr'⟩ := hall f hf
          exact ⟨r', by simp [hr']⟩
    refine Prog.ensures_record fun n => ?_
    split
    · refine Prog.ensures_record fun r => ?_
      rw [List.append_assoc]
      exact hrest [⟨.countReferences path, n⟩, ⟨.removeFile path, r⟩] (by simp [Action.writesRow])
    · exact hrest [⟨.countReferences path, n⟩] (by simp [Action.writesRow])

/-- How the removal of a bucket that succeeds has gone: the files are listed, the rows
deleted, the listed files cleaned up, the directory removed. -/
theorem deleteBucket_dialogue {l : List (Taken Response)}
    (h : (sm.deleteBucket b).Runs record [] (.ok ()) l) : ∃ files n clean r, n ≠ 0 ∧
      l = [⟨.selectBucketFiles b, (.ok files : Query (List (String × String)))⟩,
          ⟨.deleteBucketRow b, (.ok n : Query Nat)⟩] ++ clean ++
        [⟨.removeDirAll (join sm.config.storage.path b), r⟩] ∧
      (∀ st ∈ clean, st.1.writesRow = false) ∧
      ∀ f ∈ files, ∃ r, (⟨.invalidateFile b f.1, r⟩ : Taken Response) ∈ clean := by
  suffices hs : (sm.deleteBucket b).Ensures record (fun x l => x = .ok () →
      ∃ files n clean r, n ≠ 0 ∧
        l = [⟨.selectBucketFiles b, (.ok files : Query (List (String × String)))⟩,
            ⟨.deleteBucketRow b, (.ok n : Query Nat)⟩] ++ clean ++
          [⟨.removeDirAll (join sm.config.storage.path b), r⟩] ∧
        (∀ st ∈ clean, st.1.writesRow = false) ∧
        ∀ f ∈ files, ∃ r, (⟨.invalidateFile b f.1, r⟩ : Taken Response) ∈ clean) [] from
    hs _ _ h rfl
  simp only [deleteBucket, step_eq, Prog.bind_eq, Prog.act_bind, Prog.ret_bind, Prog.pure_eq]
  refine Prog.ensures_record fun listed => ?_
  rcases listed with e | files
  · simp
  · simp only [ofSqlx_ok, Prog.ret_bind]
    refine Prog.ensures_record fun deleted => ?_
    rcases deleted with e | n
    · simp
    · simp only [ofSqlx_ok, Prog.ret_bind]
      split
      · simp
      · rename_i hn
        rw [Prog.ensures_bind]
        refine (cleanFiles_dialogue files).mono ?_
        rintro x t ⟨rfl, clean, rfl, hclean, hall⟩
        refine Prog.ensures_record fun r => Prog.ensures_ret.mpr fun _ => ?_
        exact ⟨files, n, clean, r, hn, by simp, hclean, hall⟩

/-! ## Reads -/

/-- What a reader of a key may do after what it has heard: cache a record right after it
selected it, cache content right after it read it from the path of that record, and delete. -/
def ReaderStep (b k : String) : Action → List (Taken Response) → Prop
  | .setFileMetadata b' k' f, past => b' = b ∧ k' = k ∧ ∃ r,
      past = [⟨.getFileMetadata b k, r⟩, ⟨.selectFile b k, (.ok (some f) : Query (Option StoredFile))⟩]
  | .setFileContent b' k' x, past => b' = b ∧ k' = k ∧ ∃ l p,
      past = l ++ [⟨.readFile p, (.ok x : Except IoError Bytes)⟩] ∧
      ∀ f r, (⟨.setFileMetadata b k f, r⟩ : Taken Response) ∈ l → p = f.filePath
  | .invalidateFile b' k', _ => b' = b ∧ k' = k
  | .writeFileAtomic _ _, _ => False
  | .removeDirAll _, _ => False
  | .upsertFile _, _ => False
  | .deleteBucketRow _, _ => False
  | _, _ => True

/-- A step a reader may take at any time. -/
def FreeStep (b k : String) (a : Action) : Prop := ∀ past, ReaderStep b k a past

theorem FreeStep.not_metadata {a : Action} (h : FreeStep b k a) (f : StoredFile) :
    a ≠ .setFileMetadata b k f := by
  rintro rfl
  obtain ⟨-, -, r, hr⟩ := h []
  simp at hr

theorem deleteFile_free : (deleteFile b k).Uses (FreeStep b k) := by
  simp only [deleteFile, ofSqlx, step_eq, Prog.bind_eq, Prog.act_bind, Prog.ret_bind, Prog.pure_eq]
  refine ⟨fun _ => trivial, fun path => Prog.Uses.bind (Prog.uses_ofExcept _) fun path => ?_⟩
  cases path with
  | none => trivial
  | some path =>
    refine ⟨fun _ => trivial, fun n => Prog.Uses.bind (Prog.uses_ofExcept _) fun n => ?_⟩
    refine ⟨fun _ => trivial, fun r => Prog.Uses.bind (Prog.uses_ofExcept _) fun r => ?_⟩
    split
    · exact ⟨fun _ => trivial, fun _ => ⟨fun _ => ⟨rfl, rfl⟩, fun _ => trivial⟩⟩
    · exact ⟨fun _ => ⟨rfl, rfl⟩, fun _ => trivial⟩

/-- No other record than `file` was cached. -/
def OnlyCached (b k : String) (file : StoredFile) (past : List (Taken Response)) : Prop :=
  ∀ f r, (⟨.setFileMetadata b k f, r⟩ : Taken Response) ∈ past → f = file

theorem OnlyCached.free {file : StoredFile} {l : List (Taken Response)}
    (h : OnlyCached b k file past) (hl : ∀ st ∈ l, FreeStep b k st.1) :
    OnlyCached b k file (past ++ l) := by
  intro f r hm
  rcases List.mem_append.mp hm with hm | hm
  · exact h f r hm
  · exact absurd rfl ((hl _ hm).not_metadata f)

theorem readMetadata_dialogue :
    (readMetadata b k).Throughout record (ReaderStep b k) [] ∧
      (readMetadata b k).Ensures record (fun x t => ∀ file, x = .ok file →
        OnlyCached b k file t) [] := by
  simp only [readMetadata, dbGetFile, step_eq, Prog.bind_eq, Prog.act_bind, Prog.ret_bind,
    Prog.pure_eq]
  constructor
  · refine Prog.throughout_record trivial fun hit => ?_
    split
    · trivial
    · refine Prog.throughout_record trivial fun r => ?_
      rcases r with e | (_ | file)
      · trivial
      · trivial
      · exact Prog.throughout_record ⟨rfl, rfl, hit, rfl⟩ fun _ => trivial
  · refine Prog.ensures_record fun hit => ?_
    split
    · simp [OnlyCached]
    · refine Prog.ensures_record fun r => ?_
      rcases r with e | (_ | file)
      · simp
      · simp
      · refine Prog.ensures_record fun r' => ?_
        simp [OnlyCached]

theorem expireFile_free (file : StoredFile) : (expireFile b k file).Uses (FreeStep b k) := by
  simp only [expireFile, step_eq, Prog.bind_eq, Prog.act_bind, Prog.ret_bind, Prog.pure_eq]
  split
  · trivial
  · refine ⟨fun _ => trivial, fun now => ?_⟩
    dsimp only
    split
    · exact Prog.Uses.bind deleteFile_free.attempt fun _ => trivial
    · trivial

theorem readContent_dialogue {file : StoredFile} (hpast : OnlyCached b k file past) :
    (readContent b k file).Throughout record (ReaderStep b k) past := by
  simp only [readContent, step_eq, Prog.bind_eq, Prog.act_bind, Prog.ret_bind, Prog.pure_eq]
  refine Prog.throughout_record trivial fun hit => ?_
  split
  · trivial
  · refine Prog.throughout_record trivial fun bytes => ?_
    cases bytes with
    | ok x =>
      refine Prog.throughout_record ⟨rfl, rfl, _, file.filePath, rfl, fun f r hm => ?_⟩ fun _ => trivial
      have honly := hpast f r (by simpa using hm)
      rw [honly]
    | error e =>
      dsimp only
      split
      · have hfree := Prog.Uses.bind (deleteFile_free (b := b) (k := k)).attempt
          (f := fun _ => (.fail (.notFound b k) : Op Bytes)) fun _ => trivial
        exact hfree.throughout (fun a past ha => ha past) _
      · trivial

theorem getFile_dialogue : (sm.getFile b k).Throughout record (ReaderStep b k) [] := by
  simp only [getFile, step_eq, Prog.bind_eq, Prog.pure_eq]
  refine Prog.throughout_bind.mpr ⟨readMetadata_dialogue.1, fun file past hpast => ?_⟩
  have honly := readMetadata_dialogue.2 _ _ hpast file rfl
  refine Prog.throughout_bind.mpr
    ⟨(expireFile_free file).throughout (fun a past ha => ha past) _, fun _ past' hpast' => ?_⟩
  obtain ⟨l, rfl, hl⟩ := (expireFile_free file).recorded past _ _ hpast'
  refine Prog.throughout_bind.mpr ⟨readContent_dialogue (honly.free hl), fun raw past'' _ => ?_⟩
  refine Prog.throughout_bind.mpr ⟨?_, fun content _ _ => ?_⟩
  · refine (decodeContent_uses sm file raw).throughout ?_ _
    rintro a past ⟨keyId, rfl⟩
    trivial
  · exact Prog.throughout_record trivial fun _ => trivial

theorem getFileRangeIfPlain_dialogue (start stop : Nat) :
    (getFileRangeIfPlain b k start stop).Throughout record (ReaderStep b k) [] := by
  simp only [getFileRangeIfPlain, step_eq, Prog.bind_eq, Prog.act_bind, Prog.ret_bind, Prog.pure_eq]
  refine Prog.throughout_bind.mpr ⟨readMetadata_dialogue.1, fun file past _ => ?_⟩
  split
  · trivial
  · split
    · trivial
    · refine Prog.throughout_record trivial fun r => ?_
      refine Prog.throughout_bind.mpr ⟨Prog.throughout_ofExcept, fun buf _ _ => ?_⟩
      exact Prog.throughout_record trivial fun _ => trivial

theorem getCompressedFileRange_dialogue (start stop : Nat) :
    (sm.getCompressedFileRange b k start stop).Throughout record (ReaderStep b k) [] := by
  simp only [getCompressedFileRange, step_eq, Prog.bind_eq, Prog.act_bind, Prog.ret_bind,
    Prog.pure_eq]
  refine Prog.throughout_bind.mpr ⟨readMetadata_dialogue.1, fun file past _ => ?_⟩
  split
  · trivial
  · split
    · trivial
    · refine Prog.throughout_record trivial fun r => ?_
      refine Prog.throughout_bind.mpr ⟨Prog.throughout_ofExcept, fun compressed _ _ => ?_⟩
      refine Prog.throughout_bind.mpr ⟨Prog.throughout_ofExcept, fun buf _ _ => ?_⟩
      cases buf with
      | none => trivial
      | some buf => exact Prog.throughout_record trivial fun _ => trivial

theorem cacheFileFromDisk_dialogue (file : StoredFile) :
    (cacheFileFromDisk file).Throughout record (ReaderStep file.bucket file.key) [] := by
  simp only [cacheFileFromDisk, step_eq, Prog.bind_eq, Prog.act_bind, Prog.ret_bind, Prog.pure_eq]
  refine Prog.throughout_record trivial fun found => ?_
  split
  · trivial
  · refine Prog.throughout_record trivial fun bytes => ?_
    cases bytes with
    | error e => trivial
    | ok x =>
      refine Prog.throughout_record ⟨rfl, rfl, _, file.filePath, rfl, by simp⟩ fun r => ?_
      exact Prog.throughout_bind.mpr ⟨Prog.throughout_ofExcept, fun _ _ _ => trivial⟩

end StorageManager

end LocalStorage
