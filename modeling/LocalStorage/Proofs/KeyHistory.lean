import LocalStorage.Proofs.Answers
import LocalStorage.Proofs.InheritedKeys

namespace LocalStorage.Proofs.KeyHistory
open Lib StorageManager

/-! # Which keys can be used

The history of the key calls decides it: a key can be used from its creation until the call that
deactivates its id, and never again. -/

/-- The key has been created under the id, and the id not deactivated since. -/
def Usable (es : List ServiceEvent) (id : String) (key : EncryptionKey) : Prop :=
  ∃ before after algorithm,
    es = before ++ .createEncryptionKey algorithm (.ok key) :: after ∧ key.keyId = id ∧
      ServiceEvent.deactivateEncryptionKey id (.ok ()) ∉ after

/-- What the table says of the keys is what the history does. -/
structure Recorded (es : List ServiceEvent) (db : Database) : Prop where
  usable : ∀ id key, db.selectKey id = some key ↔ Usable es id key
  kept : ∀ algorithm key, ServiceEvent.createEncryptionKey algorithm (.ok key) ∈ es →
    (db.encryptionKeys.find key.keyId).isSome

variable {sm : StorageManager} {P : World → ServiceEvent → Prop} {w w' t : World}
  {es : List ServiceEvent} {e : ServiceEvent} {db db' : Database} {id keyId algorithm : String}
  {key : EncryptionKey}

/-! ## One event more -/

theorem Usable.created (h : Usable es id key) :
    ∃ algorithm, ServiceEvent.createEncryptionKey algorithm (.ok key) ∈ es ∧ key.keyId = id := by
  obtain ⟨before, after, algorithm, rfl, hid, -⟩ := h
  exact ⟨algorithm, by simp, hid⟩

theorem usable_snoc : Usable (es ++ [e]) id key ↔
    Usable es id key ∧ e ≠ .deactivateEncryptionKey id (.ok ()) ∨
      ∃ algorithm, e = .createEncryptionKey algorithm (.ok key) ∧ key.keyId = id := by
  constructor
  · rintro ⟨before, after, algorithm, hes, hid, hnever⟩
    obtain rfl | ⟨after, last, rfl⟩ := List.eq_nil_or_concat after
    · obtain ⟨-, hlast⟩ := List.append_inj' hes rfl
      exact .inr ⟨algorithm, List.singleton_inj.mp hlast, hid⟩
    · rw [List.concat_eq_append, ← List.cons_append, ← List.append_assoc] at hes
      obtain ⟨hbefore, hlast⟩ := List.append_inj' hes rfl
      obtain rfl := List.singleton_inj.mp hlast
      simp only [List.concat_eq_append, List.mem_append, List.mem_singleton, not_or] at hnever
      exact .inl ⟨⟨before, after, algorithm, hbefore, hid, hnever.1⟩, fun h => hnever.2 h.symm⟩
  · rintro (⟨⟨before, after, algorithm, rfl, hid, hnever⟩, hlast⟩ | ⟨algorithm, rfl, hid⟩)
    · refine ⟨before, after ++ [e], algorithm, by simp, hid, ?_⟩
      simp only [List.mem_append, List.mem_singleton, not_or]
      exact ⟨hnever, fun h => hlast h.symm⟩
    · exact ⟨es, [], algorithm, rfl, hid, by simp⟩

theorem Recorded.initial (hnone : db.encryptionKeys = Table.empty) : Recorded [] db where
  usable id key := by
    simp only [Database.selectKey, hnone, Table.find_empty, Option.filter_none, reduceCtorEq, false_iff]
    intro h
    obtain ⟨_, hmem, -⟩ := h.created
    simp at hmem
  kept _ _ hmem := by simp at hmem

/-- An event that neither creates nor deactivates leaves the record as it is. -/
theorem Recorded.idle (hr : Recorded es db) (hkeys : db'.encryptionKeys = db.encryptionKeys)
    (hcreated : ∀ algorithm key, e ≠ .createEncryptionKey algorithm (.ok key))
    (hdeactivated : ∀ id, e ≠ .deactivateEncryptionKey id (.ok ())) : Recorded (es ++ [e]) db' where
  usable id key := by
    rw [selectKey_congr hkeys, hr.usable, usable_snoc]
    constructor
    · exact fun h => .inl ⟨h, hdeactivated id⟩
    · rintro (⟨h, -⟩ | ⟨algorithm, he, -⟩)
      · exact h
      · exact absurd he (hcreated algorithm key)
  kept algorithm key hmem := by
    rw [hkeys]
    rcases List.mem_append.mp hmem with hmem | hmem
    · exact hr.kept algorithm key hmem
    · exact absurd (List.mem_singleton.mp hmem).symm (hcreated algorithm key)

/-- A key is inserted under an id that none had. -/
theorem createKey_cases {keyData : Bytes} (h : db.createKey keyId keyData = .ok db') :
    db.encryptionKeys.find keyId = none ∧
      db'.encryptionKeys = db.encryptionKeys.put ⟨keyId, keyData, some true⟩ := by
  unfold Database.createKey at h
  obtain ⟨-, -, h⟩ := except_bind_ok.mp h
  split at h
  · simp at h
  · rename_i hnew
    obtain rfl := Except.ok.inj h
    exact ⟨by simpa using hnew, rfl⟩

theorem Recorded.created {keyData : Bytes} (hr : Recorded es db)
    (hdb : db.createKey keyId keyData = .ok db') :
    Recorded (es ++ [.createEncryptionKey algorithm (.ok ⟨keyId, keyData, some true⟩)]) db' where
  usable id key := by
    obtain ⟨hnew, hput⟩ := createKey_cases hdb
    rw [usable_snoc]
    by_cases hid : id = keyId
    · subst hid
      have hfound : db'.encryptionKeys.find id = some ⟨id, keyData, some true⟩ := by
        rw [hput]
        exact Table.find_put_self
      -- a key that was created under the id before would still be in the table
      have hfirst : ¬ Usable es id key := by
        intro h
        obtain ⟨algorithm', hmem, hkeyId⟩ := h.created
        simpa [hkeyId, hnew] using hr.kept algorithm' key hmem
      simp only [Database.selectKey, hfound, hfirst, false_and, false_or]
      constructor
      · intro h
        obtain ⟨rfl, -⟩ : (⟨id, keyData, some true⟩ : EncryptionKey) = key ∧ _ := by simpa using h
        exact ⟨algorithm, rfl, rfl⟩
      · rintro ⟨_, he, -⟩
        obtain ⟨-, rfl⟩ : algorithm = _ ∧ _ = key := by simpa using he
        rfl
    · have hsame : db'.selectKey id = db.selectKey id := by
        have hne : db'.encryptionKeys.find id = db.encryptionKeys.find id := by
          rw [hput]
          exact Table.find_put_ne hid
        simp only [Database.selectKey, hne]
      rw [hsame, hr.usable]
      constructor
      · exact fun h => .inl ⟨h, by simp⟩
      · rintro (⟨h, -⟩ | ⟨_, he, hkeyId⟩)
        · exact h
        · obtain ⟨-, rfl⟩ : algorithm = _ ∧ _ = key := by simpa using he
          exact absurd hkeyId.symm hid
  kept algorithm' key hmem := by
    obtain ⟨-, hput⟩ := createKey_cases hdb
    rw [hput]
    by_cases hid : key.keyId = keyId
    · rw [hid]
      exact Option.isSome_of_eq_some Table.find_put_self
    · rw [Table.find_put_ne hid]
      rcases List.mem_append.mp hmem with hmem | hmem
      · exact hr.kept algorithm' key hmem
      · obtain ⟨-, rfl⟩ : algorithm' = algorithm ∧ key = _ := by simpa using hmem
        exact absurd rfl hid

theorem Recorded.deactivated (hr : Recorded es db) :
    Recorded (es ++ [.deactivateEncryptionKey keyId (.ok ())]) (db.deactivateKey keyId) where
  usable id key := by
    rw [usable_snoc]
    by_cases hid : id = keyId
    · subst hid
      have hnone : (db.deactivateKey id).selectKey id = none := by
        simp only [Database.selectKey, Database.deactivateKey, Table.find_update]
        cases hfind : db.encryptionKeys.find id with
        | none => rfl
        | some found => simp [Database.deactivated, Table.find_key hfind]
      simp [hnone]
    · rw [Database.deactivateKey_selectKey_ne hid, hr.usable]
      have hother : ServiceEvent.deactivateEncryptionKey keyId (.ok ()) ≠
          .deactivateEncryptionKey id (.ok ()) := by
        intro h
        injection h with h
        exact hid h.symm
      simp [hother]
  kept algorithm key hmem := by
    have hfound : (db.encryptionKeys.find key.keyId).isSome := by
      rcases List.mem_append.mp hmem with hmem | hmem
      · exact hr.kept algorithm key hmem
      · simp at hmem
    simpa [Database.deactivateKey, Table.find_update] using hfound

/-! ## The calls -/

/-- A creation that answers with a key has inserted it; one that fails changes nothing. -/
theorem createEncryptionKey_cases {keyData : CipherKey} {c : Choice} {x : Result EncryptionKey}
    (h : createEncryptionKey algorithm keyId keyData c w = (x, w')) :
    (∃ e, x = .error e) ∧ w' = w ∨ ∃ db, w.db.createKey keyId keyData.val = .ok db ∧
      x = .ok ⟨keyId, keyData.val, some true⟩ ∧ w' = { w with db := db } := by
  unfold createEncryptionKey at h
  split at h
  · obtain ⟨rfl, rfl⟩ := Prod.mk.inj h
    exact .inl ⟨⟨_, rfl⟩, rfl⟩
  · unfold statement at h
    cases hf : c.fault with
    | some e =>
      simp only [hf, Prod.mk.injEq] at h
      exact .inl ⟨⟨_, h.1.symm⟩, h.2.symm⟩
    | none =>
      simp only [hf] at h
      cases hdb : w.db.createKey keyId keyData.val with
      | error e =>
        simp only [hdb, Prod.mk.injEq] at h
        exact .inl ⟨⟨_, h.1.symm⟩, h.2.symm⟩
      | ok db =>
        simp only [hdb, Prod.mk.injEq] at h
        exact .inr ⟨db, rfl, h.1.symm, h.2.symm⟩

theorem deactivateEncryptionKey_cases {c : Choice} {x : Result Unit}
    (h : deactivateEncryptionKey keyId c w = (x, w')) :
    (∃ e, x = .error e) ∧ w' = w ∨ x = .ok () ∧ w' = { w with db := w.db.deactivateKey keyId } := by
  unfold deactivateEncryptionKey statement at h
  cases hf : c.fault with
  | some e =>
    simp only [hf, Prod.mk.injEq] at h
    exact .inl ⟨⟨_, h.1.symm⟩, h.2.symm⟩
  | none =>
    simp only [hf, Prod.mk.injEq] at h
    exact .inr ⟨h.1.symm, h.2.symm⟩

theorem Recorded.step (hr : Recorded es w.db) (ht : e.Transition sm w w') :
    Recorded (es ++ [e]) w'.db := by
  cases e with
  | call e => exact hr.idle (Event.encryptionKeys ht) (by simp) (by simp)
  | createEncryptionKey algorithm x =>
    obtain ⟨keyId, keyData, c, hc⟩ := ht
    obtain ⟨⟨e, rfl⟩, rfl⟩ | ⟨db, hdb, rfl, rfl⟩ := createEncryptionKey_cases hc
    · exact hr.idle rfl (by simp) (by simp)
    · exact hr.created hdb
  | deactivateEncryptionKey keyId x =>
    obtain ⟨c, hc⟩ := ht
    obtain ⟨⟨e, rfl⟩, rfl⟩ | ⟨rfl, rfl⟩ := deactivateEncryptionKey_cases hc
    · exact hr.idle rfl (by simp) (by simp)
    · exact hr.deactivated

theorem Recorded.run (hrun : ServiceRun sm P w es w') (hnone : w.db.encryptionKeys = Table.empty) :
    Recorded es w'.db := by
  induction hrun with
  | nil => exact .initial hnone
  | snoc _ _ ht ih => exact ih.step ht

/-! ## What needs a key -/

theorem decrypted_key {file : StoredFile} {raw plain : Bytes} (henc : file.encrypted = true)
    (hid : file.encryptionKeyId = some id) (hplain : sm.decrypted db file raw = .ok plain) :
    ∃ key alg, db.selectKey id = some key ∧
      CryptoManager.decryptWithKey sm.lib.toCiphers raw alg key.keyData = .ok plain := by
  simp only [decrypted, henc, hid, ↓reduceIte] at hplain
  cases halg : EncryptionAlgorithm.fromStr (file.encryptionAlgorithm.getD "aes-gcm") with
  | error e => simp [halg] at hplain
  | ok alg =>
    cases hkey : db.selectKey id with
    | none => simp [halg, hkey] at hplain
    | some key =>
      simp only [halg, hkey] at hplain
      exact ⟨key, alg, rfl, hplain⟩

/-- A read that answers has decrypted what it found. -/
theorem getFile_decrypted {b k : String} {file : StoredFile} {y : Bytes × Option String}
    (hfile : recordOf w b k = some file) (hr : (sm.getFile b k).Runs (exec sm.host) w (.ok y) t) :
    ∃ raw plain, rawOf sm.host w b k file = some raw ∧
      sm.decrypted w.db file raw = .ok plain := by
  have hread := getFile_ok hr
  simp only [readResult, hfile] at hread
  cases hpast : past w.now file.expiresAt with
  | true => simp [hpast] at hread
  | false =>
    cases hraw : rawOf sm.host w b k file with
    | none => simp [hpast, hraw] at hread
    | some raw =>
      cases hplain : sm.decrypted w.db file raw with
      | error e => simp [hpast, hraw, decoded, hplain, Except.map] at hread
      | ok plain => exact ⟨raw, plain, rfl, hplain⟩

/-- At any moment the keys that can be used are those that the history of the key calls leaves
usable. A record under a key is read, and new content encrypted under one, with the bytes of
such a key only: once an id is deactivated its objects are unreadable and it takes no more. -/
theorem keys_follow_history (hrun : ServiceRun sm P w es w')
    (hnone : w.db.encryptionKeys = Table.empty) :
    (∀ id key, w'.db.selectKey id = some key ↔ Usable es id key) ∧
      (∀ b k file id y t, recordOf w' b k = some file → file.encrypted = true →
        file.encryptionKeyId = some id → (sm.getFile b k).Runs (exec sm.host) w' (.ok y) t →
        ∃ key alg raw plain, Usable es id key ∧ rawOf sm.host w' b k file = some raw ∧
          CryptoManager.decryptWithKey sm.lib.toCiphers raw alg key.keyData = .ok plain) ∧
      ∀ b k content ct opts id f t, opts.encryptionKeyId = some id → sm.shouldEncrypt opts = true →
        (∀ g ∈ w'.db.files, g.hashBlake3 ≠ sm.lib.blake3 content) →
        (sm.storeFile b k content ct opts).Runs (exec sm.host) w' (.ok f) t →
        ∃ key alg nonce stored, Usable es id key ∧ t.bytesAt sm.host f.filePath = some stored ∧
          CryptoManager.encryptWithKey sm.lib.toCiphers (sm.compressStage opts content).1 alg
            key.keyData nonce = .ok stored := by
  have hrecorded := Recorded.run hrun hnone
  refine ⟨hrecorded.usable, ?_, ?_⟩
  · intro b k file id y t hfile henc hid hr
    obtain ⟨raw, plain, hraw, hplain⟩ := getFile_decrypted hfile hr
    obtain ⟨key, alg, hkey, hopened⟩ := decrypted_key henc hid hplain
    exact ⟨key, alg, raw, plain, (hrecorded.usable id key).mp hkey, hraw, hopened⟩
  · intro b k content ct opts id f t hid hencrypt hnew hr
    have houtcome : StoreOutcome sm b k content ct opts w' t (.ok f) := storeFile_spec _ _ hr
    cases houtcome with
    | identical _ hmem _ hhash => exact absurd hhash (hnew f hmem)
    | aliased existing _ _ hmem _ hhash => exact absurd hhash (hnew existing hmem)
    | fresh stored enc _ _ _ hsealed hwritten =>
      simp only [EncryptedAs, hencrypt, hid, ↓reduceIte] at hsealed
      obtain ⟨-, alg, nonce, -, key, hkey, hout⟩ := hsealed
      exact ⟨key, alg, nonce, stored, (hrecorded.usable id key).mp hkey, hwritten.bytesAt, hout⟩

/-! ## One key -/

open Sample (cipherKey)

/-- The key K is created, and deactivated. -/
theorem key_comes_and_goes :
    Usable [.createEncryptionKey "aes-gcm" InheritedKeys.created.1] "K"
        ⟨"K", cipherKey.val, some true⟩ ∧
      ¬ Usable [.createEncryptionKey "aes-gcm" InheritedKeys.created.1,
        .deactivateEncryptionKey "K" (.ok ())] "K" ⟨"K", cipherKey.val, some true⟩ := by
  have hcreate : ServiceRun InheritedKeys.service (fun _ _ => True) World.empty
      [.createEncryptionKey "aes-gcm" InheritedKeys.created.1] InheritedKeys.created.2 :=
    .snoc (.nil _) trivial ⟨"K", cipherKey, calm, rfl⟩
  have hgone : ServiceRun InheritedKeys.service (fun _ _ => True) World.empty
      [.createEncryptionKey "aes-gcm" InheritedKeys.created.1, .deactivateEncryptionKey "K" (.ok ())]
      (InheritedKeys.deactivated InheritedKeys.created.2).2 :=
    hcreate.snoc trivial ⟨calm, rfl⟩
  constructor
  · exact ((keys_follow_history hcreate rfl).1 _ _).mp (by decide)
  · intro h
    have hsome := ((keys_follow_history hgone rfl).1 _ _).mpr h
    revert hsome
    decide

end LocalStorage.Proofs.KeyHistory
