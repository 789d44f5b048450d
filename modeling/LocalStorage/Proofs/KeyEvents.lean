import LocalStorage.EncryptionKeys
import LocalStorage.Proofs.Effects

namespace LocalStorage
open Lib StorageManager

/-! ## What becomes of the keys -/

/-- Every key stays, with its bytes. -/
def KeysKept (db db' : Database) : Prop :=
  ∀ id key, db.encryptionKeys.find id = some key →
    ∃ key', db'.encryptionKeys.find id = some key' ∧ key'.keyData = key.keyData

/-- All but the keys is the same. -/
structure OnlyKeys (w w' : World) : Prop where
  files : w'.db.files = w.db.files
  disk : w'.fs = w.fs
  cache : w'.cache = w.cache
  clock : w'.now = w.now
  keys : KeysKept w.db w'.db

variable {w w' : World} {u v db db' : Database}

theorem KeysKept.of_eq (h : db'.encryptionKeys = db.encryptionKeys) : KeysKept db db' :=
  fun _ key hk => ⟨key, h ▸ hk, rfl⟩

theorem KeysKept.trans (h : KeysKept u v) (h' : KeysKept v db) : KeysKept u db := by
  intro id key hk
  obtain ⟨key₁, hk₁, hd₁⟩ := h id key hk
  obtain ⟨key₂, hk₂, hd₂⟩ := h' id key₁ hk₁
  exact ⟨key₂, hk₂, hd₂.trans hd₁⟩

theorem OnlyKeys.refl (w : World) : OnlyKeys w w :=
  ⟨rfl, rfl, rfl, rfl, KeysKept.of_eq rfl⟩

namespace Database

theorem createKey_ok {keyId : String} {keyData : Bytes}
    (h : db.createKey keyId keyData = .ok db') :
    db'.files = db.files ∧ KeysKept db db' := by
  unfold createKey at h
  obtain ⟨-, -, h⟩ := except_bind_ok.mp h
  split at h
  · simp at h
  · rename_i hnew
    simp only [Except.ok.injEq] at h
    subst h
    refine ⟨rfl, fun id key hk => ⟨key, ?_, rfl⟩⟩
    rw [← hk]
    apply Table.find_put_ne
    rintro rfl
    simp [hk] at hnew

theorem deactivateKey_kept (keyId : String) : KeysKept db (db.deactivateKey keyId) := by
  intro id key hk
  refine ⟨deactivated keyId key, ?_, ?_⟩
  · simp [deactivateKey, Table.find_update, hk]
  · unfold deactivated
    split <;> rfl

/-- A key that was active stays so when another one is created. -/
theorem createKey_selectKey {id keyId : String} {keyData : Bytes} {key : EncryptionKey}
    (h : db.createKey keyId keyData = .ok db') (hkey : db.selectKey id = some key) :
    db'.selectKey id = some key := by
  obtain ⟨hfind, hactive⟩ := Option.filter_eq_some_iff.mp hkey
  unfold createKey at h
  obtain ⟨-, -, h⟩ := except_bind_ok.mp h
  split at h
  · simp at h
  · rename_i hnew
    obtain rfl := Except.ok.inj h
    have hne : id ≠ keyId := by
      rintro rfl
      simp [hfind] at hnew
    refine Option.filter_eq_some_iff.mpr ⟨?_, hactive⟩
    rw [← hfind]
    exact Table.find_put_ne hne

theorem deactivateKey_selectKey_ne {id keyId : String} (hne : id ≠ keyId) :
    (db.deactivateKey keyId).selectKey id = db.selectKey id := by
  simp only [selectKey, deactivateKey, Table.find_update]
  cases hfind : db.encryptionKeys.find id with
  | none => rfl
  | some key =>
    have hother : key.keyId ≠ keyId := by
      rw [Table.find_key hfind]
      exact hne
    simp only [Option.map_some, deactivated, if_neg hother]

end Database

/-- A key is created, or nothing happens. -/
theorem createEncryptionKey_world {algorithm keyId : String} {keyData : CipherKey} {c : Choice}
    {x : Result EncryptionKey} (h : createEncryptionKey algorithm keyId keyData c w = (x, w')) :
    w' = w ∨ ∃ db, w.db.createKey keyId keyData.val = .ok db ∧ w' = { w with db := db } := by
  unfold createEncryptionKey at h
  split at h
  · simp only [Prod.mk.injEq] at h
    exact .inl h.2.symm
  · have hworld := statement_world (c := c) (w := w) (x := w.db.createKey keyId keyData.val)
    split at h <;> rename_i hs
    all_goals
      simp only [Prod.mk.injEq] at h
      rw [hs] at hworld
      rwa [← h.2]

theorem deactivateEncryptionKey_world {keyId : String} {c : Choice} {x : Result Unit}
    (h : deactivateEncryptionKey keyId c w = (x, w')) :
    w' = w ∨ w' = { w with db := w.db.deactivateKey keyId } := by
  have hworld := statement_world (c := c) (w := w) (x := .ok (w.db.deactivateKey keyId))
  unfold deactivateEncryptionKey at h
  split at h <;> rename_i hs
  all_goals
    simp only [Prod.mk.injEq] at h
    rw [hs] at hworld
    rw [← h.2]
    cases hworld with
    | inl hw => exact .inl hw
    | inr hw =>
      obtain ⟨db, hdb, hw⟩ := hw
      obtain rfl := Except.ok.inj hdb
      exact .inr hw

theorem createEncryptionKey_onlyKeys {algorithm keyId : String} {keyData : CipherKey} {c : Choice}
    {x : Result EncryptionKey} (h : createEncryptionKey algorithm keyId keyData c w = (x, w')) :
    OnlyKeys w w' := by
  obtain rfl | ⟨db, hdb, rfl⟩ := createEncryptionKey_world h
  · exact OnlyKeys.refl w'
  · obtain ⟨hfiles, hkeys⟩ := Database.createKey_ok hdb
    exact ⟨hfiles, rfl, rfl, rfl, hkeys⟩

theorem deactivateEncryptionKey_onlyKeys {keyId : String} {c : Choice} {x : Result Unit}
    (h : deactivateEncryptionKey keyId c w = (x, w')) : OnlyKeys w w' := by
  obtain rfl | rfl := deactivateEncryptionKey_world h
  · exact OnlyKeys.refl w'
  · exact ⟨rfl, rfl, rfl, rfl, Database.deactivateKey_kept keyId⟩

/-- No call on objects changes the keys. -/
theorem Event.encryptionKeys {sm : StorageManager} {e : Event} (ht : e.Transition sm w w') :
    w'.db.encryptionKeys = w.db.encryptionKeys := by
  have hstep : ∀ c a s, s.db.encryptionKeys = w.db.encryptionKeys →
      (exec sm.host c a s).2.db.encryptionKeys = w.db.encryptionKeys := by
    intro c a s hs
    have htakes : Takes (exec sm.host) s ⟨a, (exec sm.host c a s).1⟩ (exec sm.host c a s).2 := ⟨c, rfl⟩
    exact (takes_encryptionKeys htakes).trans hs
  have hrun : ∀ {α : Type} {p : Op α} {x : Result α}, p.Runs (exec sm.host) w x w' →
      w'.db.encryptionKeys = w.db.encryptionKeys := fun hr =>
    hr.invariant (I := fun s => s.db.encryptionKeys = w.db.encryptionKeys) hstep rfl
  cases e with
  | evict gone =>
    obtain rfl := ht
    rfl
  | tick elapsed =>
    obtain rfl := ht
    rfl
  | _ => exact hrun ht

/-- A run of calls on objects is a run of the service. -/
theorem calls_run {sm : StorageManager} {P : World → Event → Prop} {P' : World → ServiceEvent → Prop} {es : List Event}
    (hp : ∀ u e, P u e → P' u (.call e)) (hrun : SystemRun sm P w es w') :
    ServiceRun sm P' w (es.map .call) w' := by
  induction hrun with
  | nil => exact .nil _
  | snoc hbefore hpe ht ih =>
    rw [List.map_append]
    exact .snoc ih (hp _ _ hpe) ht

end LocalStorage
