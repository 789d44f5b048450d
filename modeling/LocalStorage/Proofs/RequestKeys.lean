import LocalStorage.Handlers
import LocalStorage.Proofs.Answers
import LocalStorage.Proofs.Deletion
import LocalStorage.Proofs.Vocabulary
import LocalStorage.Sample

namespace LocalStorage.Proofs.RequestKeys
open Lib Lib.Text StorageManager

/-! # The key a request is about -/

def EndsInInfo (path : String) : Prop := infoSuffix.toList <:+ path.toList

/-- The object under a key: a live row whose bytes decode. -/
structure Holds (sm : StorageManager) (w : World) (b k : String) (content : Bytes)
    (contentType : String) : Prop where
  object : ∃ file raw, w.db.files.find (b, k) = some file ∧
    past w.now file.expiresAt = false ∧ w.bytesAt sm.host file.filePath = some raw ∧
    sm.decoded w.db file raw = .ok content ∧ file.contentType = contentType

def noContent : HttpResponse := ⟨204, [], .empty⟩

def whole (content : Bytes) (contentType : String) : HttpResponse :=
  ⟨200, [("content-type", contentType), ("accept-ranges", "bytes")], .bytes content⟩

def described (file : StoredFile) : HttpResponse :=
  ⟨200, [("content-type", "application/json")], .json (FileInfo.ofStored file)⟩

section Requests
variable (st : AppState) (headers : HeaderMap) (w : World) (b path k : String)

/-- `DELETE path` removes the object of the key and no other: it can take no other step, an
answer means that its row and what only this row refers to are gone, a refusal that nothing
is, and it is answered when the table lets go of the row. -/
structure Deletes : Prop where
  steps : (fileRoute st .delete b path headers).Uses (DeleteStep b k)
  removes : (fileRoute st .delete b path headers).Ensures (exec st.storage.host)
    (fun x t => match x with
      | .ok response => response = noContent ∧ ∃ file, Deleted st.storage.host b k file w t
      | .error _ => t = w) w
  answers : ∀ file db, w.db.files.find (b, k) = some file → w.db.deleteFileRow b k = .ok db →
    ((fileRoute st .delete b path headers).eval (exec st.storage.host) calm w).1 = .ok noContent

/-- `GET path` is a read of the key, and without a range it answers the whole content. -/
structure Serves : Prop where
  steps : (fileRoute st .get b path headers).Uses (ReadStep b k)
  content : headers.text "range" = none → ∀ response t,
    (fileRoute st .get b path headers).Runs (exec st.storage.host) w (.ok response) t →
    ∃ content contentType, readResult st.storage w b k = .ok (content, some contentType) ∧
      response = whole content contentType
  answers : headers.text "range" = none → requireDownloadToken st headers (some b) = .ok () →
    Coherent st.storage.host w b k → ∀ content contentType,
    Holds st.storage w b k content contentType → isHeaderValue contentType = true →
    ((fileRoute st .get b path headers).eval (exec st.storage.host) calm w).1 =
      .ok (whole content contentType)

/-- `GET path` answers the metadata of the row. -/
structure Describes : Prop where
  steps : (fileRoute st .get b path headers).Uses (ReadStep b k)
  info : ∀ response t,
    (fileRoute st .get b path headers).Runs (exec st.storage.host) w (.ok response) t →
    ∃ file, w.db.files.find (b, k) = some file ∧ response = described file
  answers : requireDownloadToken st headers (some b) = .ok () →
    ∀ file, w.db.files.find (b, k) = some file → past w.now file.expiresAt = false →
    ((fileRoute st .get b path headers).eval (exec st.storage.host) calm w).1 = .ok (described file)

/-- The three requests for a key are about that key. -/
structure KeepsToKey : Prop where
  deletes : Deletes st headers w b k k
  serves : Serves st headers w b k k
  describes : Describes st headers w b (k ++ infoSuffix) k

end Requests

variable {st : AppState} {headers : HeaderMap} {w : World} {b path k : String}

/-! ## Paths -/

theorem infoSuffix_ne_nil : infoSuffix.toList ≠ [] := by decide

theorem trimInfo_of_not (hk : ¬ EndsInInfo k) : trimInfo k = k := by
  rw [trimInfo, trimEndMatches_of_not_suffix hk, String.ofList_toList]

theorem trimInfo_append (hk : ¬ EndsInInfo k) : trimInfo (k ++ infoSuffix) = k := by
  rw [trimInfo, String.toList_append, trimEndMatches_append infoSuffix_ne_nil hk,
    String.ofList_toList]

theorem append_infoSuffix_ne : k ++ infoSuffix ≠ "" := by
  intro h
  have hlist := congrArg String.toList h
  rw [String.toList_append, String.toList_empty, List.append_eq_nil_iff] at hlist
  exact infoSuffix_ne_nil hlist.2

theorem fileRoute_delete (hb : b ≠ "") (hpath : path ≠ "") (htrim : trimInfo path = k) :
    fileRoute st .delete b path headers = (deleteFile b k).bind fun _ => .ret noContent := by
  simp only [fileRoute, hb, hpath, or_self, ↓reduceIte, handleFileDelete, htrim]
  rfl

theorem handleFileRequest_file (hend : ¬ EndsInInfo path) :
    handleFileRequest st b path headers =
      (Prog.ofExcept (requireDownloadToken st headers (some b))).bind fun _ =>
        downloadFile st.storage b path (headers.text "range") := by
  have hinfo : infoSuffix.toList.isSuffixOf path.toList = false := by
    rw [← Bool.not_eq_true, List.isSuffixOf_iff_suffix]
    exact hend
  simp only [handleFileRequest, hinfo, Bool.false_eq_true, ↓reduceIte, Prog.bind_eq]

theorem handleFileRequest_info (hend : EndsInInfo path) :
    handleFileRequest st b path headers =
      (Prog.ofExcept (requireDownloadToken st headers (some b))).bind fun _ =>
        (getFileInfo b (trimInfo path)).bind fun info =>
          .ret ⟨200, [("content-type", "application/json")], .json info⟩ := by
  have hinfo : infoSuffix.toList.isSuffixOf path.toList = true := List.isSuffixOf_iff_suffix.mpr hend
  simp only [handleFileRequest, hinfo, ↓reduceIte, Prog.bind_eq, Prog.pure_eq]

theorem fileRoute_get (hb : b ≠ "") (hpath : path ≠ "") :
    fileRoute st .get b path headers = handleFileRequest st b path headers := by
  simp only [fileRoute, hb, hpath, or_self, ↓reduceIte]

theorem fileRoute_file (hb : b ≠ "") (hk : k ≠ "") (hend : ¬ EndsInInfo k) :
    fileRoute st .get b k headers =
      (Prog.ofExcept (requireDownloadToken st headers (some b))).bind fun _ =>
        downloadFile st.storage b k (headers.text "range") :=
  (fileRoute_get hb hk).trans (handleFileRequest_file hend)

theorem fileRoute_info (hb : b ≠ "") (hend : ¬ EndsInInfo k) :
    fileRoute st .get b (k ++ infoSuffix) headers =
      (Prog.ofExcept (requireDownloadToken st headers (some b))).bind fun _ =>
        (getFileInfo b k).bind fun info =>
          .ret ⟨200, [("content-type", "application/json")], .json info⟩ := by
  have hpath : EndsInInfo (k ++ infoSuffix) := by
    rw [EndsInInfo, String.toList_append]
    exact List.suffix_append _ _
  rw [fileRoute_get hb append_infoSuffix_ne, handleFileRequest_info hpath, trimInfo_append hend]

/-! ## Deletions -/

theorem eval_deleteFile {h : Host} {file : StoredFile} {db : Database}
    (hrow : w.db.files.find (b, k) = some file) (hdb : w.db.deleteFileRow b k = .ok db) :
    ((deleteFile b k).eval (exec h) calm w).1 = .ok () := by
  simp only [deleteFile, step_eq, Prog.bind_eq, Prog.act_bind, Prog.ret_bind, Prog.pure_eq,
    Prog.eval, exec, answer, calm, Database.selectFile, hrow, Option.map_some, ofSqlx_ok, statement,
    hdb]
  split <;> rfl

theorem deletes (hb : b ≠ "") (hpath : path ≠ "") (htrim : trimInfo path = k) :
    Deletes st headers w b path k where
  steps := by
    rw [fileRoute_delete hb hpath htrim]
    exact Prog.Uses.bind deleteFile_steps fun _ => trivial
  removes := by
    rw [fileRoute_delete hb hpath htrim, Prog.ensures_bind]
    refine deleteFile_spec.mono fun x t hx => ?_
    cases x with
    | ok u => exact Prog.ensures_ret.mpr ⟨rfl, hx⟩
    | error e => exact hx
  answers := by
    intro file db hrow hdb
    have hdeleted := eval_deleteFile (h := st.storage.host) hrow hdb
    rw [fileRoute_delete hb hpath htrim, Prog.eval_bind]
    generalize (deleteFile b k).eval (exec st.storage.host) calm w = out at hdeleted
    obtain ⟨x, t⟩ := out
    obtain rfl : x = .ok () := hdeleted
    rfl

/-! ## Downloads -/

theorem rangeRequest_steps (value : String) :
    (rangeRequest st.storage b k value).Uses (ReadStep b k) := by
  simp only [rangeRequest, Prog.bind_eq, Prog.pure_eq]
  refine Prog.Uses.bind getFileInfo_steps.attempt fun info => ?_
  cases info with
  | error e => trivial
  | ok info =>
    dsimp only
    split
    · rename_i start stop _
      refine Prog.Uses.bind (getFileRangeIfPlain_steps start stop).attempt fun plain => ?_
      split
      · exact Prog.Uses.bind (Prog.uses_ofExcept _) fun _ => trivial
      · refine Prog.Uses.bind (getCompressedFileRange_steps start stop).attempt fun packed => ?_
        split
        · exact Prog.Uses.bind (Prog.uses_ofExcept _) fun _ => trivial
        · trivial
    · split
      · split
        · trivial
        · exact Prog.Uses.bind (Prog.uses_ofExcept _) fun _ => trivial
      · trivial

theorem downloadFile_steps (range : Option String) :
    (downloadFile st.storage b k range).Uses (ReadStep b k) := by
  simp only [downloadFile, Prog.bind_eq, Prog.pure_eq]
  refine Prog.Uses.bind ?_ fun early => ?_
  · cases range with
    | none => trivial
    | some value => exact rangeRequest_steps value
  · cases early with
    | some response => trivial
    | none => exact Prog.Uses.bind getFile_steps fun _ => Prog.uses_ofExcept _

theorem downloadFile_whole {sm : StorageManager} : downloadFile sm b k none =
    (sm.getFile b k).bind fun y => Prog.ofExcept (fullContent y.1 y.2 none) := rfl

theorem fullContent_none (content : Bytes) (contentType : String) :
    fullContent content (some contentType) none =
      (headerValue contentType "Invalid content type").map (whole content) := by
  unfold fullContent
  cases h : headerValue contentType "Invalid content type" with
  | error e => simp [h, bind, Except.bind, Except.map]
  | ok value => simp [h, bind, Except.bind, Except.map, pure, Except.pure, whole]

theorem fullContent_eq_ok {content : Bytes} {contentType : String} {response : HttpResponse} :
    fullContent content (some contentType) none = .ok response ↔
      isHeaderValue contentType = true ∧ response = whole content contentType := by
  rw [fullContent_none]
  cases h : headerValue contentType "Invalid content type" with
  | error e =>
    have hinvalid : isHeaderValue contentType ≠ true := by
      intro hvalid
      rw [headerValue_eq_ok.mpr ⟨hvalid, rfl⟩] at h
      simp at h
    simp [hinvalid, Except.map]
  | ok value =>
    obtain ⟨hvalid, rfl⟩ := headerValue_eq_ok.mp h
    simp [hvalid, Except.map, eq_comm]

theorem readResult_contentType {sm : StorageManager} {y : Bytes × Option String}
    (h : readResult sm w b k = .ok y) : ∃ contentType, y.2 = some contentType := by
  unfold readResult at h
  split at h
  · simp at h
  · rename_i file _
    split at h
    · simp at h
    · split at h
      · simp at h
      · rename_i raw _
        cases hdecoded : sm.decoded w.db file raw with
        | error e => simp [hdecoded, Except.map] at h
        | ok content =>
          simp only [hdecoded, Except.map, Except.ok.injEq] at h
          exact ⟨file.contentType, h ▸ rfl⟩

/-- A coherent cache does not stand between a read and the object. -/
theorem served_of_holds {sm : StorageManager} {content : Bytes} {contentType : String}
    (hc : Coherent sm.host w b k) (h : Holds sm w b k content contentType) :
    served sm w b k = .ok (content, some contentType) := by
  obtain ⟨file, raw, hrow, hlive, hraw, hdecoded, rfl⟩ := h.object
  have hcold : served sm w.cold b k = .ok (content, some file.contentType) := by
    rw [served_of_record (w := w.cold) hrow hlive hraw]
    have hdb : w.cold.db = w.db := rfl
    rw [hdb, hdecoded]
    rfl
  rw [hc.served_cold, hcold]

theorem eval_downloadFile {sm : StorageManager} {content : Bytes} {contentType : String}
    (hserved : served sm w b k = .ok (content, some contentType))
    (hvalid : isHeaderValue contentType = true) :
    ((downloadFile sm b k none).eval (exec sm.host) calm w).1 = .ok (whole content contentType) := by
  rw [downloadFile_whole, Prog.eval_bind]
  unfold served at hserved
  generalize (sm.getFile b k).eval (exec sm.host) calm w = out at hserved
  obtain ⟨x, t⟩ := out
  obtain rfl : x = .ok (content, some contentType) := hserved
  simp only [fullContent_eq_ok.mpr ⟨hvalid, rfl⟩]
  rfl

theorem serves (hb : b ≠ "") (hk : k ≠ "") (hend : ¬ EndsInInfo k) : Serves st headers w b k k where
  steps := by
    rw [fileRoute_file hb hk hend]
    exact Prog.Uses.bind (Prog.uses_ofExcept _) fun _ => downloadFile_steps _
  content := by
    intro hrange response t hrun
    rw [fileRoute_file hb hk hend, hrange, downloadFile_whole] at hrun
    obtain ⟨_, u, hallowed, hrun₁⟩ := Prog.runs_bind_ok.mp hrun
    obtain ⟨-, rfl⟩ := Prog.runs_ofExcept.mp hallowed
    obtain ⟨y, v, hread, hfull⟩ := Prog.runs_bind_ok.mp hrun₁
    obtain ⟨hfull, -⟩ := Prog.runs_ofExcept.mp hfull
    have hresult := getFile_ok hread
    obtain ⟨contentType, htype⟩ := readResult_contentType hresult
    obtain ⟨content, type⟩ := y
    obtain rfl : type = some contentType := htype
    exact ⟨content, contentType, hresult, (fullContent_eq_ok.mp hfull.symm).2⟩
  answers := by
    intro hrange hallowed hc content contentType hholds hvalid
    rw [fileRoute_file hb hk hend, hrange, hallowed, Prog.ofExcept_ok, Prog.ret_bind]
    exact eval_downloadFile (served_of_holds hc hholds) hvalid

/-! ## Metadata -/

theorem getFileInfo_ok {h : Host} {info : FileInfo} {t : World}
    (hr : (getFileInfo b k).Runs (exec h) w (.ok info) t) :
    ∃ file, w.db.files.find (b, k) = some file ∧ past w.now file.expiresAt = false ∧
      info = FileInfo.ofStored file := by
  simp only [getFileInfo, Prog.bind_eq, Prog.pure_eq] at hr
  obtain ⟨file, u, hfile, hr₁⟩ := Prog.runs_bind_ok.mp hr
  obtain ⟨hrow, rfl⟩ := dbGetFile_ok hfile
  obtain ⟨_, v, hexpire, hr₂⟩ := Prog.runs_bind_ok.mp hr₁
  obtain ⟨hinfo, -⟩ := Prog.runs_ret.mp hr₂
  exact ⟨file, hrow, (expireFile_ok hexpire).1, Except.ok.inj hinfo⟩

theorem eval_getFileInfo {h : Host} {file : StoredFile} (hrow : w.db.files.find (b, k) = some file)
    (hlive : past w.now file.expiresAt = false) :
    (getFileInfo b k).eval (exec h) calm w = (.ok (FileInfo.ofStored file), w) := by
  obtain ⟨u, hu, hsame⟩ := eval_expireFile (h := h) (w := w) (b := b) (k := k) file
  obtain rfl := hsame hlive
  simp only [getFileInfo, dbGetFile, step_eq, Prog.bind_eq, Prog.act_bind, Prog.ret_bind,
    Prog.pure_eq, Prog.eval_bind, Prog.eval, exec, answer, calm, Database.selectFile, hrow, ofSqlx_ok]
  rw [hlive] at hu
  have heval : (expireFile b k file).eval (exec h) calm u = (.ok (), u) := by simpa using hu
  simp only [calm] at heval
  rw [heval]

theorem describes (hb : b ≠ "") (hend : ¬ EndsInInfo k) :
    Describes st headers w b (k ++ infoSuffix) k where
  steps := by
    rw [fileRoute_info hb hend]
    refine Prog.Uses.bind (Prog.uses_ofExcept _) fun _ => ?_
    exact Prog.Uses.bind getFileInfo_steps fun _ => trivial
  info := by
    intro response t hrun
    rw [fileRoute_info hb hend] at hrun
    obtain ⟨_, u, hallowed, hrun₁⟩ := Prog.runs_bind_ok.mp hrun
    obtain ⟨-, rfl⟩ := Prog.runs_ofExcept.mp hallowed
    obtain ⟨info, v, hinfo, hrun₂⟩ := Prog.runs_bind_ok.mp hrun₁
    obtain ⟨file, hrow, -, rfl⟩ := getFileInfo_ok hinfo
    obtain ⟨hresponse, -⟩ := Prog.runs_ret.mp hrun₂
    exact ⟨file, hrow, Except.ok.inj hresponse⟩
  answers := by
    intro hallowed file hrow hlive
    rw [fileRoute_info hb hend, hallowed, Prog.ofExcept_ok, Prog.ret_bind, Prog.eval_bind,
      eval_getFileInfo hrow hlive]
    rfl

/-! ## The requests together -/

/-- Every key that does not end in the info suffix is addressed exactly by its own path, and
its deletion by the path of its metadata too. -/
theorem requests_keep_to_key (st : AppState) (headers : HeaderMap) (w : World) {b k : String}
    (hb : b ≠ "") (hend : ¬ EndsInInfo k) :
    (k ≠ "" → KeepsToKey st headers w b k) ∧
      Describes st headers w b (k ++ infoSuffix) k ∧ Deletes st headers w b (k ++ infoSuffix) k := by
  have hdescribes : Describes st headers w b (k ++ infoSuffix) k := describes hb hend
  refine ⟨fun hk => ?_, hdescribes, deletes hb append_infoSuffix_ne (trimInfo_append hend)⟩
  exact ⟨deletes hb hk (trimInfo_of_not hend), serves hb hk hend, hdescribes⟩

/-! ## A key that ends in the info suffix -/

open Sample (manager)

def state : AppState := ⟨manager, none, none⟩

/-- `a/x` and `a/x/info` share their bytes. -/
def both : World :=
  (replay manager [(.storeFile "a" "x" [120] none {} (.error (.io "")), { uuid := 1 }),
    (.storeFile "a" "x/info" [120] none {} (.error (.io "")), { uuid := 2 })] ([], World.empty)).2

theorem requests_keep_to_plain_key :
    ("x" ≠ "" → KeepsToKey state [] both "a" "x") ∧
      Describes state [] both "a" ("x" ++ infoSuffix) "x" ∧
      Deletes state [] both "a" ("x" ++ infoSuffix) "x" :=
  requests_keep_to_key state [] both (by decide) (by unfold EndsInInfo; decide)

/-- A deletion by its own path takes the other object, and a download answers the metadata
of the other one. -/
theorem info_key_misread :
    (∃ es, SystemRun manager (fun _ _ => True) World.empty es both) ∧
    (both.db.files.find ("a", "x/info")).isSome = true ∧
    ¬ KeepsToKey state [] both "a" "x/info" ∧
    (let t := (fileRoute state .delete "a" "x/info" []).eval (exec manager.host) calm both
     t.1 = .ok noContent ∧ t.2.db.files.find ("a", "x") = none ∧
      (t.2.db.files.find ("a", "x/info")).isSome = true) ∧
    ∃ file, both.db.files.find ("a", "x") = some file ∧
      ((fileRoute state .get "a" "x/info" []).eval (exec manager.host) calm both).1 =
        .ok (described file) := by
  have hgone : let t := (fileRoute state .delete "a" "x/info" []).eval (exec manager.host) calm both
      t.1 = .ok noContent ∧ t.2.db.files.find ("a", "x") = none ∧
        (t.2.db.files.find ("a", "x/info")).isSome = true := by decide
  refine ⟨⟨_, replay_run (.nil _) ⟨trivial, trivial, trivial⟩⟩, by decide, ?_, hgone, ?_⟩
  · intro hkeeps
    have hrun : (fileRoute state .delete "a" "x/info" []).Runs (exec manager.host) both _ _ :=
      Prog.eval_runs calm _ _
    rw [hgone.1] at hrun
    obtain ⟨-, file, hdeleted⟩ := hkeeps.deletes.removes _ _ hrun
    have hleft := hgone.2.2
    rw [hdeleted.files, Table.find_erase_self] at hleft
    simp at hleft
  · have hinfo : (both.db.files.find ("a", "x")).any (fun file =>
        ((fileRoute state .get "a" "x/info" []).eval (exec manager.host) calm both).1 =
          .ok (described file)) = true := by decide
    obtain ⟨file, hrow, hanswer⟩ := (Option.any_eq_true _ _).mp hinfo
    exact ⟨file, hrow, by simpa using hanswer⟩

end LocalStorage.Proofs.RequestKeys
