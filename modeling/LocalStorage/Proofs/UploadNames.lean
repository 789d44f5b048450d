import LocalStorage.Proofs.Signatures
import LocalStorage.Proofs.UriEncoding

namespace LocalStorage.Proofs.UploadNames
open Lib Lib.Text Signatures

/-! # The name a client gives an upload -/

variable {text : TextLibrary} {headers : HeaderMap} {key : String} {s : List Char}

/-- What `encodeURIComponent` lets pass. -/
def unescaped (c : Char) : Bool :=
  c.isAlphanum || decide (c ∈ ['-', '_', '.', '!', '~', '*', '\'', '(', ')'])

/-- `encodeURIComponent`, on text without lone surrogates. -/
def encodeURIComponent (key : List Char) : List Char :=
  key.flatMap fun c =>
    if unescaped c then [c]
    else (String.utf8EncodeChar c).flatMap fun byte => '%' :: (hexEncode [byte]).map Char.toUpper

def dispositionStart : List Char := "attachment; filename=\"".toList

/-- The header `Content-Disposition` of `uploadFile` in the web client. -/
def clientDisposition (key : String) : List Char :=
  dispositionStart ++ encodeURIComponent key.toList ++ ['"']

theorem keepable_unescaped : Keepable unescaped := by
  intro c h
  simp only [unescaped, Bool.or_eq_true, decide_eq_true_eq] at h
  rcases h with h | h
  · refine ⟨Nat.lt_of_le_of_lt (UriEncoding.isAlphanum_bounds h).2 (by decide), ?_⟩
    rintro rfl
    exact absurd h (by decide)
  · have hmarks : ∀ c ∈ ['-', '_', '.', '!', '~', '*', '\'', '(', ')'], c.toNat < 128 ∧ c ≠ '%' := by
      decide
    exact hmarks c h

/-- Character by character it is byte by byte. -/
theorem encodeURIComponent_eq (s : List Char) :
    encodeURIComponent s = percentEncode unescaped (asBytes s) := by
  unfold encodeURIComponent percentEncode asBytes
  rw [List.flatMap_assoc]
  congr 1
  funext c
  by_cases hc : c.toNat < 128
  · rw [utf8EncodeChar_of_lt hc]
    simp only [List.flatMap_cons, List.flatMap_nil, List.append_nil, ofUInt8_ofNat hc]
  · have hnot : unescaped c = false := by
      rw [Bool.eq_false_iff]
      intro h
      exact hc (keepable_unescaped c h).1
    rw [if_neg (by rw [hnot]; decide)]
    apply List.flatMap_congr
    intro byte hbyte
    have hlarge := ge_of_mem_utf8EncodeChar (Nat.le_of_not_lt hc) hbyte
    rw [if_neg]
    intro h
    have hsmall : (Char.ofUInt8 byte).toNat < 128 := (keepable_unescaped _ h).1
    have hvalue : (Char.ofUInt8 byte).toNat = byte.toNat := rfl
    omega

theorem urlDecode_encodeURIComponent (s : List Char) : urlDecode (encodeURIComponent s) = some s := by
  rw [encodeURIComponent_eq]
  exact urlDecode_percentEncode keepable_unescaped s

/-! ## What is encoded can be sent and found again -/

theorem visible_of_mem {c : Char} (h : c ∈ encodeURIComponent s) : Visible c := by
  rw [encodeURIComponent_eq] at h
  rcases mem_percentEncode h with hkept | rfl | ⟨n, hn, rfl⟩
  · simp only [unescaped, Bool.or_eq_true, decide_eq_true_eq] at hkept
    rcases hkept with hletter | hmark
    · have hbounds := UriEncoding.isAlphanum_bounds hletter
      exact .inl (by omega)
    · have hmarks : ∀ c ∈ ['-', '_', '.', '!', '~', '*', '\'', '(', ')'], Visible c := by decide
      exact hmarks c hmark
  · decide
  · have hdigits : ∀ n : Fin 16, Visible (Nat.digitChar n.val).toUpper := by decide
    exact hdigits ⟨n, hn⟩

theorem quote_not_mem (s : List Char) : '"' ∉ encodeURIComponent s := by
  rw [encodeURIComponent_eq]
  exact not_mem_percentEncode (by decide) (by decide) (by decide)

theorem equals_not_mem (s : List Char) : '=' ∉ encodeURIComponent s := by
  rw [encodeURIComponent_eq]
  exact not_mem_percentEncode (by decide) (by decide) (by decide)

/-- A start of unescaped letters is one of the text itself. -/
theorem prefix_encode_iff {start : List Char} (hstart : ∀ c ∈ start, unescaped c = true) :
    start <+: encodeURIComponent s ↔ start <+: s := by
  induction start generalizing s with
  | nil => simp
  | cons c start ih =>
    obtain ⟨hc, hrest⟩ := List.forall_mem_cons.mp hstart
    have hpercent := (keepable_unescaped c hc).2
    cases s with
    | nil => simp [encodeURIComponent]
    | cons d s =>
      have hcons : encodeURIComponent (d :: s) = (if unescaped d then [d]
          else (String.utf8EncodeChar d).flatMap fun byte =>
            '%' :: (hexEncode [byte]).map Char.toUpper) ++ encodeURIComponent s := rfl
      rw [hcons, List.cons_prefix_cons]
      by_cases hd : unescaped d = true
      · rw [if_pos hd, List.singleton_append, List.cons_prefix_cons, ih hrest]
      · rw [if_neg hd]
        have hne : c ≠ d := by
          rintro rfl
          exact hd hc
        simp only [hne, false_and, iff_false]
        have hbytes : String.utf8EncodeChar d ≠ [] := String.utf8EncodeChar_ne_nil
        obtain ⟨byte, bytes, hbytes⟩ := List.exists_cons_of_ne_nil hbytes
        rw [hbytes, List.flatMap_cons, List.cons_append, List.cons_append, List.cons_prefix_cons]
        exact fun h => hpercent h.1

/-- The part of the header after `filename=`, without its quotes. -/
theorem unquoted_part (s : List Char) :
    unquoted (trim ('"' :: (encodeURIComponent s ++ ['"']))) = encodeURIComponent s := by
  have htrim : trim ('"' :: (encodeURIComponent s ++ ['"'])) = '"' :: (encodeURIComponent s ++ ['"']) := by
    apply trim_eq_self
    · intro c hc
      obtain rfl : '"' = c := by simpa using hc
      decide
    · intro c hc
      rw [← List.cons_append, List.getLast?_concat] at hc
      obtain rfl : '"' = c := by simpa using hc
      decide
  rw [htrim, unquoted, upTo, splitOnce_eq_some.mpr ⟨rfl, quote_not_mem s⟩]
  rfl

/-- The name that `text` documents for its decoder. -/
def Documented (text : TextLibrary) : Prop := ∀ s, text.urlDecode s = urlDecode s

/-- The header the client sends for a key. -/
def SentFor (headers : HeaderMap) (key : String) : Prop :=
  (headers.find? (·.1 = "content-disposition")).map Prod.snd = some (asBytes (clientDisposition key))

theorem extract_sent (hsent : SentFor headers key) :
    extractFilenameFromContentDisposition text headers =
      match stripPrefix "UTF-8''".toList (encodeURIComponent key.toList) with
      | some encoded => (text.urlDecode encoded).map String.ofList
      | none => some (String.ofList ((text.urlDecode (encodeURIComponent key.toList)).getD
          (encodeURIComponent key.toList))) := by
  have hvisible : ∀ c ∈ clientDisposition key, Visible c := by
    intro c hc
    simp only [clientDisposition, List.mem_append, List.mem_singleton] at hc
    rcases hc with (hstart | hkey) | rfl
    · have hstarts : ∀ c ∈ dispositionStart, Visible c := by decide
      exact hstarts c hstart
    · exact visible_of_mem hkey
    · decide
  have hsplit : splitAtText "filename=".toList (clientDisposition key) =
      some ("attachment; ".toList, '"' :: (encodeURIComponent key.toList ++ ['"'])) := by
    have hstart : dispositionStart = "attachment; ".toList ++ ('f' :: "ilename=".toList ++ ['"']) := by
      decide
    have hname : "filename=".toList = 'f' :: "ilename=".toList := by decide
    have hbefore : 'f' ∉ "attachment; ".toList := by decide
    rw [clientDisposition, hstart, hname, ← splitAtText_append hbefore]
    congr 1
  have hone : splitAtText "filename=".toList ('"' :: (encodeURIComponent key.toList ++ ['"'])) =
      none := by
    apply splitAtText_none (show '=' ∈ "filename=".toList by decide)
    simp [equals_not_mem]
  have htext : headerText (asBytes (clientDisposition key)) =
      some (String.ofList (clientDisposition key)) := headerText_asBytes.mpr ⟨hvisible, rfl⟩
  have hvalue : (headers.find? (·.1 = "content-disposition")).map Prod.snd =
      some (asBytes (clientDisposition key)) := hsent
  cases hstrip : stripPrefix "UTF-8''".toList (encodeURIComponent key.toList) <;>
    simp only [extractFilenameFromContentDisposition, hvalue, htext, hsplit, hone, unquoted_part,
      hstrip, Option.bind_eq_bind, Option.bind_some, Option.map_some, Option.map_none,
      Option.getD_some, Option.getD_none, String.toList_ofList]

/-- The prefix of the extended notation. -/
def Extended (key : String) : Prop := "UTF-8''".toList <+: key.toList

theorem encode_append (s t : List Char) :
    encodeURIComponent (s ++ t) = encodeURIComponent s ++ encodeURIComponent t := by
  simp [encodeURIComponent]

theorem extract_of_extended (hdoc : Documented text) (hsent : SentFor headers key) {rest : List Char}
    (hkey : key.toList = "UTF-8''".toList ++ rest) :
    extractFilenameFromContentDisposition text headers = some (String.ofList rest) := by
  have hstart : encodeURIComponent "UTF-8''".toList = "UTF-8''".toList := by decide
  have hstrip : stripPrefix "UTF-8''".toList (encodeURIComponent key.toList) =
      some (encodeURIComponent rest) := by
    rw [stripPrefix_eq_some, hkey, encode_append, hstart]
  rw [extract_sent hsent, hstrip]
  simp only [hdoc _, urlDecode_encodeURIComponent, Option.map_some]

theorem extract_of_not_extended (hdoc : Documented text) (hsent : SentFor headers key)
    (hkey : ¬ Extended key) : extractFilenameFromContentDisposition text headers = some key := by
  have hstrip : stripPrefix "UTF-8''".toList (encodeURIComponent key.toList) = none := by
    have hencoded : ¬ "UTF-8''".toList <+: encodeURIComponent key.toList := by
      rwa [prefix_encode_iff (by decide)]
    exact if_neg hencoded
  rw [extract_sent hsent, hstrip]
  simp only [hdoc _, urlDecode_encodeURIComponent, Option.getD_some, String.ofList_toList]

/-- An upload through the client goes under the key that was chosen exactly when the key does
not begin like a name in the extended notation. -/
theorem chosen_key_iff (hdoc : Documented text) (hsent : SentFor headers key) :
    (extractFilenameFromContentDisposition text headers = some key ↔ ¬ Extended key) ∧
    (uploadName text headers = .ret key ↔ ¬ Extended key) := by
  by_cases hkey : Extended key
  · obtain ⟨rest, hrest⟩ := hkey
    have hextracted := extract_of_extended hdoc hsent hrest.symm
    have hne : String.ofList rest ≠ key := by
      intro heq
      have hlist : key.toList = rest := by rw [← heq, String.toList_ofList]
      have hlength := congrArg List.length (hrest.trans hlist)
      rw [List.length_append] at hlength
      have hstart : "UTF-8''".toList.length = 7 := by decide
      omega
    have hextended : Extended key := ⟨rest, hrest⟩
    simp only [hextracted, uploadName, Option.some.injEq, hne, hextended, not_true_eq_false, iff_self,
      Prog.pure_eq, Prog.ret.injEq, and_self]
  · have hextracted := extract_of_not_extended hdoc hsent hkey
    simp only [hextracted, uploadName, hkey, not_false_eq_true, Prog.pure_eq, and_self]

def decodingText : TextLibrary := ⟨urlDecode, fun bytes => bytes.map Char.ofUInt8⟩

def sentHeaders (key : String) : HeaderMap :=
  [("content-disposition", asBytes (clientDisposition key))]

theorem sentHeaders_sent (key : String) : SentFor (sentHeaders key) key := rfl

theorem chosen_key_iff_folder :
    (extractFilenameFromContentDisposition decodingText (sentHeaders "photos/été 1.jpg") =
        some "photos/été 1.jpg" ↔ ¬ Extended "photos/été 1.jpg") ∧
      (uploadName decodingText (sentHeaders "photos/été 1.jpg") = .ret "photos/été 1.jpg" ↔
        ¬ Extended "photos/été 1.jpg") :=
  chosen_key_iff (fun _ => rfl) (sentHeaders_sent _)

/-- The key loses its beginning. -/
theorem extended_key_lost :
    extractFilenameFromContentDisposition decodingText (sentHeaders "UTF-8''a.txt") = some "a.txt" ∧
      "a.txt" ≠ "UTF-8''a.txt" := by
  have hkey : "UTF-8''a.txt".toList = "UTF-8''".toList ++ "a.txt".toList := by decide
  rw [extract_of_extended (fun _ => rfl) (sentHeaders_sent _) hkey, String.ofList_toList]
  exact ⟨rfl, by decide⟩

end LocalStorage.Proofs.UploadNames
