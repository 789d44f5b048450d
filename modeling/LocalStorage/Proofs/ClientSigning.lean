import Mathlib.Data.List.Dedup
import LocalStorage.Proofs.Signatures

namespace LocalStorage.Proofs.ClientSigning
open Lib Lib.Text S3 Signatures

/-! # Requests that a client signs -/

/-- The headers that are signed. -/
def prepared (lib : SigningLibrary) (headers : HeaderMap) (body : Bytes) (amzDate : List Char) :
    HeaderMap :=
  (headers.insert "x-amz-date" (asBytes amzDate)).insert "x-amz-content-sha256"
    (asBytes (sha256Hex lib body))

def signedNames (headers : HeaderMap) : List (List Char) :=
  sortedNames (headers.keys.map fun k => k.toList.map Char.toLower)

/-- The canonical request as it is signed. -/
def sent (lib : SigningLibrary) (method : List Char) (uri : Uri) (headers : HeaderMap) (body : Bytes)
    (amzDate : List Char) : List Char :=
  canonicalRequest lib method uri (prepared lib headers body amzDate)
    (signedNames (prepared lib headers body amzDate)) (sha256Hex lib body)

/-- The Authorization header that signing adds. -/
def written (lib : SigningLibrary) (method : List Char) (uri : Uri) (headers : HeaderMap) (body : Bytes)
    (accessKey secretKey region date amzDate : List Char) : List Char :=
  authorization (accessKey ++ '/' :: credentialScope date region)
    (signedNames (prepared lib headers body amzDate))
    (signature lib secretKey amzDate date region (sent lib method uri headers body amzDate))

/-- The names of a header map, in lower case. -/
def LowerCase (headers : HeaderMap) : Prop := ∀ h ∈ headers, ∀ c ∈ h.1.toList, isNameChar c = true

/-- A client signs with the two forms of a time close to `now`. -/
structure Stamped (lib : SigningLibrary) (now : Time) (date amzDate : List Char) (t : Time) :
    Prop where
  parsed : lib.parseTime amzDate = some t
  day : lib.day t = date
  near : (now - t).natAbs ≤ 900 * 1000000
  digits : ∀ c ∈ date, c.isDigit = true
  visible : ∀ c ∈ amzDate, Visible c

/-- A text that can stand in a credential. -/
def Plain (s : List Char) : Prop := ∀ c ∈ s, Visible c ∧ c ≠ ',' ∧ c ≠ '/'

/-- An Authorization header from before reads like the one that signing puts in its place. -/
def Repeats (headers signed : HeaderMap) : Prop :=
  "authorization" ∈ headers.keys →
    collapsed signed "authorization".toList = collapsed headers "authorization".toList

/-- What is read has the signature of what was signed only where the two are the same. -/
def NoClash (lib : SigningLibrary) (method : List Char) (uri : Uri) (headers : HeaderMap) (body : Bytes)
    (secretKey region date amzDate : List Char) (signed : HeaderMap) : Prop :=
  ∀ auth parsed, signed.text "authorization" = some auth →
    parseAuthorization auth.toList = some parsed →
    let received := canonicalRequest lib method uri signed parsed.signedHeaders (sha256Hex lib body)
    signature lib secretKey amzDate parsed.date parsed.region received =
      signature lib secretKey amzDate date region (sent lib method uri headers body amzDate) →
    parsed.date = date ∧ parsed.region = region ∧ received = sent lib method uri headers body amzDate

variable {lib : SigningLibrary} {now t : Time} {headers signed : HeaderMap} {method : List Char}
  {uri : Uri} {body : Bytes} {cfg : S3Config}
  {accessKey secretKey region date amzDate hashedPayload : List Char}

theorem hex_spec {bytes : Bytes} {c : Char} (hc : c ∈ hexEncode bytes) :
    c ≠ ',' ∧ isWhitespace c = false ∧ Visible c ∧ c ≠ 'U' ∧ c ≠ 'S' := by
  have hall : ∀ n < 16, Nat.digitChar n ≠ ',' ∧ isWhitespace (Nat.digitChar n) = false ∧
      Visible (Nat.digitChar n) ∧ Nat.digitChar n ≠ 'U' ∧ Nat.digitChar n ≠ 'S' := by decide
  obtain ⟨n, hn, rfl⟩ := mem_hexEncode hc
  exact hall n hn

theorem clientSign_eq (hvisible : ∀ c ∈ amzDate, Visible c) :
    clientSign lib method uri headers body accessKey secretKey region date amzDate =
      (headerBytes (written lib method uri headers body accessKey secretKey region date amzDate)).map
        ((prepared lib headers body amzDate).insert "authorization") := by
  have hdate : headerBytes amzDate = some (asBytes amzDate) := headerBytes_visible hvisible
  have hpayload : headerBytes (sha256Hex lib body) = some (asBytes (sha256Hex lib body)) :=
    headerBytes_visible fun c hc => (hex_spec hc).2.2.1
  simp only [clientSign, hdate, hpayload, Option.bind_eq_bind, Option.bind_some, Option.pure_def]
  exact (Option.map_eq_bind ..).symm

theorem mem_keys {name : String} : name ∈ headers.keys ↔ ∃ h ∈ headers, h.1 = name := by
  rw [HeaderMap.keys, List.mem_dedup, List.mem_map]

theorem mem_keys_insert {name other : String} {value : Bytes} :
    other ∈ (headers.insert name value).keys ↔ other = name ∨ other ∈ headers.keys := by
  simp only [mem_keys, HeaderMap.insert, List.mem_append, List.mem_filter, List.mem_singleton,
    decide_eq_true_eq]
  constructor
  · rintro ⟨h, hh, hother⟩
    obtain ⟨hh, -⟩ | rfl := hh
    · exact .inr ⟨h, hh, hother⟩
    · exact .inl hother.symm
  · intro hother
    by_cases hsame : other = name
    · exact ⟨(name, value), .inr rfl, hsame.symm⟩
    · obtain ⟨h, hh, rfl⟩ := hother.resolve_left hsame
      exact ⟨h, .inl ⟨hh, hsame⟩, rfl⟩

theorem LowerCase.insert (h : LowerCase headers) {name : String} (value : Bytes)
    (hname : ∀ c ∈ name.toList, isNameChar c = true) : LowerCase (headers.insert name value) := by
  intro header hheader
  obtain hheader | hheader := List.mem_append.mp hheader
  · exact h header (List.mem_filter.mp hheader).1
  · obtain rfl := List.mem_singleton.mp hheader
    exact hname

theorem LowerCase.prepared (h : LowerCase headers) : LowerCase (prepared lib headers body amzDate) :=
  (h.insert _ (by decide)).insert _ (by decide)

theorem mem_signedNames (h : LowerCase headers) {name : List Char} :
    name ∈ signedNames headers ↔ ∃ k ∈ headers.keys, name = k.toList := by
  have hlower : ∀ k ∈ headers.keys, k.toList.map Char.toLower = k.toList := by
    intro k hk
    obtain ⟨header, hheader, rfl⟩ := mem_keys.mp hk
    refine (List.map_congr_left fun c hc => ?_).trans (List.map_id _)
    exact (isNameChar_spec (h header hheader c hc)).2.2.2
  rw [signedNames, sortedNames, List.mem_insertionSort, List.mem_map]
  constructor
  · intro ⟨k, hk, hname⟩
    exact ⟨k, hk, hname ▸ hlower k hk⟩
  · intro ⟨k, hk, hname⟩
    exact ⟨k, hk, hname ▸ hlower k hk⟩

theorem signedNames_prepared (h : LowerCase headers) :
    SignedNames (signedNames (prepared lib headers body amzDate)) := by
  have hprepared : LowerCase (prepared lib headers body amzDate) := h.prepared
  have hmember : "x-amz-content-sha256".toList ∈ signedNames (prepared lib headers body amzDate) :=
    (mem_signedNames hprepared).mpr ⟨_, mem_keys_insert.mpr (.inl rfl), rfl⟩
  refine ⟨List.ne_nil_of_mem hmember, ?_, List.pairwise_insertionSort _ _⟩
  intro name hname c hc
  obtain ⟨k, hk, rfl⟩ := (mem_signedNames hprepared).mp hname
  obtain ⟨header, hheader, rfl⟩ := mem_keys.mp hk
  exact hprepared header hheader c hc

/-! ## The canonical request -/

theorem newline_not_mem_collapsed (name : List Char) : '\n' ∉ collapsed headers name := by
  intro h
  obtain h | ⟨word, hword, h⟩ := mem_of_mem_intercalate h
  · exact absurd h (by decide)
  · have hpiece := (List.mem_filter.mp hword).1
    exact absurd (eq_false_of_mem_splitOnP hpiece h) (by decide)

/-- The headers enter a canonical request through the values of those that are signed. -/
theorem canonicalRequest_congr {names : List (List Char)}
    (h : ∀ name ∈ names, collapsed signed name = collapsed headers name) :
    canonicalRequest lib method uri signed names hashedPayload =
      canonicalRequest lib method uri headers names hashedPayload := by
  have hlines : names.map (fun name => name ++ ':' :: collapsed signed name) =
      names.map fun name => name ++ ':' :: collapsed headers name := by
    refine List.map_congr_left fun name hname => ?_
    rw [h name hname]
  simp only [canonicalRequest, canonicalHeaders, hlines]

/-- And all of these can be read off it. -/
theorem collapsed_of_canonicalRequest {names : List (List Char)} (hnames : SignedNames names)
    (h : canonicalRequest lib method uri signed names hashedPayload =
      canonicalRequest lib method uri headers names hashedPayload) :
    ∀ name ∈ names, collapsed signed name = collapsed headers name := by
  have hblock : canonicalHeaders signed names = canonicalHeaders headers names := by
    simpa [canonicalRequest] using h
  have hlines : ∀ headers : HeaderMap, ∀ line ∈ names.map fun name =>
      name ++ ':' :: collapsed headers name, '\n' ∉ line := by
    intro headers line hline hmem
    obtain ⟨name, hname, rfl⟩ := List.mem_map.mp hline
    obtain hmem | hmem := List.mem_append.mp hmem
    · exact absurd (isNameChar_spec (hnames.chars name hname _ hmem)).2.2.1 (by decide)
    · obtain hmem | hmem := List.mem_cons.mp hmem
      · exact absurd hmem (by decide)
      · exact newline_not_mem_collapsed name hmem
  have hne : ∀ headers : HeaderMap, (names.map fun name => name ++ ':' :: collapsed headers name) ≠ [] := by
    simp [hnames.ne_nil]
  have hsplit := congrArg (List.splitOn '\n') (List.append_cancel_right hblock)
  rw [List.splitOn_intercalate _ (hlines signed) (hne signed),
    List.splitOn_intercalate _ (hlines headers) (hne headers)] at hsplit
  intro name hname
  have hline := List.map_inj_left.mp hsplit name hname
  simpa using hline

/-! ## Acceptance -/

/-- The headers of a request that a client signed. -/
structure Sent (lib : SigningLibrary) (headers : HeaderMap) (body : Bytes) (amzDate auth : List Char)
    (signed : HeaderMap) : Prop where
  eq : signed = (prepared lib headers body amzDate).insert "authorization" (asBytes auth)

theorem sent_of_clientSign (hvisible : ∀ c ∈ amzDate, Visible c)
    (h : clientSign lib method uri headers body accessKey secretKey region date amzDate =
      some signed) : Sent lib headers body amzDate
        (written lib method uri headers body accessKey secretKey region date amzDate) signed := by
  rw [clientSign_eq hvisible, Option.map_eq_some_iff] at h
  obtain ⟨value, hvalue, hsigned⟩ := h
  obtain rfl := headerBytes_eq_some hvalue
  exact ⟨hsigned.symm⟩

theorem Sent.text_authorization {auth : List Char} (h : Sent lib headers body amzDate auth signed) :
    signed.text "authorization" = headerText (asBytes auth) := by
  rw [h.eq, text_insert_self]

theorem Sent.text_date {auth : List Char} (h : Sent lib headers body amzDate auth signed) :
    signed.text "x-amz-date" = headerText (asBytes amzDate) := by
  rw [h.eq, text_insert_ne (by decide), prepared, text_insert_ne (by decide), text_insert_self]

theorem Sent.checkedPayload {auth : List Char} (h : Sent lib headers body amzDate auth signed) :
    checkedPayload lib signed uri body = .ok (sha256Hex lib body) := by
  have htext : signed.text "x-amz-content-sha256" = some (String.ofList (sha256Hex lib body)) := by
    rw [h.eq, text_insert_ne (by decide), prepared, text_insert_self, headerText_asBytes]
    exact ⟨fun c hc => (hex_spec hc).2.2.1, rfl⟩
  have hunsigned : sha256Hex lib body ≠ "UNSIGNED-PAYLOAD".toList := by
    intro heq
    have hmem : 'U' ∈ "UNSIGNED-PAYLOAD".toList := by decide
    exact (hex_spec (heq ▸ hmem : 'U' ∈ sha256Hex lib body)).2.2.2.1 rfl
  have hstreaming : ¬ "STREAMING-".toList <+: sha256Hex lib body := by
    intro hstart
    have hmem : 'S' ∈ "STREAMING-".toList := by decide
    exact (hex_spec (hstart.subset hmem)).2.2.2.2 rfl
  simp only [S3.checkedPayload, htext, Option.map_some, String.toList_ofList]
  rw [if_neg hunsigned, if_neg hstreaming, if_pos trivial]

theorem Sent.collapsed_of_ne {auth name : List Char} (h : Sent lib headers body amzDate auth signed)
    (hne : String.ofList name ≠ "authorization") :
    collapsed signed name = collapsed (prepared lib headers body amzDate) name := by
  simp only [collapsed, h.eq, text_insert_ne hne]

theorem collapsed_prepared {name : List Char} (hdate : String.ofList name ≠ "x-amz-date")
    (hpayload : String.ofList name ≠ "x-amz-content-sha256") :
    collapsed (prepared lib headers body amzDate) name = collapsed headers name := by
  simp only [collapsed, prepared, text_insert_ne hpayload, text_insert_ne hdate]

theorem Sent.repeats_iff {auth : List Char} (h : Sent lib headers body amzDate auth signed)
    (hnames : LowerCase headers) : Repeats headers signed ↔
      ∀ name ∈ signedNames (prepared lib headers body amzDate),
        collapsed signed name = collapsed (prepared lib headers body amzDate) name := by
  have hsame : collapsed (prepared lib headers body amzDate) "authorization".toList =
      collapsed headers "authorization".toList := collapsed_prepared (by decide) (by decide)
  constructor
  · intro hrepeats name hname
    obtain ⟨k, hk, rfl⟩ := (mem_signedNames hnames.prepared).mp hname
    by_cases hauth : k = "authorization"
    · subst hauth
      obtain hk | hk := mem_keys_insert.mp hk
      · exact absurd hk (by decide)
      · obtain hk | hk := mem_keys_insert.mp hk
        · exact absurd hk (by decide)
        · rw [hrepeats hk, hsame]
    · exact h.collapsed_of_ne (by simpa using hauth)
  · intro hall hmem
    have hprepared : "authorization" ∈ (prepared lib headers body amzDate).keys :=
      mem_keys_insert.mpr (.inr (mem_keys_insert.mpr (.inr hmem)))
    rw [hall _ ((mem_signedNames hnames.prepared).mpr ⟨_, hprepared, rfl⟩), hsame]

theorem signature_spec {secretKey canonical : List Char} {c : Char}
    (hc : c ∈ signature lib secretKey amzDate date region canonical) :
    c ≠ ',' ∧ isWhitespace c = false :=
  ⟨(hex_spec hc).1, (hex_spec hc).2.1⟩

set_option maxRecDepth 2000 in
theorem isNameChar_visible {c : Char} (hc : isNameChar c = true) : Visible c := by
  have hall : ∀ n < 128, isNameChar (Char.ofNat n) = true → Visible (Char.ofNat n) := by decide
  have hsame : Char.ofNat c.toNat = c := Char.ofNat_toNat c
  exact hsame ▸ hall c.toNat (isNameChar_lt hc) (hsame.symm ▸ hc)

theorem Plain.separated {s : List Char} (hs : Plain s) : '/' ∉ s ∧ ',' ∉ s :=
  ⟨fun h => (hs _ h).2.2 rfl, fun h => (hs _ h).2.1 rfl⟩

theorem plain_of_digits (hdigits : ∀ c ∈ date, c.isDigit = true) : Plain date := by
  intro c hc
  have hname : isNameChar c = true := by simp [isNameChar, hdigits c hc]
  refine ⟨isNameChar_visible hname, (isNameChar_spec hname).1, ?_⟩
  rintro rfl
  exact absurd (hdigits _ hc) (by decide)

theorem credential_visible (hkey : ∀ c ∈ accessKey, Visible c) (hdate : ∀ c ∈ date, Visible c)
    (hregion : ∀ c ∈ region, Visible c) :
    ∀ c ∈ accessKey ++ '/' :: credentialScope date region, Visible c := by
  have hfixed : ∀ c ∈ "/s3/aws4_request".toList, Visible c := by decide
  intro c hc
  simp only [credentialScope, List.mem_append, List.mem_cons] at hc
  obtain hc | rfl | (hc | rfl | hc) | hc := hc
  · exact hkey c hc
  · decide
  · exact hdate c hc
  · decide
  · exact hregion c hc
  · exact hfixed c hc

theorem authorization_visible {credential sig : List Char} {names : List (List Char)}
    (hcredential : ∀ c ∈ credential, Visible c) (hnames : SignedNames names)
    (hsig : ∀ c ∈ sig, Visible c) : ∀ c ∈ authorization credential names sig, Visible c := by
  have hjoined : ∀ c ∈ List.intercalate [';'] names, Visible c := by
    intro c hc
    obtain rfl | ⟨name, hname, hc⟩ := mem_of_mem_intercalate hc
    · decide
    · exact isNameChar_visible (hnames.chars name hname c hc)
  have hfixed : ∀ text ∈ [scheme, "Credential=".toList, ", SignedHeaders=".toList,
      ", Signature=".toList], ∀ c ∈ text, Visible c := by decide
  intro c hc
  simp only [authorization, List.mem_append] at hc
  obtain (((((hc | hc) | hc) | hc) | hc) | hc) | hc := hc
  · exact hfixed scheme (by simp) c hc
  · exact hfixed _ (by simp) c hc
  · exact hcredential c hc
  · exact hfixed _ (by simp) c hc
  · exact hjoined c hc
  · exact hfixed _ (by simp) c hc
  · exact hsig c hc

theorem written_visible (hnames : LowerCase headers) (hkey : ∀ c ∈ accessKey, Visible c)
    (hregion : ∀ c ∈ region, Visible c) (hdate : ∀ c ∈ date, Visible c) :
    ∀ c ∈ written lib method uri headers body accessKey secretKey region date amzDate, Visible c :=
  authorization_visible (credential_visible hkey hdate hregion) (signedNames_prepared hnames)
    fun _ hc => (hex_spec hc).2.2.1

theorem credential_eq (accessKey date region : List Char) :
    accessKey ++ '/' :: credentialScope date region = accessKey ++ '/' :: (date ++ '/' ::
      (region ++ '/' :: ("s3".toList ++ '/' :: "aws4_request".toList))) := by
  simp [credentialScope]

theorem terminator_trimmed : Trimmed "aws4_request".toList := by
  unfold Trimmed
  decide

/-- What a client writes for a plain key and a plain region is read back. -/
theorem parseAuthorization_credentialScope {sig : List Char} {names : List (List Char)}
    (hkey : Plain accessKey) (hdate : Plain date) (hregion : Plain region)
    (hnames : SignedNames names) (hsig : ∀ c ∈ sig, c ≠ ',' ∧ isWhitespace c = false) :
    parseAuthorization (authorization (accessKey ++ '/' :: credentialScope date region) names sig) =
      some ⟨accessKey, date, region, names, sig⟩ := by
  rw [credential_eq]
  refine parseAuthorization_plain hnames hsig ?_ ?_ terminator_trimmed
  · simp [hkey.separated, hdate.separated, hregion.separated]
  · simp [hkey.separated, hdate.separated, hregion.separated]

/-- Names and signature are read as they were written, whatever key and region hold. -/
theorem parseAuthorization_written {secretKey : List Char} {parsed : ParsedAuth}
    (hnames : LowerCase headers)
    (h : parseAuthorization (written lib method uri headers body accessKey secretKey region date
      amzDate) = some parsed) :
    parsed.signedHeaders = signedNames (prepared lib headers body amzDate) ∧
      parsed.signature =
        signature lib secretKey amzDate date region (sent lib method uri headers body amzDate) := by
  rw [written, parseAuthorization_authorization (signedNames_prepared hnames)
    fun c hc => signature_spec hc] at h
  obtain ⟨c, -, hc⟩ := Option.bind_eq_some_iff.mp h
  split at hc
  · obtain rfl := Option.some.inj hc
    exact ⟨rfl, rfl⟩
  · simp at hc

/-- What is read back as it was written clashes with nothing. -/
theorem Sent.noClash {secretKey : List Char}
    (h : Sent lib headers body amzDate
      (written lib method uri headers body accessKey secretKey region date amzDate) signed)
    (hnames : LowerCase headers) (hkey : Plain accessKey) (hdate : Plain date)
    (hregion : Plain region) (hrepeats : Repeats headers signed) :
    NoClash lib method uri headers body secretKey region date amzDate signed := by
  intro auth parsed hauth hparsed received _
  rw [h.text_authorization, headerText_asBytes] at hauth
  obtain ⟨-, rfl⟩ := hauth
  rw [String.toList_ofList, written, parseAuthorization_credentialScope hkey hdate hregion
    (signedNames_prepared hnames) fun c hc => signature_spec hc] at hparsed
  obtain rfl := Option.some.inj hparsed
  exact ⟨rfl, rfl, canonicalRequest_congr ((h.repeats_iff hnames).mp hrepeats)⟩

/-- A plain key and a plain region are enough. -/
theorem Sent.accepted (h : Sent lib headers body amzDate (written lib method uri headers body
      cfg.accessKey.toList cfg.secretKey.toList cfg.region.toList date amzDate) signed)
    (hnames : LowerCase headers) (htime : Stamped lib now date amzDate t)
    (hkey : Plain cfg.accessKey.toList) (hregion : Plain cfg.region.toList)
    (hrepeats : Repeats headers signed) :
    verifySigv4 lib now signed method uri body cfg = .ok () := by
  have hsigned : SignedNames (signedNames (prepared lib headers body amzDate)) :=
    signedNames_prepared hnames
  have hrep := (h.repeats_iff hnames).mp hrepeats
  rw [verifySigv4_eq_ok]
  have hdate : Plain date := plain_of_digits htime.digits
  have hauth := h.text_authorization.trans (headerText_asBytes.mpr
    ⟨written_visible hnames (fun c hc => (hkey c hc).1) (fun c hc => (hregion c hc).1)
      fun c hc => (hdate c hc).1, rfl⟩)
  let sig := signature lib cfg.secretKey.toList amzDate date cfg.region.toList
    (sent lib method uri headers body amzDate)
  have hsig : ∀ c ∈ sig, c ≠ ',' ∧ isWhitespace c = false := fun c hc => signature_spec hc
  let parsed : ParsedAuth := ⟨cfg.accessKey.toList, date, cfg.region.toList,
    signedNames (prepared lib headers body amzDate), sig⟩
  refine ⟨_, parsed, amzDate, sha256Hex lib body, hauth, ?_, rfl, ?_, h.checkedPayload, ?_⟩
  · rw [String.toList_ofList]
    exact parseAuthorization_credentialScope hkey hdate hregion hsigned hsig
  · have hnear : (now - t).natAbs < 901 * 1000000 := by
      have := htime.near
      omega
    refine checkedDate_eq_ok.mpr ⟨t, ?_, htime.parsed, skewSeconds_le_iff.mpr hnear⟩
    exact h.text_date.trans (headerText_asBytes.mpr ⟨htime.visible, rfl⟩)
  · exact congrArg (signature lib _ amzDate date _) (canonicalRequest_congr hrep).symm

/-- A signed request is accepted exactly if key and region can stand in a credential and no other
Authorization header was signed. -/
theorem signed_accepted_iff (hnames : LowerCase headers) (htime : Stamped lib now date amzDate t)
    (hsign : clientSign lib method uri headers body cfg.accessKey.toList cfg.secretKey.toList
      cfg.region.toList date amzDate = some signed)
    (hclash : NoClash lib method uri headers body cfg.secretKey.toList cfg.region.toList date amzDate
      signed) :
    verifySigv4 lib now signed method uri body cfg = .ok () ↔
      Plain cfg.accessKey.toList ∧ Plain cfg.region.toList ∧ Repeats headers signed := by
  have hsigned : SignedNames (signedNames (prepared lib headers body amzDate)) :=
    signedNames_prepared hnames
  have hsent := sent_of_clientSign htime.visible hsign
  rw [verifySigv4_eq_ok, hsent.repeats_iff hnames]
  constructor
  · rintro ⟨auth, parsed, amzDate', payload, hauth, hparsed, hkey, hdate, hpayload, hmatch⟩
    have hclash' := hclash auth parsed hauth hparsed
    rw [hsent.text_authorization, headerText_asBytes] at hauth
    obtain ⟨hvisible, rfl⟩ := hauth
    rw [String.toList_ofList] at hparsed
    obtain ⟨hread, hsig⟩ := parseAuthorization_written hnames hparsed
    obtain rfl : amzDate' = amzDate := by
      obtain ⟨-, htext, -⟩ := checkedDate_eq_ok.mp hdate
      rw [hsent.text_date, headerText_asBytes] at htext
      exact String.ofList_inj.mp htext.2
    obtain rfl : payload = sha256Hex lib body :=
      Except.ok.inj (hpayload.symm.trans hsent.checkedPayload)
    obtain ⟨-, hregion, hcanonical⟩ := hclash' (hmatch.symm.trans hsig)
    have hseparated := parseAuthorization_separated hparsed
    refine ⟨fun c hc => ⟨hvisible c ?_, ?_, ?_⟩, fun c hc => ⟨hvisible c ?_, ?_, ?_⟩, ?_⟩
    · simp [written, authorization, hc]
    · exact fun hcomma => (hseparated parsed.accessKey (by simp)).2 (hkey ▸ hcomma ▸ hc)
    · exact fun hslash => (hseparated parsed.accessKey (by simp)).1 (hkey ▸ hslash ▸ hc)
    · simp [written, authorization, credentialScope, hc]
    · exact fun hcomma => (hseparated parsed.region (by simp)).2 (hregion ▸ hcomma ▸ hc)
    · exact fun hslash => (hseparated parsed.region (by simp)).1 (hregion ▸ hslash ▸ hc)
    · rw [hread] at hcanonical
      exact collapsed_of_canonicalRequest hsigned hcanonical
  · rintro ⟨hkey, hregion, hrep⟩
    have hrepeats : Repeats headers signed := (hsent.repeats_iff hnames).mpr hrep
    exact verifySigv4_eq_ok.mp (hsent.accepted hnames htime hkey hregion hrepeats)

/-! ## One request -/

def hexValue (c : Char) : Nat := if c.isDigit then c.toNat - '0'.toNat else c.toNat - 'a'.toNat + 10

def fromHex : List Char → Bytes
  | a :: b :: rest => UInt8.ofNat (16 * hexValue a + hexValue b) :: fromHex rest
  | _ => []

/-- The canonical request of an upload of `hello world`. -/
def helloRequest : List Char :=
  ("PUT\n/v2/mybucket/path/to/object.txt\n\nhost:localhost:9000\nx-amz-content-sha256:" ++
    "b94d27b9934d3e08a52e52d7da7dabfac484efe37a5380ee9088f7ace2efcde9\nx-amz-date:20240101T000000Z" ++
    "\n\nhost;x-amz-content-sha256;x-amz-date\n" ++
    "b94d27b9934d3e08a52e52d7da7dabfac484efe37a5380ee9088f7ace2efcde9").toList

def helloToSign : List Char :=
  ("AWS4-HMAC-SHA256\n20240101T000000Z\n20240101/us-east-1/s3/aws4_request\n" ++
    "fefbbc4dc10f6392d04d4d1c95b3bb088e8e077b1142404336f13468edb772c6").toList

def digests : List (Bytes × Bytes) :=
  [("hello world", "b94d27b9934d3e08a52e52d7da7dabfac484efe37a5380ee9088f7ace2efcde9"),
   (String.ofList helloRequest, "fefbbc4dc10f6392d04d4d1c95b3bb088e8e077b1142404336f13468edb772c6")].map
    fun (data, digest) => (asBytes data.toList, fromHex digest.toList)

/-- The keys on the way to a signature, and the signature, each from the one before. -/
def macs : List ((Bytes × Bytes) × Bytes) :=
  let secret := asBytes "AWS4test-secret-key-value".toList
  let kDate := fromHex "15ef01208b12970e9189a2da3116d93ef689b96554bdfae8aa94f5ab1c750962".toList
  let kRegion := fromHex "25a68b033f7c387a58f590ec27d0e5b4b9d122a3928cfc60cb8922cc0999c5a8".toList
  let kService := fromHex "584e22f846cd1a23e2f3b123a793190751117caa832d7c5eb46b3a85f5b2211b".toList
  let kSigning := fromHex "bb53e74e34eb02d7eac1a8d77ea34e646cee6294b91af93cd131ed382e58b987".toList
  let signature := fromHex "5751a88b83a294d5be9e3be598352b53dc5fd0ae4f3298fc971b1cad2b6a7e3f".toList
  [((secret, asBytes "20240101".toList), kDate), ((kDate, asBytes "us-east-1".toList), kRegion),
   ((kRegion, asBytes "s3".toList), kService), ((kService, asBytes "aws4_request".toList), kSigning),
   ((kSigning, asBytes helloToSign), signature)]

/-- Functions that agree with the real ones on this request. -/
def helloLibrary : SigningLibrary where
  urlDecode s := if '%' ∈ s then none else some s
  fromUtf8Lossy bytes := bytes.map Char.ofUInt8
  hmacSha256 key data := ((macs.find? (·.1 = (key, data))).map Prod.snd).getD []
  sha256 data := ((digests.find? (·.1 = data)).map Prod.snd).getD []
  parseTime s := if s = "20240101T000000Z".toList then some 1704067200000000 else none
  day _ := "20240101".toList

def helloConfig : S3Config := ⟨"AKIATESTACCESSKEY", "test-secret-key-value", "us-east-1"⟩

def helloUri : Uri := ⟨"/v2/mybucket/path/to/object.txt".toList, none⟩

def helloHeaders : HeaderMap := [("host", asBytes "localhost:9000".toList)]

def helloBody : Bytes := asBytes "hello world".toList

/-- The request, signed at the start of 2024. -/
def helloSigned (cfg : S3Config) : Option HeaderMap :=
  clientSign helloLibrary "PUT".toList helloUri helloHeaders helloBody cfg.accessKey.toList
    cfg.secretKey.toList cfg.region.toList "20240101".toList "20240101T000000Z".toList

/-- And verified at that time. -/
def helloVerified (cfg : S3Config) (signed : HeaderMap) : Except S3Error Unit :=
  verifySigv4 helloLibrary 1704067200000000 signed "PUT".toList helloUri helloBody cfg

theorem helloHeaders_lowerCase : LowerCase helloHeaders := by
  intro header hheader
  obtain rfl := List.mem_singleton.mp hheader
  decide

theorem hello_stamped :
    Stamped helloLibrary 1704067200000000 "20240101".toList "20240101T000000Z".toList
      1704067200000000 where
  parsed := rfl
  day := rfl
  near := by decide
  digits := by decide
  visible := by decide

theorem helloSigned_eq_some {cfg : S3Config} (hkey : ∀ c ∈ cfg.accessKey.toList, Visible c)
    (hregion : ∀ c ∈ cfg.region.toList, Visible c) : ∃ signed, helloSigned cfg = some signed := by
  rw [helloSigned, clientSign_eq hello_stamped.visible, headerBytes_visible]
  · exact ⟨_, rfl⟩
  · exact written_visible helloHeaders_lowerCase hkey hregion (by decide)

theorem helloConfig_plain : Plain helloConfig.accessKey.toList ∧ Plain helloConfig.region.toList := by
  unfold Plain
  decide

/-- The service accepts the request it is configured for. -/
theorem hello_accepted : ∃ signed, helloSigned helloConfig = some signed ∧
    Sent helloLibrary helloHeaders helloBody "20240101T000000Z".toList
      (written helloLibrary "PUT".toList helloUri helloHeaders helloBody helloConfig.accessKey.toList
        helloConfig.secretKey.toList helloConfig.region.toList "20240101".toList
        "20240101T000000Z".toList) signed ∧ Repeats helloHeaders signed ∧
      helloVerified helloConfig signed = .ok () := by
  obtain ⟨hkey, hregion⟩ := helloConfig_plain
  obtain ⟨signed, hsigned⟩ := helloSigned_eq_some (fun c hc => (hkey c hc).1)
    fun c hc => (hregion c hc).1
  have hsent := sent_of_clientSign hello_stamped.visible hsigned
  have hrepeats : Repeats helloHeaders signed := by
    intro hmem
    exact absurd hmem (by decide)
  exact ⟨signed, hsigned, hsent, hrepeats,
    hsent.accepted helloHeaders_lowerCase hello_stamped hkey hregion hrepeats⟩

theorem signed_accepted_hello : ∃ signed, helloSigned helloConfig = some signed ∧
    helloVerified helloConfig signed = .ok () := by
  obtain ⟨hkey, hregion⟩ := helloConfig_plain
  obtain ⟨signed, hsigned, hsent, hrepeats, -⟩ := hello_accepted
  have hclash := hsent.noClash helloHeaders_lowerCase hkey (plain_of_digits hello_stamped.digits)
    hregion hrepeats
  exact ⟨signed, hsigned, (signed_accepted_iff helloHeaders_lowerCase hello_stamped hsigned
    hclash).mpr ⟨hkey, hregion, hrepeats⟩⟩

def slashConfig : S3Config := { helloConfig with accessKey := "team/uploader" }

/-- A key with a slash in it is configured and signed with. -/
theorem slash_in_key_refused : ∃ signed, helloSigned slashConfig = some signed ∧
    helloVerified slashConfig signed ≠ .ok () := by
  have hkeyText : ∀ c ∈ slashConfig.accessKey.toList, Visible c := by decide
  have hregionText : ∀ c ∈ slashConfig.region.toList, Visible c := by decide
  obtain ⟨signed, hsigned⟩ := helloSigned_eq_some hkeyText hregionText
  refine ⟨signed, hsigned, fun hok => ?_⟩
  obtain ⟨_, parsed, _, _, -, hparsed, hkey, -⟩ := verifySigv4_eq_ok.mp hok
  have hslash : '/' ∈ parsed.accessKey := by
    rw [hkey]
    decide
  exact (parseAuthorization_separated hparsed parsed.accessKey (by simp)).1 hslash

end LocalStorage.Proofs.ClientSigning
