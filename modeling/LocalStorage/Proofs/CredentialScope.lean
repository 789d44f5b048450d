import LocalStorage.Proofs.ClientSigning

namespace LocalStorage.Proofs.CredentialScope
open Lib Lib.Text S3 Signatures ClientSigning

/-! # The scope of a credential -/

/-- The credential that a request names. -/
def credentialOf (headers : HeaderMap) : Option (List Char) :=
  (headers.text "authorization").bind fun auth =>
    (stripPrefix scheme auth.toList).bind fun rest => (authParts rest).credential

/-- The time that it names. -/
def requestTime (lib : SigningLibrary) (headers : HeaderMap) : Option Time :=
  (headers.text "x-amz-date").bind fun amzDate => lib.parseTime amzDate.toList

/-- A request of time `t` names the configured key, the day of `t`, the configured region, the
service and the terminator, and is close to `now`. -/
structure Scoped (lib : SigningLibrary) (now : Time) (headers : HeaderMap) (cfg : S3Config)
    (t : Time) : Prop where
  credential : credentialOf headers =
    some (cfg.accessKey.toList ++ '/' :: credentialScope (lib.day t) cfg.region.toList)
  near : (now - t).natAbs ≤ 900 * 1000000

/-- The hash of the body as it is declared, or of the body itself. -/
def Hashed (lib : SigningLibrary) (headers : HeaderMap) (body : Bytes) (hash : List Char) : Prop :=
  match headers.text "x-amz-content-sha256" with
  | none => hash = sha256Hex lib body
  | some declared => declared.toList = hash ∧
      (hash = "UNSIGNED-PAYLOAD".toList ∨ hash = sha256Hex lib body)

/-- The request is signed with the secret key for the day and the region that its own credential
names, whatever these are, and is less than 901 seconds away. -/
structure SignedForItself (lib : SigningLibrary) (now : Time) (headers : HeaderMap)
    (method : List Char) (uri : Uri) (body : Bytes) (cfg : S3Config) (parsed : ParsedAuth)
    (t : Time) : Prop where
  authorization : ∃ auth, headers.text "authorization" = some auth ∧
    parseAuthorization auth.toList = some parsed
  key : parsed.accessKey = cfg.accessKey.toList
  near : (now - t).natAbs < 901 * 1000000
  signature : ∃ amzDate hash, headers.text "x-amz-date" = some amzDate ∧
    lib.parseTime amzDate.toList = some t ∧ Hashed lib headers body hash ∧
    parsed.signature = signature lib cfg.secretKey.toList amzDate.toList parsed.date parsed.region
      (canonicalRequest lib method uri headers parsed.signedHeaders hash)

variable {lib : SigningLibrary} {now t : Time} {headers : HeaderMap} {method : List Char} {uri : Uri}
  {body : Bytes} {cfg : S3Config} {amzDate hash : List Char}

theorem checkedPayload_eq_ok : checkedPayload lib headers uri body = .ok hash ↔
    Hashed lib headers body hash := by
  unfold checkedPayload Hashed
  cases headers.text "x-amz-content-sha256" with
  | none => simp [eq_comm]
  | some declared =>
    simp only [Option.map_some]
    have hstreaming : "STREAMING-".toList <+: declared.toList → declared.toList ≠ sha256Hex lib body := by
      intro hstart heq
      have hmem : 'S' ∈ "STREAMING-".toList := by decide
      exact (hex_spec (heq ▸ hstart.subset hmem : 'S' ∈ sha256Hex lib body)).2.2.2.2 rfl
    by_cases hunsigned : declared.toList = "UNSIGNED-PAYLOAD".toList
    · rw [if_pos hunsigned, Except.ok.injEq]
      constructor
      · rintro rfl
        exact ⟨rfl, .inl hunsigned⟩
      · exact fun h => h.1
    · rw [if_neg hunsigned, ite_error_eq_ok]
      split
      · rename_i hdeclared
        rw [Except.ok.injEq]
        constructor
        · intro h
          exact ⟨hdeclared.trans h.2, .inr h.2.symm⟩
        · intro h
          exact ⟨fun hstart => hstreaming hstart hdeclared, hdeclared.symm.trans h.1⟩
      · rename_i hdeclared
        simp only [reduceCtorEq, and_false, false_iff]
        intro ⟨hsame, hhash⟩
        obtain hhash | hhash := hhash
        · exact hunsigned (hsame.trans hhash)
        · exact hdeclared (hsame.trans hhash)

theorem verifySigv4_iff_signedForItself :
    verifySigv4 lib now headers method uri body cfg = .ok () ↔
      ∃ parsed t, SignedForItself lib now headers method uri body cfg parsed t := by
  rw [verifySigv4_eq_ok]
  constructor
  · intro ⟨auth, parsed, amzDate, hash, hauth, hparsed, hkey, hdate, hpayload, hsig⟩
    obtain ⟨t, htext, htime, hskew⟩ := checkedDate_eq_ok.mp hdate
    refine ⟨parsed, t, ⟨auth, hauth, hparsed⟩, hkey, skewSeconds_le_iff.mp hskew,
      String.ofList amzDate, hash, htext, ?_, checkedPayload_eq_ok.mp hpayload, ?_⟩
    · rwa [String.toList_ofList]
    · rwa [String.toList_ofList]
  · intro ⟨parsed, t, ⟨auth, hauth, hparsed⟩, hkey, hnear, amzDate, hash, htext, htime, hhash, hsig⟩
    have hdate : checkedDate lib now headers uri = .ok amzDate.toList :=
      checkedDate_eq_ok.mpr ⟨t, by simpa using htext, htime, skewSeconds_le_iff.mpr hnear⟩
    exact ⟨auth, parsed, amzDate.toList, hash, hauth, hparsed, hkey, hdate,
      checkedPayload_eq_ok.mpr hhash, hsig⟩

theorem SignedForItself.requestTime {parsed : ParsedAuth}
    (h : SignedForItself lib now headers method uri body cfg parsed t) :
    requestTime lib headers = some t := by
  obtain ⟨amzDate, hash, htext, htime, -⟩ := h.signature
  rw [CredentialScope.requestTime, htext, Option.bind_some, htime]

/-- The configured region plays no part. -/
theorem region_unused (region : String) :
    verifySigv4 lib now headers method uri body { cfg with region := region } =
      verifySigv4 lib now headers method uri body cfg := rfl

/-- The credential of a signed request is the one that was signed for. -/
theorem credentialOf_written {accessKey secretKey date region : List Char} {signed : HeaderMap}
    (h : Sent lib headers body amzDate
      (written lib method uri headers body accessKey secretKey region date amzDate) signed)
    (hnames : LowerCase headers) (hkey : Plain accessKey) (hdate : Plain date)
    (hregion : Plain region) :
    credentialOf signed = some (accessKey ++ '/' :: credentialScope date region) := by
  have htext := h.text_authorization.trans (headerText_asBytes.mpr
    ⟨written_visible hnames (fun c hc => (hkey c hc).1) (fun c hc => (hregion c hc).1)
      fun c hc => (hdate c hc).1, rfl⟩)
  have hstrip := stripPrefix_authorization (accessKey ++ '/' :: credentialScope date region)
    (signedNames (prepared lib headers body amzDate))
    (signature lib secretKey amzDate date region (sent lib method uri headers body amzDate))
  have hcomma : ',' ∉ accessKey ++ '/' :: credentialScope date region := by
    simp [credentialScope, hkey.separated, hdate.separated, hregion.separated]
  have hend : Trimmed (accessKey ++ '/' :: credentialScope date region) := by
    rw [credential_eq]
    exact terminator_trimmed.credential
  rw [credentialOf, htext, Option.bind_some, String.toList_ofList, written, hstrip, Option.bind_some,
    authParts_authorization (fun c hc => (signedNames_prepared hnames).joined hc)
      fun c hc => signature_spec hc, authParts_credential hcomma hend]

/-- Whoever has the signing key of any day and any region can sign a request of any time, and name
any service and terminator in it. -/
theorem any_scope_accepted {names : List (List Char)} {date region service terminator : List Char}
    (hnames : SignedNames names) (hfree : "authorization".toList ∉ names)
    (hdate : checkedDate lib now headers uri = .ok amzDate)
    (hpayload : checkedPayload lib headers uri body = .ok hash)
    (hplain : ∀ s ∈ [cfg.accessKey.toList, date, region, service, terminator], Plain s)
    (hend : Trimmed terminator) :
    let credential := cfg.accessKey.toList ++ '/' :: (date ++ '/' :: (region ++ '/' ::
      (service ++ '/' :: terminator)))
    let sig := hexEncode (lib.hmacSha256 (signingKey lib cfg.secretKey.toList date region)
      (asBytes (stringToSign lib amzDate date region
        (canonicalRequest lib method uri headers names hash))))
    verifySigv4 lib now (headers.insert "authorization" (asBytes (authorization credential names sig)))
      method uri body cfg = .ok () := by
  intro credential sig
  have hsig : ∀ c ∈ sig, c ≠ ',' ∧ isWhitespace c = false := fun c hc => signature_spec hc
  simp only [List.forall_mem_cons, List.not_mem_nil, false_implies, implies_true, and_true] at hplain
  obtain ⟨hkey, hday, hregion, hservice, hterminator⟩ := hplain
  have hvisible : ∀ c ∈ authorization credential names sig, Visible c := by
    refine authorization_visible ?_ hnames fun c hc => (hex_spec hc).2.2.1
    intro c hc
    simp only [credential, List.mem_append, List.mem_cons] at hc
    obtain hc | rfl | hc | rfl | hc | rfl | hc | rfl | hc := hc
    · exact (hkey c hc).1
    · decide
    · exact (hday c hc).1
    · decide
    · exact (hregion c hc).1
    · decide
    · exact (hservice c hc).1
    · decide
    · exact (hterminator c hc).1
  have hparsed : parseAuthorization (authorization credential names sig) =
      some ⟨cfg.accessKey.toList, date, region, names, sig⟩ := by
    refine parseAuthorization_plain hnames hsig ?_ ?_ hend
    · simp [hkey.separated, hday.separated, hregion.separated, hservice.separated]
    · simp [hkey.separated, hday.separated, hregion.separated, hservice.separated,
        hterminator.separated]
  have hsame : ∀ name ∈ names, collapsed (headers.insert "authorization"
      (asBytes (authorization credential names sig))) name = collapsed headers name := by
    intro name hname
    have hne : String.ofList name ≠ "authorization" := by
      intro heq
      have hlist : name = "authorization".toList := by rw [← heq, String.toList_ofList]
      exact hfree (hlist ▸ hname)
    simp only [collapsed, text_insert_ne hne]
  let parsed : ParsedAuth := ⟨cfg.accessKey.toList, date, region, names, sig⟩
  refine verifySigv4_eq_ok.mpr ⟨String.ofList (authorization credential names sig), parsed, amzDate,
    hash, ?_, ?_, rfl, ?_, ?_, ?_⟩
  · rw [text_insert_self, headerText_asBytes]
    exact ⟨hvisible, rfl⟩
  · rw [String.toList_ofList]
    exact hparsed
  · rw [← hdate, checkedDate, text_insert_ne (by decide)]
    rfl
  · rw [← hpayload, checkedPayload, text_insert_ne (by decide)]
    rfl
  · exact congrArg (signature lib _ amzDate date region) (canonicalRequest_congr hsame).symm

end LocalStorage.Proofs.CredentialScope
