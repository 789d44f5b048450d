import Mathlib
import LocalStorage.Auth

namespace LocalStorage.Proofs.Signatures
open Lib Lib.Text S3

/-! # What the check of a signature accepts -/

variable {lib : SigningLibrary} {now t : Time} {headers : HeaderMap} {method : List Char} {uri : Uri}
  {body : Bytes} {cfg : S3Config} {amzDate hashedPayload s : List Char}

/-! ## Header values -/

/-- A character that a header can be read with. -/
def Visible (c : Char) : Prop := (32 ≤ c.toNat ∧ c.toNat < 127) ∨ c = '\t'

instance (c : Char) : Decidable (Visible c) := inferInstanceAs (Decidable (_ ∨ _))

theorem Visible.lt {c : Char} (hc : Visible c) : c.toNat < 128 := by
  obtain h | rfl := hc
  · omega
  · decide

theorem ofUInt8_ofNat {c : Char} (hc : c.toNat < 128) : Char.ofUInt8 (UInt8.ofNat c.toNat) = c := by
  apply Char.toNat_inj.mp
  change (UInt8.ofNat c.toNat).toNat = c.toNat
  simp
  omega

theorem all_utf8EncodeChar (c : Char) :
    (String.utf8EncodeChar c).all (fun b => (32 ≤ b && b < 127) || b == 9) = decide (Visible c) := by
  by_cases hc : c.toNat < 128
  · have htab : c = '\t' ↔ c.toNat = 9 := Char.toNat_inj.symm
    rw [utf8EncodeChar_of_lt hc, Bool.eq_iff_iff]
    simp only [List.all_cons, List.all_nil, Bool.and_true, Bool.or_eq_true, Bool.and_eq_true,
      decide_eq_true_eq, beq_iff_eq, Visible, htab, UInt8.le_iff_toNat_le, UInt8.lt_iff_toNat_lt,
      ← UInt8.toNat_inj]
    simp
    omega
  · have hinvisible : ¬ Visible c := fun h => hc h.lt
    rw [decide_eq_false hinvisible, List.all_eq_false]
    obtain ⟨b, rest, hb⟩ : ∃ b rest, String.utf8EncodeChar c = b :: rest :=
      List.exists_cons_of_ne_nil String.utf8EncodeChar_ne_nil
    have hlarge : 128 ≤ b.toNat := ge_of_mem_utf8EncodeChar (by omega) (hb ▸ List.mem_cons_self)
    refine ⟨b, hb ▸ List.mem_cons_self, ?_⟩
    simp [UInt8.le_iff_toNat_le, UInt8.lt_iff_toNat_lt, ← UInt8.toNat_inj]
    omega

theorem all_asBytes (s : List Char) :
    (asBytes s).all (fun b => (32 ≤ b && b < 127) || b == 9) = s.all (Visible ·) := by
  simp only [asBytes, List.all_flatMap]
  exact congrArg s.all (funext all_utf8EncodeChar)

theorem map_asBytes (hs : ∀ c ∈ s, Visible c) : (asBytes s).map Char.ofUInt8 = s := by
  induction s with
  | nil => rfl
  | cons c s ih =>
    obtain ⟨hc, hs⟩ := List.forall_mem_cons.mp hs
    have hbytes : asBytes (c :: s) = UInt8.ofNat c.toNat :: asBytes s := by
      simp [asBytes, utf8EncodeChar_of_lt hc.lt]
    rw [hbytes, List.map_cons, ofUInt8_ofNat hc.lt, ih hs]

theorem headerText_asBytes {text : String} :
    headerText (asBytes s) = some text ↔ (∀ c ∈ s, Visible c) ∧ text = String.ofList s := by
  unfold headerText
  rw [all_asBytes]
  by_cases hs : ∀ c ∈ s, Visible c
  · have hall : s.all (Visible ·) = true := by simpa using hs
    rw [if_pos hall, map_asBytes hs]
    simp only [Option.some.injEq]
    exact ⟨fun h => ⟨hs, h.symm⟩, fun h => h.2.symm⟩
  · have hall : ¬ s.all (Visible ·) = true := by simpa using hs
    rw [if_neg hall]
    simp [hs]

theorem headerBytes_visible (hs : ∀ c ∈ s, Visible c) : headerBytes s = some (asBytes s) := by
  refine if_pos ?_
  simp only [isHeaderValue, String.toList_ofList, List.all_eq_true]
  intro c hc
  obtain h | rfl := hs c hc
  · simp; omega
  · decide

theorem headerBytes_eq_some {value : Bytes} (h : headerBytes s = some value) : value = asBytes s := by
  unfold headerBytes at h
  split at h
  · exact (Option.some.inj h).symm
  · simp at h

theorem text_insert_self (name : String) (value : Bytes) :
    (headers.insert name value).text name = headerText value := by
  have hnone : (headers.filter (·.1 ≠ name)).find? (·.1 = name) = none := by
    simp
  have hlast : [(name, value)].find? (·.1 = name) = some (name, value) := by
    simp
  rw [HeaderMap.text, HeaderMap.insert, List.find?_append, hnone, Option.none_or, hlast]
  rfl

theorem text_insert_ne {name other : String} (hne : other ≠ name) (value : Bytes) :
    (headers.insert name value).text other = headers.text other := by
  have hsame : (headers.filter (·.1 ≠ name)).find? (·.1 = other) = headers.find? (·.1 = other) := by
    rw [List.find?_filter]
    congr 1
    funext h
    by_cases hother : h.1 = other
    · simp [hother, hne]
    · simp [hother]
  have hlast : [(name, value)].find? (·.1 = other) = none := by
    simp [hne.symm]
  rw [HeaderMap.text, HeaderMap.insert, List.find?_append, hsame, hlast, Option.or_none]
  rfl

/-! ## Verification -/

/-- No bit of the difference is ever taken back. -/
theorem foldl_diff_eq_zero (pairs : List (UInt8 × UInt8)) (diff : UInt8) :
    pairs.foldl (fun diff (x, y) => diff ||| (x ^^^ y)) diff = 0 ↔
      diff = 0 ∧ ∀ p ∈ pairs, p.1 = p.2 := by
  induction pairs generalizing diff with
  | nil => simp
  | cons p pairs ih =>
    rw [List.foldl_cons, ih]
    simp [and_assoc]

theorem constantTimeEq_iff {a b : Bytes} : constantTimeEq a b = true ↔ a = b := by
  unfold constantTimeEq
  split
  · rename_i hlen
    simp only [Bool.false_eq_true, false_iff]
    rintro rfl
    exact hlen rfl
  · rename_i hlen
    rw [decide_eq_true_eq, foldl_diff_eq_zero, ← List.forall₂_eq_eq_eq, List.forall₂_iff_zip]
    constructor
    · intro h
      exact ⟨not_not.mp hlen, fun {x y} hp => h.2 _ hp⟩
    · intro h
      exact ⟨rfl, fun p hp => h.2 hp⟩

theorem okOr_eq_ok {ε α : Type} {e : ε} {x : Option α} {a : α} : okOr e x = .ok a ↔ x = some a := by
  cases x <;> simp [okOr]

theorem bind_eq_ok {ε α β : Type} {x : Except ε α} {f : α → Except ε β} {b : β} :
    (x >>= f) = .ok b ↔ ∃ a, x = .ok a ∧ f a = .ok b := by
  cases x <;> simp [bind, Except.bind]

theorem ite_error_eq_ok {ε α : Type} {p : Prop} [Decidable p] {e : ε} {x : Except ε α} {a : α} :
    (if p then .error e else x) = .ok a ↔ ¬ p ∧ x = .ok a := by
  split <;> simp_all

theorem skewSeconds_le_iff : skewSeconds now t ≤ 900 ↔ (now - t).natAbs < 901 * 1000000 := by
  rw [skewSeconds, Int.natAbs_tdiv]
  change (now - t).natAbs / 1000000 ≤ 900 ↔ _
  omega

theorem checkedDate_eq_ok : checkedDate lib now headers uri = .ok amzDate ↔
    ∃ t, headers.text "x-amz-date" = some (String.ofList amzDate) ∧ lib.parseTime amzDate = some t ∧
      skewSeconds now t ≤ 900 := by
  simp only [checkedDate, bind_eq_ok, okOr_eq_ok, ite_error_eq_ok, Except.ok.injEq, Nat.not_lt]
  constructor
  · intro ⟨text, htext, t, ht, hskew, hsame⟩
    subst hsame
    exact ⟨t, by simpa using htext, ht, hskew⟩
  · intro ⟨t, htext, ht, hskew⟩
    exact ⟨_, htext, t, by simpa using ht, hskew, by simp⟩

/-- Everything that an accepted request fulfils. -/
theorem verifySigv4_eq_ok : verifySigv4 lib now headers method uri body cfg = .ok () ↔
    ∃ auth parsed amzDate hashedPayload, headers.text "authorization" = some auth ∧
      parseAuthorization auth.toList = some parsed ∧ parsed.accessKey = cfg.accessKey.toList ∧
      checkedDate lib now headers uri = .ok amzDate ∧
      checkedPayload lib headers uri body = .ok hashedPayload ∧
      parsed.signature = signature lib cfg.secretKey.toList amzDate parsed.date parsed.region
        (canonicalRequest lib method uri headers parsed.signedHeaders hashedPayload) := by
  simp only [verifySigv4, bind_eq_ok, okOr_eq_ok, ite_error_eq_ok, constantTimeEq_iff,
    asBytes_injective.eq_iff, not_not]
  constructor
  · intro ⟨auth, hauth, parsed, hparsed, hkey, amzDate, hdate, hashedPayload, hpayload, hsig⟩
    split at hsig
    · rename_i hsame
      exact ⟨auth, parsed, amzDate, hashedPayload, hauth, hparsed, hkey, hdate, hpayload, hsame.symm⟩
    · simp at hsig
  · intro ⟨auth, parsed, amzDate, hashedPayload, hauth, hparsed, hkey, hdate, hpayload, hsig⟩
    exact ⟨auth, hauth, parsed, hparsed, hkey, amzDate, hdate, hashedPayload, hpayload,
      if_pos hsig.symm⟩

/-! ## The Authorization header -/

/-- A text with no whitespace at its end. -/
def Trimmed (s : List Char) : Prop := ∀ c ∈ s.getLast?, isWhitespace c = false

theorem read_credential (parts : AuthParts) {v : List Char} (hv : Trimmed v) :
    parts.read ("Credential=".toList ++ v) = { parts with credential := some v } := by
  have htrim : trim ("Credential=".toList ++ v) = "Credential=".toList ++ v :=
    trim_append (by decide) (by decide) (by decide) hv
  simp only [AuthParts.read, htrim, stripPrefix_eq_some.mpr rfl]

theorem read_signedHeaders (parts : AuthParts) {v : List Char} (hv : Trimmed v) :
    parts.read (' ' :: ("SignedHeaders=".toList ++ v)) = { parts with signedHeaders := some v } := by
  have htrim : trim ("SignedHeaders=".toList ++ v) = "SignedHeaders=".toList ++ v :=
    trim_append (by decide) (by decide) (by decide) hv
  have hother : stripPrefix "Credential=".toList ("SignedHeaders=".toList ++ v) = none :=
    if_neg (by simp)
  simp only [AuthParts.read, trim_cons (c := ' ') rfl, htrim, hother, stripPrefix_eq_some.mpr rfl]

theorem read_signature (parts : AuthParts) {v : List Char} (hv : Trimmed v) :
    parts.read (' ' :: ("Signature=".toList ++ v)) = { parts with signature := some v } := by
  have htrim : trim ("Signature=".toList ++ v) = "Signature=".toList ++ v :=
    trim_append (by decide) (by decide) (by decide) hv
  have hcredential : stripPrefix "Credential=".toList ("Signature=".toList ++ v) = none :=
    if_neg (by simp)
  have hheaders : stripPrefix "SignedHeaders=".toList ("Signature=".toList ++ v) = none :=
    if_neg (by simp)
  simp only [AuthParts.read, trim_cons (c := ' ') rfl, htrim, hcredential, hheaders,
    stripPrefix_eq_some.mpr rfl]

/-- A character of a header name in lower case. -/
def isNameChar (c : Char) : Bool := c.isLower || c.isDigit || c ∈ "!#$%&'*+-.^_`|~".toList

theorem isNameChar_lt {c : Char} (hc : isNameChar c = true) : c.toNat < 128 := by
  simp only [isNameChar, Bool.or_eq_true, decide_eq_true_eq] at hc
  obtain (hc | hc) | hc := hc
  · simp only [Char.isLower, Bool.and_eq_true, decide_eq_true_eq, UInt32.le_iff_toNat_le] at hc
    have hhigh : c.toNat ≤ 122 := hc.2
    omega
  · simp only [Char.isDigit, Bool.and_eq_true, decide_eq_true_eq, UInt32.le_iff_toNat_le] at hc
    have hhigh : c.toNat ≤ 57 := hc.2
    omega
  · have hall : ∀ c ∈ "!#$%&'*+-.^_`|~".toList, c.toNat < 128 := by decide
    exact hall c hc

set_option maxRecDepth 2000 in
/-- Names hold nothing that the header is split at, and are not changed by it. -/
theorem isNameChar_spec {c : Char} (hc : isNameChar c = true) :
    c ≠ ',' ∧ c ≠ ';' ∧ isWhitespace c = false ∧ c.toLower = c := by
  have hall : ∀ n < 128, isNameChar (Char.ofNat n) = true → Char.ofNat n ≠ ',' ∧ Char.ofNat n ≠ ';' ∧
      isWhitespace (Char.ofNat n) = false ∧ (Char.ofNat n).toLower = Char.ofNat n := by decide
  have hsame : Char.ofNat c.toNat = c := Char.ofNat_toNat c
  exact hsame ▸ hall c.toNat (isNameChar_lt hc) (hsame.symm ▸ hc)

/-- The names of the headers that are signed. -/
structure SignedNames (names : List (List Char)) : Prop where
  ne_nil : names ≠ []
  chars : ∀ name ∈ names, ∀ c ∈ name, isNameChar c = true
  sorted : names.Pairwise (· ≤ ·)

theorem SignedNames.joined {names : List (List Char)} (h : SignedNames names) {c : Char}
    (hc : c ∈ List.intercalate [';'] names) : c ≠ ',' ∧ isWhitespace c = false := by
  obtain rfl | ⟨name, hname, hc⟩ := mem_of_mem_intercalate hc
  · decide
  · obtain ⟨hcomma, -, hspace, -⟩ := isNameChar_spec (h.chars name hname c hc)
    exact ⟨hcomma, hspace⟩

/-- The names are read as they were written. -/
theorem SignedNames.read {names : List (List Char)} (h : SignedNames names) :
    sortedNames (((List.intercalate [';'] names).splitOn ';').map fun s => s.map Char.toLower) =
      names := by
  have hsplit : (List.intercalate [';'] names).splitOn ';' = names := by
    refine List.splitOn_intercalate ';' ?_ h.ne_nil
    intro name hname hc
    exact (isNameChar_spec (h.chars name hname _ hc)).2.1 rfl
  have hlower : names.map (fun s => s.map Char.toLower) = names := by
    refine (List.map_congr_left fun name hname => ?_).trans (List.map_id names)
    refine (List.map_congr_left fun c hc => ?_).trans (List.map_id name)
    exact (isNameChar_spec (h.chars name hname c hc)).2.2.2
  rw [hsplit, hlower]
  exact h.sorted.insertionSort_eq

theorem Trimmed.append_cons {l r : List Char} {c : Char} (hr : Trimmed r)
    (hc : isWhitespace c = false) : Trimmed (l ++ c :: r) := by
  intro d hd
  rw [List.getLast?_append, List.getLast?_cons] at hd
  cases hlast : r.getLast? with
  | none =>
    obtain rfl : c = d := by simpa [hlast] using hd
    exact hc
  | some e => exact hr d (by simpa [hlast] using hd)

/-- What a client writes ends in the names and the signature, whatever the credential holds. -/
theorem authParts_authorization {credential joined sig : List Char}
    (hjoined : ∀ c ∈ joined, c ≠ ',' ∧ isWhitespace c = false)
    (hsig : ∀ c ∈ sig, c ≠ ',' ∧ isWhitespace c = false) :
    authParts ("Credential=".toList ++ credential ++ ", SignedHeaders=".toList ++ joined ++
      ", Signature=".toList ++ sig) =
      { authParts ("Credential=".toList ++ credential) with
        signedHeaders := some joined
        signature := some sig } := by
  have htext : "Credential=".toList ++ credential ++ ", SignedHeaders=".toList ++ joined ++
      ", Signature=".toList ++ sig = ("Credential=".toList ++ credential) ++
        ',' :: ((' ' :: ("SignedHeaders=".toList ++ joined)) ++
          ',' :: (' ' :: ("Signature=".toList ++ sig))) := by
    simp
  have hheaders : ',' ∉ ' ' :: ("SignedHeaders=".toList ++ joined) := by
    simpa using fun hc => (hjoined _ hc).1 rfl
  have hsignature : ',' ∉ ' ' :: ("Signature=".toList ++ sig) := by
    simpa using fun hc => (hsig _ hc).1 rfl
  have hjoinedEnd : Trimmed joined := fun c hc => (hjoined c (List.mem_of_getLast? hc)).2
  have hsigEnd : Trimmed sig := fun c hc => (hsig c (List.mem_of_getLast? hc)).2
  rw [authParts, htext, List.splitOn_append_cons_self, List.foldl_append,
    List.splitOn_append_cons_self_of_not_mem hheaders, List.splitOn_eq_singleton hsignature]
  simp only [List.foldl_cons, List.foldl_nil, read_signedHeaders _ hjoinedEnd,
    read_signature _ hsigEnd]
  rfl

theorem authParts_credential {credential : List Char} (hcomma : ',' ∉ credential)
    (hend : Trimmed credential) :
    authParts ("Credential=".toList ++ credential) = { credential := some credential } := by
  have hsingle : ',' ∉ "Credential=".toList ++ credential := by
    simpa using hcomma
  rw [authParts, List.splitOn_eq_singleton hsingle, List.foldl_cons, List.foldl_nil,
    read_credential _ hend]

/-- No credential that is read holds a comma. -/
theorem comma_not_mem_credential {header c : List Char} (h : (authParts header).credential = some c) :
    ',' ∉ c := by
  have hfold : ∀ (pieces : List (List Char)) (parts : AuthParts), (∀ p ∈ pieces, ',' ∉ p) →
      (∀ v, parts.credential = some v → ',' ∉ v) →
      ∀ v, (pieces.foldl AuthParts.read parts).credential = some v → ',' ∉ v := by
    intro pieces
    induction pieces with
    | nil => exact fun parts _ hparts => hparts
    | cons p pieces ih =>
      intro parts hpieces hparts
      obtain ⟨hp, hpieces⟩ := List.forall_mem_cons.mp hpieces
      refine ih _ hpieces ?_
      intro v hv
      unfold AuthParts.read at hv
      dsimp only at hv
      split at hv
      · rename_i found hfound
        obtain rfl := Option.some.inj hv
        intro hmem
        apply hp
        apply trim_subset
        rw [stripPrefix_eq_some.mp hfound]
        exact List.mem_append_right _ hmem
      · split at hv
        · exact hparts v hv
        · split at hv <;> exact hparts v hv
  exact hfold _ {} (fun p hp => not_mem_of_mem_splitOn hp) (by simp) c h

theorem stripPrefix_authorization (credential : List Char) (names : List (List Char))
    (sig : List Char) : stripPrefix scheme (authorization credential names sig) =
      some ("Credential=".toList ++ credential ++ ", SignedHeaders=".toList ++
        List.intercalate [';'] names ++ ", Signature=".toList ++ sig) :=
  stripPrefix_eq_some.mpr (by simp [authorization])

theorem parseAuthorization_authorization {credential sig : List Char} {names : List (List Char)}
    (hnames : SignedNames names) (hsig : ∀ c ∈ sig, c ≠ ',' ∧ isWhitespace c = false) :
    parseAuthorization (authorization credential names sig) =
      (authParts ("Credential=".toList ++ credential)).credential.bind fun c =>
        match splitN '/' 5 c with
        | [accessKey, date, region, _, _] => some ⟨accessKey, date, region, names, sig⟩
        | _ => none := by
  simp only [parseAuthorization, stripPrefix_authorization, Option.bind_eq_bind, Option.bind_some,
    Option.pure_def, authParts_authorization (fun c hc => hnames.joined hc) hsig, hnames.read]
  try rfl

theorem Trimmed.credential {accessKey date region service terminator : List Char}
    (hend : Trimmed terminator) : Trimmed (accessKey ++ '/' :: (date ++ '/' :: (region ++ '/' ::
      (service ++ '/' :: terminator)))) :=
  (((hend.append_cons rfl).append_cons rfl).append_cons rfl).append_cons rfl

/-- Key, date and region are read back where none of them holds a separator; service and
terminator are read over. -/
theorem parseAuthorization_plain {accessKey date region service terminator sig : List Char}
    {names : List (List Char)} (hnames : SignedNames names)
    (hsig : ∀ c ∈ sig, c ≠ ',' ∧ isWhitespace c = false)
    (hslash : ∀ s ∈ [accessKey, date, region, service], '/' ∉ s)
    (hcomma : ∀ s ∈ [accessKey, date, region, service, terminator], ',' ∉ s)
    (hend : Trimmed terminator) :
    parseAuthorization (authorization (accessKey ++ '/' :: (date ++ '/' :: (region ++ '/' ::
      (service ++ '/' :: terminator)))) names sig) =
      some ⟨accessKey, date, region, names, sig⟩ := by
  simp only [List.forall_mem_cons, List.not_mem_nil, false_implies, implies_true, and_true]
    at hslash hcomma
  have hcredential : ',' ∉ accessKey ++ '/' :: (date ++ '/' :: (region ++ '/' ::
      (service ++ '/' :: terminator))) := by
    simp [hcomma]
  rw [parseAuthorization_authorization hnames hsig, authParts_credential hcredential hend.credential]
  have hpieces : splitN '/' 5 (accessKey ++ '/' :: (date ++ '/' :: (region ++ '/' ::
      (service ++ '/' :: terminator)))) = [accessKey, date, region, service, terminator] := by
    rw [splitN_append hslash.1, splitN_append hslash.2.1, splitN_append hslash.2.2.1,
      splitN_append hslash.2.2.2]
    rfl
  simp only [Option.bind_some, hpieces]

/-- What is read as key, date and region holds no separator. -/
theorem parseAuthorization_separated {header : List Char} {parsed : ParsedAuth}
    (h : parseAuthorization header = some parsed) :
    ∀ s ∈ [parsed.accessKey, parsed.date, parsed.region], '/' ∉ s ∧ ',' ∉ s := by
  simp only [parseAuthorization, Option.bind_eq_bind, Option.bind_eq_some_iff] at h
  obtain ⟨rest, -, c, hc, h⟩ := h
  split at h
  · rename_i accessKey date region service terminator hpieces
    simp only [Option.pure_def, Option.bind_eq_some_iff, Option.some.injEq] at h
    obtain ⟨joined, -, sig, -, rfl⟩ := h
    intro s hs
    have hpiece : s ∈ (splitN '/' 5 c).dropLast := by
      rw [hpieces]
      simp only [List.mem_cons, List.not_mem_nil, or_false] at hs
      rcases hs with rfl | rfl | rfl <;> simp
    have hcomma : ',' ∉ s := by
      intro hmem
      apply comma_not_mem_credential hc
      have hinside : ',' ∈ ['/'].intercalate (splitN '/' 5 c) :=
        subset_intercalate (List.dropLast_subset _ hpiece) hmem
      rwa [intercalate_splitN] at hinside
    exact ⟨not_mem_of_mem_splitN hpiece, hcomma⟩
  · simp at h

end LocalStorage.Proofs.Signatures
