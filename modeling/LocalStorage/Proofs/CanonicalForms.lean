import LocalStorage.Proofs.ClientSigning
import LocalStorage.Proofs.UriEncoding
import Mathlib.Data.List.Perm.Basic
import Mathlib.Data.Prod.Lex

namespace LocalStorage.Proofs.CanonicalForms
open Lib Lib.Text S3 UriEncoding

/-! # Canonical paths and queries -/

variable {lib : SigningLibrary} {path path' query query' s t : List Char}

/-- The library decodes as it documents. -/
def Documented (lib : SigningLibrary) : Prop := ∀ s, lib.urlDecode s = urlDecode s

/-- A name and a value, encoded or not. -/
abbrev Pair := List Char × List Char

def segments (path : List Char) : List (List Char) := path.splitOn '/'

/-- The parts of a query between its separators, but for the empty ones. -/
def components (query : List Char) : List (List Char) := (query.splitOn '&').filter (· ≠ [])

/-- The name and the value of a part as they stand; a missing value is empty. -/
def nameValue (component : List Char) : Pair :=
  ((splitN '=' 2 component).getD 0 [], (splitN '=' 2 component).getD 1 [])

def decodePair (lib : SigningLibrary) (p : Pair) : Pair :=
  (decodeOrOriginal lib p.1, decodeOrOriginal lib p.2)

def encodePair (p : Pair) : List Char := uriEncode p.1 false ++ '=' :: uriEncode p.2 false

/-- The pairs of a query, decoded. -/
def pairs (lib : SigningLibrary) (query : List Char) : List Pair :=
  (components query).map fun component => decodePair lib (nameValue component)

/-- The order of the pairs: by name, then by value. -/
def Before (p q : Pair) : Prop := p.1 < q.1 ∨ (p.1 = q.1 ∧ p.2 ≤ q.2)

instance : DecidableRel Before := fun _ _ => inferInstanceAs (Decidable (_ ∨ _))

def sorted (ps : List Pair) : List Pair := ps.insertionSort Before

theorem canonicalQueryString_eq : canonicalQueryString lib query =
    List.intercalate ['&'] ((sorted (pairs lib query)).map encodePair) := by
  unfold canonicalQueryString
  split
  · rename_i h
    subst h
    rfl
  · rfl

theorem canonicalUri_eq (h : path ≠ []) : canonicalUri lib path =
    List.intercalate ['/'] ((segments path).map fun segment =>
      uriEncode (decodeOrOriginal lib segment) false) := if_neg h

/-! ## Pieces put together and taken apart -/

/-- Pieces without the separator are what comes back, however many of them there are. -/
theorem components_intercalate {pieces : List (List Char)}
    (h : ∀ piece ∈ pieces, piece ≠ [] ∧ '&' ∉ piece) :
    components (List.intercalate ['&'] pieces) = pieces := by
  unfold components
  by_cases hne : pieces = []
  · subst hne
    rfl
  · rw [List.splitOn_intercalate '&' (fun piece hp => (h piece hp).2) hne, List.filter_eq_self]
    intro piece hp
    exact decide_eq_true (h piece hp).1

theorem nameValue_encodePair (p : Pair) :
    nameValue (encodePair p) = (uriEncode p.1 false, uriEncode p.2 false) := by
  have hsplit : splitN '=' 2 (encodePair p) = [uriEncode p.1 false, uriEncode p.2 false] := by
    rw [encodePair, splitN_append (separator_not_mem_uriEncode (.inr (.inr rfl)) _)]
    rfl
  simp only [nameValue, hsplit]
  rfl

theorem encodePair_piece (p : Pair) : encodePair p ≠ [] ∧ '&' ∉ encodePair p := by
  constructor
  · simp [encodePair]
  · rw [encodePair, List.mem_append, List.mem_cons]
    rintro (h | h | h)
    · exact separator_not_mem_uriEncode (.inr (.inl rfl)) _ h
    · exact absurd h (by decide)
    · exact separator_not_mem_uriEncode (.inr (.inl rfl)) _ h

theorem encodePair_injective : Function.Injective encodePair := by
  intro p q h
  have hparts := congrArg nameValue h
  rw [nameValue_encodePair, nameValue_encodePair, Prod.ext_iff] at hparts
  exact Prod.ext (uriEncode_injective hparts.1) (uriEncode_injective hparts.2)

theorem components_encoded (ps : List Pair) :
    components (List.intercalate ['&'] (ps.map encodePair)) = ps.map encodePair := by
  apply components_intercalate
  intro piece hpiece
  obtain ⟨p, -, rfl⟩ := List.mem_map.mp hpiece
  exact encodePair_piece p

theorem segments_encoded (hne : path ≠ []) : segments (canonicalUri lib path) =
    (segments path).map fun segment => uriEncode (decodeOrOriginal lib segment) false := by
  rw [canonicalUri_eq hne, segments]
  apply List.splitOn_intercalate
  · intro piece hpiece
    obtain ⟨segment, -, rfl⟩ := List.mem_map.mp hpiece
    exact separator_not_mem_uriEncode (.inl rfl) _
  · simp [segments, List.splitOn_ne_nil]

/-! ## The order of the pairs -/

theorem before_iff {p q : Pair} : Before p q ↔ toLex p ≤ toLex q := Prod.Lex.toLex_le_toLex.symm

theorem before_refl (p : Pair) : Before p p := before_iff.mpr (le_refl _)

theorem before_antisymm {p q : Pair} (hpq : Before p q) (hqp : Before q p) : p = q :=
  toLex.injective (le_antisymm (before_iff.mp hpq) (before_iff.mp hqp))

instance : Std.Total Before :=
  ⟨fun p q => by simpa only [before_iff] using le_total (toLex p) (toLex q)⟩

instance : IsTrans Pair Before :=
  ⟨fun p q r => by simpa only [before_iff] using le_trans⟩

theorem sorted_perm (ps : List Pair) : (sorted ps).Perm ps := List.perm_insertionSort _ _

theorem sorted_pairwise (ps : List Pair) : (sorted ps).Pairwise Before :=
  List.pairwise_insertionSort _ _

/-- A list in order is what sorting makes of any list of the same pairs. -/
theorem eq_sorted {ps qs : List Pair} (hperm : ps.Perm qs) (hps : ps.Pairwise Before) :
    ps = sorted qs := by
  apply List.Perm.eq_of_pairwise _ hps (sorted_pairwise qs) (hperm.trans (sorted_perm qs).symm)
  intro p q _ _ hpq hqp
  exact before_antisymm hpq hqp

theorem sorted_eq_iff {ps qs : List Pair} : sorted ps = sorted qs ↔ ps.Perm qs := by
  constructor
  · intro h
    exact (sorted_perm ps).symm.trans (h ▸ sorted_perm qs)
  · intro h
    exact eq_sorted ((sorted_perm ps).trans h) (sorted_pairwise ps)

/-! ## What the forms tell apart -/

theorem canonicalQueryString_eq_iff : canonicalQueryString lib query =
    canonicalQueryString lib query' ↔ (pairs lib query).Perm (pairs lib query') := by
  rw [← sorted_eq_iff, canonicalQueryString_eq, canonicalQueryString_eq]
  constructor
  · intro h
    have hcomponents := congrArg components h
    rw [components_encoded, components_encoded] at hcomponents
    exact (List.map_injective_iff.mpr encodePair_injective) hcomponents
  · intro h
    rw [h]

theorem canonicalUri_eq_iff (hne : path ≠ []) (hne' : path' ≠ []) :
    canonicalUri lib path = canonicalUri lib path' ↔
      (segments path).map (decodeOrOriginal lib) = (segments path').map (decodeOrOriginal lib) := by
  constructor
  · intro h
    have hsegments := congrArg segments h
    rw [segments_encoded hne, segments_encoded hne'] at hsegments
    apply List.map_injective_iff.mpr uriEncode_injective
    simpa only [List.map_map, Function.comp_def] using hsegments
  · intro h
    have hmap : ∀ path : List Char, (segments path).map (fun segment =>
        uriEncode (decodeOrOriginal lib segment) false) =
          ((segments path).map (decodeOrOriginal lib)).map (uriEncode · false) := by
      intro path
      rw [List.map_map]
      rfl
    rw [canonicalUri_eq hne, canonicalUri_eq hne', hmap, hmap, h]

/-- What a sorted query says is what the query said. -/
theorem pairs_canonical (hlib : Documented lib) :
    pairs lib (canonicalQueryString lib query) = sorted (pairs lib query) := by
  rw [canonicalQueryString_eq, pairs, components_encoded, List.map_map]
  conv_rhs => rw [← List.map_id (sorted (pairs lib query))]
  apply List.map_congr_left
  intro p _
  simp only [Function.comp_apply, nameValue_encodePair, decodePair, decodeOrOriginal,
    hlib _, urlDecode_uriEncode, Option.getD_some, id_eq]

theorem decode_ne_nil (hlib : Documented lib) (hs : s ≠ []) : decodeOrOriginal lib s ≠ [] := by
  unfold decodeOrOriginal
  rw [hlib]
  cases hdecoded : urlDecode s with
  | none => exact hs
  | some t =>
    rintro rfl
    exact hs (urlDecodeBytes_eq_nil (urlDecode_eq_some.mp hdecoded).symm)

theorem canonicalUri_ne_nil (hlib : Documented lib) (hne : path ≠ []) :
    canonicalUri lib path ≠ [] := by
  intro h
  have hsegments : segments [] = (segments path).map fun segment =>
      uriEncode (decodeOrOriginal lib segment) false := by
    rw [← segments_encoded hne, h]
  obtain ⟨segment, hsegment, hencoded⟩ := List.map_eq_singleton_iff.mp hsegments.symm
  have hpath : path = segment := by
    calc path = ['/'].intercalate (segments path) := (List.intercalate_splitOn '/').symm
      _ = segment := by rw [hsegment, List.intercalate_singleton]
  apply decode_ne_nil hlib (hpath ▸ hne)
  exact uriEncode_injective hencoded

theorem canonicalUri_idempotent (hlib : Documented lib) (hne : path ≠ []) :
    canonicalUri lib (canonicalUri lib path) = canonicalUri lib path := by
  rw [canonicalUri_eq_iff (canonicalUri_ne_nil hlib hne) hne, segments_encoded hne, List.map_map]
  apply List.map_congr_left
  intro segment _
  simp only [Function.comp_apply, decodeOrOriginal, hlib _, urlDecode_uriEncode, Option.getD_some]

theorem canonicalQueryString_idempotent (hlib : Documented lib) :
    canonicalQueryString lib (canonicalQueryString lib query) = canonicalQueryString lib query := by
  rw [canonicalQueryString_eq_iff, pairs_canonical hlib]
  exact sorted_perm _

/-! ## Spellings of one request -/

/-- Every segment decodes to text. -/
def PathDecodes (path : List Char) : Prop := ∀ segment ∈ segments path, (urlDecode segment).isSome

/-- Every name and every value decodes to text. -/
def QueryDecodes (query : List Char) : Prop :=
  ∀ component ∈ components query, (urlDecode (nameValue component).1).isSome ∧
    (urlDecode (nameValue component).2).isSome

/-- The segments of the path, percent-decoded. -/
def decodedSegments (path : List Char) : List (Option (List Char)) := (segments path).map urlDecode

/-- The names and the values of the query, percent-decoded. -/
def decodedPairs (query : List Char) : List (Option (List Char) × Option (List Char)) :=
  (components query).map fun component =>
    (urlDecode (nameValue component).1, urlDecode (nameValue component).2)

theorem decodedSegments_eq (hlib : Documented lib) (h : PathDecodes path) :
    decodedSegments path = ((segments path).map (decodeOrOriginal lib)).map some := by
  rw [decodedSegments, List.map_map]
  apply List.map_congr_left
  intro segment hsegment
  obtain ⟨t, ht⟩ := Option.isSome_iff_exists.mp (h segment hsegment)
  simp only [Function.comp_apply, decodeOrOriginal, hlib _, ht, Option.getD_some]

theorem decodedPairs_eq (hlib : Documented lib) (h : QueryDecodes query) :
    decodedPairs query = (pairs lib query).map fun p => (some p.1, some p.2) := by
  rw [decodedPairs, pairs, List.map_map]
  apply List.map_congr_left
  intro component hcomponent
  obtain ⟨hname, hvalue⟩ := h component hcomponent
  obtain ⟨name, hname⟩ := Option.isSome_iff_exists.mp hname
  obtain ⟨value, hvalue⟩ := Option.isSome_iff_exists.mp hvalue
  simp only [Function.comp_apply, decodePair, decodeOrOriginal, hlib _, hname, hvalue,
    Option.getD_some]

/-- The canonical forms are canonical: taking them twice changes nothing, the order of the parts
of a query and empty ones among them do not matter, and two paths or two queries get one form
exactly when they decode to the same segments or to the same pairs. -/
theorem forms_canonical (lib : SigningLibrary) (hlib : Documented lib) :
    (∀ path, path ≠ [] → canonicalUri lib (canonicalUri lib path) = canonicalUri lib path) ∧
    (∀ query, canonicalQueryString lib (canonicalQueryString lib query) =
      canonicalQueryString lib query) ∧
    (∀ query query', (components query).Perm (components query') →
      canonicalQueryString lib query = canonicalQueryString lib query') ∧
    (∀ path path', path ≠ [] → path' ≠ [] → PathDecodes path → PathDecodes path' →
      (canonicalUri lib path = canonicalUri lib path' ↔
        decodedSegments path = decodedSegments path')) ∧
    ∀ query query', QueryDecodes query → QueryDecodes query' →
      (canonicalQueryString lib query = canonicalQueryString lib query' ↔
        (decodedPairs query).Perm (decodedPairs query')) := by
  refine ⟨?_, ?_, ?_, ?_, ?_⟩
  · intro path hne
    exact canonicalUri_idempotent hlib hne
  · intro query
    exact canonicalQueryString_idempotent hlib
  · intro query query' hperm
    exact canonicalQueryString_eq_iff.mpr (hperm.map _)
  · intro path path' hne hne' hdecodes hdecodes'
    rw [canonicalUri_eq_iff hne hne', decodedSegments_eq hlib hdecodes,
      decodedSegments_eq hlib hdecodes']
    exact (List.map_injective_iff.mpr (Option.some_injective _)).eq_iff.symm
  · intro query query' hdecodes hdecodes'
    rw [canonicalQueryString_eq_iff, decodedPairs_eq hlib hdecodes, decodedPairs_eq hlib hdecodes']
    have hinjective : Function.Injective fun p : Pair => (some p.1, some p.2) := by
      intro p q h
      simp only [Prod.mk.injEq, Option.some.injEq] at h
      exact Prod.ext h.1 h.2
    exact (List.map_perm_map_iff hinjective).symm

/-- The functions of the signing example, with the documented decoder. -/
def decodingLibrary : SigningLibrary :=
  { ClientSigning.helloLibrary with urlDecode := urlDecode }

theorem forms_canonical_decoding :
    (∀ path, path ≠ [] →
      canonicalUri decodingLibrary (canonicalUri decodingLibrary path) =
        canonicalUri decodingLibrary path) ∧
    (∀ query, canonicalQueryString decodingLibrary (canonicalQueryString decodingLibrary query) =
      canonicalQueryString decodingLibrary query) ∧
    (∀ query query', (components query).Perm (components query') →
      canonicalQueryString decodingLibrary query = canonicalQueryString decodingLibrary query') ∧
    (∀ path path', path ≠ [] → path' ≠ [] → PathDecodes path → PathDecodes path' →
      (canonicalUri decodingLibrary path = canonicalUri decodingLibrary path' ↔
        decodedSegments path = decodedSegments path')) ∧
    ∀ query query', QueryDecodes query → QueryDecodes query' →
      (canonicalQueryString decodingLibrary query = canonicalQueryString decodingLibrary query' ↔
        (decodedPairs query).Perm (decodedPairs query')) :=
  forms_canonical decodingLibrary fun _ => rfl

/-! ## The reference -/

/-- A pair as the reference sorts it. -/
def encodeBoth (p : Pair) : Pair := (uriEncode p.1 false, uriEncode p.2 false)

/-- The canonical query string of the signature's specification: the pairs are encoded first,
and sorted then. -/
def referenceQueryString (lib : SigningLibrary) (query : List Char) : List Char :=
  List.intercalate ['&'] ((sorted ((pairs lib query).map encodeBoth)).map fun p =>
    p.1 ++ '=' :: p.2)

/-- The two orders agree on the pairs of the query. -/
def OrdersAgree (lib : SigningLibrary) (query : List Char) : Prop :=
  ∀ p ∈ pairs lib query, ∀ q ∈ pairs lib query, Before p q → Before (encodeBoth p) (encodeBoth q)

theorem sorted_map_iff {ps : List Pair} : (sorted ps).map encodeBoth = sorted (ps.map encodeBoth) ↔
    ∀ p ∈ ps, ∀ q ∈ ps, Before p q → Before (encodeBoth p) (encodeBoth q) := by
  constructor
  · intro h p hp q hq hpq
    have hencoded : ((sorted ps).map encodeBoth).Pairwise Before := h ▸ sorted_pairwise _
    rw [List.pairwise_map] at hencoded
    obtain ⟨i, hi, rfl⟩ := List.mem_iff_getElem.mp ((sorted_perm ps).mem_iff.mpr hp)
    obtain ⟨j, hj, rfl⟩ := List.mem_iff_getElem.mp ((sorted_perm ps).mem_iff.mpr hq)
    rcases Nat.lt_trichotomy i j with hlt | rfl | hlt
    · exact List.pairwise_iff_getElem.mp hencoded i j hi hj hlt
    · exact before_refl _
    · -- sorted the other way round as well, so the two are one pair
      have hqp := List.pairwise_iff_getElem.mp (sorted_pairwise ps) j i hj hi hlt
      rw [before_antisymm hpq hqp]
      exact before_refl _
  · intro hagree
    apply eq_sorted ((sorted_perm ps).map _)
    rw [List.pairwise_map]
    refine (sorted_pairwise ps).imp_of_mem ?_
    intro p q hp hq hpq
    exact hagree p ((sorted_perm ps).mem_iff.mp hp) q ((sorted_perm ps).mem_iff.mp hq) hpq

/-- What the reference joins are encoded pairs, in its order. -/
theorem map_reference {β : Type} (f : Pair → β) {g : List Char → β}
    (h : ∀ p, f (encodeBoth p) = g (encodePair p)) (query : List Char) :
    ((sorted ((pairs lib query).map encodeBoth)).map fun p => p.1 ++ '=' :: p.2).map g =
      (sorted ((pairs lib query).map encodeBoth)).map f := by
  rw [List.map_map]
  apply List.map_congr_left
  intro p hp
  obtain ⟨q, -, rfl⟩ := List.mem_map.mp ((sorted_perm _).mem_iff.mp hp)
  exact (h q).symm

theorem components_reference (lib : SigningLibrary) (query : List Char) :
    components (referenceQueryString lib query) =
      (sorted ((pairs lib query).map encodeBoth)).map fun p => p.1 ++ '=' :: p.2 := by
  apply components_intercalate
  intro piece hpiece
  obtain ⟨p, hp, rfl⟩ := List.mem_map.mp hpiece
  obtain ⟨q, -, rfl⟩ := List.mem_map.mp ((sorted_perm _).mem_iff.mp hp)
  exact encodePair_piece q

/-- The query string is the reference's exactly when no two of its pairs change places when
they are encoded. -/
theorem reference_iff (lib : SigningLibrary) (query : List Char) :
    canonicalQueryString lib query = referenceQueryString lib query ↔ OrdersAgree lib query := by
  rw [OrdersAgree, ← sorted_map_iff, canonicalQueryString_eq, referenceQueryString]
  constructor
  · intro h
    have hcomponents := congrArg components h
    rw [components_encoded, ← referenceQueryString, components_reference] at hcomponents
    have hpairs := congrArg (List.map nameValue) hcomponents
    rw [List.map_map, map_reference id (fun p => (nameValue_encodePair p).symm), List.map_id] at hpairs
    rw [← hpairs]
    apply List.map_congr_left
    intro p _
    exact (nameValue_encodePair p).symm
  · intro h
    rw [← h, List.map_map]
    rfl

theorem brace_pairs : pairs decodingLibrary "%7B=1&a=2".toList = [(['{'], ['1']), (['a'], ['2'])] := by
  have hdecode : ∀ s t, asBytes t = urlDecodeBytes s → decodeOrOriginal decodingLibrary s = t := by
    intro s t h
    have hdecoded : decodingLibrary.urlDecode s = some t := urlDecode_eq_some.mpr h
    rw [decodeOrOriginal, hdecoded, Option.getD_some]
  have hcomponents : components "%7B=1&a=2".toList = ["%7B=1".toList, "a=2".toList] := by decide
  have hbrace : nameValue "%7B=1".toList = ("%7B".toList, "1".toList) := by decide
  have hletter : nameValue "a=2".toList = ("a".toList, "2".toList) := by decide
  rw [pairs, hcomponents, List.map_cons, List.map_cons, List.map_nil, hbrace, hletter, decodePair,
    decodePair, hdecode "%7B".toList ['{'] (by decide), hdecode "1".toList ['1'] (by decide),
    hdecode "a".toList ['a'] (by decide), hdecode "2".toList ['2'] (by decide)]

/-- The letter a and an opening brace: the brace sorts last as it stands, and first encoded. -/
theorem brace_out_of_order :
    canonicalQueryString decodingLibrary "%7B=1&a=2".toList = "a=2&%7B=1".toList ∧
      referenceQueryString decodingLibrary "%7B=1&a=2".toList = "%7B=1&a=2".toList := by
  rw [canonicalQueryString_eq, referenceQueryString, brace_pairs]
  decide

end LocalStorage.Proofs.CanonicalForms
