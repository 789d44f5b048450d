import LocalStorage.Handlers
import LocalStorage.Lib.ByteRanges

namespace LocalStorage.Proofs.RangeGrammar
open Lib Lib.Text ByteRange

/-! # What is read as a range -/

/-- The header is `bytes=` and one byte range of digits. -/
def SingleRange (value : String) (r : ByteRange) : Prop :=
  ∃ spec, value.toList = "bytes=".toList ++ spec ∧ Reads Digits spec r

/-- The first and last byte of the range the header asks for, where it has bytes; nothing for
any other header. -/
def Conforms (value : String) (total : Nat) (answer : Option (Nat × Nat)) : Prop :=
  ∀ start stop, answer = some (start, stop) ↔ ∃ r, SingleRange value r ∧
    IsLeast (r.positions total) start ∧ IsGreatest (r.positions total) stop

/-- A range with bytes, but for a plus sign before one of its numbers. -/
def Plus (value : String) (total : Nat) : Prop :=
  ∃ spec r, value.toList = "bytes=".toList ++ spec ∧ Reads Signed spec r ∧ '+' ∈ spec ∧
    r.Below (2 ^ 64) ∧ (r.positions total).Nonempty

/-- A range with bytes one of whose numbers takes more than 64 bits. -/
def Overlong (value : String) (total : Nat) : Prop :=
  ∃ r, SingleRange value r ∧ ¬ r.Below (2 ^ 64) ∧ (r.positions total).Nonempty

variable {value : String} {total start stop : Nat} {spec s t : List Char} {r : ByteRange}

/-! ## The parser -/

/-- What the parser makes of the two sides of the first hyphen. -/
def readHalves (total : Nat) (startStr endStr : List Char) : Option (Nat × Nat) :=
  if startStr = [] then do
    let suffixLen ← parseU64 endStr
    if suffixLen = 0 ∨ total = 0 then none
    else some (total - suffixLen, total - 1)
  else do
    let start ← parseU64 startStr
    let stop ← (if endStr = [] then some (total - 1) else parseU64 endStr : Option Nat)
    if stop < start ∨ total ≤ start then none
    else some (start, min stop (total - 1))

theorem parseRangeHeader_eq : parseRangeHeader value total = some (start, stop) ↔
    ∃ spec s t, value.toList = "bytes=".toList ++ spec ∧ ',' ∉ spec ∧ spec = s ++ '-' :: t ∧
      '-' ∉ s ∧ readHalves total s t = some (start, stop) := by
  simp only [parseRangeHeader, Option.bind_eq_bind, Option.bind_eq_some_iff, stripPrefix_eq_some]
  constructor
  · rintro ⟨spec, hspec, h⟩
    split at h
    · simp at h
    · rename_i hcomma
      obtain ⟨⟨s, t⟩, hsplit, hread⟩ := Option.bind_eq_some_iff.mp h
      obtain ⟨hst, hs⟩ := splitOnce_eq_some.mp hsplit
      exact ⟨spec, s, t, hspec, hcomma, hst, hs, hread⟩
  · rintro ⟨spec, s, t, hspec, hcomma, hst, hs, hread⟩
    refine ⟨spec, hspec, ?_⟩
    rw [if_neg hcomma]
    exact Option.bind_eq_some_iff.mpr ⟨(s, t), splitOnce_eq_some.mpr ⟨hst, hs⟩, hread⟩

/-- Two numbers, one of them missing at most. -/
theorem readHalves_eq_some : readHalves total s t = some (start, stop) ↔
    ∃ r, Halves (fun u n => parseU64 u = some n) s t r ∧ r.window total = some (start, stop) := by
  have hempty : ∀ n, parseU64 [] ≠ some n := fun n => by simp [parseU64]
  constructor
  · intro h
    unfold readHalves at h
    split at h
    · rename_i hs
      subst hs
      obtain ⟨n, hn, h⟩ := Option.bind_eq_some_iff.mp h
      exact ⟨.suffix n, .suffix hn, h⟩
    · obtain ⟨first, hfirst, h⟩ := Option.bind_eq_some_iff.mp h
      obtain ⟨last, hlast, h⟩ := Option.bind_eq_some_iff.mp h
      split at h
      · simp at h
      · rename_i hbounds
        split at hlast
        · rename_i ht
          subst ht
          refine ⟨.onward first, .onward hfirst, ?_⟩
          simp only [Option.some.injEq] at hlast
          subst hlast
          rw [window, if_pos (by omega)]
          simpa using h
        · refine ⟨.between first last, .between hfirst hlast (by omega), ?_⟩
          rw [window, if_pos (by omega)]
          exact h
  · rintro ⟨r, hr, hw⟩
    unfold readHalves
    cases hr with
    | suffix ht =>
      rw [if_pos rfl]
      exact Option.bind_eq_some_iff.mpr ⟨_, ht, hw⟩
    | onward hs =>
      rw [if_neg (fun hnil => hempty _ (hnil ▸ hs))]
      refine Option.bind_eq_some_iff.mpr ⟨_, hs, Option.bind_eq_some_iff.mpr ⟨total - 1, by simp, ?_⟩⟩
      simp only [window] at hw
      split at hw
      · rw [if_neg (by omega)]
        simpa using hw
      · simp at hw
    | between hs ht hle =>
      rw [if_neg (fun hnil => hempty _ (hnil ▸ hs)), if_neg (fun hnil => hempty _ (hnil ▸ ht))]
      refine Option.bind_eq_some_iff.mpr ⟨_, hs, Option.bind_eq_some_iff.mpr ⟨_, ht, ?_⟩⟩
      simp only [window] at hw
      split at hw
      · rw [if_neg (by omega)]
        exact hw
      · simp at hw

/-- The parser reads one range whose numbers may have a plus sign and fit into 64 bits. -/
theorem parseRangeHeader_eq_some : parseRangeHeader value total = some (start, stop) ↔
    ∃ spec r, value.toList = "bytes=".toList ++ spec ∧ Reads Signed spec r ∧ r.Below (2 ^ 64) ∧
      r.window total = some (start, stop) := by
  simp only [parseRangeHeader_eq, readHalves_eq_some, parseU64_eq_some, halves_below_iff]
  constructor
  · rintro ⟨spec, s, t, hvalue, -, hst, -, r, ⟨hr, hbelow⟩, hw⟩
    exact ⟨spec, r, hvalue, ⟨s, t, hst, hr⟩, hbelow, hw⟩
  · rintro ⟨spec, r, hvalue, hr, hbelow, hw⟩
    obtain ⟨s, t, hst, hhalves⟩ := id hr
    exact ⟨spec, s, t, hvalue, hr.comma_not_mem, hst, hhalves.hyphen_not_mem, r,
      ⟨hhalves, hbelow⟩, hw⟩

theorem parseRangeHeader_isSome : (parseRangeHeader value total).isSome = true ↔
    ∃ spec r, value.toList = "bytes=".toList ++ spec ∧ Reads Signed spec r ∧ r.Below (2 ^ 64) ∧
      (r.positions total).Nonempty := by
  rw [Option.isSome_iff_exists]
  constructor
  · intro ⟨⟨start, stop⟩, hparse⟩
    obtain ⟨spec, r, hvalue, hr, hbelow, hwindow⟩ := parseRangeHeader_eq_some.mp hparse
    have hsome : (r.window total).isSome = true := by
      rw [hwindow]
      rfl
    exact ⟨spec, r, hvalue, hr, hbelow, (window_isSome hr.ordered).mp hsome⟩
  · intro ⟨spec, r, hvalue, hr, hbelow, hbytes⟩
    obtain ⟨⟨start, stop⟩, hwindow⟩ :=
      Option.isSome_iff_exists.mp ((window_isSome hr.ordered).mpr hbytes)
    exact ⟨(start, stop), parseRangeHeader_eq_some.mpr ⟨spec, r, hvalue, hr, hbelow, hwindow⟩⟩

/-! ## The grammar -/

/-- The range of the grammar is the one that is read, if any is. -/
theorem SingleRange.parsed_iff (hr : SingleRange value r) (total : Nat) :
    (parseRangeHeader value total).isSome = true ↔
      r.Below (2 ^ 64) ∧ (r.positions total).Nonempty := by
  rw [parseRangeHeader_isSome]
  obtain ⟨spec, hvalue, hread⟩ := hr
  constructor
  · intro ⟨spec', r', hvalue', hread', hbelow, hbytes⟩
    obtain rfl := List.append_cancel_left (hvalue.symm.trans hvalue')
    obtain rfl := hread.signed.unique hread'
    exact ⟨hbelow, hbytes⟩
  · intro ⟨hbelow, hbytes⟩
    exact ⟨spec, r, hvalue, hread.signed, hbelow, hbytes⟩

/-- What the parser accepts and should not: a plus sign. -/
theorem conforms_only_if (h : Conforms value total (parseRangeHeader value total)) :
    ¬ Plus value total ∧ ¬ Overlong value total := by
  constructor
  · intro ⟨spec, r, hvalue, hr, hplus, hbelow, hsome⟩
    obtain ⟨⟨a, b⟩, hw⟩ := Option.isSome_iff_exists.mp ((window_isSome hr.ordered).mpr hsome)
    obtain ⟨_, ⟨spec', hvalue', hr'⟩, -⟩ :=
      (h a b).mp (parseRangeHeader_eq_some.mpr ⟨spec, r, hvalue, hr, hbelow, hw⟩)
    obtain rfl := List.append_cancel_left (hvalue.symm.trans hvalue')
    exact hr'.plus_not_mem hplus
  · intro ⟨r, ⟨spec, hvalue, hr⟩, hlarge, hsome⟩
    obtain ⟨⟨a, b⟩, hw⟩ := Option.isSome_iff_exists.mp ((window_isSome hr.ordered).mpr hsome)
    have hparsed := (h a b).mpr ⟨r, ⟨spec, hvalue, hr⟩, (window_eq_some hr.ordered).mp hw⟩
    obtain ⟨spec', r', hvalue', hr', hbelow, -⟩ := parseRangeHeader_eq_some.mp hparsed
    obtain rfl := List.append_cancel_left (hvalue.symm.trans hvalue')
    exact hlarge (hr.signed.unique hr' ▸ hbelow)

/-- The parser answers by the grammar exactly when no plus sign and no number beyond 64 bits
stands in a range with bytes. -/
theorem conforms_iff : Conforms value total (parseRangeHeader value total) ↔
    ¬ Plus value total ∧ ¬ Overlong value total := by
  refine ⟨conforms_only_if, fun ⟨hplus, hlarge⟩ a b => ⟨fun hparsed => ?_, fun hrange => ?_⟩⟩
  · obtain ⟨spec, r, hvalue, hr, hbelow, hw⟩ := parseRangeHeader_eq_some.mp hparsed
    have hbounds := (window_eq_some hr.ordered).mp hw
    have hdigits : '+' ∉ spec := by
      intro hmem
      exact hplus ⟨spec, r, hvalue, hr, hmem, hbelow, a, hbounds.1.1⟩
    exact ⟨r, ⟨spec, hvalue, hr.digits hdigits⟩, hbounds⟩
  · obtain ⟨r, ⟨spec, hvalue, hr⟩, hbounds⟩ := hrange
    have hbelow : r.Below (2 ^ 64) := by
      by_contra hnot
      exact hlarge ⟨r, ⟨spec, hvalue, hr⟩, hnot, a, hbounds.1.1⟩
    exact parseRangeHeader_eq_some.mpr
      ⟨spec, r, hvalue, hr.signed, hbelow, (window_eq_some hr.ordered).mpr hbounds⟩

/-- `bytes=+0-9` is answered ten bytes; the last `2 ^ 64` bytes of a thousand are answered
nothing, as is a range that ends there. -/
theorem plus_and_overlong :
    parseRangeHeader "bytes=+0-9" 1000 = some (0, 9) ∧
    parseRangeHeader "bytes=-18446744073709551616" 1000 = none ∧
    parseRangeHeader "bytes=0-18446744073709551616" 1000 = none ∧
    ¬ Conforms "bytes=+0-9" 1000 (parseRangeHeader "bytes=+0-9" 1000) ∧
    ¬ Conforms "bytes=-18446744073709551616" 1000
      (parseRangeHeader "bytes=-18446744073709551616" 1000) := by
  have hzero : Signed ['+', '0'] 0 := ⟨['0'], by unfold Digits; decide, by decide⟩
  have hnine : Signed ['9'] 9 := ⟨['9'], by unfold Digits; decide, by decide⟩
  have hlarge : Digits "18446744073709551616".toList (2 ^ 64) := by unfold Digits; decide
  refine ⟨by decide, by decide, by decide, fun h => ?_, fun h => ?_⟩
  · refine (conforms_only_if h).1 ⟨"+0-9".toList, .between 0 9, rfl, ?_, by decide, ?_, 0, ?_⟩
    · exact ⟨['+', '0'], ['9'], rfl, .between hzero hnine (by decide)⟩
    · exact ⟨by decide, by decide⟩
    · exact ⟨by decide, by decide, by decide⟩
  · refine (conforms_only_if h).2 ⟨.suffix (2 ^ 64), ⟨"-18446744073709551616".toList, rfl, ?_⟩, ?_, 0, ?_⟩
    · exact ⟨[], "18446744073709551616".toList, rfl, .suffix hlarge⟩
    · exact fun hlt => absurd hlt (lt_irrefl _)
    · exact ⟨by decide, by decide⟩

end LocalStorage.Proofs.RangeGrammar
