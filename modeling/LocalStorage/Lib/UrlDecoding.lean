import Mathlib
import LocalStorage.Lib.Text

namespace LocalStorage.Lib.Text

/-! # Percent-encoding -/

/-- `String::from_utf8`. -/
def fromUtf8 (bytes : List UInt8) : Option (List Char) :=
  bytes.toByteArray.utf8Decode?.map Array.toList

/-- The byte that two hexadecimal digits name. -/
def hexByte (a b : Char) : Option UInt8 := do
  let high ← hexValue a
  let low ← hexValue b
  return UInt8.ofNat (16 * high + low)

/-- The bytes a text stands for when a malformed escape stands for itself. -/
def urlDecodeBytes : List Char → List UInt8
  | [] => []
  | '%' :: a :: b :: s =>
    match hexByte a b with
    | some byte => byte :: urlDecodeBytes s
    | none => 37 :: urlDecodeBytes (a :: b :: s)
  | c :: s => String.utf8EncodeChar c ++ urlDecodeBytes s

/-- `urlencoding::decode`: no text when the bytes are not UTF-8. -/
def urlDecode (s : List Char) : Option (List Char) := fromUtf8 (urlDecodeBytes s)

/-- Bytes that may be written as the character they are; the others become escapes in capital
hexadecimal digits. -/
def percentEncode (keep : Char → Bool) (bytes : List UInt8) : List Char :=
  bytes.flatMap fun byte =>
    if keep (Char.ofUInt8 byte) then [Char.ofUInt8 byte]
    else '%' :: (hexEncode [byte]).map Char.toUpper

/-- What may be kept is ASCII and no percent sign. -/
def Keepable (keep : Char → Bool) : Prop := ∀ c, keep c = true → c.toNat < 128 ∧ c ≠ '%'

variable {keep : Char → Bool} {s t : List Char}

theorem asBytes_eq_iff {bytes : List UInt8} :
    asBytes s = bytes ↔ s.utf8Encode = bytes.toByteArray := by
  constructor
  · rintro rfl
    rfl
  · intro h
    exact List.toByteArray_inj.mp h

theorem fromUtf8_eq_some {bytes : List UInt8} : fromUtf8 bytes = some s ↔ asBytes s = bytes := by
  unfold fromUtf8
  rw [Option.map_eq_some_iff, asBytes_eq_iff]
  constructor
  · rintro ⟨chars, hchars, rfl⟩
    have hsome : bytes.toByteArray.utf8Decode?.isSome = true := by rw [hchars]; rfl
    have hback := ByteArray.utf8Encode_get_utf8Decode? (h := hsome)
    simpa [hchars] using hback
  · intro h
    refine ⟨s.toArray, ?_, rfl⟩
    rw [← h, List.utf8Decode?_utf8Encode]

theorem urlDecode_eq_some : urlDecode s = some t ↔ asBytes t = urlDecodeBytes s := fromUtf8_eq_some

theorem urlDecodeBytes_cons {c : Char} (hc : c ≠ '%') (s : List Char) :
    urlDecodeBytes (c :: s) = String.utf8EncodeChar c ++ urlDecodeBytes s := by
  rw [urlDecodeBytes]
  intro a b s' h
  exact absurd h hc

theorem urlDecodeBytes_escape {a b : Char} {byte : UInt8} (h : hexByte a b = some byte)
    (s : List Char) : urlDecodeBytes ('%' :: a :: b :: s) = byte :: urlDecodeBytes s := by
  rw [urlDecodeBytes, h]

theorem urlDecodeBytes_eq_nil (h : urlDecodeBytes s = []) : s = [] := by
  cases s with
  | nil => rfl
  | cons c s =>
    exfalso
    unfold urlDecodeBytes at h
    split at h
    · rename_i hnil
      cases hnil
    · split at h
      · cases h
      · cases h
    · rename_i d _ _ _
      have hlength := congrArg List.length (List.append_eq_nil_iff.mp h).1
      rw [String.length_utf8EncodeChar, List.length_nil] at hlength
      exact absurd hlength (Nat.ne_of_gt d.utf8Size_pos)

/-- Without malformed escapes the two ways to read a text agree. -/
theorem urlDecodeBytes_of_percentDecode {bytes : List UInt8} (h : percentDecode s = some bytes) :
    urlDecodeBytes s = bytes := by
  fun_induction percentDecode s generalizing bytes with
  | case1 =>
    simp only [Option.some.injEq] at h
    rw [← h, urlDecodeBytes]
  | case2 a b s m n hn hm ih =>
    obtain ⟨rest, hrest, rfl⟩ := Option.map_eq_some_iff.mp h
    have hbyte : hexByte a b = some (UInt8.ofNat (16 * m + n)) := by
      simp only [hexByte, hm, hn, Option.bind_eq_bind, Option.bind_some, Option.pure_def]
    rw [urlDecodeBytes_escape hbyte, ih hrest]
  | case3 => cases h
  | case4 => cases h
  | case5 c s hc ih =>
    obtain ⟨rest, hrest, rfl⟩ := Option.map_eq_some_iff.mp h
    rw [urlDecodeBytes_cons hc, ih hrest]

/-! ## Encoded text -/

/-- A character that is kept stands for its byte. -/
theorem percentDecode_kept {byte : UInt8} {c : Char} (hc : Char.ofUInt8 byte = c)
    (h : c.toNat < 128 ∧ c ≠ '%') (s : List Char) :
    percentDecode (c :: s) = (percentDecode s).map fun bytes => byte :: bytes := by
  have hbyte : UInt8.ofNat c.toNat = byte := by simp [← hc, Char.ofUInt8]
  rw [percentDecode_cons h.2, utf8EncodeChar_of_lt h.1, hbyte]
  rfl

/-- What the encoder writes stands for the bytes it was given. -/
theorem percentDecode_percentEncode (hkeep : Keepable keep) (bytes : List UInt8) :
    percentDecode (percentEncode keep bytes) = some bytes := by
  induction bytes with
  | nil => rfl
  | cons byte bytes ih =>
    unfold percentEncode at ih ⊢
    rw [List.flatMap_cons]
    split
    · rename_i h
      rw [List.singleton_append, percentDecode_kept rfl (hkeep _ h), ih, Option.map_some]
    · rw [List.cons_append, percentDecode_escape, ih, Option.map_some]

theorem urlDecode_percentEncode (hkeep : Keepable keep) (s : List Char) :
    urlDecode (percentEncode keep (asBytes s)) = some s :=
  urlDecode_eq_some.mpr (urlDecodeBytes_of_percentDecode (percentDecode_percentEncode hkeep _)).symm

/-- The encoder writes what may be kept, percent signs and capital hexadecimal digits. -/
theorem mem_percentEncode {bytes : List UInt8} {c : Char} (h : c ∈ percentEncode keep bytes) :
    keep c = true ∨ c = '%' ∨ ∃ n < 16, c = (Nat.digitChar n).toUpper := by
  obtain ⟨byte, -, hmem⟩ := List.mem_flatMap.mp h
  split at hmem
  · rename_i hkept
    rw [List.mem_singleton.mp hmem]
    exact .inl hkept
  · right
    obtain hmark | hdigit := List.mem_cons.mp hmem
    · exact .inl hmark
    · obtain ⟨digit, hmem', rfl⟩ := List.mem_map.mp hdigit
      obtain ⟨n, hn, rfl⟩ := mem_hexEncode hmem'
      exact .inr ⟨n, hn, rfl⟩

/-- A mark that may not be kept does not occur in encoded text. -/
theorem not_mem_percentEncode {bytes : List UInt8} {mark : Char} (hkept : keep mark = false)
    (hpercent : mark ≠ '%') (hdigit : ∀ n : Fin 16, (Nat.digitChar n.val).toUpper ≠ mark) :
    mark ∉ percentEncode keep bytes := by
  intro h
  rcases mem_percentEncode h with hkeep | hmark | ⟨n, hn, hmark⟩
  · rw [hkept] at hkeep
    cases hkeep
  · exact hpercent hmark
  · exact hdigit ⟨n, hn⟩ hmark.symm

end LocalStorage.Lib.Text
