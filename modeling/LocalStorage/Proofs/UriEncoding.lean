import Mathlib
import LocalStorage.Auth
import LocalStorage.Lib.UrlDecoding

namespace LocalStorage.Proofs.UriEncoding
open Lib Lib.Text S3

/-! # Encoded names -/

/-- What `uriEncode` lets pass. -/
def unreserved (preserveSlash : Bool) (c : Char) : Bool :=
  c.isAlphanum || decide (c ∈ ['-', '_', '.', '~']) || (preserveSlash && decide (c = '/'))

theorem uriEncode_eq (s : List Char) (preserveSlash : Bool) :
    uriEncode s preserveSlash = percentEncode (unreserved preserveSlash) (asBytes s) := by
  unfold uriEncode percentEncode
  congr 1
  funext byte
  simp only [unreserved, Bool.or_eq_true, or_assoc]
  split
  · rename_i hkept
    rw [if_pos]
    rcases hkept with h | h
    · exact .inl h
    · exact .inr (.inl h)
  · rename_i hnot
    rw [not_or] at hnot
    split
    · rename_i hslash
      rw [if_pos (.inr (.inr hslash))]
    · rename_i hslash
      rw [if_neg]
      rintro (h | h | h)
      · exact hnot.1 h
      · exact hnot.2 h
      · exact hslash h

theorem isAlphanum_bounds {c : Char} (h : c.isAlphanum = true) : 48 ≤ c.toNat ∧ c.toNat ≤ 122 := by
  simp only [Char.isAlphanum, Char.isAlpha, Char.isUpper, Char.isLower, Char.isDigit,
    Bool.or_eq_true, Bool.and_eq_true, decide_eq_true_eq, UInt32.le_iff_toNat_le] at h
  have hval : c.toNat = c.val.toNat := rfl
  simp at h
  omega

/-- What passes the encoder is ASCII and no percent sign. -/
theorem keepable_unreserved (preserveSlash : Bool) : Keepable (unreserved preserveSlash) := by
  intro c h
  constructor
  · simp only [unreserved, Bool.or_eq_true, Bool.and_eq_true, decide_eq_true_eq, List.mem_cons,
      List.not_mem_nil, or_false] at h
    rcases h with (h | rfl | rfl | rfl | rfl) | ⟨-, rfl⟩
    · exact Nat.lt_of_le_of_lt (isAlphanum_bounds h).2 (by decide)
    · decide
    · decide
    · decide
    · decide
    · decide
  · rintro rfl
    revert h
    cases preserveSlash <;> decide

theorem percentDecode_uriEncode (s : List Char) (preserveSlash : Bool) :
    percentDecode (uriEncode s preserveSlash) = some (asBytes s) := by
  rw [uriEncode_eq]
  exact percentDecode_percentEncode (keepable_unreserved _) _

theorem urlDecode_uriEncode (s : List Char) (preserveSlash : Bool) :
    urlDecode (uriEncode s preserveSlash) = some s := by
  rw [uriEncode_eq]
  exact urlDecode_percentEncode (keepable_unreserved _) s

theorem uriEncode_injective : Function.Injective (uriEncode · false) := by
  intro s t h
  have hdecoded := urlDecode_uriEncode s false
  rw [show uriEncode s false = uriEncode t false from h, urlDecode_uriEncode,
    Option.some.injEq] at hdecoded
  exact hdecoded.symm

/-- No separator of a path or a query occurs in an encoded name. -/
theorem separator_not_mem_uriEncode {mark : Char} (h : mark = '/' ∨ mark = '&' ∨ mark = '=')
    (s : List Char) : mark ∉ uriEncode s false := by
  rw [uriEncode_eq]
  rcases h with rfl | rfl | rfl
  · exact not_mem_percentEncode (by decide) (by decide) (by decide)
  · exact not_mem_percentEncode (by decide) (by decide) (by decide)
  · exact not_mem_percentEncode (by decide) (by decide) (by decide)

end LocalStorage.Proofs.UriEncoding
