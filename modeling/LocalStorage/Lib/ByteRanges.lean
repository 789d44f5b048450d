import LocalStorage.Lib.Text
import Mathlib.Order.Bounds.Basic

namespace LocalStorage.Lib

/-! # Byte ranges -/

/-- A `byte-range-spec` or `suffix-byte-range-spec` of RFC 7233. -/
inductive ByteRange where
  | between (first last : Nat)
  | onward (first : Nat)
  | suffix (length : Nat)
deriving DecidableEq, Repr

namespace ByteRange
open Text

/-- The bytes it asks for of `total` bytes. -/
def positions : ByteRange → Nat → Set Nat
  | between first last, total => {i | first ≤ i ∧ i ≤ last ∧ i < total}
  | onward first, total => {i | first ≤ i ∧ i < total}
  | suffix length, total => {i | total - length ≤ i ∧ i < total}

/-- The first and the last of them. -/
def window : ByteRange → Nat → Option (Nat × Nat)
  | between first last, total => if first < total then some (first, min last (total - 1)) else none
  | onward first, total => if first < total then some (first, total - 1) else none
  | suffix length, total =>
    if length = 0 ∨ total = 0 then none else some (total - length, total - 1)

def Ordered : ByteRange → Prop
  | between first last => first ≤ last
  | _ => True

/-- Every number in it is below the limit. -/
def Below (limit : Nat) : ByteRange → Prop
  | between first last => first < limit ∧ last < limit
  | onward first => first < limit
  | suffix length => length < limit

/-- The two sides of the hyphen, their numbers written as `Num` has them. -/
inductive Halves (Num : List Char → Nat → Prop) : List Char → List Char → ByteRange → Prop where
  | between {s t : List Char} {first last : Nat} (hs : Num s first) (ht : Num t last)
      (hle : first ≤ last) : Halves Num s t (.between first last)
  | onward {s : List Char} {first : Nat} (hs : Num s first) : Halves Num s [] (.onward first)
  | suffix {t : List Char} {length : Nat} (ht : Num t length) : Halves Num [] t (.suffix length)

/-- `spec` is one range. -/
def Reads (Num : List Char → Nat → Prop) (spec : List Char) (r : ByteRange) : Prop :=
  ∃ s t, spec = s ++ '-' :: t ∧ Halves Num s t r

variable {Num Num' : List Char → Nat → Prop} {r r' : ByteRange} {s t spec : List Char}
  {a b limit total : Nat}

theorem isLeast_isGreatest_iff {P : Nat → Prop} (low high : Nat) (hle : low ≤ high)
    (hP : ∀ i, P i ↔ low ≤ i ∧ i ≤ high) :
    IsLeast {i | P i} a ∧ IsGreatest {i | P i} b ↔ low = a ∧ high = b := by
  simp only [IsLeast, IsGreatest, lowerBounds, upperBounds, Set.mem_ofPred_eq, hP]
  constructor
  · rintro ⟨⟨⟨ha, -⟩, hleast⟩, ⟨-, hb⟩, hgreatest⟩
    have := hleast ⟨le_refl low, hle⟩
    have := hgreatest ⟨hle, le_refl high⟩
    omega
  · rintro ⟨rfl, rfl⟩
    exact ⟨⟨⟨le_refl _, hle⟩, fun i hi => hi.1⟩, ⟨hle, le_refl _⟩, fun i hi => hi.2⟩

theorem window_eq_some (hr : r.Ordered) : r.window total = some (a, b) ↔
    IsLeast (r.positions total) a ∧ IsGreatest (r.positions total) b := by
  have hempty : ∀ {P : Nat → Prop}, (∀ i, ¬ P i) →
      (False ↔ IsLeast {i | P i} a ∧ IsGreatest {i | P i} b) := by
    intro P hP
    exact ⟨False.elim, fun h => hP a h.1.1⟩
  cases r with
  | between first last =>
    have hle : first ≤ last := hr
    simp only [window, positions]
    split
    · rw [isLeast_isGreatest_iff first (min last (total - 1)) (by omega)
        (fun i => by omega)]
      simp
    · simpa using hempty fun i => by omega
  | onward first =>
    simp only [window, positions]
    split
    · rw [isLeast_isGreatest_iff first (total - 1) (by omega) (fun i => by omega)]
      simp
    · simpa using hempty fun i => by omega
  | suffix length =>
    simp only [window, positions]
    split
    · simpa using hempty fun i => by omega
    · rw [isLeast_isGreatest_iff (total - length) (total - 1) (by omega)
        (fun i => by omega)]
      simp

/-- A range is satisfiable when it has bytes. -/
theorem window_isSome (hr : r.Ordered) :
    (r.window total).isSome = true ↔ (r.positions total).Nonempty := by
  constructor
  · intro h
    obtain ⟨⟨a, b⟩, hw⟩ := Option.isSome_iff_exists.mp h
    exact ⟨a, ((window_eq_some hr).mp hw).1.1⟩
  · rintro ⟨i, hi⟩
    cases r <;> simp only [positions, Set.mem_ofPred_eq] at hi <;> simp only [window]
    · rw [if_pos (by omega)]
      rfl
    · rw [if_pos (by omega)]
      rfl
    · rw [if_neg (by omega)]
      rfl

theorem Halves.ordered (h : Halves Num s t r) : r.Ordered := by
  cases h with
  | between hs ht hle => exact hle
  | onward hs => trivial
  | suffix ht => trivial

theorem Reads.ordered (h : Reads Num spec r) : r.Ordered := by
  obtain ⟨s, t, -, hhalves⟩ := h
  exact hhalves.ordered

theorem Halves.mono (h : Halves Num s t r) (hnum : ∀ u n, (u = s ∨ u = t) → Num u n → Num' u n) :
    Halves Num' s t r := by
  cases h with
  | between hs ht hle => exact .between (hnum _ _ (.inl rfl) hs) (hnum _ _ (.inr rfl) ht) hle
  | onward hs => exact .onward (hnum _ _ (.inl rfl) hs)
  | suffix ht => exact .suffix (hnum _ _ (.inr rfl) ht)

theorem Reads.mono (h : Reads Num spec r) (hnum : ∀ u n, Num u n → Num' u n) :
    Reads Num' spec r := by
  obtain ⟨s, t, hspec, hhalves⟩ := h
  exact ⟨s, t, hspec, hhalves.mono fun u n _ => hnum u n⟩

/-- Reading numbers below a limit is reading numbers, and all below the limit. -/
theorem halves_below_iff :
    Halves (fun u n => Num u n ∧ n < limit) s t r ↔ Halves Num s t r ∧ r.Below limit := by
  constructor
  · intro h
    cases h with
    | between hs ht hle => exact ⟨.between hs.1 ht.1 hle, hs.2, ht.2⟩
    | onward hs => exact ⟨.onward hs.1, hs.2⟩
    | suffix ht => exact ⟨.suffix ht.1, ht.2⟩
  · rintro ⟨h, hlimit⟩
    cases h with
    | between hs ht hle => exact .between ⟨hs, hlimit.1⟩ ⟨ht, hlimit.2⟩ hle
    | onward hs => exact .onward ⟨hs, hlimit⟩
    | suffix ht => exact .suffix ⟨ht, hlimit⟩

/-! ## Numbers of digits, with or without a sign -/

theorem Halves.chars (h : Halves Signed s t r) :
    ∀ c ∈ s ++ t, c.isDigit = true ∨ c = '+' := by
  cases h with
  | between hs ht hle => simpa [or_imp, forall_and] using ⟨hs.chars, ht.chars⟩
  | onward hs => simpa using hs.chars
  | suffix ht => simpa using ht.chars

theorem Halves.hyphen_not_mem (h : Halves Signed s t r) : '-' ∉ s := by
  intro hmem
  simpa using h.chars '-' (List.mem_append_left t hmem)

theorem Reads.comma_not_mem (h : Reads Signed spec r) : ',' ∉ spec := by
  obtain ⟨s, t, rfl, hhalves⟩ := h
  intro hmem
  have hmem' : ',' ∈ s ++ t := by
    simpa using hmem
  simpa using hhalves.chars ',' hmem'

theorem Halves.unique (h : Halves Signed s t r) (h' : Halves Signed s t r') : r = r' := by
  cases h with
  | between hs ht hle =>
    cases h' with
    | between hs' ht' _ => rw [hs.unique hs', ht.unique ht']
    | onward hs' => exact absurd rfl ht.ne_nil
    | suffix ht' => exact absurd rfl hs.ne_nil
  | onward hs =>
    cases h' with
    | between hs' ht' _ => exact absurd rfl ht'.ne_nil
    | onward hs' => rw [hs.unique hs']
    | suffix ht' => exact absurd rfl hs.ne_nil
  | suffix ht =>
    cases h' with
    | between hs' ht' _ => exact absurd rfl hs'.ne_nil
    | onward hs' => exact absurd rfl hs'.ne_nil
    | suffix ht' => rw [ht.unique ht']

/-- A text is one range at most. -/
theorem Reads.unique (h : Reads Signed spec r) (h' : Reads Signed spec r') : r = r' := by
  obtain ⟨s, t, rfl, hhalves⟩ := h
  obtain ⟨s', t', hsame, hhalves'⟩ := h'
  have hsplit : splitOnce '-' (s ++ '-' :: t) = some (s, t) :=
    splitOnce_eq_some.mpr ⟨rfl, hhalves.hyphen_not_mem⟩
  have hsplit' : splitOnce '-' (s ++ '-' :: t) = some (s', t') :=
    splitOnce_eq_some.mpr ⟨hsame, hhalves'.hyphen_not_mem⟩
  rw [hsplit] at hsplit'
  simp only [Option.some.injEq, Prod.mk.injEq] at hsplit'
  obtain ⟨rfl, rfl⟩ := hsplit'
  exact hhalves.unique hhalves'

theorem Reads.signed (h : Reads Digits spec r) : Reads Signed spec r :=
  h.mono fun _ _ hn => hn.signed

/-- Without a plus sign the numbers are digits only. -/
theorem Reads.digits (h : Reads Signed spec r) (hplus : '+' ∉ spec) : Reads Digits spec r := by
  obtain ⟨s, t, rfl, hhalves⟩ := h
  refine ⟨s, t, rfl, hhalves.mono fun u n hu hn => hn.digits fun hmem => hplus ?_⟩
  rcases hu with rfl | rfl <;> simp [hmem]

theorem Reads.plus_not_mem (h : Reads Digits spec r) : '+' ∉ spec := by
  obtain ⟨s, t, rfl, hhalves⟩ := h
  intro hplus
  have hplus : '+' ∈ s ∨ '+' ∈ t := by simpa using hplus
  cases hhalves with
  | between hs ht hle => exact hplus.elim hs.plus_not_mem ht.plus_not_mem
  | onward hs => exact hplus.elim hs.plus_not_mem List.not_mem_nil
  | suffix ht => exact hplus.elim List.not_mem_nil ht.plus_not_mem

end ByteRange

end LocalStorage.Lib
