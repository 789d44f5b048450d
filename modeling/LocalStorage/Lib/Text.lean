import Mathlib.Algebra.Group.Nat.Defs
import Mathlib.Algebra.Ring.Int.Defs
import Mathlib.Data.List.Infix
import Mathlib.Data.List.DropRight
import Mathlib.Data.List.TakeWhile
import Mathlib.Data.Char

namespace LocalStorage.Lib.Text

variable {α : Type} [DecidableEq α]

section Characters
variable {P : Char → Prop} [DecidablePred P]

-- of a text its own characters are looked at, not all there are
instance decidableAll (s : List Char) : Decidable (∀ c ∈ s, P c) := List.decidableBAll P s

instance decidableAny (c : Option Char) : Decidable (∀ d ∈ c, P d) := c.decidableForallMem

end Characters

/-- Take a suffix off as often as it is there; every round takes off at least one letter. -/
def trimRounds (suffix : List α) : Nat → List α → List α
  | 0, s => s
  | n + 1, s => if suffix <:+ s then trimRounds suffix n (s.take (s.length - suffix.length)) else s

/-- `str::trim_end_matches` with a string pattern. -/
def trimEndMatches (suffix s : List α) : List α := trimRounds suffix s.length s

/-- `str::split_once` with a character pattern. -/
def splitOnce (sep : α) (s : List α) : Option (List α × List α) :=
  if sep ∈ s then some (s.takeWhile (· ≠ sep), (s.dropWhile (· ≠ sep)).tail) else none

/-- `str::strip_prefix` with a string pattern. -/
def stripPrefix (start s : List α) : Option (List α) :=
  if start <+: s then some (s.drop start.length) else none

/-- `str::parse` for an unsigned number of 64 bits: one leading plus sign is read over, and
a number too large is an error. -/
def parseU64 (s : List Char) : Option Nat :=
  let digits := if s.head? = some '+' then s.tail else s
  if digits = [] then none
  else
    digits.foldlM (fun n c =>
      let next := 10 * n + (c.toNat - '0'.toNat)
      if c.isDigit && next < 2 ^ 64 then some next else none) 0

/-- `str::parse` for a signed number of 64 bits. -/
def parseI64 (s : List Char) : Option Int :=
  let value (digits : List Char) : Option Nat :=
    if digits ≠ [] ∧ digits.all Char.isDigit then some (Nat.ofDigitChars 10 digits 0) else none
  match s with
  | '-' :: digits => (value digits).bind fun n => if n ≤ 2 ^ 63 then some (-n) else none
  | '+' :: digits => (value digits).bind fun n => if n < 2 ^ 63 then some (n : Int) else none
  | digits => (value digits).bind fun n => if n < 2 ^ 63 then some (n : Int) else none

/-- `char::is_whitespace`. -/
def isWhitespace (c : Char) : Bool :=
  let n := c.toNat
  (9 ≤ n && n ≤ 13) || n = 32 || n = 133 || n = 160 || n = 5760 || (8192 ≤ n && n ≤ 8202) ||
    n = 8232 || n = 8233 || n = 8239 || n = 8287 || n = 12288

/-- `str::trim`. -/
def trim (s : List Char) : List Char := (s.dropWhile isWhitespace).rdropWhile isWhitespace

/-- What stands before the first occurrence of `sep`, and what after it. -/
def splitAtText (sep : List α) : List α → Option (List α × List α)
  | [] => if sep = [] then some ([], []) else none
  | c :: s =>
    if sep <+: c :: s then some ([], (c :: s).drop sep.length)
    else (splitAtText sep s).map fun (l, r) => (c :: l, r)

/-- `str::splitn` with a character pattern: the last piece keeps the rest. -/
def splitN (sep : α) : Nat → List α → List (List α)
  | 0, _ => []
  | 1, s => [s]
  | n + 2, s =>
    match splitOnce sep s with
    | none => [s]
    | some (l, r) => l :: splitN sep (n + 1) r

/-- `str::split_whitespace`. -/
def splitWhitespace (s : List Char) : List (List Char) :=
  (s.splitOnP isWhitespace).filter (· ≠ [])

/-- `str::as_bytes`. -/
def asBytes (s : List Char) : List UInt8 := s.flatMap String.utf8EncodeChar

/-- `hex::encode`. -/
def hexEncode (bytes : List UInt8) : List Char :=
  bytes.flatMap fun b => [Nat.digitChar (b.toNat / 16), Nat.digitChar (b.toNat % 16)]

/-- The value of a hexadecimal digit, small or capital. -/
def hexValue (c : Char) : Option Nat :=
  if c.isDigit then some (c.toNat - '0'.toNat)
  else if 'a' ≤ c ∧ c ≤ 'f' then some (c.toNat - 'a'.toNat + 10)
  else if 'A' ≤ c ∧ c ≤ 'F' then some (c.toNat - 'A'.toNat + 10)
  else none

/-- The bytes a percent-encoded text stands for. -/
def percentDecode : List Char → Option (List UInt8)
  | [] => some []
  | c :: s =>
    if c = '%' then
      match s with
      | a :: b :: s =>
        match hexValue a, hexValue b with
        | some m, some n => (percentDecode s).map fun bytes => UInt8.ofNat (16 * m + n) :: bytes
        | _, _ => none
      | _ => none
    else (percentDecode s).map fun bytes => String.utf8EncodeChar c ++ bytes

/-- A decimal number of any length, in digits only. -/
def Digits (s : List Char) (n : Nat) : Prop :=
  s ≠ [] ∧ (∀ c ∈ s, c.isDigit = true) ∧ Nat.ofDigitChars 10 s 0 = n

/-- The same with one plus sign before it, or none. -/
def Signed (s : List Char) (n : Nat) : Prop := ∃ ds, Digits ds n ∧ (s = ds ∨ s = '+' :: ds)

theorem stripPrefix_eq_some {start s rest : List α} :
    stripPrefix start s = some rest ↔ s = start ++ rest := by
  unfold stripPrefix
  constructor
  · intro h
    split at h
    · rename_i hprefix
      obtain ⟨tail, rfl⟩ := hprefix
      simpa using h
    · simp at h
  · rintro rfl
    simp

theorem splitOnce_eq_some {sep : α} {s l r : List α} :
    splitOnce sep s = some (l, r) ↔ s = l ++ sep :: r ∧ sep ∉ l := by
  unfold splitOnce
  constructor
  · intro h
    split at h
    · rename_i hmem
      simp only [Option.some.injEq, Prod.mk.injEq] at h
      obtain ⟨rfl, rfl⟩ := h
      have hrest : s.dropWhile (· ≠ sep) ≠ [] := by
        intro hnil
        rw [List.dropWhile_eq_nil_iff] at hnil
        simpa using hnil sep hmem
      have hhead : (s.dropWhile (· ≠ sep)).head hrest = sep := by
        simpa using List.head_dropWhile_not (· ≠ sep) hrest
      have hjoin : sep :: (s.dropWhile (· ≠ sep)).tail = s.dropWhile (· ≠ sep) := by
        have hcons := List.cons_head_tail hrest
        rwa [hhead] at hcons
      constructor
      · rw [hjoin, List.takeWhile_append_dropWhile]
      · intro hsep
        simpa using List.mem_takeWhile_imp hsep
    · simp at h
  · rintro ⟨rfl, hl⟩
    have hall : ∀ x ∈ l, decide (x ≠ sep) = true := by
      intro x hx
      simp only [decide_eq_true_eq]
      rintro rfl
      exact hl hx
    rw [List.takeWhile_append_of_pos hall, List.dropWhile_append_of_pos hall]
    simp

/-- What stands before a text whose first letter does not occur there. -/
theorem splitAtText_append {first : α} {sep l : List α} (h : first ∉ l) (r : List α) :
    splitAtText (first :: sep) (l ++ (first :: sep ++ r)) = some (l, r) := by
  induction l with
  | nil =>
    rw [List.nil_append, List.cons_append, splitAtText, ← List.cons_append,
      if_pos (List.prefix_append _ _), List.drop_left]
  | cons c l ih =>
    have hc : first ≠ c := List.ne_of_not_mem_cons h
    have hl : first ∉ l := List.not_mem_of_not_mem_cons h
    rw [List.cons_append, splitAtText, ih hl, if_neg, Option.map_some]
    intro hprefixed
    exact hc (List.cons_prefix_cons.mp hprefixed).1

/-- A text with a letter that does not occur is not found. -/
theorem splitAtText_none {sep s : List α} {c : α} (hc : c ∈ sep) (hs : c ∉ s) :
    splitAtText sep s = none := by
  induction s with
  | nil =>
    rw [splitAtText, if_neg]
    rintro rfl
    cases hc
  | cons d s ih =>
    rw [splitAtText, if_neg, ih (fun h => hs (List.mem_cons_of_mem d h)), Option.map_none]
    intro hprefixed
    exact hs (hprefixed.subset hc)

/-! ## Numbers -/

theorem ofDigitChars_ge (ds : List Char) (n : Nat) : n ≤ Nat.ofDigitChars 10 ds n := by
  induction ds generalizing n with
  | nil => simp
  | cons d ds ih =>
    rw [Nat.ofDigitChars_cons]
    have := ih (10 * n + (d.toNat - '0'.toNat))
    omega

/-- The loop of `parseU64` from any number read so far. -/
theorem foldDigits_eq_some {ds : List Char} {m n : Nat} (hm : m < 2 ^ 64) :
    ds.foldlM (fun n c =>
      let next := 10 * n + (c.toNat - '0'.toNat)
      if c.isDigit && next < 2 ^ 64 then some next else none) m = some n ↔
    (∀ c ∈ ds, c.isDigit = true) ∧ Nat.ofDigitChars 10 ds m = n ∧ n < 2 ^ 64 := by
  induction ds generalizing m with
  | nil =>
    simp only [List.foldlM_nil, pure, Option.some.injEq, List.not_mem_nil, false_implies,
      implies_true, true_and, Nat.ofDigitChars_nil]
    exact ⟨fun h => ⟨h, h ▸ hm⟩, fun h => h.1⟩
  | cons d ds ih =>
    rw [List.foldlM_cons, Nat.ofDigitChars_cons]
    by_cases hd : d.isDigit = true ∧ 10 * m + (d.toNat - '0'.toNat) < 2 ^ 64
    · simp only [hd.1, hd.2, decide_true, Bool.and_self, ↓reduceIte, bind, Option.bind_some, ih hd.2,
        List.forall_mem_cons, true_and]
    · have hfalse : (d.isDigit && decide (10 * m + (d.toNat - '0'.toNat) < 2 ^ 64)) = false := by
        simpa using hd
      simp only [hfalse, Bool.false_eq_true, ↓reduceIte, bind, Option.bind_none, reduceCtorEq,
        List.forall_mem_cons, false_iff]
      rintro ⟨⟨hdigit, -⟩, rfl, hbound⟩
      have := ofDigitChars_ge ds (10 * m + (d.toNat - '0'.toNat))
      exact hd ⟨hdigit, by omega⟩

theorem parseU64_eq_some {s : List Char} {n : Nat} :
    parseU64 s = some n ↔ Signed s n ∧ n < 2 ^ 64 := by
  unfold parseU64
  dsimp only
  constructor
  · intro h
    generalize hds : (if s.head? = some '+' then s.tail else s) = ds at h
    have hs : s = ds ∨ s = '+' :: ds := by
      split at hds
      · rename_i hplus
        obtain ⟨rest, rfl⟩ := List.head?_eq_some_iff.mp hplus
        exact .inr (by rw [← hds, List.tail_cons])
      · exact .inl hds
    split at h
    · simp at h
    · rename_i hne
      obtain ⟨hdigits, hvalue, hbound⟩ := (foldDigits_eq_some (by decide)).mp h
      exact ⟨⟨ds, ⟨hne, hdigits, hvalue⟩, hs⟩, hbound⟩
  · rintro ⟨⟨ds, ⟨hne, hdigits, hvalue⟩, hs⟩, hbound⟩
    have hsame : (if s.head? = some '+' then s.tail else s) = ds := by
      rcases hs with rfl | rfl
      · refine if_neg fun hplus => ?_
        have hmem := hdigits '+' (List.mem_of_head? hplus)
        simp at hmem
      · simp
    rw [hsame, if_neg hne]
    exact (foldDigits_eq_some (by decide)).mpr ⟨hdigits, hvalue, hbound⟩

theorem Digits.signed {s : List Char} {n : Nat} (h : Digits s n) : Signed s n := ⟨s, h, .inl rfl⟩

theorem Digits.unique {s : List Char} {m n : Nat} (hm : Digits s m) (hn : Digits s n) : m = n :=
  hm.2.2.symm.trans hn.2.2

theorem Digits.plus_not_mem {s : List Char} {n : Nat} (h : Digits s n) : '+' ∉ s := by
  intro hplus
  have := h.2.1 '+' hplus
  simp at this

/-- Without a plus sign it is digits only. -/
theorem Signed.digits {s : List Char} {n : Nat} (h : Signed s n) (hplus : '+' ∉ s) : Digits s n := by
  obtain ⟨ds, hds, rfl | rfl⟩ := h
  · exact hds
  · simp at hplus

theorem Signed.unique {s : List Char} {m n : Nat} (hm : Signed s m) (hn : Signed s n) : m = n := by
  obtain ⟨ds, hds, h⟩ := hm
  obtain ⟨es, hes, h'⟩ := hn
  rcases h with rfl | rfl <;> rcases h' with h' | h'
  · exact hds.unique (h' ▸ hes)
  · exact absurd (h' ▸ List.mem_cons_self) hds.plus_not_mem
  · exact absurd (h' ▸ List.mem_cons_self) hes.plus_not_mem
  · obtain rfl := List.tail_eq_of_cons_eq h'
    exact hds.unique hes

theorem Signed.ne_nil {s : List Char} {n : Nat} (h : Signed s n) : s ≠ [] := by
  obtain ⟨ds, hds, rfl | rfl⟩ := h
  · exact hds.1
  · simp

theorem Signed.chars {s : List Char} {n : Nat} (h : Signed s n) :
    ∀ c ∈ s, c.isDigit = true ∨ c = '+' := by
  obtain ⟨ds, hds, rfl | rfl⟩ := h
  · exact fun c hc => .inl (hds.2.1 c hc)
  · intro c hc
    obtain rfl | hc := List.mem_cons.mp hc
    · exact .inr rfl
    · exact .inl (hds.2.1 c hc)

theorem trimRounds_of_not_suffix {suffix s : List α} (h : ¬ suffix <:+ s) (n : Nat) :
    trimRounds suffix n s = s := by
  cases n with
  | zero => rfl
  | succ n => rw [trimRounds, if_neg h]

theorem trimEndMatches_of_not_suffix {suffix s : List α} (h : ¬ suffix <:+ s) :
    trimEndMatches suffix s = s :=
  trimRounds_of_not_suffix h _

/-- A suffix that is there once is taken off once. -/
theorem trimEndMatches_append {suffix s : List α} (hne : suffix ≠ []) (h : ¬ suffix <:+ s) :
    trimEndMatches suffix (s ++ suffix) = s := by
  obtain ⟨n, hn⟩ : ∃ n, (s ++ suffix).length = n + 1 := by
    have hpos := List.length_pos_of_ne_nil hne
    exact ⟨s.length + suffix.length - 1, by rw [List.length_append]; omega⟩
  have htake : (s ++ suffix).take ((s ++ suffix).length - suffix.length) = s := by simp
  rw [trimEndMatches, hn, trimRounds, if_pos (List.suffix_append s suffix), htake]
  exact trimRounds_of_not_suffix h n

/-! ## Pieces -/

theorem splitN_ne_nil (sep : α) (n : Nat) (s : List α) : splitN sep (n + 1) s ≠ [] := by
  cases n with
  | zero => simp [splitN]
  | succ n =>
    simp only [splitN]
    split <;> simp

theorem splitN_append {sep : α} {l : List α} (h : sep ∉ l) (r : List α) (n : Nat) :
    splitN sep (n + 2) (l ++ sep :: r) = l :: splitN sep (n + 1) r := by
  simp only [splitN, splitOnce_eq_some.mpr ⟨rfl, h⟩]

/-- Every piece but the last is free of the separator. -/
theorem not_mem_of_mem_splitN {sep : α} {n : Nat} {s p : List α}
    (h : p ∈ (splitN sep (n + 1) s).dropLast) : sep ∉ p := by
  induction n generalizing s with
  | zero => simp [splitN] at h
  | succ n ih =>
    simp only [splitN] at h
    split at h
    · simp at h
    · rename_i l r hs
      rw [List.dropLast_cons_of_ne_nil (splitN_ne_nil sep n r)] at h
      obtain rfl | h := List.mem_cons.mp h
      · exact (splitOnce_eq_some.mp hs).2
      · exact ih h

theorem intercalate_splitN (sep : α) (n : Nat) (s : List α) :
    [sep].intercalate (splitN sep (n + 1) s) = s := by
  induction n generalizing s with
  | zero => simp [splitN]
  | succ n ih =>
    simp only [splitN]
    cases hs : splitOnce sep s with
    | none => simp
    | some lr =>
      obtain ⟨l, r⟩ := lr
      obtain ⟨rfl, -⟩ := splitOnce_eq_some.mp hs
      rw [List.intercalate_cons_of_ne_nil (splitN_ne_nil sep n r), ih]
      simp

omit [DecidableEq α] in
/-- No piece holds a character that was split at. -/
theorem eq_false_of_mem_splitOnP {p : α → Bool} {s piece : List α} (h : piece ∈ s.splitOnP p) {c : α}
    (hc : c ∈ piece) : p c = false := by
  induction s generalizing piece with
  | nil =>
    obtain rfl : piece = [] := by simpa using h
    simp at hc
  | cons d s ih =>
    rw [List.splitOnP_cons_eq_if_modifyHead] at h
    split at h
    · obtain rfl | h := List.mem_cons.mp h
      · simp at hc
      · exact ih h hc
    · rename_i hd
      obtain ⟨head, rest, hrest⟩ := List.exists_cons_of_ne_nil (List.splitOnP_ne_nil p s)
      rw [hrest, List.modifyHead_cons] at h
      obtain rfl | h := List.mem_cons.mp h
      · obtain rfl | hc := List.mem_cons.mp hc
        · simpa using hd
        · exact ih (hrest ▸ List.mem_cons_self) hc
      · exact ih (hrest ▸ List.mem_cons_of_mem _ h) hc

theorem not_mem_of_mem_splitOn {a : α} {s piece : List α} (h : piece ∈ s.splitOn a) : a ∉ piece := by
  intro ha
  rw [List.splitOn_eq_splitOnP] at h
  simpa using eq_false_of_mem_splitOnP h ha

omit [DecidableEq α] in
theorem mem_of_mem_intercalate {sep : α} {pieces : List (List α)} {c : α}
    (h : c ∈ [sep].intercalate pieces) : c = sep ∨ ∃ piece ∈ pieces, c ∈ piece := by
  induction pieces with
  | nil => simp at h
  | cons piece pieces ih =>
    cases pieces with
    | nil =>
      rw [List.intercalate_singleton] at h
      exact .inr ⟨piece, List.mem_cons_self, h⟩
    | cons next rest =>
      rw [List.intercalate_cons_cons] at h
      simp only [List.mem_append, List.mem_singleton] at h
      obtain (h | rfl) | h := h
      · exact .inr ⟨piece, List.mem_cons_self, h⟩
      · exact .inl rfl
      · obtain rfl | ⟨other, hother, hc⟩ := ih h
        · exact .inl rfl
        · exact .inr ⟨other, List.mem_cons_of_mem _ hother, hc⟩

theorem trim_subset {s : List Char} : trim s ⊆ s := by
  intro c hc
  exact List.dropWhile_subset _ ((List.rdropWhile_prefix _ _).subset hc)

omit [DecidableEq α] in
theorem subset_intercalate {sep : α} {pieces : List (List α)} {piece : List α}
    (h : piece ∈ pieces) : piece ⊆ [sep].intercalate pieces := by
  induction pieces with
  | nil => simp at h
  | cons first pieces ih =>
    cases pieces with
    | nil =>
      obtain rfl := List.mem_singleton.mp h
      rw [List.intercalate_singleton]
      exact List.Subset.refl _
    | cons next rest =>
      rw [List.intercalate_cons_cons]
      obtain rfl | h := List.mem_cons.mp h
      · exact List.subset_append_of_subset_left _ (List.subset_append_left _ _)
      · exact List.subset_append_of_subset_right _ (ih h)

/-- A text whose ends are no whitespace stays when it is trimmed. -/
theorem trim_eq_self {s : List Char} (hfirst : ∀ c ∈ s.head?, isWhitespace c = false)
    (hlast : ∀ c ∈ s.getLast?, isWhitespace c = false) : trim s = s := by
  have hstart : s.dropWhile isWhitespace = s := by
    cases s with
    | nil => rfl
    | cons c s => simp [hfirst c rfl]
  rw [trim, hstart, List.rdropWhile_eq_self_iff]
  intro hne
  simpa using hlast _ (List.getLast?_eq_getLast_of_ne_nil hne)

/-- A text that ends in no whitespace stays behind a start that has none at its ends. -/
theorem trim_append {start v : List Char} (hfirst : ∀ c ∈ start.head?, isWhitespace c = false)
    (hstart : ∀ c ∈ start.getLast?, isWhitespace c = false) (hne : start ≠ [])
    (hv : ∀ c ∈ v.getLast?, isWhitespace c = false) : trim (start ++ v) = start ++ v := by
  apply trim_eq_self
  · intro c hc
    rw [List.head?_append_of_ne_nil _ hne] at hc
    exact hfirst c hc
  · intro c hc
    rw [List.getLast?_append] at hc
    cases hlast : v.getLast? with
    | none => exact hstart c (by simpa [hlast] using hc)
    | some d => exact hv c (by simpa [hlast] using hc)

theorem trim_cons {c : Char} (hc : isWhitespace c = true) (s : List Char) : trim (c :: s) = trim s := by
  simp [trim, hc]

/-! ## Bytes -/

theorem asBytes_injective : Function.Injective asBytes := by
  intro s t h
  have hencoded : s.utf8Encode = t.utf8Encode := congrArg List.toByteArray h
  have hstring : String.ofList s = String.ofList t := by
    rw [← String.toByteArray_inj, String.toByteArray_ofList, String.toByteArray_ofList, hencoded]
  simpa using congrArg String.toList hstring

/-- A character of ASCII is one byte. -/
theorem utf8EncodeChar_of_lt {c : Char} (h : c.toNat < 128) :
    String.utf8EncodeChar c = [UInt8.ofNat c.toNat] := by
  have hle : c.val.toNat ≤ 0x7f := Nat.le_of_lt_succ h
  simp only [String.utf8EncodeChar, hle, ↓reduceIte]
  rfl

/-- Every other character is made of larger bytes. -/
theorem ge_of_mem_utf8EncodeChar {c : Char} (h : 128 ≤ c.toNat) {b : UInt8}
    (hb : b ∈ String.utf8EncodeChar c) : 128 ≤ b.toNat := by
  have hlt : ¬ c.val.toNat ≤ 0x7f := by
    have : c.toNat = c.val.toNat := rfl
    omega
  unfold String.utf8EncodeChar at hb
  simp only [hlt, ↓reduceIte] at hb
  have hlarge : ∀ n : Nat, 128 ≤ n % 256 → 128 ≤ (UInt8.ofNat n).toNat := by
    intro n hn
    simpa using hn
  split at hb
  · simp only [List.mem_cons, List.not_mem_nil, or_false] at hb
    rcases hb with rfl | rfl <;> (apply hlarge; omega)
  · split at hb
    · simp only [List.mem_cons, List.not_mem_nil, or_false] at hb
      rcases hb with rfl | rfl | rfl <;> (apply hlarge; omega)
    · simp only [List.mem_cons, List.not_mem_nil, or_false] at hb
      rcases hb with rfl | rfl | rfl | rfl <;> (apply hlarge; omega)

theorem mem_hexEncode {bytes : List UInt8} {c : Char} (h : c ∈ hexEncode bytes) :
    ∃ n < 16, c = Nat.digitChar n := by
  obtain ⟨b, -, hc⟩ := List.mem_flatMap.mp h
  have hb : b.toNat < 256 := b.toNat_lt
  simp only [List.mem_cons, List.not_mem_nil, or_false] at hc
  rcases hc with rfl | rfl
  · exact ⟨b.toNat / 16, by omega, rfl⟩
  · exact ⟨b.toNat % 16, by omega, rfl⟩

theorem hexValue_toUpper_digitChar {n : Nat} (h : n < 16) :
    hexValue (Nat.digitChar n).toUpper = some n := by
  have hall : ∀ n : Fin 16, hexValue (Nat.digitChar n.val).toUpper = some n.val := by decide
  exact hall ⟨n, h⟩

theorem percentDecode_cons {c : Char} (hc : c ≠ '%') (s : List Char) :
    percentDecode (c :: s) = (percentDecode s).map fun bytes => String.utf8EncodeChar c ++ bytes := by
  conv_lhs => unfold percentDecode
  rw [if_neg hc]

/-- A byte that is written in capital hexadecimal digits. -/
theorem percentDecode_escape (b : UInt8) (s : List Char) :
    percentDecode ('%' :: ((hexEncode [b]).map Char.toUpper ++ s)) =
      (percentDecode s).map fun bytes => b :: bytes := by
  have hb : b.toNat < 256 := b.toNat_lt
  have hhigh : hexValue (Nat.digitChar (b.toNat / 16)).toUpper = some (b.toNat / 16) :=
    hexValue_toUpper_digitChar (by omega)
  have hlow : hexValue (Nat.digitChar (b.toNat % 16)).toUpper = some (b.toNat % 16) :=
    hexValue_toUpper_digitChar (by omega)
  have hbyte : UInt8.ofNat (16 * (b.toNat / 16) + b.toNat % 16) = b := by
    rw [Nat.div_add_mod, UInt8.ofNat_toNat]
  simp only [hexEncode, List.flatMap_cons, List.flatMap_nil, List.append_nil, List.map_cons,
    List.map_nil, List.cons_append, List.nil_append, percentDecode, ↓reduceIte, hhigh, hlow, hbyte]

end LocalStorage.Lib.Text
