import Mathlib.Data.List.Sort
import Mathlib.Data.List.Nodup
import Mathlib.Order.Defs.LinearOrder

namespace LocalStorage.Lib.Paging

/-! # Pages of a list that is sorted by a key with ties -/

variable {α τ : Type} [LinearOrder τ]

/-- The highest key first, equal keys in any order. -/
def Descending (time : α → τ) (xs : List α) : Prop := xs.Pairwise (fun a b => time b ≤ time a)

/-- One of the orders in which `xs` can be listed. -/
structure Listing (time : α → τ) (xs ys : List α) : Prop where
  perm : ys.Perm xs
  descending : Descending time ys

/-- The page with this number, of `size` items. -/
def page (size number : Nat) (xs : List α) : List α := (xs.drop (number * size)).take size

/-- How many items come before `a` in every order. -/
def above (time : α → τ) (xs : List α) (a : α) : Nat := xs.countP (fun b => time a < time b)

/-- How many items do not come after `a` in every order, itself among them. -/
def level (time : α → τ) (xs : List α) (a : α) : Nat := xs.countP (fun b => time a ≤ time b)

/-- No group of equal keys goes over the end of a page. -/
def Aligned (time : α → τ) (xs : List α) (size : Nat) : Prop :=
  ∀ a ∈ xs, above time xs a / size = (level time xs a - 1) / size

variable {time : α → τ} {xs ys : List α} {a : α} {i size : Nat}

theorem countP_le_of_drop {p : α → Bool} (h : ∀ b ∈ ys.drop i, p b = false) : ys.countP p ≤ i := by
  have hdrop : (ys.drop i).countP p = 0 := by
    rw [List.countP_eq_zero]
    intro b hb hp
    rw [h b hb] at hp
    cases hp
  have hsplit : ys.countP p = (ys.take i).countP p + (ys.drop i).countP p := by
    rw [← List.countP_append, List.take_append_drop]
  have htake := List.countP_le_length (p := p) (l := ys.take i)
  rw [List.length_take] at htake
  omega

theorem le_countP_of_take {p : α → Bool} (hi : i ≤ ys.length) (h : ∀ b ∈ ys.take i, p b = true) :
    i ≤ ys.countP p := by
  have htake : (ys.take i).countP p = (ys.take i).length := List.countP_eq_length.mpr h
  have hsplit : ys.countP p = (ys.take i).countP p + (ys.drop i).countP p := by
    rw [← List.countP_append, List.take_append_drop]
  rw [List.length_take] at htake
  omega

theorem getElem_mem_page {number : Nat} (hi : i < ys.length) (hlow : number * size ≤ i)
    (hhigh : i < number * size + size) : ys[i] ∈ page size number ys := by
  refine List.mem_take_iff_getElem.mpr ⟨i - number * size, ?_, ?_⟩
  · rw [List.length_drop]
    omega
  · rw [List.getElem_drop]
    congr 1
    omega

namespace Descending

theorem getElem_le (h : Descending time ys) {j : Nat} (hij : i ≤ j) (hi : i < ys.length)
    (hj : j < ys.length) : time ys[j] ≤ time ys[i] := by
  rcases Nat.eq_or_lt_of_le hij with rfl | hlt
  · exact le_refl _
  · exact List.pairwise_iff_getElem.mp h i j _ hj hlt

theorem drop_le (h : Descending time ys) (hi : i < ys.length) :
    ∀ b ∈ ys.drop i, time b ≤ time ys[i] := by
  intro b hb
  obtain ⟨j, hj, rfl⟩ := List.mem_drop_iff_getElem.mp hb
  have hij : i ≤ i + j := Nat.le_add_right i j
  exact h.getElem_le hij hi (by omega)

theorem le_take (h : Descending time ys) (hi : i < ys.length) :
    ∀ b ∈ ys.take (i + 1), time ys[i] ≤ time b := by
  intro b hb
  obtain ⟨j, hj, rfl⟩ := List.mem_take_iff_getElem.mp hb
  exact h.getElem_le (by omega) (by omega) hi

/-- An item stands behind what comes before it in every order, and in front of what comes
after it in every order. -/
theorem above_le (h : Descending time ys) (hi : i < ys.length) : above time ys ys[i] ≤ i := by
  apply countP_le_of_drop
  intro b hb
  simp only [decide_eq_false_iff_not, not_lt]
  exact h.drop_le hi b hb

theorem lt_level (h : Descending time ys) (hi : i < ys.length) : i < level time ys ys[i] := by
  apply le_countP_of_take hi
  intro b hb
  simp only [decide_eq_true_eq]
  exact h.le_take hi b hb

/-- Between the two stands its group. -/
theorem time_eq (h : Descending time ys) (hi : i < ys.length) (habove : above time ys a ≤ i)
    (hlevel : i < level time ys a) : time ys[i] = time a := by
  apply le_antisymm
  · by_contra hlt
    have hcount : i + 1 ≤ above time ys a := by
      apply le_countP_of_take hi
      intro b hb
      simp only [decide_eq_true_eq]
      exact lt_of_lt_of_le (not_le.mp hlt) (h.le_take hi b hb)
    omega
  · by_contra hlt
    have hcount : level time ys a ≤ i := by
      apply countP_le_of_drop
      intro b hb
      simp only [decide_eq_false_iff_not, not_le]
      exact lt_of_le_of_lt (h.drop_le hi b hb) (not_le.mp hlt)
    omega

end Descending

namespace Listing

theorem above_eq (h : Listing time xs ys) (a : α) : above time ys a = above time xs a :=
  h.perm.countP_eq _

theorem level_eq (h : Listing time xs ys) (a : α) : level time ys a = level time xs a :=
  h.perm.countP_eq _

theorem mem_page (h : Listing time xs ys) (haligned : Aligned time xs size) (hsize : 0 < size)
    {number : Nat} : a ∈ page size number ys ↔ a ∈ xs ∧ above time xs a / size = number := by
  have hplace : ∀ i (hi : i < ys.length), i / size = above time xs ys[i] / size := by
    intro i hi
    have habove := h.descending.above_le hi
    have hlevel := h.descending.lt_level hi
    rw [h.above_eq] at habove
    rw [h.level_eq] at hlevel
    have hsame := haligned ys[i] (h.perm.mem_iff.mp (List.getElem_mem hi))
    apply Nat.le_antisymm
    · rw [hsame]
      exact Nat.div_le_div_right (by omega)
    · exact Nat.div_le_div_right habove
  constructor
  · intro ha
    obtain ⟨i, hi, rfl⟩ := List.mem_take_iff_getElem.mp ha
    rw [List.length_drop] at hi
    have hlt : number * size + i < ys.length := by omega
    rw [List.getElem_drop]
    refine ⟨h.perm.mem_iff.mp (List.getElem_mem hlt), ?_⟩
    rw [← hplace _ hlt, Nat.mul_comm, Nat.mul_add_div hsize, Nat.div_eq_of_lt (by omega), Nat.add_zero]
  · rintro ⟨ha, hnumber⟩
    obtain ⟨i, hi, rfl⟩ := List.mem_iff_getElem.mp (h.perm.mem_iff.mpr ha)
    rw [← hplace i hi] at hnumber
    have hlow : number * size ≤ i := by
      rw [← hnumber]
      exact Nat.div_mul_le_self i size
    have hhigh : i < number * size + size := by
      rw [← hnumber, ← Nat.succ_mul, Nat.mul_comm]
      exact Nat.lt_mul_div_succ i hsize
    exact getElem_mem_page hi hlow hhigh

/-- Two neighbours with one key change places. -/
theorem swapped (h : Listing time xs ys) {k : Nat} (hk : k + 1 < ys.length)
    (htime : time ys[k] = time ys[k + 1]) :
    Listing time xs (ys.take k ++ ys[k + 1] :: ys[k] :: ys.drop (k + 2)) := by
  have hsplit : ys = ys.take k ++ ys[k] :: ys[k + 1] :: ys.drop (k + 2) := by
    rw [← List.drop_eq_getElem_cons hk, ← List.drop_eq_getElem_cons (Nat.lt_of_succ_lt hk),
      List.take_append_drop]
  constructor
  · refine List.Perm.trans ?_ h.perm
    conv_rhs => rw [hsplit]
    exact List.Perm.append_left _ (List.Perm.swap _ _ _)
  · have hdescending := h.descending
    unfold Descending at hdescending ⊢
    rw [hsplit] at hdescending
    simp only [List.pairwise_append, List.pairwise_cons, List.mem_cons, forall_eq_or_imp] at hdescending ⊢
    obtain ⟨htake, ⟨⟨-, hfirst⟩, hsecond, hdrop⟩, hcross⟩ := hdescending
    refine ⟨htake, ⟨⟨htime.le, hsecond⟩, hfirst, hdrop⟩, ?_⟩
    intro b hb
    obtain ⟨hx, hy, hrest⟩ := hcross b hb
    exact ⟨hy, hx, hrest⟩

end Listing

/-- A descending order exists. -/
theorem exists_listing (time : α → τ) (xs : List α) : ∃ ys, Listing time xs ys := by
  refine ⟨xs.insertionSort (fun a b => time b ≤ time a), List.perm_insertionSort _ _, ?_⟩
  have htotal : Std.Total (fun a b : α => time b ≤ time a) := ⟨fun a b => le_total _ _⟩
  have htrans : IsTrans α (fun a b => time b ≤ time a) := ⟨fun a b c hab hbc => le_trans hbc hab⟩
  exact List.pairwise_insertionSort _ xs

/-- A group that goes over the end of a page has its items on both sides of it. -/
theorem Listing.straddles (h : Listing time xs ys) (ha : a ∈ xs) (hsize : 0 < size)
    (hne : above time xs a / size ≠ (level time xs a - 1) / size) :
    ∃ number k, k + 1 = (number + 1) * size ∧ ∃ hk : k + 1 < ys.length,
      time ys[k] = time ys[k + 1] := by
  have hlt : above time xs a < level time xs a := by
    obtain ⟨i, hi, rfl⟩ := List.mem_iff_getElem.mp (h.perm.mem_iff.mpr ha)
    have habove := h.descending.above_le hi
    have hlevel := h.descending.lt_level hi
    rw [h.above_eq] at habove
    rw [h.level_eq] at hlevel
    omega
  have hnumber : above time xs a / size + 1 ≤ (level time xs a - 1) / size :=
    Nat.lt_of_le_of_ne (Nat.div_le_div_right (by omega)) hne
  have hlow : above time xs a < (above time xs a / size + 1) * size := by
    rw [Nat.mul_comm]
    exact Nat.lt_mul_div_succ _ hsize
  have hhigh : (above time xs a / size + 1) * size ≤ level time xs a - 1 :=
    (Nat.le_div_iff_mul_le hsize).mp hnumber
  have hlength : level time xs a ≤ ys.length := by
    rw [h.perm.length_eq]
    exact List.countP_le_length
  obtain ⟨k, hk⟩ := Nat.exists_eq_succ_of_ne_zero (Nat.ne_of_gt (Nat.lt_of_le_of_lt (Nat.zero_le _) hlow))
  refine ⟨above time xs a / size, k, hk.symm, by omega, ?_⟩
  rw [h.descending.time_eq (a := a), h.descending.time_eq (a := a)] <;>
    simp only [h.above_eq, h.level_eq] <;> omega

/-- Every page is taken from an order of its own: together they are the whole list, each item
once, for whatever orders, exactly when no group goes over the end of a page. -/
theorem pages_perm_iff (hxs : xs.Nodup) (hsize : 0 < size) {count : Nat}
    (hcount : xs.length ≤ count * size) :
    (∀ orders : Nat → List α, (∀ i, Listing time xs (orders i)) →
      ((List.range count).flatMap fun i => page size i (orders i)).Perm xs) ↔
      Aligned time xs size := by
  constructor
  · intro hall a ha
    by_contra hne
    obtain ⟨ys, hys⟩ := exists_listing time xs
    obtain ⟨number, k, hk, hlength, htime⟩ := hys.straddles ha hsize hne
    have hswapped := hys.swapped hlength htime
    set zs := ys.take k ++ ys[k + 1] :: ys[k] :: ys.drop (k + 2) with hzs
    -- the last item of a page changes places with the first one of the next before that is read
    have hnodup := (hall (fun i => if i = number + 1 then zs else ys) (by
      intro i
      split
      · exact hswapped
      · exact hys)).nodup_iff.mpr hxs
    rw [List.nodup_flatMap] at hnodup
    have hnext : number + 1 < count := by
      have hxlength := hys.perm.length_eq
      by_contra hge
      have hmul := Nat.mul_le_mul_right size (Nat.le_of_not_lt hge)
      omega
    have hdisjoint := List.pairwise_iff_getElem.mp hnodup.2 number (number + 1)
      (by rw [List.length_range]; omega) (by rwa [List.length_range]) (Nat.lt_succ_self number)
    simp only [List.getElem_range, Function.onFun] at hdisjoint
    rw [Nat.succ_mul] at hk
    apply hdisjoint (a := ys[k])
    · rw [if_neg (Nat.ne_of_lt (Nat.lt_succ_self number))]
      exact getElem_mem_page _ (by omega) (by omega)
    · rw [if_pos trivial]
      have hlen : zs.length = ys.length := hswapped.perm.length_eq.trans hys.perm.length_eq.symm
      have hget : zs[k + 1] = ys[k] := by
        have hmin : k + 1 - min k ys.length = 1 := by omega
        simp [hzs, hmin]
      rw [← hget]
      exact getElem_mem_page _ (by rw [Nat.succ_mul]; omega) (by rw [Nat.succ_mul]; omega)
  · intro haligned orders horders
    refine (List.perm_ext_iff_of_nodup ?_ hxs).mpr ?_
    · rw [List.nodup_flatMap]
      constructor
      · intro i _
        exact ((horders i).perm.nodup_iff.mpr hxs).sublist
          ((List.take_sublist _ _).trans (List.drop_sublist _ _))
      · refine (List.nodup_range (n := count)).imp ?_
        intro i j hij b hi hj
        have hnumber := ((horders i).mem_page haligned hsize).mp hi
        have hnumber' := ((horders j).mem_page haligned hsize).mp hj
        exact hij (hnumber.2.symm.trans hnumber'.2)
    · intro a
      simp only [List.mem_flatMap, List.mem_range, (horders _).mem_page haligned hsize]
      constructor
      · rintro ⟨_, -, ha, -⟩
        exact ha
      · intro ha
        obtain ⟨ys, hys⟩ := exists_listing time xs
        obtain ⟨i, hi, rfl⟩ := List.mem_iff_getElem.mp (hys.perm.mem_iff.mpr ha)
        have habove := hys.descending.above_le hi
        rw [hys.above_eq] at habove
        rw [hys.perm.length_eq] at hi
        refine ⟨_, ?_, ha, rfl⟩
        rw [Nat.div_lt_iff_lt_mul hsize]
        omega

end LocalStorage.Lib.Paging
