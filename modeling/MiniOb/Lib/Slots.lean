import Mathlib.Data.List.Basic
import Mathlib.Tactic.Common

/-! # Arrays and the loops that move their slots

A fixed array of C is a total function from slot numbers. Each loop runs slot by slot, as it is written in C; its
`_apply` lemma says what it leaves in every slot, and the `firstN_` lemmas what that means for the list of the slots in
use. -/

namespace MiniOb.Slots
open List
variable {α β : Type} {i n : Nat} {p : Nat → Bool}

def firstN (a : Nat → α) (n : Nat) : List α := (List.range n).map a

def set (a : Nat → α) (i : Nat) (x : α) : Nat → α := fun j => if j = i then x else a j

/-- `for (i = n; i > pos; i--) a[i] = a[i - 1];` -/
def shiftUp (a : Nat → α) (pos : Nat) : Nat → Nat → α
  | 0 => a
  | n + 1 => if pos < n + 1 then shiftUp (set a (n + 1) (a n)) pos n else a

/-- `for (i = pos; i < pos + m; i++) a[i] = a[i + 1];` -/
def shiftDown (a : Nat → α) (pos : Nat) : Nat → Nat → α
  | 0 => a
  | m + 1 => shiftDown (set a pos (a (pos + 1))) (pos + 1) m

/-- `for (i = s, j = d; i < s + m; i++, j++) dst[j] = src[i];` -/
def copy (dst : Nat → α) (d : Nat) (src : Nat → α) (s : Nat) : Nat → Nat → α
  | 0 => dst
  | m + 1 => copy (set dst d (src s)) (d + 1) src (s + 1) m

def spreadFrom (dst src : Nat → α) (gap i j : Nat) : Nat → Nat → α
  | 0 => dst
  | m + 1 =>
    let j' := if j = gap then j + 1 else j
    spreadFrom (set dst j' (src i)) src gap (i + 1) (j' + 1) m

/-- `for (i = 0, j = 0; i < n; i++, j++) { if (j == gap) j++; dst[j] = src[i]; }` -/
def spread (dst src : Nat → α) (gap n : Nat) : Nat → α := spreadFrom dst src gap 0 0 n

/-- `for (i = 0; i < n; i++) if (p(i)) break;`, the value of `i` after the loop. -/
def firstIdx (n : Nat) (p : Nat → Bool) : Nat := (List.range n).findIdx p

theorem set_same (a : Nat → α) (i : Nat) (x : α) : set a i x i = x := by simp [set]

theorem set_ne {a : Nat → α} {j : Nat} {x : α} (h : j ≠ i) : set a i x j = a j := by simp [set, h]

theorem shiftUp_apply (pos : Nat) : ∀ (n : Nat) (a : Nat → α) (j : Nat),
    shiftUp a pos n j = if pos < j ∧ j ≤ n then a (j - 1) else a j
  | 0, a, j => by rw [shiftUp, if_neg (by omega)]
  | n + 1, a, j => by
    unfold shiftUp
    by_cases hp : pos < n + 1
    · rw [if_pos hp, shiftUp_apply pos n]
      by_cases hj : j = n + 1
      · subst hj
        rw [if_neg (by omega), if_pos (by omega), set_same, Nat.add_sub_cancel]
      · by_cases hin : pos < j ∧ j ≤ n
        · rw [if_pos hin, if_pos (by omega), set_ne (by omega)]
        · rw [if_neg hin, if_neg (by omega), set_ne hj]
    · rw [if_neg hp, if_neg (by omega)]

theorem shiftDown_apply : ∀ (m pos : Nat) (a : Nat → α) (j : Nat),
    shiftDown a pos m j = if pos ≤ j ∧ j < pos + m then a (j + 1) else a j
  | 0, pos, a, j => by rw [shiftDown, if_neg (by omega)]
  | m + 1, pos, a, j => by
    rw [shiftDown, shiftDown_apply m]
    by_cases hj : j = pos
    · subst hj
      rw [if_neg (by omega), if_pos (by omega), set_same]
    · by_cases hin : pos + 1 ≤ j ∧ j < pos + 1 + m
      · rw [if_pos hin, if_pos (by omega), set_ne (by omega)]
      · rw [if_neg hin, if_neg (by omega), set_ne hj]

theorem copy_apply : ∀ (m d s : Nat) (dst src : Nat → α) (j : Nat),
    copy dst d src s m j = if d ≤ j ∧ j < d + m then src (s + (j - d)) else dst j
  | 0, d, s, dst, src, j => by rw [copy, if_neg (by omega)]
  | m + 1, d, s, dst, src, j => by
    rw [copy, copy_apply m]
    by_cases hj : j = d
    · subst hj
      rw [if_neg (by omega), if_pos (by omega), set_same, Nat.sub_self, Nat.add_zero]
    · by_cases hin : d + 1 ≤ j ∧ j < d + 1 + m
      · rw [if_pos hin, if_pos (by omega)]
        congr 1
        omega
      · rw [if_neg hin, if_neg (by omega), set_ne hj]

theorem spreadFrom_apply_past (gap : Nat) : ∀ (m i : Nat) (dst src : Nat → α) (j : Nat), gap ≤ i →
    spreadFrom dst src gap i (i + 1) m j = if i < j ∧ j ≤ i + m then src (j - 1) else dst j
  | 0, i, dst, src, j, _ => by rw [spreadFrom, if_neg (by omega)]
  | m + 1, i, dst, src, j, hg => by
    rw [spreadFrom]
    simp only [show ¬(i + 1 = gap) by omega, if_false]
    rw [spreadFrom_apply_past gap m (i + 1) _ _ j (by omega)]
    by_cases hj : j = i + 1
    · subst hj
      rw [if_neg (by omega), if_pos (by omega), set_same, Nat.add_sub_cancel]
    · by_cases hin : i + 1 < j ∧ j ≤ i + 1 + m
      · rw [if_pos hin, if_pos (by omega)]
      · rw [if_neg hin, if_neg (by omega), set_ne hj]

theorem spreadFrom_apply (gap : Nat) : ∀ (m i : Nat) (dst src : Nat → α) (j : Nat), i ≤ gap → gap ≤ i + m →
    spreadFrom dst src gap i i m j = if i ≤ j ∧ j < gap then src j else if gap < j ∧
      j ≤ i + m then src (j - 1) else dst j
  | 0, i, dst, src, j, h1, h2 => by
    rw [if_neg (by omega), if_neg (by omega), spreadFrom]
  | m + 1, i, dst, src, j, h1, h2 => by
    rw [spreadFrom]
    by_cases hg : i = gap
    · subst hg
      simp only [if_true]
      rw [spreadFrom_apply_past i m (i + 1) _ _ j (by omega)]
      by_cases hj : j = i + 1
      · subst hj
        rw [if_neg (by omega), if_neg (by omega), if_pos (by omega), set_same, Nat.add_sub_cancel]
      · by_cases hin : i + 1 < j ∧ j ≤ i + 1 + m
        · rw [if_pos hin, if_neg (by omega), if_pos (by omega)]
        · rw [if_neg hin, if_neg (by omega), if_neg (by omega), set_ne hj]
    · simp only [hg, if_false]
      rw [spreadFrom_apply gap m (i + 1) _ _ j (by omega) (by omega)]
      by_cases hj : j = i
      · subst hj
        rw [if_neg (by omega), if_neg (by omega), if_pos (by omega), set_same]
      · by_cases h3 : i + 1 ≤ j ∧ j < gap
        · rw [if_pos h3, if_pos (by omega)]
        · rw [if_neg h3, if_neg (c := i ≤ j ∧ j < gap) (by omega)]
          by_cases h4 : gap < j ∧ j ≤ i + 1 + m
          · rw [if_pos h4, if_pos (by omega)]
          · rw [if_neg h4, if_neg (by omega), set_ne hj]

theorem spread_apply {gap : Nat} (h : gap ≤ n) (dst src : Nat → α) (j : Nat) :
    spread dst src gap n j = if j < gap then src j else if gap < j ∧ j ≤ n then src (j - 1) else dst j := by
  rw [spread, spreadFrom_apply gap n 0 dst src j (by omega) (by omega)]
  simp

/-! ### The loops move slots and do not look at them

Hence they commute with a function on the slots, and on two arrays side by side they are one loop on pairs. -/

theorem map_set (g : α → β) (a : Nat → α) (i : Nat) (x : α) :
    (fun j => g (set a i x j)) = set (fun j => g (a j)) i (g x) := by
  funext j
  by_cases h : j = i
  · rw [h, set_same, set_same]
  · rw [set_ne h, set_ne h]

theorem map_shiftUp (g : α → β) (a : Nat → α) (pos n : Nat) :
    (fun j => g (shiftUp a pos n j)) = shiftUp (fun j => g (a j)) pos n := by
  funext j
  rw [shiftUp_apply, shiftUp_apply, apply_ite g]

theorem map_shiftDown (g : α → β) (a : Nat → α) (pos m : Nat) :
    (fun j => g (shiftDown a pos m j)) = shiftDown (fun j => g (a j)) pos m := by
  funext j
  rw [shiftDown_apply, shiftDown_apply, apply_ite g]

theorem map_copy (g : α → β) (dst : Nat → α) (d : Nat) (src : Nat → α) (s m : Nat) :
    (fun j => g (copy dst d src s m j)) = copy (fun j => g (dst j)) d (fun j => g (src j)) s m := by
  funext j
  rw [copy_apply, copy_apply, apply_ite g]

theorem map_spread (g : α → β) (dst src : Nat → α) {gap : Nat} (h : gap ≤ n) :
    (fun j => g (spread dst src gap n j)) = spread (fun j => g (dst j)) (fun j => g (src j)) gap n := by
  funext j
  rw [spread_apply h, spread_apply h, apply_ite g, apply_ite g]

def zip (a : Nat → α) (b : Nat → β) : Nat → α × β := fun i => (a i, b i)

section
variable (a : Nat → α) (b : Nat → β)

theorem zip_set (i : Nat) (x : α) (y : β) : zip (set a i x) (set b i y) = set (zip a b) i (x, y) := by
  funext j
  exact Prod.ext (congrFun (map_set Prod.fst (zip a b) i (x, y)) j).symm
    (congrFun (map_set Prod.snd (zip a b) i (x, y)) j).symm

theorem zip_shiftUp (pos n : Nat) : zip (shiftUp a pos n) (shiftUp b pos n) = shiftUp (zip a b) pos n := by
  funext j
  exact Prod.ext (congrFun (map_shiftUp Prod.fst (zip a b) pos n) j).symm
    (congrFun (map_shiftUp Prod.snd (zip a b) pos n) j).symm

theorem zip_shiftDown (pos m : Nat) : zip (shiftDown a pos m) (shiftDown b pos m) = shiftDown (zip a b) pos m := by
  funext j
  exact Prod.ext (congrFun (map_shiftDown Prod.fst (zip a b) pos m) j).symm
    (congrFun (map_shiftDown Prod.snd (zip a b) pos m) j).symm

theorem zip_copy (a' : Nat → α) (b' : Nat → β) (d s m : Nat) :
    zip (copy a' d a s m) (copy b' d b s m) = copy (zip a' b') d (zip a b) s m := by
  funext j
  exact Prod.ext (congrFun (map_copy Prod.fst (zip a' b') d (zip a b) s m) j).symm
    (congrFun (map_copy Prod.snd (zip a' b') d (zip a b) s m) j).symm

theorem zip_spread (a' : Nat → α) (b' : Nat → β) {gap n : Nat} (h : gap ≤ n) :
    zip (spread a' a gap n) (spread b' b gap n) = spread (zip a' b') (zip a b) gap n := by
  funext j
  exact Prod.ext (congrFun (map_spread Prod.fst (zip a' b') (zip a b) h) j).symm
    (congrFun (map_spread Prod.snd (zip a' b') (zip a b) h) j).symm

end

theorem firstIdx_le (n : Nat) (p : Nat → Bool) : firstIdx n p ≤ n := by
  have hle : (List.range n).findIdx p ≤ (List.range n).length := findIdx_le_length
  simpa [firstIdx] using hle

theorem firstIdx_spec (h : firstIdx n p < n) : p (firstIdx n p) = true := by
  have hlt : (List.range n).findIdx p < (List.range n).length := by simpa [firstIdx] using h
  have hp : p (List.range n)[(List.range n).findIdx p] = true := findIdx_getElem
  simpa [firstIdx] using hp

theorem not_of_lt_firstIdx (h : i < firstIdx n p) : p i = false := by
  have hlt : i < (List.range n).findIdx p := h
  simpa using not_of_lt_findIdx hlt

theorem firstIdx_eq (hi : i ≤ n) (hp : i < n → p i = true) (hlt : ∀ j < i, p j = false) : firstIdx n p = i := by
  rcases Nat.lt_trichotomy (firstIdx n p) i with h | h | h
  · have hstop := firstIdx_spec (p := p) (Nat.lt_of_lt_of_le h hi)
    rw [hlt _ h] at hstop
    cases hstop
  · exact h
  · have hrun := not_of_lt_firstIdx h
    rw [hp (Nat.lt_of_lt_of_le h (firstIdx_le n p))] at hrun
    cases hrun

@[simp] theorem firstN_length (a : Nat → α) (n : Nat) : (firstN a n).length = n := by simp [firstN]

@[simp] theorem firstN_zero (a : Nat → α) : firstN a 0 = [] := rfl

theorem firstN_getElem? (a : Nat → α) (n i : Nat) : (firstN a n)[i]? = if i < n then some (a i) else none := by
  by_cases h : i < n
  · simp [firstN, h]
  · simp [firstN, h]

theorem firstN_map (f : α → β) (a : Nat → α) (n : Nat) : (firstN a n).map f = firstN (fun i => f (a i)) n := by
  simp [firstN]

theorem mem_firstN {a : Nat → α} {x : α} : x ∈ firstN a n ↔ ∃ i < n, a i = x := by
  simp [firstN]

theorem firstN_succ (a : Nat → α) (n : Nat) : firstN a (n + 1) = firstN a n ++ [a n] := by
  simp [firstN, range_succ]

theorem firstN_eq_iff {a : Nat → α} {l : List α} :
    firstN a n = l ↔ l.length = n ∧ ∀ i < n, l[i]? = some (a i) := by
  constructor
  · rintro rfl
    refine ⟨firstN_length a n, fun i hi => ?_⟩
    rw [firstN_getElem?, if_pos hi]
  · rintro ⟨hl, h⟩
    refine ext_getElem? fun i => ?_
    rw [firstN_getElem?]
    by_cases hi : i < n
    · rw [if_pos hi, h i hi]
    · rw [if_neg hi, getElem?_eq_none (by omega)]

theorem firstN_congr {a b : Nat → α} (h : ∀ i < n, a i = b i) : firstN a n = firstN b n := by
  refine firstN_eq_iff.mpr ⟨firstN_length b n, fun i hi => ?_⟩
  rw [firstN_getElem?, if_pos hi, h i hi]

theorem eq_of_firstN_split {a : Nat → α} {A B : List α} {x : α} (h : firstN a n = A ++ x :: B) :
    a A.length = x := by
  have hlen := congrArg List.length h
  simp only [firstN_length, length_append, length_cons] at hlen
  have := (firstN_eq_iff.mp h).2 A.length (by omega)
  simpa using this.symm

theorem firstN_take (a : Nat → α) {m : Nat} (h : m ≤ n) : (firstN a n).take m = firstN a m := by
  refine (firstN_eq_iff.mpr ⟨by simp [h], fun i hi => ?_⟩).symm
  rw [getElem?_take_of_lt hi, firstN_getElem?, if_pos (by omega)]

theorem firstN_drop (a : Nat → α) {m : Nat} (h : m ≤ n) :
    (firstN a n).drop m = firstN (fun i => a (m + i)) (n - m) := by
  refine (firstN_eq_iff.mpr ⟨by simp, fun i hi => ?_⟩).symm
  rw [getElem?_drop, firstN_getElem?, if_pos (by omega)]

theorem firstIdx_eq_findIdx (a : Nat → α) (n : Nat) (p : α → Bool) :
    firstIdx n (fun i => p (a i)) = (firstN a n).findIdx p := by
  rw [firstIdx, firstN, findIdx_map]
  rfl

theorem firstIdx_of_split {a : Nat → α} {p : α → Bool} {A B : List α} {x : α} (h : firstN a n = A ++ x :: B)
    (hA : ∀ y ∈ A, p y = false) (hx : p x = true) : firstIdx n (fun i => p (a i)) = A.length ∧ A.length < n := by
  have hlen := congrArg List.length h
  simp only [firstN_length, length_append, length_cons] at hlen
  refine ⟨?_, by omega⟩
  have hfront : A.findIdx p = A.length := findIdx_eq_length.mpr hA
  rw [firstIdx_eq_findIdx, h, findIdx_append, hfront, if_neg (Nat.lt_irrefl _)]
  simp [findIdx_cons, hx]

theorem dropWhile_drop_firstN (a : Nat → α) (n : Nat) (p : α → Bool) (i : Nat) :
    ((firstN a n).drop i).dropWhile (!p ·) = (firstN a n).drop (firstIdx n fun j => decide (i ≤ j) && p (a j)) := by
  induction hm : n - i generalizing i with
  | zero =>
    have hend : firstIdx n (fun j => decide (i ≤ j) && p (a j)) = n := by
      refine firstIdx_eq (Nat.le_refl n) (fun h => absurd h (Nat.lt_irrefl n)) fun j hj => ?_
      simp [show ¬i ≤ j by omega]
    rw [hend, drop_eq_nil_of_le (by simp; omega), drop_eq_nil_of_le (by simp), dropWhile_nil]
  | succ m ih =>
    have hlen : i < (firstN a n).length := by simp; omega
    have hget : (firstN a n)[i] = a i := by simp [firstN]
    rw [drop_eq_getElem_cons hlen, hget, dropWhile_cons]
    cases hp : p (a i) with
    | true =>
      have hidx : firstIdx n (fun j => decide (i ≤ j) && p (a j)) = i := by
        refine firstIdx_eq (by omega) (fun _ => by simp [hp]) fun j hj => ?_
        simp [show ¬i ≤ j by omega]
      rw [hidx, drop_eq_getElem_cons hlen, hget]
      rfl
    | false =>
      have hcongr : (fun j => decide (i ≤ j) && p (a j)) = fun j => decide (i + 1 ≤ j) && p (a j) := by
        funext j
        rcases Nat.lt_trichotomy i j with h | rfl | h
        · simp [Nat.le_of_lt h, Nat.succ_le_of_lt h]
        · simp [hp]
        · simp [show ¬i ≤ j by omega, show ¬i + 1 ≤ j by omega]
      rw [hcongr, ← ih (i + 1) (by omega)]
      rfl

theorem firstN_shiftUp_set {a : Nat → α} {A B : List α} (x : α) (h : firstN a n = A ++ B) :
    firstN (set (shiftUp a A.length n) A.length x) (n + 1) = A ++ x :: B := by
  have hlen := congrArg List.length h
  simp only [firstN_length, length_append] at hlen
  have hget := (firstN_eq_iff.mp h).2
  refine firstN_eq_iff.mpr ⟨by simp; omega, fun i hi => ?_⟩
  rcases Nat.lt_trichotomy i A.length with hlt | rfl | hgt
  · rw [set_ne (by omega), shiftUp_apply, if_neg (by omega), getElem?_append_left hlt]
    have := hget i (by omega)
    rwa [getElem?_append_left hlt] at this
  · simp [set_same]
  · rw [set_ne (by omega), shiftUp_apply, if_pos (by omega), getElem?_append_right (by omega)]
    have := hget (i - 1) (by omega)
    rw [getElem?_append_right (by omega)] at this
    rw [show i - A.length = (i - 1 - A.length) + 1 by omega, getElem?_cons_succ]
    exact this

theorem firstN_shiftDown {a : Nat → α} {A B : List α} {x : α} (h : firstN a n = A ++ x :: B) :
    firstN (shiftDown a A.length (n - 1 - A.length)) (n - 1) = A ++ B := by
  have hlen := congrArg List.length h
  simp only [firstN_length, length_append, length_cons] at hlen
  have hget := (firstN_eq_iff.mp h).2
  refine firstN_eq_iff.mpr ⟨by simp; omega, fun i hi => ?_⟩
  rw [shiftDown_apply]
  by_cases hlt : i < A.length
  · rw [if_neg (by omega), getElem?_append_left hlt]
    have := hget i (by omega)
    rwa [getElem?_append_left hlt] at this
  · rw [if_pos (by omega), getElem?_append_right (by omega)]
    have := hget (i + 1) (by omega)
    rw [getElem?_append_right (by omega),
      show i + 1 - A.length = (i - A.length) + 1 by omega, getElem?_cons_succ] at this
    exact this

theorem firstN_spread_set {a dst : Nat → α} {A B : List α} (x : α) (h : firstN a n = A ++ B) :
    firstN (set (spread dst a A.length n) A.length x) (n + 1) = A ++ x :: B := by
  have hlen := congrArg List.length h
  simp only [firstN_length, length_append] at hlen
  rw [← firstN_shiftUp_set x h]
  refine firstN_congr fun i hi => ?_
  by_cases hi' : i = A.length
  · rw [hi', set_same, set_same]
  · rw [set_ne hi', set_ne hi', spread_apply (by omega), shiftUp_apply]
    by_cases hlt : i < A.length
    · rw [if_pos hlt, if_neg (by omega)]
    · rw [if_neg hlt, if_pos (by omega), if_pos (by omega)]

theorem firstN_copy_append (a src : Nat → α) (n s m : Nat) :
    firstN (copy a n src s m) (n + m) = firstN a n ++ firstN (fun i => src (s + i)) m := by
  refine firstN_eq_iff.mpr ⟨by simp, fun i hi => ?_⟩
  rw [copy_apply]
  by_cases hlt : i < n
  · rw [if_neg (by omega), getElem?_append_left (by simpa using hlt), firstN_getElem?, if_pos hlt]
  · rw [if_pos (by omega), getElem?_append_right (by simpa using Nat.le_of_not_lt hlt), firstN_getElem?,
      firstN_length, if_pos (by omega)]

theorem firstN_copy (a src : Nat → α) (s m : Nat) :
    firstN (copy a 0 src s m) m = firstN (fun i => src (s + i)) m := by
  have := firstN_copy_append a src 0 s m
  simpa using this

end MiniOb.Slots
