import Mathlib
import MiniOb.Lib.Slots

/-! # Bitmaps of bytes

Bit `n` of a bitmap is bit `n % 8` of byte `n / 8`. -/

namespace MiniOb.Bits
open List

theorem toNat_mask (h : n < 8) : ((1 : UInt8) <<< UInt8.ofNat n).toNat = 2 ^ n := by
  have hall : ∀ k : Fin 8, ((1 : UInt8) <<< UInt8.ofNat k).toNat = 2 ^ k.val := by decide
  exact hall ⟨n, h⟩

theorem testBit_or_mask (b : UInt8) (h : n < 8) (m : Nat) :
    (b ||| (1 <<< UInt8.ofNat n)).toNat.testBit m = (b.toNat.testBit m || decide (n = m)) := by
  rw [UInt8.toNat_or, toNat_mask h, Nat.testBit_or, Nat.testBit_two_pow]

theorem testBit_and_not_mask (b : UInt8) (h : n < 8) {m : Nat} (hm : m < 8) :
    (b &&& ~~~(1 <<< UInt8.ofNat n)).toNat.testBit m = (b.toNat.testBit m && !decide (n = m)) := by
  have hlt : 2 ^ n < 2 ^ 8 := Nat.pow_lt_pow_right (by omega) h
  have hnot : UInt8.size - 1 - 2 ^ n = 2 ^ 8 - (2 ^ n + 1) := by
    show 256 - 1 - 2 ^ n = 2 ^ 8 - (2 ^ n + 1)
    omega
  rw [UInt8.toNat_and, UInt8.toNat_not, toNat_mask h, Nat.testBit_and, hnot, Nat.testBit_two_pow_sub_succ hlt,
    Nat.testBit_two_pow]
  simp [hm]

section
variable (d : Nat → UInt8) (base n : Nat)

def bitAt : Bool := (d (base + n / 8)).toNat.testBit (n % 8)

variable (m : Nat)

theorem bitAt_set (b : UInt8) : bitAt (Slots.set d (base + n / 8) b) base m =
    if m / 8 = n / 8 then b.toNat.testBit (m % 8) else bitAt d base m := by
  unfold bitAt
  split
  next hbyte => rw [hbyte, Slots.set_same]
  next hbyte => rw [Slots.set_ne (by omega)]

theorem bitAt_or : bitAt (Slots.set d (base + n / 8) (d (base + n / 8) ||| (1 <<< UInt8.ofNat (n % 8)))) base m =
    (bitAt d base m || decide (m = n)) := by
  rw [bitAt_set]
  split
  next hbyte =>
    have hbit : n % 8 = m % 8 ↔ m = n := by omega
    rw [testBit_or_mask _ (Nat.mod_lt n (by decide)), decide_eq_decide.mpr hbit, bitAt, hbyte]
  next hbyte => simp [show m ≠ n from fun h => hbyte (by rw [h])]

theorem bitAt_andNot : bitAt (Slots.set d (base + n / 8) (d (base + n / 8) &&& ~~~(1 <<< UInt8.ofNat (n % 8)))) base m =
    (bitAt d base m && !decide (m = n)) := by
  rw [bitAt_set]
  split
  next hbyte =>
    have hbit : n % 8 = m % 8 ↔ m = n := by omega
    rw [testBit_and_not_mask _ (Nat.mod_lt n (by decide)) (Nat.mod_lt m (by decide)), decide_eq_decide.mpr hbit,
      bitAt, hbyte]
  next hbyte => simp [show m ≠ n from fun h => hbyte (by rw [h])]

end

variable {p q : Nat → Bool} {n k : Nat}

theorem countP_congr_range (h : ∀ n < k, p n = q n) : (List.range k).countP p = (List.range k).countP q :=
  countP_congr fun n hn => by rw [h n (mem_range.mp hn)]

theorem find?_congr_mem {l : List Nat} (h : ∀ n ∈ l, p n = q n) : l.find? p = l.find? q := by
  induction l with
  | nil => rfl
  | cons n l ih =>
    rw [find?_cons, find?_cons, h n (mem_cons_self ..), ih fun m hm => h m (mem_cons_of_mem _ hm)]

theorem find?_congr_range (h : ∀ n < k, p n = q n) : (List.range k).find? p = (List.range k).find? q :=
  find?_congr_mem fun n hn => h n (mem_range.mp hn)

theorem countP_range_succ (p : Nat → Bool) (k : Nat) :
    (List.range (k + 1)).countP p = (List.range k).countP p + if p k then 1 else 0 := by
  rw [range_succ, countP_append]
  cases h : p k <;> simp [h]

theorem countP_range_set (hn : n < k) (hold : p n = false) (hnew : q n = true)
    (hother : ∀ m, m ≠ n → q m = p m) : (List.range k).countP q = (List.range k).countP p + 1 := by
  induction k with
  | zero => cases hn
  | succ k ih =>
    rw [countP_range_succ, countP_range_succ]
    by_cases hk : n = k
    · subst hk
      rw [countP_congr_range fun m hm => hother m (Nat.ne_of_lt hm), hold, hnew]
      rfl
    · rw [ih (by omega), hother k (Ne.symm hk)]
      omega

theorem exists_false_of_countP_lt (h : (List.range k).countP p < k) : ∃ n < k, p n = false := by
  by_contra hall
  have hcount : (List.range k).countP p = (List.range k).length := by
    rw [countP_eq_length]
    intro n hn
    by_contra hp
    exact hall ⟨n, mem_range.mp hn, Bool.not_eq_true _ ▸ hp⟩
  rw [length_range] at hcount
  omega

theorem countP_range_le (p : Nat → Bool) (k : Nat) : (List.range k).countP p ≤ k := by
  have hle := countP_le_length (p := p) (l := List.range k)
  rwa [length_range] at hle

end MiniOb.Bits
