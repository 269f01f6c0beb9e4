import MiniOb.Lib.Bits
import MiniOb.Storage.RecordManager
import MiniOb.Theorems.PoolSteps

/-! # A page of records

`Formatted` says that the header of a page fits the size of its records and counts the set bits of the bitmap; then each
call of `RecordPageHandler` is an operation on a map from slot numbers to bytes. -/

namespace MiniOb
open Slots Bits Function

theorem le_align8 (n : Nat) : n ≤ align8 n := by
  unfold align8
  split <;> omega

def slotCapacity (recordSize : Nat) : Nat := pageRecordCapacity bpPageDataSize (align8 recordSize)

/-- Records of this size are one chunk, and the last slot of a page ends inside the page. Of the sizes up to 4056 only
    5 to 8 fail: 501 slots of eight bytes behind a header of 88 end four bytes behind the page. -/
def RecordFits (recordSize : Nat) : Prop :=
  0 < recordSize ∧ recordSize ≤ RecordFile.fixedSize ∧
    pageHeaderSize (slotCapacity recordSize) + (slotCapacity recordSize - 1) * align8 recordSize + recordSize ≤
      bpPageDataSize

instance (recordSize : Nat) : Decidable (RecordFits recordSize) :=
  inferInstanceAs (Decidable (_ ∧ _ ∧ _))

theorem bitmap_end_le (capacity : Nat) : pageFixSize + pageBitmapSize capacity ≤ pageHeaderSize capacity := le_align8 _

theorem bit_byte_lt {capacity slot : Nat} (h : slot < capacity) : slot / 8 < pageBitmapSize capacity := by
  unfold pageBitmapSize
  split <;> omega

theorem slotCapacity_eq (R : Nat) : slotCapacity R = 32568 / (8 * align8 R + 1) := rfl

theorem slotCapacity_pos {R : Nat} (h : R ≤ RecordFile.fixedSize) : 0 < slotCapacity R := by
  have hle : align8 R ≤ 4056 := by
    have hfixed : RecordFile.fixedSize = 4056 := rfl
    unfold align8
    split <;> omega
  rw [slotCapacity_eq]
  exact Nat.div_pos (by omega) (by omega)

theorem slotCapacity_lt {R : Nat} (h : 0 < R) : slotCapacity R < 4096 := by
  have hle := le_align8 R
  rw [slotCapacity_eq]
  exact (Nat.div_lt_iff_lt_mul (by omega)).mpr (by omega)

namespace PageData
variable {d d' : PageData} {R : Nat} {off slot i : Nat}

theorem int_congr (h : ∀ i, off ≤ i → i < off + 4 → d' i = d i) : d'.int off = d.int off := by
  unfold PageData.int
  rw [h off (by omega) (by omega), h (off + 1) (by omega) (by omega), h (off + 2) (by omega) (by omega),
    h (off + 3) (by omega) (by omega)]

theorem getBit_congr (h : d' (pageFixSize + slot / 8) = d (pageFixSize + slot / 8)) :
    d'.getBit slot = d.getBit slot := by
  unfold getBit
  rw [h]

theorem readBytes_congr {len : Nat} (h : ∀ i, off ≤ i → i < off + len → d' i = d i) :
    d'.readBytes off len = d.readBytes off len :=
  firstN_congr fun k hk => h (off + k) (by omega) (by omega)

theorem setInt_other (v : Int) (h : i < off ∨ off + 4 ≤ i) : d.setInt off v i = d i := by
  rw [setInt, if_pos h]

theorem writeBytes_other {bytes : Bytes} (h : i < off ∨ off + bytes.length ≤ i) :
    d.writeBytes off bytes i = d i := by
  rw [writeBytes, if_neg]
  omega

theorem readBytes_writeBytes (d : PageData) (off : Nat) (bytes : Bytes) (h : off + bytes.length ≤ bpPageDataSize) :
    (d.writeBytes off bytes).readBytes off bytes.length = bytes := by
  rw [readBytes, firstN_eq_iff]
  refine ⟨rfl, fun i hi => ?_⟩
  rw [writeBytes, if_pos ⟨by omega, by omega, by omega⟩, Nat.add_sub_cancel_left]
  simp [List.getD, List.getElem?_eq_getElem hi]

theorem setBit_other (h : i ≠ pageFixSize + slot / 8) : d.setBit slot i = d i := set_ne h

theorem clearBit_other (h : i ≠ pageFixSize + slot / 8) : d.clearBit slot i = d i := set_ne h

theorem getBit_setBit (slot m : Nat) : (d.setBit slot).getBit m = (d.getBit m || decide (m = slot)) :=
  bitAt_or d pageFixSize slot m

theorem getBit_clearBit (slot m : Nat) : (d.clearBit slot).getBit m = (d.getBit m && !decide (m = slot)) :=
  bitAt_andNot d pageFixSize slot m

section
open List
variable {want : Bool} {iter r k size start : Nat}

/-- A search from bit `r` of byte `iter` on looks at bit `k` of a later byte too, unless the bits before `r` are still
    left out there: they are until a byte has a bit to find. -/
def Tested (want : Bool) (d : PageData) (iter r k : Nat) : Prop :=
  r ≤ k % 8 ∨ ∃ j < k / 8 * 8, iter * 8 ≤ j ∧ d.getBit j = want

instance : Decidable (Tested want d iter r k) := inferInstanceAs (Decidable (_ ∨ ∃ j < _, _))

theorem Tested.start_le (h : Tested want d (start / 8) (start % 8) k) (hk : start / 8 * 8 ≤ k) : start ≤ k := by
  rcases h with h | ⟨j, hj, hlow, -⟩ <;> omega

theorem Tested.mono {i : Nat} (h : Tested want d iter r i) (hi : d.getBit i = want) (hlow : iter * 8 ≤ i)
    (hik : i ≤ k) : Tested want d iter r k := by
  by_cases hbyte : i / 8 = k / 8
  · rcases h with h | ⟨j, hj, hrest⟩
    · exact .inl (by omega)
    · exact .inr ⟨j, hbyte ▸ hj, hrest⟩
  · exact .inr ⟨i, by omega, hlow, hi⟩

theorem skipped_iff : d (pageFixSize + iter) = (if want then 0 else 255) ↔ ∀ i < 8, d.getBit (iter * 8 + i) ≠ want := by
  have hall : ∀ n < 256, ∀ want : Bool, n = (if want then 0 else 255) ↔ ∀ i < 8, n.testBit i ≠ want := by decide +kernel
  have hnat : (if want then 0 else 255 : UInt8).toNat = if want then 0 else 255 := by cases want <;> rfl
  rw [← UInt8.toNat_inj, hnat, hall _ (UInt8.toNat_lt _)]
  refine forall₂_congr fun i hi => ?_
  rw [getBit, show (iter * 8 + i) / 8 = iter by omega, show (iter * 8 + i) % 8 = i by omega]

theorem find?_byte : (List.range' (iter * 8) 8).find? (fun k => d.getBit k == want && decide (Tested want d iter r k)) =
    (findFirst want (d (pageFixSize + iter)) r).map (iter * 8 + ·) := by
  rw [range'_eq_map_range, find?_map, findFirst]
  refine congrArg (Option.map _) (find?_congr_range fun i hi => ?_)
  have hdiv : (iter * 8 + i) / 8 = iter := by omega
  have hmod : (iter * 8 + i) % 8 = i := by omega
  have htested : Tested want d iter r (iter * 8 + i) ↔ r ≤ i := by
    rw [Tested, hdiv, hmod]
    exact or_iff_left fun ⟨j, hj, hlow, _⟩ => absurd hlow (Nat.not_le.mpr hj)
  rw [comp_apply, Bool.and_comm, decide_eq_decide.mpr htested, getBit, hdiv, hmod]

theorem nextBitLoop_eq : ∀ n iter r : Nat, nextBitLoop want d n iter r =
    (List.range' (iter * 8) (8 * n)).find? fun k => d.getBit k == want && decide (Tested want d iter r k)
  | 0, iter, r => rfl
  | n + 1, iter, r => by
    have hsplit : List.range' (iter * 8) (8 * (n + 1)) = List.range' (iter * 8) 8 ++ List.range' ((iter + 1) * 8)
        (8 * n) := by
      rw [Nat.add_mul, range'_append_1, Nat.mul_add, Nat.add_comm]
    have hrest : ∀ r', (∀ k, iter < k / 8 → (Tested want d (iter + 1) r' k ↔ Tested want d iter r k)) →
        nextBitLoop want d n (iter + 1) r' =
          (List.range' ((iter + 1) * 8) (8 * n)).find? fun k => d.getBit k == want &&
              decide (Tested want d iter r k) := by
      intro r' hsame
      rw [nextBitLoop_eq n (iter + 1) r']
      refine find?_congr_mem fun k hk => ?_
      have hk := (mem_range'_1.mp hk).1
      rw [decide_eq_decide.mpr (hsame k (by omega))]
    rw [hsplit, find?_append, find?_byte, nextBitLoop]
    by_cases hskip : d (pageFixSize + iter) = if want then 0 else 255
    · -- The byte has no bit to find, so nothing is reset.
      have hnone := skipped_iff.mp hskip
      have hfind : findFirst want (d (pageFixSize + iter)) r = none := by
        rw [← Option.map_eq_none_iff, ← find?_byte, find?_eq_none]
        intro k hk
        obtain ⟨hlow, hhigh⟩ := mem_range'_1.mp hk
        have hbit := hnone (k - iter * 8) (by omega)
        rw [Nat.add_sub_cancel' hlow] at hbit
        simp [hbit]
      rw [if_pos hskip, hfind]
      refine hrest r fun k hk => or_congr_right ⟨fun ⟨j, hj, hlow, hw⟩ => ⟨j, hj, by omega, hw⟩,
        fun ⟨j, hj, hlow, hw⟩ => ?_⟩
      refine ⟨j, hj, ?_, hw⟩
      by_contra hlt
      refine hnone (j - iter * 8) (by omega) ?_
      rwa [Nat.add_sub_cancel' hlow]
    · rw [if_neg hskip]
      cases findFirst want (d (pageFixSize + iter)) r with
      | some i => rfl
      | none =>
        obtain ⟨i, hi, hw⟩ : ∃ i < 8, d.getBit (iter * 8 + i) = want := by
          simpa only [not_forall, not_not, exists_prop] using mt skipped_iff.mpr hskip
        exact hrest 0 fun k hk => iff_of_true (.inl (Nat.zero_le _))
          (.inr ⟨iter * 8 + i, by omega, Nat.le_add_right _ _, hw⟩)

theorem nextBit_eq_iff : d.nextBit want size start =
    (List.range' start (size - start)).find? (fun i => d.getBit i == want) ↔
    ∀ k, start ≤ k → k < size → d.getBit k = want → Tested want d (start / 8) (start % 8) k := by
  unfold nextBit
  rw [nextBitLoop_eq]
  constructor
  · intro heq k hk hlt hw
    cases hfind : (List.range' start (size - start)).find? fun i => d.getBit i == want with
    | none => exact absurd (beq_iff_eq.mpr hw) (by simpa using find?_range'_eq_none.mp hfind k hk (by omega))
    | some i =>
      obtain ⟨hi, hmem, hleast⟩ := find?_range'_eq_some.mp hfind
      obtain ⟨hfound, -⟩ := Option.filter_eq_some_iff.mp (heq.trans hfind)
      have htested := of_decide_eq_true (Bool.and_eq_true_iff.mp (find?_range'_eq_some.mp hfound).1).2
      have hlow := (mem_range'_1.mp hmem).1
      refine htested.mono (beq_iff_eq.mp hi) (by omega) (Nat.le_of_not_lt fun hlt => ?_)
      have := hleast k hk hlt
      simp [hw] at this
  · intro hall
    cases hfind : (List.range' start (size - start)).find? fun i => d.getBit i == want with
    | some i =>
      obtain ⟨hi, hmem, hleast⟩ := find?_range'_eq_some.mp hfind
      obtain ⟨hlow, hhigh⟩ := mem_range'_1.mp hmem
      have hsize := @bit_byte_lt size i (by omega)
      refine Option.filter_eq_some_iff.mpr
        ⟨find?_range'_eq_some.mpr ⟨?_, mem_range'_1.mpr (by omega), fun j hj hji => ?_⟩, ?_⟩
      · rw [hi, decide_eq_true (hall i hlow (by omega) (beq_iff_eq.mp hi))]
        rfl
      · by_contra htested
        obtain ⟨hw, htested⟩ : d.getBit j = want ∧ Tested want d (start / 8) (start % 8) j := by simpa using htested
        simpa [hw] using hleast j (htested.start_le hj) hji
      · exact decide_eq_true (by omega)
    | none =>
      refine Option.filter_eq_none_iff.mpr fun i hi => ?_
      obtain ⟨hfound, hmem, -⟩ := find?_range'_eq_some.mp hi
      obtain ⟨hw, htested⟩ := Bool.and_eq_true_iff.mp hfound
      have hlow := (of_decide_eq_true htested).start_le (mem_range'_1.mp hmem).1
      by_contra hlt
      have hlt : i < size := by simpa using hlt
      have := find?_range'_eq_none.mp hfind i hlow (by omega)
      simp [beq_iff_eq.mp hw] at this

theorem nextBitReads_iff : ∀ n iter r : Nat, (∀ b ∈ nextBitReads want d (n + 1) iter r, b < iter + n) ↔
    ∃ i, nextBitLoop want d n iter r = some i
  | 0, iter, r => by simp [nextBitReads, nextBitLoop]
  | n + 1, iter, r => by
    have hnext : ∀ b, b < iter + (n + 1) ↔ b < iter + 1 + n := fun b => by omega
    rw [nextBitReads, forall_mem_cons, nextBitLoop]
    simp only [hnext]
    rw [and_iff_right (by omega)]
    by_cases hskip : d (pageFixSize + iter) = if want then 0 else 255
    · rw [if_pos hskip, if_pos hskip]
      exact nextBitReads_iff n (iter + 1) r
    · rw [if_neg hskip, if_neg hskip]
      cases findFirst want (d (pageFixSize + iter)) r with
      | some i => simp
      | none => exact nextBitReads_iff n (iter + 1) 0

/-- A search from inside of the bitmap is right and stays in the bitmap if and only if it looks at every bit to find,
    and finds one in the bytes of the bitmap. -/
theorem bitmap_search_iff (want : Bool) (d : PageData) (hstart : start < size) :
    (d.nextBit want size start = (List.range' start (size - start)).find? (fun i => d.getBit i == want) ∧
      ∀ b ∈ nextBitReads want d (pageBitmapSize size + 1 - start / 8) (start / 8) (start % 8),
        b < pageBitmapSize size) ↔
    (∀ k, start ≤ k → k < size → d.getBit k = want → Tested want d (start / 8) (start % 8) k) ∧
      ∃ k, start ≤ k ∧ k < pageBitmapSize size * 8 ∧ d.getBit k = want ∧ Tested want d (start / 8) (start % 8) k := by
  have hbyte := bit_byte_lt hstart
  obtain ⟨n, hn⟩ := Nat.exists_eq_add_of_le hbyte.le
  refine and_congr nextBit_eq_iff ?_
  rw [hn, Nat.add_assoc, Nat.add_sub_cancel_left, nextBitReads_iff, nextBitLoop_eq]
  constructor
  · rintro ⟨k, hfound⟩
    obtain ⟨hk, hmem, -⟩ := find?_range'_eq_some.mp hfound
    obtain ⟨hw, htested⟩ := Bool.and_eq_true_iff.mp hk
    obtain ⟨hlow, hhigh⟩ := mem_range'_1.mp hmem
    have htested := of_decide_eq_true htested
    exact ⟨k, htested.start_le hlow, by omega, beq_iff_eq.mp hw, htested⟩
  · rintro ⟨k, hlow, hhigh, hw, htested⟩
    refine Option.isSome_iff_exists.mp (find?_isSome.mpr ⟨k, mem_range'_1.mpr (by omega), ?_⟩)
    simp [hw, htested]

theorem bitmap_search_first : nextBit true (fun _ => 1) 16 0 = some 0 :=
  ((@bitmap_search_iff 16 0 true (fun _ => 1) (by decide)).mpr
    ⟨fun k _ _ _ => .inl (Nat.zero_le _), 0, by decide⟩).1

/-- Of two bytes only the first bit of the second one is set. From bit 1 on `next_setted_bit` does not find it, and
    reads a byte behind the two. -/
theorem bitmap_search_skips : let d : PageData := fun i => if i = pageFixSize + 1 then 1 else 0
    d.getBit 8 = true ∧ d.nextSettedBit 16 1 = none ∧ nextBitReads true d 3 0 1 = [0, 1, 2] := by decide

theorem nextUnsettedBit_spec {j : Nat} (hj : j < size) (hfree : d.getBit j = false) :
    ∃ i, d.nextUnsettedBit size 0 = some i ∧ i < size ∧ d.getBit i = false := by
  have heq := (@nextBit_eq_iff d false size 0).mpr fun _ _ _ _ => .inl (Nat.zero_le _)
  have hmem : j ∈ List.range' 0 (size - 0) := mem_range'_1.mpr ⟨Nat.zero_le j, by omega⟩
  have hsome : ((List.range' 0 (size - 0)).find? fun i => d.getBit i == false).isSome :=
    find?_isSome.mpr ⟨j, hmem, beq_iff_eq.mpr hfree⟩
  obtain ⟨i, hfind⟩ := Option.isSome_iff_exists.mp hsome
  obtain ⟨hi, hmem, -⟩ := find?_range'_eq_some.mp hfind
  have hlt := (mem_range'_1.mp hmem).2
  exact ⟨i, heq.trans hfind, by omega, beq_iff_eq.mp hi⟩

end

/-- The header fits records of size `R`, and `record_num` is the number of slots in use. -/
structure Formatted (R : Nat) (d : PageData) : Prop where
  capacity : d.recordCapacity = slotCapacity R
  realSize : d.recordRealSize = R
  size : d.recordSize = align8 R
  first : d.firstRecordOffset = pageHeaderSize (slotCapacity R)
  num : d.recordNum = ((List.range (slotCapacity R)).countP d.getBit : Nat)

def records (d : PageData) (slot : Nat) : Option Bytes :=
  if slot < d.recordCapacity.toNat ∧ d.getBit slot = true then
    some (d.readBytes (d.recordOffset slot) d.recordRealSize.toNat)
  else none

namespace Formatted
variable {slot : Nat} {data : Bytes} {s : SlotNum}

def offset (R slot : Nat) : Nat := pageHeaderSize (slotCapacity R) + slot * align8 R

theorem recordOffset_eq (h : Formatted R d) (slot : Nat) : d.recordOffset slot = offset R slot := by
  rw [recordOffset, h.first, h.size]
  rfl

theorem records_eq (h : Formatted R d) (slot : Nat) :
    d.records slot = if slot < slotCapacity R ∧ d.getBit slot = true then some (d.readBytes (offset R slot) R)
      else none := by
  rw [records, h.recordOffset_eq, h.capacity, h.realSize]
  rfl

theorem header_le_offset (R slot : Nat) : pageFixSize + pageBitmapSize (slotCapacity R) ≤ offset R slot :=
  (bitmap_end_le _).trans (Nat.le_add_right _ _)

theorem offset_end (hR : RecordFits R) (hslot : slot < slotCapacity R) : offset R slot + R ≤ bpPageDataSize := by
  have hmul : slot * align8 R ≤ (slotCapacity R - 1) * align8 R := Nat.mul_le_mul_right _ (by omega)
  have := hR.2.2
  unfold offset
  omega

theorem offset_disjoint {j : Nat} (hne : j ≠ slot) :
    offset R j + R ≤ offset R slot ∨ offset R slot + R ≤ offset R j := by
  have hle := le_align8 R
  unfold offset
  rcases Nat.lt_or_gt_of_ne hne with hlt | hlt
  · have hmul : (j + 1) * align8 R ≤ slot * align8 R := Nat.mul_le_mul_right _ hlt
    rw [Nat.succ_mul] at hmul
    omega
  · have hmul : (slot + 1) * align8 R ≤ j * align8 R := Nat.mul_le_mul_right _ hlt
    rw [Nat.succ_mul] at hmul
    omega

section
variable (h : Formatted R d)
include h

theorem of_header (hbytes : ∀ i, 4 ≤ i → i < pageFixSize → d' i = d i)
    (hnum : d'.recordNum = ((List.range (slotCapacity R)).countP d'.getBit : Nat)) : Formatted R d' where
  capacity := (int_congr fun i hlo hhi => hbytes i (by omega) (by unfold pageFixSize; omega)).trans h.capacity
  realSize := (int_congr fun i hlo hhi => hbytes i (by omega) (by unfold pageFixSize; omega)).trans h.realSize
  size := (int_congr fun i hlo hhi => hbytes i (by omega) (by unfold pageFixSize; omega)).trans h.size
  first := (int_congr fun i hlo hhi => hbytes i (by omega) (by unfold pageFixSize; omega)).trans h.first
  num := hnum

theorem num_bounds : 0 ≤ d.recordNum ∧ d.recordNum ≤ slotCapacity R := by
  have := countP_range_le d.getBit (slotCapacity R)
  rw [h.num]
  omega

theorem checkSlot_live (outside : RC) (hlive : d.records s.toNat ≠ none) :
    d.checkSlot s outside = .ok () ∧ s.toNat < slotCapacity R ∧ d.getBit s.toNat = true := by
  rw [h.records_eq] at hlive
  obtain ⟨hlt, hbit⟩ : s.toNat < slotCapacity R ∧ d.getBit s.toNat = true := by
    by_contra hno
    exact hlive (if_neg hno)
  refine ⟨?_, hlt, hbit⟩
  rw [checkSlot, h.capacity, if_neg (by omega), hbit]
  rfl

theorem checkSlot_dead (outside : RC) (hs : 0 ≤ s) (hdead : d.records s.toNat = none) :
    ∃ rc, d.checkSlot s outside = .error rc := by
  rw [checkSlot, h.capacity]
  by_cases hlt : (slotCapacity R : Int) ≤ s
  · exact ⟨_, if_pos hlt⟩
  · rw [if_neg hlt]
    rw [h.records_eq] at hdead
    cases hbit : d.getBit s.toNat with
    | false => exact ⟨_, rfl⟩
    | true =>
      rw [if_pos ⟨(Int.toNat_lt hs).mpr (Int.lt_of_not_ge hlt), hbit⟩] at hdead
      cases hdead

theorem write (off : Nat) (hoff : pageFixSize + pageBitmapSize (slotCapacity R) ≤ off) (data : Bytes) :
    Formatted R (d.writeBytes off data) ∧ ∀ j < slotCapacity R, (d.writeBytes off data).getBit j = d.getBit j := by
  have hhead : ∀ i, i < pageFixSize + pageBitmapSize (slotCapacity R) → d.writeBytes off data i = d i :=
    fun i hi => writeBytes_other (.inl (hi.trans_le hoff))
  have hbits : ∀ j < slotCapacity R, (d.writeBytes off data).getBit j = d.getBit j :=
    fun j hj => getBit_congr (hhead _ (Nat.add_lt_add_left (bit_byte_lt hj) _))
  refine ⟨h.of_header (fun i _ hi => hhead i (by omega)) ?_, hbits⟩
  rw [countP_congr_range hbits, ← h.num]
  exact int_congr fun i _ hi => hhead i (by unfold pageFixSize; omega)

theorem writeSlot (hR : RecordFits R) (hslot : slot < slotCapacity R) (hbit : d.getBit slot = true)
    (hdata : data.length = R) :
    Formatted R (d.writeBytes (offset R slot) data) ∧
      (d.writeBytes (offset R slot) data).records = update d.records slot (some data) := by
  obtain ⟨hfmt, hbits⟩ := h.write _ (header_le_offset R slot) data
  refine ⟨hfmt, funext fun j => ?_⟩
  rw [hfmt.records_eq, update_apply, h.records_eq]
  by_cases hj : j = slot
  · subst hj
    have hread := readBytes_writeBytes d (offset R j) data (by rw [hdata]; exact offset_end hR hslot)
    rw [hdata] at hread
    rw [if_pos rfl, if_pos ⟨hslot, by rw [hbits j hslot]; exact hbit⟩, hread]
  · rw [if_neg hj]
    by_cases hlt : j < slotCapacity R
    · rw [hbits j hlt, readBytes_congr fun i hlo hhi => writeBytes_other ?_]
      have := offset_disjoint (R := R) hj
      omega
    · rw [if_neg fun hc => hlt hc.1, if_neg fun hc => hlt hc.1]

theorem mark (bits : PageData) (v : Int) (hslot : slot < slotCapacity R)
    (hother : ∀ i, i ≠ pageFixSize + slot / 8 → bits i = d i) (hv : 0 ≤ v ∧ v < 2147483648)
    (hcount : v = ((List.range (slotCapacity R)).countP bits.getBit : Nat)) :
    Formatted R (bits.setInt 0 v) ∧ (∀ j, (bits.setInt 0 v).getBit j = bits.getBit j) ∧
      ∀ j, (bits.setInt 0 v).readBytes (offset R j) R = d.readBytes (offset R j) R := by
  have hbits : ∀ j, (bits.setInt 0 v).getBit j = bits.getBit j :=
    fun j => getBit_congr (setInt_other v (.inr (by unfold pageFixSize; omega)))
  refine ⟨h.of_header (fun i hlo hi => ?_) ?_, hbits, fun j => readBytes_congr fun i hlo _ => ?_⟩
  · rw [setInt_other v (.inr (by omega)), hother i (by omega)]
  · rw [countP_congr_range fun j _ => hbits j, ← hcount]
    exact int_setInt hv.1 hv.2
  · have := header_le_offset R j
    have := bit_byte_lt hslot
    rw [setInt_other v (.inr (by unfold pageFixSize at *; omega)), hother i (by omega)]

theorem insertRecord_slot (hR : 0 < R) (hfull : d.isFull = false) :
    ∃ slot e, slot < slotCapacity R ∧ d.getBit slot = false ∧ Formatted R e ∧ e.getBit slot = true ∧
      (∀ j, j ≠ slot → e.getBit j = d.getBit j) ∧ (∀ j, e.readBytes (offset R j) R = d.readBytes (offset R j) R) ∧
      ∀ data len, d.insertRecord data len =
        .ok (slot, e.writeBytes (offset R slot) (data.take (if len = 0 then R else len))) := by
  have hnum := h.num_bounds
  have hcap := slotCapacity_lt hR
  have hroom : d.recordNum < slotCapacity R := by
    have := of_decide_eq_false hfull
    rw [h.capacity] at this
    omega
  obtain ⟨j, hj, hfree⟩ : ∃ j < slotCapacity R, d.getBit j = false :=
    exists_false_of_countP_lt (by have := h.num; omega)
  obtain ⟨slot, hnext, hslot, hslotFree⟩ := nextUnsettedBit_spec hj hfree
  have hbit : ∀ m, m ≠ slot → (d.setBit slot).getBit m = d.getBit m := fun m hm => by
    rw [getBit_setBit]
    simp [hm]
  have hset : (d.setBit slot).getBit slot = true := by
    rw [getBit_setBit]
    simp
  obtain ⟨hfmt, hbits, hreads⟩ := h.mark (d.setBit slot) (d.recordNum + 1) hslot (fun i hi => setBit_other hi)
    (by omega) (by
      rw [countP_range_set hslot hslotFree hset hbit, h.num]
      rfl)
  refine ⟨slot, _, hslot, hslotFree, hfmt, (hbits slot).trans hset, fun m hm => (hbits m).trans (hbit m hm), hreads, ?_⟩
  intro data len
  rw [PageData.insertRecord, if_neg (by rw [h.capacity]; omega), h.capacity, Int.toNat_natCast, hnext]
  dsimp only
  rw [hfmt.recordOffset_eq, h.realSize, Int.toNat_natCast]

theorem insertRecord (hR : RecordFits R) (hfull : d.isFull = false) (hdata : data.length = R) :
    ∃ slot d', d.insertRecord data 0 = .ok (slot, d') ∧ d.records slot = none ∧ Formatted R d' ∧
      d'.records = update d.records slot (some data) := by
  obtain ⟨slot, e, hslot, hfree, hfmt, hset, hbit, hreads, hcall⟩ := h.insertRecord_slot hR.1 hfull
  obtain ⟨hfmt', hrec'⟩ := hfmt.writeSlot hR hslot hset hdata
  refine ⟨slot, _, ?_, ?_, hfmt', ?_⟩
  · rw [hcall, if_pos rfl, ← hdata, List.take_length]
  · rw [h.records_eq, hfree]
    simp
  · rw [hrec']
    refine funext fun m => ?_
    by_cases hm : m = slot
    · subst hm
      rw [update_self, update_self]
    · rw [update_of_ne hm, update_of_ne hm, hfmt.records_eq, h.records_eq, hbit m hm, hreads]

theorem updateRecord_live (hR : RecordFits R) (hlive : d.records s.toNat ≠ none) (hdata : data.length = R) :
    ∃ d', d.updateRecord s data = .ok d' ∧ Formatted R d' ∧
      d'.records = update d.records s.toNat (some data) := by
  obtain ⟨hcheck, hlt, hbit⟩ := h.checkSlot_live .invalidArgument hlive
  obtain ⟨hfmt, hrec⟩ := h.writeSlot hR hlt hbit hdata
  refine ⟨_, ?_, hfmt, hrec⟩
  rw [PageData.updateRecord, hcheck, h.recordOffset_eq, h.realSize, Int.toNat_natCast, ← hdata, List.take_length]
  rfl

theorem deleteRecord_live (hR : RecordFits R) (hlive : d.records s.toNat ≠ none) :
    ∃ d', d.deleteRecord s = .ok d' ∧ Formatted R d' ∧ d'.records = update d.records s.toNat none := by
  obtain ⟨hcheck, hlt, hbit⟩ := h.checkSlot_live .invalidArgument hlive
  have hnum := h.num_bounds
  have hcap := slotCapacity_lt hR.1
  have hother : ∀ m, m ≠ s.toNat → d.getBit m = (d.clearBit s.toNat).getBit m := fun m hm => by
    rw [getBit_clearBit]
    simp [hm]
  have hclear : (d.clearBit s.toNat).getBit s.toNat = false := by
    rw [getBit_clearBit]
    simp
  have hcount := countP_range_set hlt hclear hbit hother
  obtain ⟨hfmt, hbits, hreads⟩ := h.mark (d.clearBit s.toNat) (d.recordNum - 1) hlt (fun i hi => clearBit_other hi)
    (by have := h.num; omega) (by have := h.num; omega)
  refine ⟨_, ?_, hfmt, funext fun m => ?_⟩
  · rw [PageData.deleteRecord, hcheck]
    rfl
  · rw [hfmt.records_eq, update_apply, h.records_eq, hbits, hreads]
    by_cases hm : m = s.toNat
    · rw [if_pos hm, hm, hclear]
      simp
    · rw [if_neg hm, hother m hm]

theorem getRecord_live {b : Bytes} (hlive : d.records s.toNat = some b) :
    d.getRecord s = .ok b := by
  obtain ⟨hcheck, hlt, hbit⟩ := h.checkSlot_live .recordInvalidrid (by rw [hlive]; exact Option.some_ne_none b)
  rw [PageData.getRecord, hcheck]
  rw [records, if_pos ⟨by rw [h.capacity]; exact hlt, hbit⟩] at hlive
  exact congrArg Except.ok (Option.some.inj hlive)

theorem records_none (hz : d.recordNum = 0) (slot : Nat) : d.records slot = none := by
  rw [h.records_eq, if_neg]
  rintro ⟨hlt, hbit⟩
  have hpos : 0 < (List.range (slotCapacity R)).countP d.getBit :=
    List.countP_pos_iff.mpr ⟨slot, List.mem_range.mpr hlt, hbit⟩
  have := h.num
  omega

end

end Formatted

theorem pageBitmapSize_lt (hR : 0 < R) : pageBitmapSize (slotCapacity R) ≤ 512 := by
  have := slotCapacity_lt hR
  unfold pageBitmapSize
  split <;> omega

theorem getBit_initEmptyPage (d : PageData) (hR : 0 < R) (hslot : slot < slotCapacity R) :
    (d.initEmptyPage R).getBit slot = false := by
  have hbyte : slot / 8 < pageBitmapSize (pageRecordCapacity bpPageDataSize (align8 R)) := bit_byte_lt hslot
  have hsize : pageBitmapSize (pageRecordCapacity bpPageDataSize (align8 R)) ≤ 512 := pageBitmapSize_lt hR
  simp only [getBit, initEmptyPage]
  rw [writeBytes, if_pos ⟨by omega, by simpa using hbyte, by unfold pageFixSize bpPageDataSize; omega⟩]
  simp [List.getD, hbyte]

theorem formatted_initEmptyPage (d : PageData) (hR : 0 < R) (hsmall : R ≤ RecordFile.fixedSize) :
    Formatted R (d.initEmptyPage R) ∧ (d.initEmptyPage R).recordNum = 0 := by
  have hsmall : R ≤ 4056 := hsmall
  have halign : align8 R ≤ 4064 := by
    unfold align8
    split <;> omega
  have hcap := slotCapacity_lt hR
  have hhead : pageHeaderSize (slotCapacity R) ≤ 540 := by
    have := pageBitmapSize_lt hR
    unfold pageHeaderSize align8 pageFixSize
    split <;> omega
  have hlow : ∀ {e : PageData} {off : Nat}, off + 4 ≤ pageFixSize →
      (e.writeBytes pageFixSize (List.replicate (pageBitmapSize (slotCapacity R)) 0)).int off = e.int off :=
    fun hoff => int_congr fun i _ hi => writeBytes_other (.inl (by omega))
  have hzero : (d.initEmptyPage R).recordNum = 0 := by
    refine (hlow (by decide)).trans ?_
    rw [int_setInt_ne (by omega), int_setInt_ne (by omega), int_setInt_ne (by omega),
      int_setInt_ne (by omega)]
    exact int_setInt (by omega) (by omega)
  refine ⟨⟨?_, ?_, ?_, ?_, ?_⟩, hzero⟩
  · refine (hlow (by decide)).trans ?_
    rw [int_setInt_ne (by omega), int_setInt_ne (by omega), int_setInt_ne (by omega)]
    exact int_setInt (by omega) (by unfold slotCapacity at hcap; omega)
  · refine (hlow (by decide)).trans ?_
    rw [int_setInt_ne (by omega), int_setInt_ne (by omega)]
    exact int_setInt (by omega) (by omega)
  · refine (hlow (by decide)).trans ?_
    rw [int_setInt_ne (by omega)]
    exact int_setInt (by omega) (by omega)
  · refine (hlow (by decide)).trans ?_
    exact int_setInt (by omega) (by unfold slotCapacity at hhead; omega)
  · rw [hzero, List.countP_eq_zero.mpr]
    · rfl
    · intro slot hslot
      rw [getBit_initEmptyPage d hR (List.mem_range.mp hslot)]
      exact Bool.false_ne_true

end PageData

end MiniOb
