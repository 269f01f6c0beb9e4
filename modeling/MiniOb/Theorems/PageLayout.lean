import MiniOb.Index.Insert
import MiniOb.Table.Create
import MiniOb.Theorems.RecordPage

/-! # The layouts of the two kinds of pages

The arrays of a node fit whatever the width of a key is, but wide keys leave fewer than three slots; the slots of a page
of records fit, except for records of at most eight bytes. -/

namespace MiniOb
open FieldMeta

namespace IndexFileHeader

def keyLength (h : IndexFileHeader) : Nat := sizeofRID + h.attrWholeLength

def keysOffset : Nat := sizeofIndexFileHeader + sizeofIndexNode

def ridsOffset (h : IndexFileHeader) : Nat := keysOffset + h.order * h.keyLength

def keyBytes (h : IndexFileHeader) : Set Nat := Set.Ico keysOffset (keysOffset + h.order * h.keyLength)

def ridBytes (h : IndexFileHeader) : Set Nat := Set.Ico h.ridsOffset (h.ridsOffset + h.order * sizeofRID)

def nodeBytes : Set Nat := Set.Ico keysOffset bpPageDataSize

/-- A node has at least three slots, and its arrays lie in the page, one beside the other. -/
def Fits (h : IndexFileHeader) : Prop :=
  3 ≤ h.order ∧ Disjoint h.keyBytes h.ridBytes ∧ h.keyBytes ⊆ nodeBytes ∧ h.ridBytes ⊆ nodeBytes

theorem keyBytes_disjoint (h : IndexFileHeader) : Disjoint h.keyBytes h.ridBytes :=
  Set.Ico_disjoint_Ico.mpr ((min_le_left _ _).trans (le_max_right _ _))

theorem ridsEnd_le {h : IndexFileHeader} (order : h.order = orderOf h.attrWholeLength) :
    h.ridsOffset + h.order * sizeofRID ≤ bpPageDataSize := by
  have hslots : h.order * (h.attrWholeLength + 2 * sizeofRID) ≤ bpPageDataSize - sizeofIndexFileHeader
      - sizeofIndexNode := by
    rw [order]
    exact Nat.div_mul_le_self _ _
  have hsplit : h.order * h.keyLength + h.order * sizeofRID = h.order * (h.attrWholeLength + 2 * sizeofRID) := by
    rw [← Nat.mul_add]
    congr 1
    unfold keyLength
    omega
  have hroom : keysOffset + (bpPageDataSize - sizeofIndexFileHeader - sizeofIndexNode) = bpPageDataSize := by decide
  unfold ridsOffset
  omega

theorem three_le_orderOf {whole : Nat} : 3 ≤ orderOf whole ↔ whole ≤ 1276 := by
  unfold orderOf
  rw [Nat.le_div_iff_mul_le (Nat.add_pos_right _ (by decide))]
  have hroom : bpPageDataSize - sizeofIndexFileHeader - sizeofIndexNode = 3876 := by decide
  rw [hroom]
  unfold sizeofRID
  omega

theorem fits_iff {h : IndexFileHeader} (order : h.order = orderOf h.attrWholeLength) :
    h.Fits ↔ h.attrWholeLength ≤ 1276 := by
  have hend := ridsEnd_le order
  unfold Fits
  rw [order, three_le_orderOf, and_iff_left]
  refine ⟨h.keyBytes_disjoint, Set.Ico_subset_Ico_right ?_, Set.Ico_subset_Ico (Nat.le_add_right _ _) hend⟩
  exact (Nat.le_add_right _ _).trans hend

end IndexFileHeader

/-- The index that `create_index` makes on some fields has room in its nodes if and only if the fields have at most 1276
    bytes together, null flags included. -/
theorem createIndex_fits_iff (fields : List FieldMeta) (alloc : Allocator) :
    (create (fields.map indexAttr) alloc).fileHeader.Fits ↔ (fields.map len).sum ≤ 1276 := by
  have hwhole : (create (fields.map indexAttr) alloc).fileHeader.attrWholeLength = (fields.map len).sum := by
    unfold IndexFileHeader.attrWholeLength create
    rw [List.map_map]
    rfl
  rw [IndexFileHeader.fits_iff rfl, hwhole]

/-- The nodes of an index on a TEXT column have no slot at all. -/
theorem textIndex_no_slots :
    createTable [⟨.texts, false, none⟩] = .ok [⟨.chars, 0, 4096, false⟩] ∧
      (create [indexAttr ⟨.chars, 0, 4096, false⟩] fun s => (s.count, .zeroed)).fileHeader.order = 0 ∧
      ¬(create [indexAttr ⟨.chars, 0, 4096, false⟩] fun s => (s.count, .zeroed)).fileHeader.Fits :=
  ⟨by decide, by decide, fun fits => absurd fits.1 (by decide)⟩

namespace PageData

/-- A page of records has a slot, its bitmap ends before the first one, and the last one ends in the page. -/
def Contained (d : PageData) : Prop :=
  1 ≤ d.recordCapacity ∧ (pageFixSize + pageBitmapSize d.recordCapacity.toNat : Nat) ≤ d.firstRecordOffset ∧
    d.firstRecordOffset + d.recordCapacity * d.recordSize ≤ bpPageDataSize

theorem align8_eq {R : Nat} : align8 R = 8 * ((R + 7) / 8) := by
  unfold align8
  split <;> omega

theorem slots_end : ∀ k < 508, 0 < k →
    (pageHeaderSize (pageRecordCapacity bpPageDataSize (8 * k)) + pageRecordCapacity bpPageDataSize (8 * k) * (8 * k) ≤
      bpPageDataSize ↔ k ≠ 1) := by
  decide +kernel

theorem Formatted.contained_iff {d : PageData} {R : Nat} (formatted : Formatted R d) (pos : 0 < R)
    (small : R ≤ RecordFile.fixedSize) : d.Contained ↔ 8 < R := by
  have hcap : 0 < slotCapacity R := slotCapacity_pos small
  have hsmall : R ≤ 4056 := small
  have hend := slots_end ((R + 7) / 8) (by omega) (by omega)
  rw [← align8_eq] at hend
  unfold Contained
  rw [formatted.capacity, formatted.first, formatted.size, Int.toNat_natCast]
  constructor
  · rintro ⟨-, -, hinside⟩
    have hone := hend.mp (by exact_mod_cast hinside)
    omega
  · intro hwide
    refine ⟨by exact_mod_cast hcap, by exact_mod_cast bitmap_end_le _, ?_⟩
    exact_mod_cast hend.mpr (by omega)

theorem Contained.slot_end {d : PageData} {R slot : Nat} (formatted : Formatted R d) (contained : d.Contained)
    (hslot : slot < slotCapacity R) : d.recordOffset slot + align8 R ≤ bpPageDataSize := by
  have hinside := contained.2.2
  rw [formatted.first, formatted.capacity, formatted.size] at hinside
  have hinside : pageHeaderSize (slotCapacity R) + slotCapacity R * align8 R ≤ bpPageDataSize := by
    exact_mod_cast hinside
  have hmul : (slot + 1) * align8 R ≤ slotCapacity R * align8 R := Nat.mul_le_mul_right _ hslot
  rw [Nat.succ_mul] at hmul
  rw [formatted.recordOffset_eq, Formatted.offset]
  omega

/-- `init_empty_page` lays out a page of records of at least nine bytes so that every slot lies in the page; for shorter
    ones it does not. -/
theorem initEmptyPage_contained_iff (d : PageData) {R : Nat} (pos : 1 ≤ R) (small : R ≤ RecordFile.fixedSize) :
    ((d.initEmptyPage R).Contained ↔ 8 < R) ∧
      (8 < R → ∀ slot < slotCapacity R, (d.initEmptyPage R).recordOffset slot + align8 R ≤ bpPageDataSize) := by
  have formatted := (formatted_initEmptyPage d pos small).1
  have hiff := formatted.contained_iff pos small
  exact ⟨hiff, fun wide slot hslot => (hiff.mpr wide).slot_end formatted hslot⟩

theorem initEmptyPage_contained_nine : (PageData.initEmptyPage (fun _ => 0) 9).Contained :=
  (initEmptyPage_contained_iff (fun _ => 0) (R := 9) (by decide) (by decide)).1.mpr (by decide)

/-- Records of a table with one INTS column have eight bytes. The last of the 501 slots of their pages ends four bytes
    behind the page. -/
theorem lastSlot_outside :
    ¬(PageData.initEmptyPage (fun _ => 0) 8).Contained ∧ (PageData.initEmptyPage (fun _ => 0) 8).recordCapacity = 501 ∧
      (PageData.initEmptyPage (fun _ => 0) 8).recordOffset 500 + 8 = 4096 := by
  have formatted := (formatted_initEmptyPage (fun _ => 0) (R := 8) (by decide) (by decide)).1
  refine ⟨fun contained => ?_, ?_, ?_⟩
  · exact absurd ((formatted.contained_iff (by decide) (by decide)).mp contained) (by decide)
  · exact formatted.capacity.trans (by decide +kernel)
  · rw [formatted.recordOffset_eq]
    decide +kernel

end PageData

end MiniOb
