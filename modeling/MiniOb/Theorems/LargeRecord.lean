import MiniOb.Table.LargeRecord
import MiniOb.Theorems.RecordFile

/-! # Records of two chunks

A page has room for one chunk. `Holding` is the layout in which the two chunks of every record lie in pages `2k + 1` and
`2k + 2`, so that a scan meets them one after the other. -/

namespace MiniOb
open Slots PageData RecordFile List RecordPages Assembly Option Run Int
variable {k fuel : Nat} {alloc : PageAllocator}

namespace LargeTable

/-! ### Pages with one chunk -/

theorem slotCapacity_chunk : slotCapacity 4056 = 1 := by decide

theorem offset_chunk : Formatted.offset 4056 0 = 24 := by decide

theorem fits_chunk : RecordFits 4056 := by decide

structure ChunkPage (d : PageData) : Prop where
  formatted : d.Formatted 4056
  used : d.getBit 0 = true

namespace ChunkPage
variable {d : PageData}

section
variable (h : ChunkPage d)
include h

theorem capacity : d.recordCapacity = 1 := h.formatted.capacity

theorem recordNum : d.recordNum = 1 := by
  rw [h.formatted.num, slotCapacity_chunk]
  simp [h.used]

theorem isFull : d.isFull = true := by
  rw [PageData.isFull, h.capacity, h.recordNum]
  rfl

theorem recordOffset : d.recordOffset 0 = 24 := by
  rw [h.formatted.recordOffset_eq, offset_chunk]

theorem nextAccepted : d.nextAccepted (fun _ => true) (d.recordCapacity.toNat + 1) (-1) = some 0 := by
  have hbit : d.nextSettedBit 1 0 = some 0 := by
    have heq := (@nextBit_eq_iff d true 1 0).mpr fun _ _ _ _ => .inl (Nat.zero_le _)
    exact heq.trans (find?_cons_of_pos (beq_iff_eq.mpr h.used))
  simp only [PageData.nextAccepted, PageData.nextRecord, h.capacity]
  rw [if_neg (by decide), show ((1 : Int).toNat) = 1 by decide, show ((-1 + 1 : Int).toNat) = 0 by decide, hbit]
  rfl

theorem nextAccepted_zero : d.nextAccepted (fun _ => true) (d.recordCapacity.toNat + 1) 0 = none := by
  simp only [PageData.nextAccepted, PageData.nextRecord, h.capacity]
  rfl

theorem of_header {d' : PageData} (hbytes : ∀ i, i < 24 → d' i = d i) : ChunkPage d' := by
  have hbit : d'.getBit 0 = d.getBit 0 := getBit_congr (hbytes _ (by decide))
  refine ⟨h.formatted.of_header (fun i _ hi => hbytes i (hi.trans (by decide))) ?_, hbit.trans h.used⟩
  have hnum : d'.recordNum = d.recordNum := int_congr fun i _ hi => hbytes i (by omega)
  rw [hnum, h.recordNum, slotCapacity_chunk]
  simp [hbit, h.used]

theorem write (data : Bytes) : ChunkPage (d.writeBytes 24 data) :=
  h.of_header fun _ hi => writeBytes_other (.inl hi)

theorem unmark : ChunkPage (d.setInt 24 0) := h.of_header fun _ hi => setInt_other 0 (.inl hi)

theorem checkSlot (outside : RC) : d.checkSlot 0 outside = .ok () := by
  rw [PageData.checkSlot, h.capacity, show Int.toNat 0 = 0 from rfl, h.used]
  rfl

theorem deleteRecord : ∃ d', d.deleteRecord 0 = .ok d' ∧ d'.recordNum = 0 := by
  refine ⟨(d.clearBit 0).setInt 0 (d.recordNum - 1), ?_, ?_⟩
  · rw [PageData.deleteRecord, h.checkSlot]
    rfl
  · rw [h.recordNum]
    exact int_setInt (by decide) (by decide)

end

end ChunkPage

/-! ### The order of a scan -/

section Scan
variable {s : RecordPages} {p : PageNum} {d : PageData} {n : Nat} {ret : RC}

theorem nextFrom_free (hget : s.get p = none) (slot : SlotNum) :
    s.nextFrom (fun _ => true) (n + 1) p slot ret =
      s.nextFrom (fun _ => true) n (p + 1) (-1) .bufferpoolInvalidPageNum := by
  rw [nextFrom, hget]

theorem nextFrom_hit (hget : s.get p = some d) (hd : ChunkPage d) :
    s.nextFrom (fun _ => true) (n + 1) p (-1) ret = .ok ⟨p, 0⟩ := by
  rw [nextFrom, hget]
  dsimp only
  rw [hd.nextAccepted]
  rfl

theorem nextFrom_pass (hget : s.get p = some d) (hd : ChunkPage d) :
    s.nextFrom (fun _ => true) (n + 1) p 0 ret = s.nextFrom (fun _ => true) n (p + 1) (-1) .recordEof := by
  rw [nextFrom, hget]
  dsimp only
  rw [hd.nextAccepted_zero]

end Scan

/-- The record `data` lies in the pages `p` and `p + 1`: its first 4056 bytes, then four bytes of zeros and the rest. -/
structure Pair (recordSize : Nat) (s : RecordPages) (p : Nat) (data : Bytes) : Prop where
  length : data.length = recordSize
  unmarked : data.take 4 = [0, 0, 0, 0]
  first : ∃ d, s.get p = some d ∧ ChunkPage d ∧ d.readBytes 24 4056 = data.take 4056
  second : ∃ d, s.get (p + 1 : Nat) = some d ∧ ChunkPage d ∧ d.readBytes 24 4 = [0, 0, 0, 0] ∧
    d.readBytes 28 (recordSize - 4056) = data.drop 4056

/-- The pages `2k + 1` and `2k + 2`: free, or with a record. -/
def PairAt (R : Nat) (s : RecordPages) (k : Nat) : Option Bytes → Prop
  | none => s.get (2 * k + 1 : Nat) = none ∧ s.get (2 * k + 2 : Nat) = none
  | some data => Pair R s (2 * k + 1) data

/-- The pages from `2k + 1` on, pair by pair. -/
def Pairs (R : Nat) (s : RecordPages) : Nat → List (Option Bytes) → Prop
  | _, [] => True
  | k, o :: rs => PairAt R s k o ∧ Pairs R s (k + 1) rs

def ridsOf (k : Nat) : List RID := [⟨(2 * k + 1 : Nat), 0⟩, ⟨(2 * k + 2 : Nat), 0⟩]

def pairRids : Nat → List (Option Bytes) → List RID
  | _, [] => []
  | k, none :: rs => pairRids (k + 1) rs
  | k, some _ :: rs => ridsOf k ++ pairRids (k + 1) rs

/-- A scan delivers the chunks in that order. The induction is on the pairs that are still to come; `rid` is any record
    from which the next page looked at is `2k + 1`. -/
theorem recordsAfter_pairs {R : Nat} {s : RecordPages} (hne : s.count ≠ 1) :
    ∀ {rs : List (Option Bytes)} {k fuel : Nat} {rid : RID} {ret : RC},
    Pairs R s k rs → s.count = (2 * (k + rs.length) + 1 : Nat) → 2 * rs.length < fuel →
    s.getNextRecord (fun _ => true) rid = s.nextFrom (fun _ => true) (2 * rs.length) (2 * k + 1 : Nat) (-1) ret →
    ∃ rc, s.recordsAfter (fun _ => true) fuel rid = some (pairRids k rs, rc)
  | [], k, fuel, rid, ret, _, _, hfuel, hnext => by
    obtain ⟨m, rfl⟩ := Nat.exists_eq_succ_of_ne_zero (Nat.ne_of_gt hfuel)
    refine ⟨ret, ?_⟩
    rw [recordsAfter, hnext]
    rfl
  | none :: rs, k, fuel, rid, ret, hpairs, hcount, hfuel, hnext => by
    obtain ⟨⟨hfree, hfree'⟩, hrest⟩ := hpairs
    rw [length_cons] at hcount hfuel hnext
    have hnext' : s.getNextRecord (fun _ => true) rid =
        s.nextFrom (fun _ => true) (2 * rs.length) (2 * (k + 1) + 1 : Nat) (-1) .bufferpoolInvalidPageNum := by
      rw [hnext, Nat.mul_succ, nextFrom_free hfree]
      exact nextFrom_free hfree' (-1)
    have hleft : 2 * rs.length < fuel := by omega
    obtain ⟨rc, hrec⟩ := recordsAfter_pairs hne hrest (by rw [hcount, Nat.add_right_comm k 1, Nat.add_assoc])
      hleft hnext'
    exact ⟨rc, hrec⟩
  | some data :: rs, k, fuel, rid, ret, hpairs, hcount, hfuel, hnext => by
    obtain ⟨hpair : Pair _ _ _ _, hrest⟩ := hpairs
    obtain ⟨d, hget, hd, -⟩ := hpair.first
    obtain ⟨e, hget', he, -⟩ := hpair.second
    rw [length_cons] at hcount hfuel hnext
    obtain ⟨m, rfl⟩ : ∃ m, fuel = m + 2 := ⟨fuel - 2, by omega⟩
    have hsecond : s.getNextRecord (fun _ => true) ⟨(2 * k + 1 : Nat), 0⟩ = .ok ⟨(2 * k + 2 : Nat), 0⟩ := by
      have hn : 2 * (k + (rs.length + 1)) + 1 - (2 * k + 1) = 2 * rs.length + 1 + 1 := by omega
      rw [getNextRecord, if_neg hne, hcount]
      dsimp only
      rw [toNat_sub, hn, nextFrom_pass hget hd]
      exact nextFrom_hit hget' he
    have hthird : s.getNextRecord (fun _ => true) ⟨(2 * k + 2 : Nat), 0⟩ =
        s.nextFrom (fun _ => true) (2 * rs.length) (2 * (k + 1) + 1 : Nat) (-1) .recordEof := by
      have hn : 2 * (k + (rs.length + 1)) + 1 - (2 * k + 2) = 2 * rs.length + 1 := by omega
      rw [getNextRecord, if_neg hne, hcount]
      dsimp only
      rw [toNat_sub, hn]
      exact nextFrom_pass hget' he
    have hleft : 2 * rs.length < m := by omega
    obtain ⟨rc, hrec⟩ := recordsAfter_pairs hne hrest (by rw [hcount, Nat.add_right_comm k 1, Nat.add_assoc])
      hleft hthird
    refine ⟨rc, ?_⟩
    rw [recordsAfter, hnext, Nat.mul_succ, nextFrom_hit hget hd]
    dsimp only
    rw [recordsAfter, hsecond]
    dsimp only
    rw [hrec]
    rfl

/-! ### Putting the chunks together -/

section Assemble
variable {R : Nat} {t : LargeTable} {p : Nat} {data : Bytes} {a : Assembly} {σ : Type}
  {visible : Pointed → Bool}

theorem perSize_two (hR : 4056 < R ∧ R ≤ 8112) : perSize R = 2 := by
  unfold perSize
  omega

theorem pointed_of_get {d : PageData} {page : PageNum} (hget : t.file.pages.get page = some d) (hd : ChunkPage d)
    (i : Nat) : t.pointed ⟨page, 0⟩ i = d (24 + i) := by
  rw [pointed]
  dsimp only
  rw [hget]
  dsimp only
  rw [show Int.toNat 0 = 0 from rfl, hd.recordOffset]

theorem getElem?_of_readBytes {d : PageData} {off n i : Nat} {bytes : Bytes} (h : d.readBytes off n = bytes)
    (hi : i < n) : bytes[i]? = some (d (off + i)) := (firstN_eq_iff.mp h).2 i hi

theorem mark_of_zeros {d : PageData} {page : PageNum} (hget : t.file.pages.get page = some d) (hd : ChunkPage d)
    (hread : d.readBytes 24 4 = [0, 0, 0, 0]) : (t.pointed ⟨page, 0⟩).mark = 0 := by
  have hzero : firstN (t.pointed ⟨page, 0⟩) 4 = [0, 0, 0, 0] := by
    refine firstN_eq_iff.mpr ⟨rfl, fun i hi => ?_⟩
    rw [getElem?_of_readBytes hread hi, pointed_of_get hget hd]
  rw [Pointed.mark, hzero]
  rfl

theorem mark_first (h : Pair R t.file.pages p data) : (t.pointed ⟨p, 0⟩).mark = 0 := by
  obtain ⟨d, hget, hd, hread⟩ := h.first
  refine mark_of_zeros hget hd (firstN_eq_iff.mpr ⟨rfl, fun i hi => ?_⟩)
  rw [← h.unmarked, getElem?_take_of_lt hi, ← getElem?_of_readBytes hread (by omega), getElem?_take_of_lt (by omega)]

theorem mark_second (h : Pair R t.file.pages p data) : (t.pointed ⟨(p + 1 : Nat), 0⟩).mark = 0 := by
  obtain ⟨d, hget, hd, hread, -⟩ := h.second
  exact mark_of_zeros hget hd hread

theorem byte_of_pair (h : Pair R t.file.pages p data) {i : Nat} (hi : i < R) :
    data[i]? = some (if i < 4056 then t.pointed ⟨p, 0⟩ i else t.pointed ⟨(p + 1 : Nat), 0⟩ (i - 4056 + 4)) := by
  obtain ⟨d, hget, hd, hread⟩ := h.first
  obtain ⟨e, hget', he, -, hread'⟩ := h.second
  by_cases hlt : i < 4056
  · rw [if_pos hlt, pointed_of_get hget hd, ← getElem?_of_readBytes hread hlt, getElem?_take_of_lt hlt]
  · have hbyte := getElem?_of_readBytes hread' (i := i - 4056) (by omega)
    rw [getElem?_drop, Nat.add_sub_cancel' (by omega)] at hbyte
    rw [if_neg hlt, pointed_of_get hget' he, hbyte, show 24 + (i - 4056 + 4) = 28 + (i - 4056) by omega]

structure Idle (a : Assembly) : Prop where
  offset : a.offset = 0
  first : a.first = 0
  rollbackRids : a.rollbackRids = []
  even : a.recordCount % 2 = 0

theorem push_first (hR : 4056 < R) (ha : Idle a) (rid : RID) (chunk : Pointed) :
    a.push R rid chunk = ⟨a.data.copy 0 chunk 4056, 4056, 1, a.recordCount + 1, [rid]⟩ := by
  simp [push, connect, ha.offset, ha.first, ha.rollbackRids, hR]

theorem push_second (hR : R ≤ 8112) (buffer : Pointed) (count : Nat) (rids : List RID) (rid : RID) (chunk : Pointed) :
    push R ⟨buffer, 4056, 1, count, rids⟩ rid chunk =
      ⟨buffer.copy 4056 (fun i => chunk (i + 4)) (R - 4056), 8112, 2, count + 1, rids ++ [rid]⟩ := by
  have hlen : ¬R - 4056 > 4056 := by omega
  simp [push, connect, hlen]

theorem scan_pair (read : σ → Bytes → List RID → σ × Bool) (hR : 4056 < R ∧ R ≤ 8112)
    (h : Pair R t.file.pages p data) (ha : Idle a) (hvis : ∀ c, c.mark = 0 → visible c = true)
    (chunks : List (RID × Pointed)) (s : σ) : ∃ a', Idle a' ∧
      scan R visible read ((⟨p, 0⟩, t.pointed ⟨p, 0⟩) ::
          (⟨(p + 1 : Nat), 0⟩, t.pointed ⟨(p + 1 : Nat), 0⟩) :: chunks) a s =
        if (read s data [⟨p, 0⟩, ⟨(p + 1 : Nat), 0⟩]).2 then
          scan R visible read chunks a' (read s data [⟨p, 0⟩, ⟨(p + 1 : Nat), 0⟩]).1
        else (a', (read s data [⟨p, 0⟩, ⟨(p + 1 : Nat), 0⟩]).1) := by
  have heven := ha.even
  let c₀ := t.pointed ⟨p, 0⟩
  let c₁ := t.pointed ⟨(p + 1 : Nat), 0⟩
  have hdata : firstN ((a.data.copy 0 c₀ 4056).copy 4056 (fun i => c₁ (i + 4)) (R - 4056)) R = data := by
    refine firstN_eq_iff.mpr ⟨h.length, fun i hi => ?_⟩
    rw [byte_of_pair h hi]
    unfold Pointed.copy
    by_cases hlt : i < 4056
    · rw [if_pos hlt, if_neg (by omega), if_pos (by omega), Nat.sub_zero]
    · rw [if_neg hlt, if_pos (by omega)]
  refine ⟨⟨fun _ => 0, 0, 0, a.recordCount + 1 + 1, []⟩, ⟨rfl, rfl, rfl, ?_⟩, ?_⟩
  · show (a.recordCount + 1 + 1) % 2 = 0
    omega
  · rw [scan, if_pos (hvis _ (mark_first h)), perSize_two hR, push_first hR.1 ha]
    dsimp only
    rw [if_neg (by omega), scan, if_pos (hvis _ (mark_second h)), perSize_two hR, push_second hR.2]
    dsimp only
    rw [if_pos (by omega), hdata]
    rfl

def readPairs (read : σ → Bytes → List RID → σ × Bool) : Nat → List (Option Bytes) → σ → σ
  | _, [], s => s
  | k, none :: rs, s => readPairs read (k + 1) rs s
  | k, some data :: rs, s =>
    if (read s data (ridsOf k)).2 then readPairs read (k + 1) rs (read s data (ridsOf k)).1
      else (read s data (ridsOf k)).1

theorem scan_pairs (read : σ → Bytes → List RID → σ × Bool) (hR : 4056 < R ∧ R ≤ 8112)
    (hvis : ∀ c, c.mark = 0 → visible c = true) :
    ∀ {rs : List (Option Bytes)} {k : Nat} {a : Assembly} (s : σ), Pairs R t.file.pages k rs → Idle a →
      ∃ a', Idle a' ∧ scan R visible read ((pairRids k rs).map fun rid => (rid, t.pointed rid)) a s =
        (a', readPairs read k rs s)
  | [], k, a, s, _, ha => ⟨a, ha, rfl⟩
  | none :: rs, k, a, s, hpairs, ha => by
    obtain ⟨a', ha', hscan⟩ := scan_pairs read hR hvis (k := k + 1) s hpairs.2 ha
    exact ⟨a', ha', hscan⟩
  | some data :: rs, k, a, s, hpairs, ha => by
    obtain ⟨a₁, ha₁, hpair⟩ := scan_pair read hR hpairs.1 ha hvis
      ((pairRids (k + 1) rs).map fun rid => (rid, t.pointed rid)) s
    obtain ⟨a', ha', hscan⟩ := scan_pairs read hR hvis (read s data (ridsOf k)).1 hpairs.2 ha₁
    by_cases hgo : (read s data (ridsOf k)).2 = true
    · refine ⟨a', ha', ?_⟩
      rw [readPairs, if_pos hgo, ← hscan]
      exact hpair.trans (if_pos hgo)
    · refine ⟨a₁, ha₁, ?_⟩
      rw [readPairs, if_neg hgo]
      exact hpair.trans (if_neg hgo)

end Assemble

/-! ### The layout of a table -/

section Layout
variable {R : Nat} {s s' : RecordPages} {data : Bytes}

theorem pairs_iff : ∀ {rs : List (Option Bytes)} {k : Nat},
    Pairs R s k rs ↔ ∀ j o, rs[j]? = some o → PairAt R s (k + j) o
  | [], k => by simp [Pairs]
  | o :: rs, k => by
    rw [Pairs, pairs_iff]
    constructor
    · rintro ⟨hfirst, hrest⟩ j o' hj
      cases j with
      | zero =>
        cases hj
        exact hfirst
      | succ j =>
        have := hrest j o' hj
        rwa [Nat.add_assoc, Nat.add_comm 1] at this
    · intro hall
      refine ⟨hall 0 o rfl, fun j o' hj => ?_⟩
      have := hall (j + 1) o' hj
      rwa [Nat.add_assoc, Nat.add_comm 1]

theorem PairAt.congr {o : Option Bytes} (h : PairAt R s k o)
    (hfirst : s'.get (2 * k + 1 : Nat) = s.get (2 * k + 1 : Nat))
    (hsecond : s'.get (2 * k + 2 : Nat) = s.get (2 * k + 2 : Nat)) : PairAt R s' k o := by
  cases o with
  | none => exact ⟨hfirst.trans h.1, hsecond.trans h.2⟩
  | some data => exact ⟨h.length, h.unmarked, by rw [hfirst]; exact h.first, by rw [hsecond]; exact h.second⟩

theorem PairAt.page {o : Option Bytes} (h : PairAt R s k o) {n : Nat} (hn : n = 2 * k + 1 ∨ n = 2 * k + 2) :
    o = none ∧ s.get n = none ∨ ∃ d, s.get n = some d ∧ ChunkPage d := by
  cases o with
  | none => exact .inl ⟨rfl, hn.elim (fun hn => hn ▸ h.1) fun hn => hn ▸ h.2⟩
  | some data =>
    obtain ⟨d, hget, hd, -⟩ := h.first
    obtain ⟨e, hget', he, -⟩ := h.second
    rcases hn with rfl | rfl
    · exact .inr ⟨d, hget, hd⟩
    · exact .inr ⟨e, hget', he⟩

/-- The first page that is not in use: the search of `allocate_page`, or a page behind the last one. -/
def lowestFree (s : RecordPages) : Nat := firstIdx s.count.toNat fun i => (s.get i).isNone

def LowestFirst (alloc : PageAllocator) : Prop := ∀ s, (alloc s).1 = lowestFree s

theorem get_lowestFree (s : RecordPages) : s.get (lowestFree s) = none := by
  rcases Nat.lt_or_ge (lowestFree s) s.count.toNat with hlt | hge
  · exact isNone_iff_eq_none.mp (firstIdx_spec hlt)
  · exact s.get_of_count_le _ (toNat_le.mp hge)

theorem LowestFirst.fresh (h : LowestFirst alloc) : alloc.Fresh := by
  intro s hzero
  rw [h s]
  refine ⟨get_lowestFree s, ?_⟩
  refine natCast_pos.mpr (Nat.pos_of_ne_zero fun hz => ?_)
  have hnone := get_lowestFree s
  rw [hz] at hnone
  rw [Int.natCast_zero] at hnone
  rw [hnone] at hzero
  cases hzero

/-- The records of the table lie in pairs of pages, the insert handler holds the second page of one of them, and no
    transaction is under way. -/
structure Holding (R : Nat) (t : LargeTable) (rs : List (Option Bytes)) : Prop where
  size : t.recordSize = R
  lowest : LowestFirst t.file.alloc
  header : (t.file.pages.get 0).isSome = true
  count : t.file.pages.count = (2 * rs.length + 1 : Nat)
  pairs : Pairs R t.file.pages 0 rs
  cursor : (rs = [] ∧ t.file.cursor.page = none) ∨
    ∃ k data, rs[k]? = some (some data) ∧ t.file.cursor = ⟨some (2 * k + 2 : Nat), true⟩
  trx : t.trx = ⟨0, []⟩
  first : t.first = 0
  rollbackRids : t.rollbackRids = []

namespace Holding
variable {t : LargeTable} {rs : List (Option Bytes)}

theorem pairAt (h : Holding R t rs) {o : Option Bytes} (hk : rs[k]? = some o) : PairAt R t.file.pages k o := by
  have := pairs_iff.mp h.pairs k o hk
  rwa [Nat.zero_add] at this

theorem chunkPage (h : Holding R t rs) {p : PageNum} {d : PageData} (hp : 0 < p) (hget : t.file.pages.get p = some d) :
    ChunkPage d := by
  obtain ⟨n, rfl⟩ := eq_ofNat_of_zero_le hp.le
  have hn : 0 < n := natCast_pos.mp hp
  have hlt : n < 2 * rs.length + 1 := by
    have := lt_count_of_get hget
    rw [h.count] at this
    exact ofNat_lt.mp this
  obtain ⟨k, hk⟩ : ∃ k, n = 2 * k + 1 ∨ n = 2 * k + 2 := ⟨(n - 1) / 2, by omega⟩
  have hklt : k < rs.length := by omega
  rcases (h.pairAt (getElem?_eq_getElem hklt)).page hk with ⟨-, hnone⟩ | ⟨e, he, hchunk⟩
  · rw [hnone] at hget
    cases hget
  · rw [hget] at he
    cases he
    exact hchunk

theorem ok (h : Holding R t rs) : Ok 4056 t.file where
  fresh := h.lowest.fresh
  header := h.header
  count := by
    rw [h.count]
    exact (ofNat_le (m := 1)).mpr (by omega)
  pages p d hp hget := (h.chunkPage hp hget).formatted
  cursor p hp := by
    rcases h.cursor with ⟨-, hnone⟩ | ⟨k, data, hk, hcur⟩
    · rw [hnone] at hp
      cases hp
    · rw [hcur] at hp ⊢
      cases hp
      obtain ⟨d, hget, -⟩ := (h.pairAt hk : Pair _ _ _ _).second
      exact ⟨rfl, natCast_pos.mpr (by omega), d, hget⟩

theorem scan {σ : Type} (h : Holding R t rs) (hR : 4056 < R ∧ R ≤ 8112) (hfuel : t.file.pages.count.toNat ≤ fuel)
    (reader : Option Nat) (read : σ → Bytes → List RID → σ × Bool) (s : σ) :
    t.scanRecord fuel reader read s = some (t, readPairs read 0 rs s) := by
  have hfuel' : 2 * rs.length < fuel := by
    rw [h.count] at hfuel
    exact hfuel
  have hfile : ∃ rc, t.file.pages.scanFile (fun _ => true) fuel = some (pairRids 0 rs, rc) := by
    cases rs with
    | nil =>
      obtain ⟨m, rfl⟩ := Nat.exists_eq_succ_of_ne_zero (Nat.ne_of_gt hfuel')
      have hone : t.file.pages.count = 1 := h.count
      refine ⟨.recordEof, ?_⟩
      rw [scanFile, recordsAfter, getNextRecord, if_pos hone]
      rfl
    | cons o rs =>
      have hne : t.file.pages.count ≠ 1 := by
        rw [h.count]
        exact fun h1 => by
          have := Int.ofNat.inj h1
          simp at this
      have hn : (((2 * (o :: rs).length + 1 : Nat) : Int) - 1).toNat = 2 * (o :: rs).length := toNat_sub _ 1
      have hnext : t.file.pages.getNextRecord (fun _ => true) ⟨1, -1⟩ =
          t.file.pages.nextFrom (fun _ => true) (2 * (o :: rs).length) (2 * 0 + 1 : Nat) (-1) .success := by
        rw [getNextRecord, if_neg hne, h.count]
        dsimp only
        rw [hn]
        rfl
      exact recordsAfter_pairs hne h.pairs (by rw [h.count, Nat.zero_add]) hfuel' hnext
  obtain ⟨rc, hfile⟩ := hfile
  have hvis : ∀ c : Pointed, c.mark = 0 → (reader.elim true fun id => Trx.isVisible id c.mark) = true := by
    intro c hc
    cases reader with
    | none => rfl
    | some id =>
      rw [elim_some, hc]
      rfl
  obtain ⟨a', ha', hscan⟩ := scan_pairs (t := t) read hR hvis s h.pairs
    (a := ⟨fun _ => 0, 0, t.first, 0, t.rollbackRids⟩) ⟨rfl, h.first, h.rollbackRids, rfl⟩
  rw [scanRecord, hfile, map_some, h.size]
  dsimp only
  rw [hscan]
  dsimp only
  rw [ha'.first.trans h.first.symm, ha'.rollbackRids.trans h.rollbackRids.symm, ← h.size]

end Holding

/-! ### Insertion -/

theorem insertChunk_new {f : RecordFile} (h : Ok 4056 f)
    (hfull : ∀ p d, 0 < p → f.pages.get p = some d → d.isFull = true)
    (hstart : f.cursor.page = none → f.pages.count < 2) (data : Bytes) (len : Nat) {chunk : Bytes}
    (hchunk : data.take (if len = 0 then 4056 else len) = chunk) (hlen : 24 + chunk.length ≤ bpPageDataSize) :
    ∃ d f', f.insertChunk 4056 data len = (.ok ⟨(f.alloc f.pages).1, 0⟩, f') ∧ ChunkPage d ∧
      d.readBytes 24 chunk.length = chunk ∧ f'.pages.get (f.alloc f.pages).1 = some d ∧
      (∀ q, q ≠ (f.alloc f.pages).1 → f'.pages.get q = f.pages.get q) ∧
      f'.pages.count = max f.pages.count ((f.alloc f.pages).1 + 1) ∧ f'.cursor = ⟨some (f.alloc f.pages).1, true⟩ ∧
      f'.alloc = f.alloc ∧ Ok 4056 f' := by
  have hpos := (h.fresh f.pages h.header).2
  obtain ⟨c, hc, hcur, hcnone⟩ := h.startCursor fun hn => .inl (hstart hn)
  generalize hp : f.alloc f.pages = pd at hpos
  obtain ⟨p, d₀⟩ := pd
  obtain ⟨hfmt, hzero⟩ := formatted_initEmptyPage d₀ fits_chunk.1 fits_chunk.2.1
  have hroom : (d₀.initEmptyPage 4056).isFull = false := by
    rw [PageData.isFull, hzero, hfmt.capacity, slotCapacity_chunk]
    rfl
  obtain ⟨slot, e, hslot, -, hfmt', hbit, -, -, hcall⟩ := hfmt.insertRecord_slot (by decide) hroom
  rw [slotCapacity_chunk] at hslot
  obtain rfl : slot = 0 := by omega
  have hins := hcall data len
  rw [hchunk, offset_chunk] at hins
  have hpage : ChunkPage (e.writeBytes 24 chunk) := (⟨hfmt', hbit⟩ : ChunkPage e).write chunk
  refine ⟨e.writeBytes 24 chunk, { f with
    pages := (f.pages.set p (d₀.initEmptyPage 4056)).set p (e.writeBytes 24 chunk)
    cursor := ⟨some p, true⟩ }, ?_, hpage, readBytes_writeBytes _ _ _ hlen, get_set_same,
    fun q hq => ?_, ?_, rfl, rfl, ((h.setPage hfmt).setPage hpage.formatted).withCursor ?_⟩
  · rw [insertChunk, hc]
    dsimp only
    cases hres : probe f.pages f.pages.count.toNat 0 (c.page.getD 0) c with
    | mk c' found =>
      cases found with
      | true =>
        obtain ⟨-, q, d, -, hq, hget, hnot⟩ := Ok.probe_ready h.count hcur hcnone hres
        rw [hfull q d hq hget] at hnot
        cases hnot
      | false =>
        have halloc := Ok.allocateEmpty_eq (f := { f with cursor := c' }) hp 4056
        dsimp only
        rw [if_neg Bool.false_ne_true, halloc, insertAtCursor]
        dsimp only
        rw [get_set_same]
        dsimp only
        rw [hins]
        rfl
  · rw [get_set_ne hq, get_set_ne hq]
  · show max (max f.pages.count (p + 1)) (p + 1) = max f.pages.count (p + 1)
    exact max_eq_left (le_max_right _ _)
  · rintro q ⟨⟩
    exact ⟨rfl, hpos, _, get_set_same⟩

/-- What round `i` of the loop of `insert_record` hands to the page: the bytes from the start of the chunk on, and how
    many of them; 0 stands for as many as a chunk has. -/
def chunkArgs (data : Bytes) (i : Nat) : Bytes × Nat :=
  if i = 0 then (data, 0) else (data.drop (4056 * i - 4), data.length - 4056 * i + 4)

theorem insertChunks_round {f f' : RecordFile} {rid rid' : RID} {i n : Nat} (hlong : 4056 < data.length)
    (h : f.insertChunk 4056 (chunkArgs data i).1 (chunkArgs data i).2 = (.ok rid', f')) :
    insertChunks data (n + 1) (4056 * i) rid f = insertChunks data n (4056 * (i + 1)) rid' f' := by
  rw [insertChunks, if_pos (show fixedSize < data.length from hlong)]
  unfold chunkArgs at h
  by_cases hi : i = 0
  · subst hi
    rw [if_pos rfl] at h
    rw [if_pos rfl, show fixedSize = 4056 from rfl, h]
  · rw [if_neg hi] at h
    rw [if_neg (by omega), show fixedSize = 4056 from rfl, h]
    rfl

/-- Where a chunk of a record ends in its page: the first one has 4056 bytes, a later one starts four bytes early and
    has the rest of the record. -/
def chunkEnd (R i : Nat) : Nat := 24 + if i = 0 then 4056 else R - 4056 * i + 4

theorem chunkEnd_eq {i : Nat} (hlong : 4056 < data.length) (hi : 4056 * i ≤ data.length) :
    24 + ((chunkArgs data i).1.take (if (chunkArgs data i).2 = 0 then 4056 else (chunkArgs data i).2)).length =
      chunkEnd data.length i := by
  unfold chunkArgs chunkEnd
  by_cases h0 : i = 0
  · simp only [if_pos h0, if_true, length_take]
    omega
  · simp only [if_neg h0, if_neg (Nat.succ_ne_zero _), length_take, length_drop]
    omega

theorem chunkEnd_le (hR : R ≤ 8112) (i : Nat) : chunkEnd R i ≤ bpPageDataSize := by
  unfold chunkEnd bpPageDataSize
  split <;> omega

theorem lowestFree_eq {n : Nat} (hn : (n : Int) ≤ s.count) (hused : ∀ j < n, (s.get j).isSome = true)
    (hfree : s.get n = none) : lowestFree s = n := by
  refine firstIdx_eq ((le_toNat ((natCast_nonneg n).trans hn)).mpr hn) (fun _ => by rw [hfree]; rfl) fun j hj => ?_
  rw [isNone_eq_false_iff]
  exact hused j hj

theorem natCast_max_max (a b c : Nat) : max (max (a : Int) (b + 1)) (c + 1) = (max (max a (b + 1)) (c + 1) : Nat) := by
    omega

theorem exists_first_free : ∀ rs : List (Option Bytes), ∃ A C, rs = A ++ C ∧ (∀ o ∈ A, o ≠ none) ∧
    (C = [] ∨ ∃ B, C = none :: B)
  | [] => ⟨[], [], rfl, fun _ ho => (not_mem_nil ho).elim, .inl rfl⟩
  | none :: rs => ⟨[], none :: rs, rfl, fun _ ho => (not_mem_nil ho).elim, .inr ⟨rs, rfl⟩⟩
  | some data :: rs => by
    obtain ⟨A, C, rfl, hA, hC⟩ := exists_first_free rs
    refine ⟨some data :: A, C, rfl, fun o ho => ?_, hC⟩
    rcases mem_cons.mp ho with rfl | ho
    · exact some_ne_none data
    · exact hA o ho

theorem length_setMark {data : Bytes} (mark : Nat) (h : 4 ≤ data.length) :
    (setMark data mark).length = data.length := by
  simp [setMark, markBytes]
  omega

theorem pair_of_chunks {p : Nat} {record : Bytes} {d e : PageData} (hR : 4056 < R) (hlength : record.length = R)
    (hmark : record.take 4 = [0, 0, 0, 0]) (hd : s.get p = some d) (hdc : ChunkPage d)
    (hdr : d.readBytes 24 4056 = record.take 4056) (he : s.get (p + 1 : Nat) = some (e.setInt 24 0)) (hec : ChunkPage e)
    (her : e.readBytes 24 (R - 4052) = record.drop 4052) : Pair R s p record where
  length := hlength
  unmarked := hmark
  first := ⟨d, hd, hdc, hdr⟩
  second := by
    refine ⟨e.setInt 24 0, he, hec.unmark, ?_, firstN_eq_iff.mpr ⟨by rw [length_drop, hlength], fun i hi => ?_⟩⟩
    · refine firstN_eq_iff.mpr ⟨rfl, fun i hi => ?_⟩
      rw [PageData.setInt, if_neg (by omega)]
      have hzero : (0 % 4294967296 : Int).toNat = 0 := rfl
      rw [hzero, Nat.zero_div]
      rcases i with _ | _ | _ | _ | i
      · rfl
      · rfl
      · rfl
      · rfl
      · omega
    · have hbyte := getElem?_of_readBytes her (i := i + 4) (by omega)
      rw [getElem?_drop] at hbyte
      rw [getElem?_drop, setInt_other 0 (.inr (by omega)), show 4056 + i = 4052 + (i + 4) by omega, hbyte,
        show 24 + (i + 4) = 28 + i by omega]

namespace Holding
variable {t : LargeTable} {rs : List (Option Bytes)}

/-- The chunks of a new record go into the first two pages that are not in use, which are a pair; `k` pairs in use lie
    in front of it. -/
theorem insertRecord_file (h : Holding R t rs) (hR : 4056 < R ∧ R ≤ 8112) {record : Bytes} (hlength : record.length = R)
    {A C : List (Option Bytes)} (hrs : rs = A ++ C) (hA : ∀ o ∈ A, o ≠ none) (hC : C = [] ∨ ∃ B, C = none :: B) :
    ∃ d e f, t.file.insertRecord record = (.ok ⟨(2 * A.length + 2 : Nat), 0⟩, f) ∧ ChunkPage d ∧ ChunkPage e ∧
      d.readBytes 24 4056 = record.take 4056 ∧ e.readBytes 24 (R - 4052) = record.drop 4052 ∧
      f.pages.get (2 * A.length + 1 : Nat) = some d ∧ f.pages.get (2 * A.length + 2 : Nat) = some e ∧
      (∀ q : PageNum, q ≠ (2 * A.length + 1 : Nat) → q ≠ (2 * A.length + 2 : Nat) →
        f.pages.get q = t.file.pages.get q) ∧
      f.pages.count = (2 * (A.length + 1 + C.tail.length) + 1 : Nat) ∧
      f.cursor = ⟨some (2 * A.length + 2 : Nat), true⟩ ∧ f.alloc = t.file.alloc := by
  have hlong : 4056 < record.length := hlength ▸ hR.1
  have hcount : t.file.pages.count = (2 * (A.length + C.length) + 1 : Nat) := by
    rw [h.count, hrs, length_append]
  have hused : ∀ j < 2 * A.length + 1, (t.file.pages.get j).isSome = true := by
    intro j hj
    rcases Nat.eq_zero_or_pos j with rfl | hpos
    · exact h.header
    · obtain ⟨k, hk⟩ : ∃ k, j = 2 * k + 1 ∨ j = 2 * k + 2 := ⟨(j - 1) / 2, by omega⟩
      have hklt : k < A.length := by omega
      have hget : rs[k]? = some A[k] := by rw [hrs, getElem?_append_left hklt, getElem?_eq_getElem hklt]
      rcases (h.pairAt hget).page hk with ⟨hnone, -⟩ | ⟨d, hd, -⟩
      · exact absurd hnone (hA A[k] (getElem_mem hklt))
      · exact isSome_iff_exists.mpr ⟨d, hd⟩
  have hfree : t.file.pages.get (2 * A.length + 1 : Nat) = none ∧ t.file.pages.get (2 * A.length + 2 : Nat) = none := by
    rcases hC with rfl | ⟨B, rfl⟩
    · refine ⟨t.file.pages.get_of_count_le _ ?_, t.file.pages.get_of_count_le _ ?_⟩
      · rw [hcount]
        exact ofNat_le.mpr (le_refl _)
      · rw [hcount]
        exact ofNat_le.mpr (Nat.le_succ _)
    · exact h.pairAt (o := none) (by rw [hrs]; simp)
  have hfull : ∀ p d, 0 < p → t.file.pages.get p = some d → d.isFull = true :=
    fun p d hp hget => (h.chunkPage hp hget).isFull
  -- The first chunk.
  have hlow : (t.file.alloc t.file.pages).1 = (2 * A.length + 1 : Nat) := by
    rw [h.lowest, lowestFree_eq (by rw [hcount]; exact ofNat_le.mpr (by omega)) hused hfree.1]
  have hstart : t.file.cursor.page = none → t.file.pages.count < 2 := by
    intro hnone
    rcases h.cursor with ⟨hnil, -⟩ | ⟨k, data, -, hcur⟩
    · rw [h.count, hnil]
      decide
    · rw [hcur] at hnone
      cases hnone
  obtain ⟨d, f₁, hins₁, hd, hread₁, hget₁, hother₁, hcount₁, hcursor₁, halloc₁, hok₁⟩ :=
    insertChunk_new h.ok hfull hstart (chunkArgs record 0).1 (chunkArgs record 0).2 rfl
      ((chunkEnd_eq (i := 0) hlong (Nat.zero_le _)).trans_le (chunkEnd_le (hlength ▸ hR.2) 0))
  rw [hlow] at hins₁ hget₁ hother₁ hcount₁ hcursor₁
  rw [show (chunkArgs record 0).2 = 0 from rfl, if_pos rfl, length_take, show (chunkArgs record 0).1 = record from rfl,
    hlength, Nat.min_eq_left hR.1.le] at hread₁
  -- The second chunk.
  have hne : ((2 * A.length + 2 : Nat) : Int) ≠ (2 * A.length + 1 : Nat) := fun hc => by
    have := Int.ofNat.inj hc
    omega
  have hlow₂ : (f₁.alloc f₁.pages).1 = (2 * A.length + 2 : Nat) := by
    rw [halloc₁, h.lowest, lowestFree_eq (n := 2 * A.length + 2)]
    · rw [hcount₁]
      exact le_max_right _ _
    · intro j hj
      by_cases hj' : j = 2 * A.length + 1
      · rw [hj', hget₁]
        rfl
      · rw [hother₁ j fun hc => hj' (Int.ofNat.inj hc)]
        exact hused j (by omega)
    · rw [hother₁ _ hne]
      exact hfree.2
  have hfull₁ : ∀ p d, 0 < p → f₁.pages.get p = some d → d.isFull = true := by
    intro p d' hp hget
    by_cases hpe : p = (2 * A.length + 1 : Nat)
    · rw [hpe, hget₁] at hget
      cases hget
      exact hd.isFull
    · rw [hother₁ p hpe] at hget
      exact hfull p d' hp hget
  have hchunk : (chunkArgs record 1).1.take (if (chunkArgs record 1).2 = 0 then 4056 else (chunkArgs record 1).2) =
      record.drop 4052 := by
    show (record.drop 4052).take (record.length - 4056 + 4) = record.drop 4052
    exact take_of_length_le (by rw [length_drop]; omega)
  obtain ⟨e, f₂, hins₂, he, hread₂, hget₂, hother₂, hcount₂, hcursor₂, halloc₂, -⟩ :=
    insertChunk_new hok₁ hfull₁ (by rw [hcursor₁]; exact fun hn => nomatch hn) (chunkArgs record 1).1
      (chunkArgs record 1).2
      hchunk (hchunk ▸ (chunkEnd_eq (i := 1) hlong hlong.le).trans_le (chunkEnd_le (hlength ▸ hR.2) 1))
  rw [hlow₂] at hins₂ hget₂ hother₂ hcount₂ hcursor₂
  rw [length_drop, hlength] at hread₂
  refine ⟨d, e, f₂, ?_, hd, he, hread₁, hread₂, ?_, hget₂, fun q hq₁ hq₂ => ?_, ?_, hcursor₂, halloc₂.trans halloc₁⟩
  · have htwo : (record.length + (fixedSize - 1)) / fixedSize = 2 := perSize_two (hlength ▸ hR)
    rw [RecordFile.insertRecord, htwo]
    exact (insertChunks_round (i := 0) hlong hins₁).trans (insertChunks_round (i := 1) hlong hins₂)
  · rw [hother₂ _ hne.symm, hget₁]
  · rw [hother₂ q hq₂, hother₁ q hq₁]
  · have htail : max (max (2 * (A.length + C.length) + 1) (2 * A.length + 1 + 1)) (2 * A.length + 2 + 1) =
        2 * (A.length + 1 + C.tail.length) + 1 := by
      rcases hC with rfl | ⟨B, rfl⟩
      · simp only [length_nil, tail_nil]
        omega
      · simp only [length_cons, tail_cons]
        omega
    rw [hcount₂, hcount₁, hcount, ← htail]
    exact natCast_max_max _ _ _

theorem insert (h : Holding R t rs) (hR : 4056 < R ∧ R ≤ 8112) {data : Bytes} (hlength : data.length = R)
    {order : List Operation → List Operation} (horder : ∀ l, (order l).Perm l) :
    ∃ rs', Holding R (t.step ⟨[.insert data], fuel, order⟩) rs' ∧
      rs'.reduceOption.Perm (setMark data 0 :: rs.reduceOption) := by
  obtain ⟨A, C, hrs, hA, hC⟩ := exists_first_free rs
  have hlen : (setMark data 0).length = R := (length_setMark 0 (by omega)).trans hlength
  obtain ⟨d, e, f, hins, hd, he, hread, hread', hget, hget', hother, hcount, hcursor, halloc⟩ :=
    h.insertRecord_file hR hlen hrs hA hC
  have hfile : (t.step ⟨[.insert data], fuel, order⟩) = { t with
      file := { f with pages := f.pages.set (2 * A.length + 2 : Nat) (e.setInt 24 0) }
      trx := ⟨0, []⟩
      lastId := t.lastId + 1 } := by
    have hstmt : t.insertRecord data = { t with
        file := f, trx := ⟨t.lastId + 1, [⟨.insert, ⟨(2 * A.length + 2 : Nat), 0⟩⟩]⟩, lastId := t.lastId + 1 } := by
      rw [LargeTable.insertRecord, h.trx, show Trx.mark 0 false = 0 from rfl, hins]
      rfl
    rw [step, foldl_cons, foldl_nil, exec, hstmt, commit]
    dsimp only
    rw [perm_singleton.mp (horder _), foldl_cons, foldl_nil, commitOperation]
    dsimp only
    rw [hget']
    dsimp only
    rw [he.checkSlot]
    dsimp only
    rw [show Int.toNat 0 = 0 from rfl, he.recordOffset]
  have hne : ∀ {m n : Nat}, m ≠ n → (m : PageNum) ≠ n := fun hmn hc => hmn (Int.ofNat.inj hc)
  refine ⟨A ++ some (setMark data 0) :: C.tail, ?_, ?_⟩
  · rw [hfile]
    refine ⟨h.size, ?_, ?_, ?_, pairs_iff.mpr fun j o hj => ?_, .inr ⟨A.length, setMark data 0, ?_, hcursor⟩,
      rfl, h.first, h.rollbackRids⟩
    · rw [halloc]
      exact h.lowest
    · have hzero : ∀ {n : Nat}, (0 : PageNum) ≠ (n + 1 : Nat) := hne (Nat.succ_ne_zero _).symm
      rw [get_set_ne hzero, hother _ hzero hzero]
      exact h.header
    · rw [count_set hget', hcount, length_append, length_cons, Nat.add_assoc, Nat.add_comm 1]
    · rw [Nat.zero_add]
      -- The pairs in front of the new one and behind it are those of before.
      have hsame : j ≠ A.length → rs[j]? = some o →
          PairAt R (f.pages.set (2 * A.length + 2 : Nat) (e.setInt 24 0)) j o := by
        intro hja hold
        refine (h.pairAt hold).congr ?_ ?_
        · rw [get_set_ne (hne (by omega)), hother _ (hne (by omega)) (hne (by omega))]
        · rw [get_set_ne (hne (by omega)), hother _ (hne (by omega)) (hne (by omega))]
      rcases Nat.lt_trichotomy j A.length with hlt | rfl | hgt
      · rw [getElem?_append_left hlt] at hj
        refine hsame (by omega) ?_
        rw [hrs, getElem?_append_left hlt, hj]
      · rw [getElem?_append_right (le_refl _), Nat.sub_self] at hj
        cases hj
        refine pair_of_chunks hR.1 hlen rfl ?_ hd hread (get_set_same) he hread'
        rw [get_set_ne (hne (by omega)), hget]
      · obtain ⟨i, rfl⟩ : ∃ i, j = A.length + (i + 1) := ⟨j - A.length - 1, by omega⟩
        rw [getElem?_append_right (by omega), Nat.add_sub_cancel_left, getElem?_cons_succ, getElem?_tail] at hj
        refine hsame (by omega) ?_
        rw [hrs, getElem?_append_right (by omega), Nat.add_sub_cancel_left, hj]
    · rw [getElem?_append_right (le_refl _), Nat.sub_self]
      rfl
  · rw [hrs, reduceOption_append, reduceOption_append, reduceOption_cons_of_some]
    have htail : C.reduceOption = C.tail.reduceOption := by
      rcases hC with rfl | ⟨B, rfl⟩
      · rfl
      · exact reduceOption_cons_of_none B
    rw [htail]
    exact perm_middle

end Holding

/-! ### Deletion -/

def deletions (filter : Bytes → Bool) (k : Nat) (rs : List (Option Bytes)) : List Operation :=
  (rs.zipIdx k).flatMap fun p => (p.1.filter filter).elim [] fun _ => (ridsOf p.2).map (Operation.mk .delete)

theorem mem_deletions {filter : Bytes → Bool} {o : Operation} {rs : List (Option Bytes)} : o ∈ deletions filter 0 rs ↔
    ∃ j data, rs[j]? = some (some data) ∧ filter data = true ∧ ∃ rid ∈ ridsOf j, o = ⟨.delete, rid⟩ := by
  rw [deletions, mem_flatMap]
  constructor
  · rintro ⟨⟨record, j⟩, hj, ho⟩
    rw [mem_zipIdx_iff_getElem?] at hj
    cases record with
    | none => cases ho
    | some data =>
      cases hf : filter data with
      | false => simp [Option.filter, hf] at ho
      | true =>
        rw [filter_some, hf] at ho
        obtain ⟨rid, hrid, rfl⟩ := mem_map.mp ho
        exact ⟨j, data, hj, hf, rid, hrid, rfl⟩
  · rintro ⟨j, data, hj, hf, rid, hrid, rfl⟩
    refine ⟨(some data, j), mem_zipIdx_iff_getElem?.mpr hj, ?_⟩
    rw [filter_some, hf]
    exact mem_map_of_mem hrid

def deleteReader (filter : Bytes → Bool) (s : Trx × Nat) (record : Bytes) (rids : List RID) : (Trx × Nat) × Bool :=
  if filter record then
    let (trx, lastId) := s.1.startIfNotStarted s.2
    match trx.deleteRids rids with
    | (.ok _, trx) => ((trx, lastId), true)
    | (.error _, trx) => ((trx, lastId), false)
  else (s, true)

theorem deleteRecord_eq (t : LargeTable) (fuel : Nat) (filter : Bytes → Bool) :
    t.deleteRecord fuel filter = (t.scanRecord fuel (some t.trx.trxId) (deleteReader filter)
      (t.trx, t.lastId)).map fun r =>
      { r.1 with trx := r.2.1, lastId := r.2.2 } := rfl

theorem findOperation_none {trx : Trx} {rid : RID} (h : ∀ o ∈ trx.operations, o.rid ≠ rid) :
    trx.findOperation rid = none :=
  find?_eq_none.mpr fun o ho => by simpa using h o ho

theorem deleteRids_pair (trx : Trx) (h : ∀ o ∈ trx.operations, o.rid.pageNum < (2 * k + 1 : Nat)) :
    trx.deleteRids (ridsOf k) = (.ok true, ⟨trx.trxId, trx.operations ++ (ridsOf k).map (Operation.mk .delete)⟩) := by
  have hfirst : trx.findOperation ⟨(2 * k + 1 : Nat), 0⟩ = none := findOperation_none fun o ho hc => by
    have := h o ho
    rw [hc] at this
    exact lt_irrefl _ this
  have hlt : ((2 * k + 1 : Nat) : Int) < (2 * k + 2 : Nat) := ofNat_lt.mpr (Nat.lt_succ_self _)
  have hsecond : (trx.insertOperation .delete ⟨(2 * k + 1 : Nat), 0⟩).findOperation ⟨(2 * k + 2 : Nat), 0⟩ = none := by
    rw [Trx.insertOperation, hfirst]
    refine findOperation_none fun o ho hc => ?_
    rcases mem_append.mp ho with ho | ho
    · have := h o ho
      rw [hc] at this
      exact lt_asymm this hlt
    · rw [mem_singleton.mp ho] at hc
      exact hlt.ne (congrArg RID.pageNum hc)
  rw [ridsOf, Trx.deleteRids, hfirst]
  dsimp only
  rw [Trx.deleteRids, hsecond]
  dsimp only
  rw [Trx.deleteRids, Trx.insertOperation, hsecond, Trx.insertOperation, hfirst]
  simp

theorem readPairs_delete (filter : Bytes → Bool) : ∀ (rs : List (Option Bytes)) (k : Nat) (s : Trx × Nat),
    (∀ o ∈ s.1.operations, o.rid.pageNum < (2 * k + 1 : Nat)) →
    ∃ id n, readPairs (deleteReader filter) k rs s = (⟨id, s.1.operations ++ deletions filter k rs⟩, n)
  | [], k, s, _ => ⟨s.1.trxId, s.2, by rw [readPairs]; exact congrArg (Trx.mk _ ·, s.2) (append_nil _).symm⟩
  | none :: rs, k, s, hs => by
    refine readPairs_delete filter rs (k + 1) s fun o ho => (hs o ho).trans ?_
    exact ofNat_lt.mpr (by omega)
  | some data :: rs, k, s, hs => by
    have hlt : ((2 * k + 1 : Nat) : Int) < (2 * (k + 1) + 1 : Nat) := ofNat_lt.mpr (by omega)
    by_cases hf : filter data = true
    · obtain ⟨id, n, hstart, hops⟩ : ∃ id n, s.1.startIfNotStarted s.2 = (⟨id, s.1.operations⟩, n) ∧ True := by
        rw [Trx.startIfNotStarted]
        split
        · exact ⟨_, _, rfl, trivial⟩
        · exact ⟨_, _, rfl, trivial⟩
      have hread : deleteReader filter s data (ridsOf k) =
          ((⟨id, s.1.operations ++ (ridsOf k).map (Operation.mk .delete)⟩, n), true) := by
        rw [deleteReader, if_pos hf, hstart]
        dsimp only
        rw [deleteRids_pair ⟨id, s.1.operations⟩ hs]
      obtain ⟨id', n', hrest⟩ := readPairs_delete filter rs (k + 1)
        (⟨id, s.1.operations ++ (ridsOf k).map (Operation.mk .delete)⟩, n) fun o ho => by
          rcases mem_append.mp ho with ho | ho
          · exact (hs o ho).trans hlt
          · obtain ⟨rid, hrid, rfl⟩ := mem_map.mp ho
            rcases mem_pair.mp hrid with rfl | rfl
            · exact hlt
            · exact ofNat_lt.mpr (by omega)
      refine ⟨id', n', ?_⟩
      rw [readPairs, hread, if_pos rfl, hrest, append_assoc]
      simp [deletions, zipIdx_cons, filter_some, hf]
    · have hread : deleteReader filter s data (ridsOf k) = (s, true) := if_neg hf
      obtain ⟨id', n', hrest⟩ := readPairs_delete filter rs (k + 1) s fun o ho => (hs o ho).trans hlt
      refine ⟨id', n', ?_⟩
      rw [readPairs, hread, if_pos rfl, hrest]
      simp [deletions, zipIdx_cons, filter_some, hf]

theorem commitOperation_delete {f : RecordFile} {p : PageNum} (hcur : f.cursor ≠ ⟨some p, true⟩)
    (hpage : ∀ d, f.pages.get p = some d → ChunkPage d) :
    ∃ pages, commitOperation f ⟨.delete, ⟨p, 0⟩⟩ = { f with pages } ∧ pages.count = f.pages.count ∧
      pages.get p = none ∧ ∀ q, q ≠ p → pages.get q = f.pages.get q := by
  cases hget : f.pages.get p with
  | none =>
    refine ⟨f.pages, ?_, rfl, hget, fun _ _ => rfl⟩
    simp only [commitOperation, RecordFile.getRecord, RecordFile.deleteRecord, hget]
  | some d =>
    have hd := hpage d hget
    obtain ⟨d', hdel, hzero⟩ := hd.deleteRecord
    refine ⟨(f.pages.set p d').erase p, ?_, count_set hget d', get_erase_same, fun q hq => ?_⟩
    · have hread : d.getRecord 0 = .ok (d.readBytes (d.recordOffset 0) d.recordRealSize.toNat) := by
        rw [PageData.getRecord, hd.checkSlot]
        rfl
      simp only [commitOperation, RecordFile.getRecord, hget, hread, Except.map, RecordFile.deleteRecord, hdel]
      simp only [RecordFile.disposePage, if_pos hzero, if_neg hcur]
    · rw [get_erase_ne hq, get_set_ne hq]

theorem commit_deletes : ∀ (ops : List Operation) {f : RecordFile},
    (∀ o ∈ ops, o.type = .delete ∧ o.rid.slotNum = 0 ∧ f.cursor ≠ ⟨some o.rid.pageNum, true⟩ ∧
      ∀ d, f.pages.get o.rid.pageNum = some d → ChunkPage d) →
    ∃ pages, ops.foldl commitOperation f = { f with pages } ∧ pages.count = f.pages.count ∧
      ∀ q, ((∃ o ∈ ops, o.rid.pageNum = q) → pages.get q = none) ∧
        ((∀ o ∈ ops, o.rid.pageNum ≠ q) → pages.get q = f.pages.get q)
  | [], f, _ => ⟨f.pages, rfl, rfl, fun _ => ⟨fun ⟨_, ho, _⟩ => (not_mem_nil ho).elim, fun _ => rfl⟩⟩
  | ⟨type, ⟨p, slot⟩⟩ :: ops, f, hops => by
    obtain ⟨rfl, rfl, hcur, hpage⟩ := hops _ mem_cons_self
    obtain ⟨pages₁, hstep, hcount₁, hgone, hother₁⟩ := commitOperation_delete hcur hpage
    have hops₁ : ∀ o ∈ ops, o.type = .delete ∧ o.rid.slotNum = 0 ∧ f.cursor ≠ ⟨some o.rid.pageNum, true⟩ ∧
        ∀ d, pages₁.get o.rid.pageNum = some d → ChunkPage d := by
      intro o ho
      obtain ⟨htype, hslot, hcur', hpage'⟩ := hops o (mem_cons_of_mem _ ho)
      refine ⟨htype, hslot, hcur', fun d hd => hpage' d ?_⟩
      by_cases hp : o.rid.pageNum = p
      · rw [hp, hgone] at hd
        cases hd
      · rwa [← hother₁ _ hp]
    obtain ⟨pages, hfold, hcount, hget⟩ := commit_deletes ops (f := { f with pages := pages₁ }) hops₁
    refine ⟨pages, ?_, hcount.trans hcount₁, fun q => ⟨?_, fun hnot => ?_⟩⟩
    · rw [foldl_cons, hstep, hfold]
    · rintro ⟨o, ho, hq⟩
      by_cases hlater : ∃ o ∈ ops, o.rid.pageNum = q
      · exact (hget q).1 hlater
      · rw [(hget q).2 fun o' ho' hq' => hlater ⟨o', ho', hq'⟩]
        rcases mem_cons.mp ho with rfl | ho
        · exact hq ▸ hgone
        · exact absurd ⟨o, ho, hq⟩ hlater
    · rw [(hget q).2 fun o ho => hnot o (mem_cons_of_mem _ ho)]
      exact hother₁ q (Ne.symm (hnot _ mem_cons_self))

/-! ### The condition -/

def heldRecord (t : LargeTable) : Option Bytes := t.file.cursor.page.map fun p =>
  firstN (fun i => if i < 4056 then t.pointed ⟨p - 1, 0⟩ i else t.pointed ⟨p, 0⟩ (i - 4056 + 4)) t.recordSize

/-- A transaction of one statement at most: an insertion of one record, or a deletion that leaves the record alone whose
    page the insert handler holds. -/
structure Allowed (t : LargeTable) (a : Transaction) : Prop where
  statements : a.statements = [] ∨ (∃ data, a.statements = [.insert data] ∧ data.length = t.recordSize) ∨
    ∃ filter, a.statements = [.delete filter] ∧ ∀ record ∈ t.heldRecord, filter record = false
  fuel : t.file.pages.count.toNat ≤ a.fuel
  order : ∀ l, (a.order l).Perm l

def specExec (E : List Bytes) : Statement → List Bytes
  | .insert data => setMark data 0 :: E
  | .delete filter => E.filter fun record => !filter record

def specStep (E : List Bytes) (a : Transaction) : List Bytes := a.statements.foldl specExec E

namespace Holding
variable {t : LargeTable} {rs : List (Option Bytes)}

theorem heldRecord_eq (h : Holding R t rs) (hk : rs[k]? = some (some data))
    (hcur : t.file.cursor = ⟨some (2 * k + 2 : Nat), true⟩) : t.heldRecord = some data := by
  have hpair : Pair R t.file.pages (2 * k + 1) data := h.pairAt hk
  rw [heldRecord, hcur, map_some, h.size]
  refine congrArg some (firstN_eq_iff.mpr ⟨hpair.length, fun i hi => ?_⟩)
  have hprev : ((2 * k + 2 : Nat) : PageNum) - 1 = (2 * k + 1 : Nat) := Int.add_sub_cancel (2 * k + 1 : Nat) 1
  rw [byte_of_pair hpair hi, hprev]

/-- A transaction that deletes the records that a filter accepts, but not the one whose page the insert handler
    holds. -/
theorem delete (h : Holding R t rs) (hR : 4056 < R ∧ R ≤ 8112) {filter : Bytes → Bool}
    (hheld : ∀ record ∈ t.heldRecord, filter record = false) (hfuel : t.file.pages.count.toNat ≤ fuel)
    {order : List Operation → List Operation} (horder : ∀ l, (order l).Perm l) :
    Holding R (t.step ⟨[.delete filter], fuel, order⟩) (rs.map (Option.filter fun record => !filter record)) := by
  obtain ⟨id, n, hread⟩ := readPairs_delete filter rs 0 (⟨0, []⟩, t.lastId) fun o ho => nomatch ho
  have hmem : ∀ o, o ∈ order (deletions filter 0 rs) ↔ ∃ j data, rs[j]? = some (some data) ∧ filter data = true ∧
      ∃ rid ∈ ridsOf j, o = ⟨.delete, rid⟩ := by
    intro o
    rw [(horder _).mem_iff, mem_deletions]
  have hpages : ∀ {j : Nat} {rid : RID}, rid ∈ ridsOf j → rid.slotNum = 0 ∧
      ∃ m : Nat, rid.pageNum = m ∧ (m = 2 * j + 1 ∨ m = 2 * j + 2) := by
    intro j rid hrid
    rcases mem_pair.mp hrid with rfl | rfl
    · exact ⟨rfl, _, rfl, .inl rfl⟩
    · exact ⟨rfl, _, rfl, .inr rfl⟩
  have hops : ∀ o ∈ order (deletions filter 0 rs), o.type = .delete ∧ o.rid.slotNum = 0 ∧
      t.file.cursor ≠ ⟨some o.rid.pageNum, true⟩ ∧ ∀ d, t.file.pages.get o.rid.pageNum = some d → ChunkPage d := by
    intro o ho
    obtain ⟨j, data, hj, hf, rid, hrid, rfl⟩ := (hmem o).mp ho
    obtain ⟨hslot, m, hm, hjm⟩ := hpages hrid
    refine ⟨rfl, hslot, fun hc => ?_, fun d hd => h.chunkPage ?_ hd⟩
    · rcases h.cursor with ⟨rfl, -⟩ | ⟨k, data', hk, hcur⟩
      · cases hj
      · -- The filter would accept the record that the insert handler holds.
        rw [hcur] at hc
        have hkm : 2 * k + 2 = m := Int.ofNat.inj ((some.inj (congrArg PageCursor.page hc)).trans hm)
        obtain rfl : j = k := by omega
        rw [hj] at hk
        cases hk
        have := hheld data (h.heldRecord_eq hj hcur)
        rw [hf] at this
        cases this
    · show 0 < rid.pageNum
      rw [hm]
      exact natCast_pos.mpr (by omega)
  obtain ⟨pages, hfold, hcount, hget⟩ := commit_deletes _ hops
  have hstep : t.step ⟨[.delete filter], fuel, order⟩ =
      { t with file := { t.file with pages }, trx := ⟨0, []⟩, lastId := n } := by
    have hdel : t.deleteRecord fuel filter = some { t with trx := ⟨id, deletions filter 0 rs⟩, lastId := n } := by
      rw [deleteRecord_eq, h.scan hR hfuel, h.trx, map_some, hread]
      rfl
    rw [step, foldl_cons, foldl_nil, exec, hdel, getD_some, commit]
    dsimp only
    rw [hfold]
  -- The pages of a record stay or go with what the filter says.
  have hkeep : ∀ {j m : Nat}, (m = 2 * j + 1 ∨ m = 2 * j + 2) →
    (∀ data, rs[j]? = some (some data) → filter data = false) →
      pages.get m = t.file.pages.get m := by
    intro j m hjm hnot
    refine (hget m).2 fun o ho hq => ?_
    obtain ⟨i, data, hi, hf, rid, hrid, rfl⟩ := (hmem o).mp ho
    obtain ⟨-, m', hm', him⟩ := hpages hrid
    have hmm : m = m' := Int.ofNat.inj (hq.symm.trans hm')
    obtain rfl : i = j := by omega
    rw [hnot data hi] at hf
    cases hf
  have hdrop : ∀ {j : Nat} {data : Bytes}, rs[j]? = some (some data) → filter data = true → PairAt R pages j none := by
    intro j data hj hf
    exact ⟨(hget _).1 ⟨_, (hmem _).mpr ⟨j, data, hj, hf, _, mem_pair.mpr (.inl rfl), rfl⟩, rfl⟩,
      (hget _).1 ⟨_, (hmem _).mpr ⟨j, data, hj, hf, _, mem_pair.mpr (.inr rfl), rfl⟩, rfl⟩⟩
  rw [hstep]
  refine ⟨h.size, h.lowest, ?_, ?_, pairs_iff.mpr fun j o hj => ?_, ?_, rfl, h.first, h.rollbackRids⟩
  · have hzero : pages.get 0 = t.file.pages.get 0 := (hget 0).2 fun o ho hq => by
      obtain ⟨j, data, -, -, rid, hrid, rfl⟩ := (hmem o).mp ho
      obtain ⟨-, m, hm, hjm⟩ := hpages hrid
      have : 0 = m := Int.ofNat.inj (hq.symm.trans hm)
      omega
    exact hzero ▸ h.header
  · rw [length_map]
    exact hcount.trans h.count
  · rw [Nat.zero_add]
    rw [getElem?_map] at hj
    obtain ⟨o, hold, rfl⟩ := map_eq_some_iff.mp hj
    cases o with
    | none =>
      have hnot : ∀ data, rs[j]? = some (some data) → filter data = false := fun data hd => by
        rw [hold] at hd
        cases hd
      exact (h.pairAt hold).congr (hkeep (.inl rfl) hnot) (hkeep (.inr rfl) hnot)
    | some data =>
      cases hf : filter data with
      | true =>
        rw [filter_some, hf]
        exact hdrop hold hf
      | false =>
        have hnot : ∀ data', rs[j]? = some (some data') → filter data' = false := fun data' hd => by
          rw [hold] at hd
          cases hd
          exact hf
        rw [filter_some, hf]
        exact (h.pairAt hold).congr (hkeep (.inl rfl) hnot) (hkeep (.inr rfl) hnot)
  · rcases h.cursor with ⟨rfl, hnone⟩ | ⟨k, data, hk, hcur⟩
    · exact .inl ⟨rfl, hnone⟩
    · refine .inr ⟨k, data, ?_, hcur⟩
      rw [getElem?_map, hk, map_some, filter_some, hheld data (h.heldRecord_eq hk hcur)]
      rfl

end Holding

/-! ### Runs -/

theorem reduceOption_map_filter (keep : Bytes → Bool) : ∀ rs : List (Option Bytes),
    (rs.map (Option.filter keep)).reduceOption = rs.reduceOption.filter keep
  | [] => rfl
  | none :: rs => reduceOption_map_filter keep rs
  | some data :: rs => by
    rw [map_cons, filter_some, reduceOption_cons_of_some, filter_cons]
    cases keep data with
    | true => exact congrArg (data :: ·) (reduceOption_map_filter keep rs)
    | false => exact reduceOption_map_filter keep rs

def Stores (R : Nat) (t : LargeTable) (E : List Bytes) : Prop := ∃ rs, Holding R t rs ∧ rs.reduceOption.Perm E

theorem Stores.step {t : LargeTable} {E : List Bytes} {a : Transaction} (h : Stores R t E) (hR : 4056 < R ∧ R ≤ 8112)
    (ha : t.Allowed a) : Stores R (t.step a) (specStep E a) := by
  obtain ⟨rs, hold, hperm⟩ := h
  obtain ⟨statements, fuel, order⟩ := a
  obtain ⟨hstmts, hfuel, horder⟩ := ha
  rcases hstmts with hnil | ⟨data, hins, hlength⟩ | ⟨filter, hdel, hheld⟩
  · -- A transaction without a statement has no operation.
    dsimp only at hnil
    subst hnil
    have hnone : order [] = [] := perm_nil.mp (horder [])
    have hstay : t.step ⟨[], fuel, order⟩ = t := by
      rw [LargeTable.step, foldl_nil, commit, hold.trx]
      dsimp only
      rw [hnone, foldl_nil, ← hold.trx]
    rw [hstay]
    exact ⟨rs, hold, hperm⟩
  · dsimp only at hins
    subst hins
    obtain ⟨rs', hold', hperm'⟩ := hold.insert hR (hlength.trans hold.size) horder
    exact ⟨rs', hold', hperm'.trans (hperm.cons _)⟩
  · dsimp only at hdel
    subst hdel
    refine ⟨_, hold.delete hR hheld hfuel horder, ?_⟩
    rw [reduceOption_map_filter]
    exact hperm.filter _

theorem stores_created (R : Nat) (header : PageData) (hlow : LowestFirst alloc) (lastId : Nat) :
    Stores R (created R header alloc lastId) [] :=
  ⟨[], ⟨rfl, hlow, rfl, rfl, trivial, .inl ⟨rfl, rfl⟩, rfl, rfl, rfl⟩, .refl _⟩

theorem readPairs_collect : ∀ (rs : List (Option Bytes)) (k : Nat) (out : List Bytes),
    readPairs (fun out record _ => (out ++ [record], true)) k rs out = out ++ rs.reduceOption
  | [], _, out => (append_nil out).symm
  | none :: rs, k, out => readPairs_collect rs (k + 1) out
  | some data :: rs, k, out => by
    rw [readPairs, if_pos rfl, readPairs_collect rs (k + 1), reduceOption_cons_of_some, append_assoc]
    rfl

theorem Stores.delivered {t : LargeTable} {E : List Bytes} (h : Stores R t E) (hR : 4056 < R ∧ R ≤ 8112)
    (hfuel : t.file.pages.count.toNat ≤ fuel) (reader : Option Nat) :
    ∃ out, t.delivered fuel reader = some out ∧ out.Perm E := by
  obtain ⟨rs, hold, hperm⟩ := h
  refine ⟨rs.reduceOption, ?_, hperm⟩
  rw [LargeTable.delivered, hold.scan hR hfuel, map_some, readPairs_collect]
  rfl

end Layout

/-- Records of two chunks round-trip in every run whose transactions meet `Allowed`. -/
theorem largeRecords_roundTrip {R : Nat} (hR : 4056 < R ∧ R ≤ 8112) (header : PageData) {alloc : PageAllocator}
    (hlow : LowestFirst alloc) (lastId : Nat) (as : List Transaction)
    (hmeets : Meets step Allowed (created R header alloc lastId) as) :
    (∀ i < perSize R, chunkEnd R i ≤ bpPageDataSize) ∧
      ∀ fuel, (run step (created R header alloc lastId) as).file.pages.count.toNat ≤ fuel → ∀ reader,
        ∃ out, (run step (created R header alloc lastId) as).delivered fuel reader = some out ∧
          out.Perm (run specStep [] as) := by
  have hkeep : ∀ t E a, Stores R t E → Allowed t a → Stores R (step t a) (specStep E a) :=
    fun _ _ _ h ha => h.step hR ha
  have hstores := simulation (Stores R) hkeep (stores_created R header hlow lastId) hmeets
  exact ⟨fun i _ => chunkEnd_le hR.2 i, fun fuel hfuel reader => hstores.delivered hR hfuel reader⟩

def firstFree : PageAllocator := fun s => (lowestFree s, fun _ => 0)

theorem lowestFirst_firstFree : LowestFirst firstFree := fun _ => rfl

def twoChunks (a b : UInt8) : Bytes := List.replicate 4056 a ++ List.replicate 944 b

theorem length_twoChunks (a b : UInt8) : (twoChunks a b).length = 5000 := by
  rw [twoChunks, length_append, length_replicate, length_replicate]

def single (statement : Statement) : Transaction := ⟨[statement], 10, id⟩

theorem largeRecords_roundTrip_sample :
    let as := [single (.insert (twoChunks 1 2)), single (.insert (twoChunks 3 4)),
      single (.delete fun record => record.getD 4 0 == 1)]
    let t := run step (created 5000 (fun _ => 0) firstFree 0) as
    Meets step Allowed (created 5000 (fun _ => 0) firstFree 0) as ∧
      (∃ out, t.delivered 10 none = some out ∧ out.Perm (run specStep [] as)) ∧
      (run specStep [] as).map (·.getD 4 0) = [3] := by
  intro as t
  have hmeets : Meets step Allowed (created 5000 (fun _ => 0) firstFree 0) as := by
    refine ⟨⟨.inr (.inl ⟨_, rfl, ?_⟩), ?_, fun _ => .refl _⟩, ⟨.inr (.inl ⟨_, rfl, ?_⟩), ?_, fun _ => .refl _⟩,
      ⟨.inr (.inr ⟨_, rfl, ?_⟩), ?_, fun _ => .refl _⟩, trivial⟩
    · exact length_twoChunks 1 2
    · decide +kernel
    · exact (length_twoChunks 3 4).trans (by decide +kernel)
    · decide +kernel
    · have hall : ∀ {o : Option Bytes}, o.all (fun record => !(record.getD 4 0 == 1)) = true →
          ∀ record ∈ o, (record.getD 4 0 == 1) = false := by
        rintro _ hall record rfl
        simpa using hall
      exact hall (by decide +kernel)
    · decide +kernel
  refine ⟨hmeets, (largeRecords_roundTrip (by decide) (fun _ => 0) lowestFirst_firstFree 0 as hmeets).2 10 ?_ none, ?_⟩
  · decide +kernel
  · decide +kernel

/-- A record is inserted, deleted and replaced by another one. The page of the second chunk stays, since the insert
    handler holds it, so the first chunk of the new record goes there and the second one into the page in front of
    it. -/
theorem largeRecord_chunks_swapped :
    let as := [single (.insert (twoChunks 5 6)), single (.delete fun _ => true), single (.insert (twoChunks 1 2))]
    let t := run step (created 5000 (fun _ => 0) firstFree 0) as
    (t.delivered 10 none).map (List.map (·.getD 4 0)) = some [2] ∧ (run specStep [] as).map (·.getD 4 0) = [1] ∧
      ¬∃ out, t.delivered 10 none = some out ∧ out.Perm (run specStep [] as) := by
  intro as t
  have hgot : (t.delivered 10 none).map (List.map (·.getD 4 0)) = some [2] := by decide +kernel
  have hwant : (run specStep [] as).map (·.getD 4 0) = [1] := by decide +kernel
  refine ⟨hgot, hwant, ?_⟩
  rintro ⟨out, hout, hperm⟩
  have hbytes := hperm.map (·.getD 4 0)
  rw [hout, map_some, some.injEq] at hgot
  rw [hgot, hwant] at hbytes
  exact absurd hbytes (by decide)

end LargeTable

end MiniOb
