import MiniOb.Storage.HeaderPage
import MiniOb.Theorems.PoolBookkeeping

/-! # The bounds of the bitmap

The bitmap has room for 32672 pages. Only a page added behind the last of these, or a page number of -8 or less, leads
out of it. -/

namespace MiniOb
open Slots DiskBufferPool List

namespace Page
variable {h : Page}

def Inside (h : Page) (a : HeaderAct) : Prop := ∀ b ∈ h.bytes a, 0 ≤ b ∧ b < bitmapBytes

/-- There is room for a page behind the last one, and the page number is not below -7. -/
def Fits (h : Page) : HeaderAct → Prop
  | .allocate block => h.freeSlot = none → block = true → h.pageCount < bitmapPages
  | .dispose pageNum _ _ => -8 < pageNum
  | .check pageNum => -8 < pageNum

def Counted (h : Page) : Prop := 0 ≤ h.pageCount ∧ h.pageCount ≤ bitmapPages

theorem byteIndex_inside {n : Int} : (0 ≤ byteIndex n ∧ byteIndex n < bitmapBytes) ↔ -8 < n ∧ n < bitmapPages := by
  unfold byteIndex bitmapBytes bitmapPages
  rcases Int.le_total 0 n with hn | hn
  · rw [Int.tdiv_eq_ediv_of_nonneg hn]
    omega
  · obtain ⟨m, rfl⟩ : ∃ m, n = -m := ⟨-n, by omega⟩
    rw [Int.neg_tdiv, Int.tdiv_eq_ediv_of_nonneg (by omega)]
    omega

theorem byteIndex_nonneg {n : Int} (hn : -8 < n) : 0 ≤ byteIndex n := by
  rcases Int.le_total 0 n with h | h
  · exact Int.tdiv_nonneg h (by decide)
  · obtain ⟨m, rfl⟩ : ∃ m, n = -m := ⟨-n, by omega⟩
    unfold byteIndex
    rw [Int.neg_tdiv, Int.tdiv_eq_ediv_of_nonneg (by omega)]
    omega

theorem above_of_nonneg {n : Int} (hn : 0 ≤ n) : -8 < n := Int.lt_of_lt_of_le (by decide) hn

theorem freeSlot_lt {n : Nat} (hfree : h.freeSlot = some n) : (n : Int) < h.pageCount := by
  unfold freeSlot at hfree
  dsimp only at hfree
  split at hfree
  · rename_i hlt
    obtain rfl := Option.some.inj hfree
    exact Int.lt_toNat.mp hlt.2
  · cases hfree

theorem scanBytes_inside (counted : h.Counted) {b : Int} (hb : b ∈ h.scanBytes) : 0 ≤ b ∧ b < bitmapBytes := by
  unfold scanBytes at hb
  dsimp only at hb
  split at hb
  · obtain ⟨j, hj, rfl⟩ := mem_map.mp hb
    have hlt : (j : Int) < h.pageCount := Int.lt_toNat.mp (Nat.lt_of_lt_of_le (mem_range.mp hj) (Nat.min_le_right _ _))
    exact byteIndex_inside.mpr ⟨above_of_nonneg (Int.natCast_nonneg j), Int.lt_of_lt_of_le hlt counted.2⟩
  · cases hb

theorem checkBytes_inside (counted : h.Counted) {n : PageNum} :
    (∀ b ∈ h.checkBytes n, 0 ≤ b ∧ b < bitmapBytes) ↔ -8 < n := by
  unfold checkBytes
  have hlow := counted.1
  by_cases hn : h.pageCount ≤ n
  · rw [if_pos hn]
    refine iff_of_true (fun b hb => nomatch hb) ?_
    exact above_of_nonneg (Int.le_trans hlow hn)
  · rw [if_neg hn, forall_mem_singleton, byteIndex_inside]
    exact and_iff_left (Int.lt_of_lt_of_le (Int.not_le.mp hn) counted.2)

theorem inside_iff_fits (counted : h.Counted) (a : HeaderAct) : h.Inside a ↔ h.Fits a := by
  unfold Inside
  cases a with
  | allocate block =>
    dsimp only [bytes, Fits]
    cases hfree : h.freeSlot with
    | some n =>
      refine iff_of_true (fun b hb => ?_) fun h => nomatch h
      have hn : 0 ≤ byteIndex n ∧ byteIndex n < bitmapBytes :=
        byteIndex_inside.mpr ⟨above_of_nonneg (Int.natCast_nonneg n), Int.lt_of_lt_of_le (freeSlot_lt hfree) counted.2⟩
      rcases mem_append.mp hb with hb | hb
      · exact scanBytes_inside counted hb
      · rcases mem_cons.mp hb with rfl | hb
        · exact hn
        · rw [mem_singleton.mp hb]
          exact hn
    | none =>
      cases block with
      | false =>
        refine iff_of_true (fun b hb => ?_) fun _ h => nomatch h
        rw [if_neg Bool.false_ne_true, append_nil] at hb
        exact scanBytes_inside counted hb
      | true =>
        rw [if_pos rfl]
        constructor
        · intro inside _ _
          exact (byteIndex_inside.mp (inside _ (mem_append_right _ mem_cons_self))).2
        · intro room b hb
          rcases mem_append.mp hb with hb | hb
          · exact scanBytes_inside counted hb
          · rw [mem_singleton.mp hb]
            exact byteIndex_inside.mpr ⟨above_of_nonneg counted.1, room rfl rfl⟩
  | dispose n pinned shifted =>
    dsimp only [bytes, Fits]
    rw [← checkBytes_inside counted]
    constructor
    · exact fun inside b hb => inside b (mem_append_left _ hb)
    · intro inside b hb
      rcases mem_append.mp hb with hb | hb
      · exact inside b hb
      · -- The byte that is written is the one that was tested.
        split at hb
        · rename_i hpass
          have hlt : ¬h.pageCount ≤ n := by
            simp only [passes, Bool.and_eq_true, decide_eq_true_eq] at hpass
            exact Int.not_le.mpr hpass.1.1
          refine inside b ?_
          rw [checkBytes, if_neg hlt]
          exact hb
        · cases hb
  | check n => exact checkBytes_inside counted

theorem call_take {n : Nat} (hfree : h.freeSlot = some n) (block : Bool) : h.call (.allocate block) = h.takeFree n := by
  unfold call
  dsimp only
  rw [hfree]

theorem call_extend (hfree : h.freeSlot = none) : h.call (.allocate true) = h.extend := by
  unfold call
  dsimp only
  rw [hfree]
  rfl

theorem call_keep (hfree : h.freeSlot = none) : h.call (.allocate false) = h := by
  unfold call
  dsimp only
  rw [hfree]
  rfl

theorem pageCount_setHigh {i : Nat} (hi : 8 ≤ i) {v : Int} {b : UInt8} :
    ({ h.setAllocatedPages v with data := set (h.setAllocatedPages v).data i b } : Page).pageCount = h.pageCount :=
  (int_set_high _ (Nat.le_trans (by decide) hi) b).trans (pageCount_setAllocatedPages v)

theorem Counted.call (counted : h.Counted) {a : HeaderAct} (fits : h.Fits a) : (h.call a).Counted := by
  cases a with
  | check n => exact counted
  | allocate block =>
    cases hfree : h.freeSlot with
    | some n =>
      unfold Counted
      rw [call_take hfree, pageCount_takeFree]
      exact counted
    | none =>
      cases block with
      | false =>
        rw [call_keep hfree]
        exact counted
      | true =>
        have room := fits hfree rfl
        unfold Counted
        rw [call_extend hfree, pageCount_extend counted.1 room]
        exact ⟨Int.le_trans counted.1 (Int.le_add_one (Int.le_refl _)), room⟩
  | dispose n pinned shifted =>
    unfold Page.call Counted
    dsimp only
    split
    · split
      · rw [pageCount_giveUp]
        exact counted
      · rename_i hneg
        have hplace : 8 ≤ (8 + byteIndex n).toNat := by
          have hzero := byteIndex_nonneg fits
          omega
        exact ⟨le_of_le_of_eq counted.1 (pageCount_setHigh hplace).symm,
          le_of_eq_of_le (pageCount_setHigh hplace) counted.2⟩
    · exact counted

/-- A run of calls on a file stays inside the bitmap if and only if no page is added behind the last one that the bitmap
    has room for, and no page number is below -7. -/
theorem bitmap_inside_iff (as : List HeaderAct) :
    Run.Meets call Inside createdHeader as ↔ Run.Meets call Fits createdHeader as :=
  Run.meets_iff Counted (fun _ _ counted fits => counted.call fits) (fun _ a counted => inside_iff_fits counted a)
    ⟨by decide, by decide⟩

theorem freeSlot_full {h : Page} (full : h.allocatedPages = h.pageCount) : h.freeSlot = none :=
  if_neg fun hlt => absurd hlt.1 (full ▸ Int.lt_irrefl _)

theorem allocated_run : ∀ {n : Nat}, n < 32672 →
    let h := Run.run call createdHeader (List.replicate n (.allocate true))
    h.Exact ∧ h.pageCount = n + 1 ∧ h.allocatedPages = h.pageCount
  | 0, _ => ⟨Exact.created, by decide, by decide⟩
  | n + 1, hn => by
    obtain ⟨hexact, hcount, hfull⟩ := allocated_run (Nat.lt_of_succ_lt hn)
    intro h
    have hstep : h = (Run.run call createdHeader (List.replicate n (.allocate true))).extend := by
      have hrun : h = (Run.run call createdHeader (List.replicate n (.allocate true))).call (.allocate true) := by
        unfold h Run.run
        rw [replicate_succ', foldl_append]
        rfl
      rw [hrun, call_extend (freeSlot_full hfull)]
    have room : (Run.run call createdHeader (List.replicate n (.allocate true))).pageCount < bitmapPages := by
      rw [hcount]
      exact Int.ofNat_lt.mpr hn
    have hnext := pageCount_extend hexact.nonneg room
    rw [hstep]
    refine ⟨hexact.extend room, ?_, ?_⟩
    · rw [hnext, hcount]
      rfl
    · rw [hexact.allocatedPages_extend, hfull, hnext]

/-- The call that adds the page 32672 sets a bit in the byte behind the bitmap; and the number -8 is looked up in the
    byte before it, while -1 is looked up in its first byte. -/
theorem bitmap_left :
    (Run.run call createdHeader (List.replicate 32671 (.allocate true))).bytes (.allocate true) = [bitmapBytes] ∧
      createdHeader.bytes (.check (-8)) = [-1] ∧ createdHeader.bytes (.check (-1)) = [0] := by
  refine ⟨?_, by decide, by decide⟩
  obtain ⟨-, hcount, hfull⟩ := allocated_run (n := 32671) (by decide)
  generalize Run.run call createdHeader (List.replicate 32671 (.allocate true)) = h at hcount hfull
  have hscan : h.scanBytes = [] := if_neg (hfull ▸ Int.lt_irrefl _)
  unfold bytes
  dsimp only
  rw [hscan, freeSlot_full hfull, hcount]
  decide

end Page

/-! ### The calls of the pool -/

namespace Sound
variable {s : PoolSystem} {k : Nat} {file : BPFileHandle} {io : Io} {p : PageNum}

/-- `allocate_page`, `dispose_page` and `get_this_page` of the pool change the header page of an open file as
    `Page.call` says. -/
theorem allocatePage_call (h : Sound s) (hok : ContentsOk s (.allocatePage io k))
    (hk : s.pool.checkFileId k = some file) :
    ∃ block, (s.pool.allocatePage io k).2.header file = (s.pool.header file).call (.allocate block) := by
  rw [h.allocatePage_header hok hk, h.header_eq (checkFileId_some hk)]
  have hslot : s.pool.freePage file = (s.last file.fileName 0).freeSlot := by
    rw [← h.header_eq (checkFileId_some hk)]
    rfl
  rcases (h.allocatePage_last hok hk).1 with ⟨n, hfree, hlast⟩ | ⟨hfree, hlast | hsame⟩
  · exact ⟨true, hlast.trans (Page.call_take (hslot.symm.trans hfree) true).symm⟩
  · exact ⟨true, hlast.trans (Page.call_extend (hslot.symm.trans hfree)).symm⟩
  · refine ⟨false, ?_⟩
    rw [hsame]
    exact (Page.call_keep (hslot.symm.trans hfree)).symm

theorem disposePage_call (h : Sound s) (hok : ContentsOk s (.disposePage k p)) (hk : s.pool.checkFileId k = some file) :
    ∃ pinned, (s.pool.disposePage k p).2.header file = (s.pool.header file).call (.dispose p pinned none) := by
  have hp : 0 ≤ p := (show 0 ≤ p ∧ p < bitmapPages from hok.1).1
  have hheader := h.header_eq (checkFileId_some hk)
  rw [h.disposePage_header hok hk, hheader]
  rcases (disposePage_last (p := p) hk).1 with ⟨hcheck, hlast⟩ | hsame
  · refine ⟨false, hlast.trans ?_⟩
    rw [checkPageNum_iff, hheader] at hcheck
    simp [Page.call, Page.passes, hp, hcheck]
  · exact ⟨true, by simp [Page.call, hsame]⟩

theorem getThisPage_call (h : Sound s) (hok : ContentsOk s (.getThisPage io k p))
    (hk : s.pool.checkFileId k = some file) :
    (s.pool.getThisPage io k p).2.header file = (s.pool.header file).call (.check p) := by
  obtain ⟨-, hlist, -⟩ := h.contents.getThisPage h.pins hok.2 (p := p) hk
  have hpool : (s.step (.getThisPage io k p)).pool = (s.pool.getThisPage io k p).2 := by
    simp only [PoolSystem.step, hk, (PoolSystem.obtain_eq ..).1]
  have hlast : (s.step (.getThisPage io k p)).last = s.last := by
    simp only [PoolSystem.step, hk, PoolSystem.obtain_last]
  have hopen : (s.step (.getThisPage io k p)).pool.openList k = some file := by
    rw [hpool, hlist]
    exact checkFileId_some hk
  have h' := (Sound.step s _ h hok).header_eq hopen
  rw [hpool, hlast, ← h.header_eq (checkFileId_some hk)] at h'
  exact h'

end Sound

namespace DiskBufferPool
variable {s s' : DiskBufferPool} {hs : List PageHandle} {i : Nat} {file : BPFileHandle}

theorem OnlyFrame.header (o : OnlyFrame i s s') (hne : file.hdrFrame ≠ i) : s'.header file = s.header file := by
  unfold DiskBufferPool.header
  rw [o.frame hne]

theorem flushBlock_header (ok : Bool) (torn : PageData) (i : Nat) (s : DiskBufferPool) (file : BPFileHandle) :
    (s.flushBlock ok torn i).2.header file = s.header file := by
  unfold DiskBufferPool.header
  rcases flushBlock_cases ok torn i s with ⟨-, h⟩ | ⟨name, -, ⟨-, h⟩ | ⟨-, h⟩⟩
  · rw [h]
  · rw [h]
    simp only [setDirty, frame_modFrame]
    split
    · rename_i heq
      rw [heq]
      rfl
    · rfl
  · rw [h]
    rfl

theorem added_header (hne : file.hdrFrame ≠ i) (q : Page) (n : PageNum) :
    (((((s.setPage file.hdrFrame q).setDirty file.hdrFrame true).setPins i 1).setPage i (Page.zero 0)).modFrame i
      fun f => { f with page := { f.page with pageNum := n } }).header file = q := by
  simp [DiskBufferPool.header, setPage, setPins, setDirty, hne]

theorem alloc_none_header {io : Io} {fd : Nat} {p : PageNum} (h : s.alloc io fd p = (none, s')) :
    s'.header file = s.header file := by
  rcases alloc_cases io fd p s with ⟨i, -, hrun⟩ | ⟨-, ⟨s₁, hevict, hrun⟩ | ⟨i, s₁, -, hrun⟩⟩
  · cases hrun.symm.trans h
  · cases hrun.symm.trans h
    rcases evict_cases io s with hnone | ⟨j, -, -, ⟨-, hrun⟩ | ⟨-, rc, s₂, hflush, ⟨-, hrun⟩ | ⟨-, hrun⟩⟩⟩
    · cases hnone.symm.trans hevict
      rfl
    · cases hrun.symm.trans hevict
    · cases hrun.symm.trans hevict
    · cases hrun.symm.trans hevict
      have hheader := flushBlock_header io.evictWrite io.torn j
        (s.setMap ((s.frame j).fileDesc, (s.frame j).page.pageNum) none) file
      rw [hflush] at hheader
      exact hheader
  · cases hrun.symm.trans h

end DiskBufferPool

end MiniOb
