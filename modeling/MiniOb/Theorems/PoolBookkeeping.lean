import MiniOb.Lib.Bits
import MiniOb.Theorems.PoolReads

/-! # The header of a file

`Exact` says that the two counters of the header page agree with its bits. -/

namespace MiniOb
open PageData Page PoolSystem Int
variable {name : String} {k : Nat}

open Slots Bits DiskBufferPool

namespace Page
variable {p : Page} {n : Nat}

theorem bit_setAllocatedPages (v : Int) (m : Nat) : (p.setAllocatedPages v).bit m = p.bit m := by
  simp only [bit, setAllocatedPages, setInt]
  rw [if_pos (by omega)]

theorem bit_setPageCount (v : Int) (m : Nat) : (p.setPageCount v).bit m = p.bit m := by
  simp only [bit, setPageCount, setInt]
  rw [if_pos (by omega)]

theorem int_set_high (d : PageData) {off i : Nat} (hoff : off + 4 ≤ i) (b : UInt8) :
    int (set d i b) off = d.int off := by
  rw [int, int, set_ne (by omega), set_ne (by omega), set_ne (by omega),
    set_ne (by omega)]

theorem pageCount_setBit (n : Nat) : (p.setBit n).pageCount = p.pageCount := int_set_high _ (by omega) _

theorem allocatedPages_setBit (n : Nat) : (p.setBit n).allocatedPages = p.allocatedPages := int_set_high _ (by omega) _

theorem pageCount_clearBit (n : Nat) : (p.clearBit n).pageCount = p.pageCount := int_set_high _ (by omega) _

theorem allocatedPages_clearBit (n : Nat) : (p.clearBit n).allocatedPages = p.allocatedPages :=
  int_set_high _ (by omega) _

theorem pageCount_setAllocatedPages (v : Int) : (p.setAllocatedPages v).pageCount = p.pageCount :=
  int_setInt_ne (.inl (by omega))

theorem bit_setBit (m : Nat) : (p.setBit n).bit m = (p.bit m || decide (m = n)) := bitAt_or p.data 8 n m

theorem bit_clearBit (m : Nat) : (p.clearBit n).bit m = (p.bit m && !decide (m = n)) := bitAt_andNot p.data 8 n m

theorem pageCount_takeFree : (p.takeFree n).pageCount = p.pageCount :=
  (pageCount_setBit n).trans (pageCount_setAllocatedPages _)

theorem bit_takeFree (m : Nat) : (p.takeFree n).bit m = (p.bit m || decide (m = n)) := by
  rw [takeFree, bit_setBit, bit_setAllocatedPages]

theorem bit_extend (m : Nat) : p.extend.bit m = (p.bit m || decide (m = p.pageCount.toNat)) := by
  rw [extend, bit_setBit, bit_setPageCount, bit_setAllocatedPages]

theorem pageCount_giveUp : (p.giveUp n).pageCount = p.pageCount :=
  (pageCount_clearBit n).trans (pageCount_setAllocatedPages _)

theorem bit_giveUp (m : Nat) : (p.giveUp n).bit m = (p.bit m && !decide (m = n)) := by
  rw [giveUp, bit_clearBit, bit_setAllocatedPages]

/-- `page_count` has room in the bitmap, and `allocated_pages` is the number of set bits below it. -/
structure Exact (p : Page) : Prop where
  nonneg : 0 ≤ p.pageCount
  room : p.pageCount ≤ bitmapPages
  count : p.allocatedPages = ((List.range p.pageCount.toNat).countP p.bit : Nat)

namespace Exact

theorem allocatedPages_bounds (h : Exact p) : 0 ≤ p.allocatedPages ∧ p.allocatedPages ≤ p.pageCount := by
  have hle := countP_range_le p.bit p.pageCount.toNat
  have hnn := h.nonneg
  rw [h.count]
  omega

theorem bound (h : Exact p) : p.pageCount ≤ 32672 := h.room

theorem takeFree (h : Exact p) (hn : n < p.pageCount.toNat) (hfree : p.bit n = false) : Exact (p.takeFree n) := by
  obtain ⟨hlo, hhi⟩ := h.allocatedPages_bounds
  have hbound := h.bound
  refine ⟨pageCount_takeFree.symm ▸ h.nonneg, pageCount_takeFree.symm ▸ h.room, ?_⟩
  have hcount := countP_range_set hn hfree (q := (p.takeFree n).bit) (by rw [bit_takeFree]; simp)
    fun m hm => by rw [bit_takeFree]; simp [hm]
  rw [pageCount_takeFree, hcount, Page.takeFree, allocatedPages_setBit]
  refine (int_setInt (by omega) (by omega)).trans ?_
  rw [h.count]
  rfl

theorem allocatedPages_extend (h : Exact p) : p.extend.allocatedPages = p.allocatedPages + 1 := by
  obtain ⟨hlo, hhi⟩ := h.allocatedPages_bounds
  have hbound := h.bound
  rw [extend, allocatedPages_setBit]
  refine (int_setInt_ne (.inr (by omega))).trans ?_
  exact int_setInt (by omega) (by omega)

theorem extend (h : Exact p) (hroom : p.pageCount < bitmapPages) : Exact p.extend := by
  have hnn := h.nonneg
  have hpc := pageCount_extend h.nonneg hroom
  refine ⟨by omega, by omega, ?_⟩
  have hnext : p.extend.pageCount.toNat = p.pageCount.toNat + 1 := by omega
  have hsame : (List.range p.pageCount.toNat).countP p.extend.bit = (List.range p.pageCount.toNat).countP p.bit := by
    refine countP_congr_range fun m hm => ?_
    rw [bit_extend]
    simp [Nat.ne_of_lt hm]
  have hlast : p.extend.bit p.pageCount.toNat = true := by
    rw [bit_extend]
    simp
  rw [h.allocatedPages_extend, hnext, countP_range_succ, hsame, hlast, h.count]
  rfl

theorem giveUp (h : Exact p) (hn : n < p.pageCount.toNat) (hset : p.bit n = true) : Exact (p.giveUp n) := by
  obtain ⟨hlo, hhi⟩ := h.allocatedPages_bounds
  have hbound := h.bound
  refine ⟨pageCount_giveUp.symm ▸ h.nonneg, pageCount_giveUp.symm ▸ h.room, ?_⟩
  have hcount := countP_range_set hn (p := (p.giveUp n).bit) (q := p.bit) (by rw [bit_giveUp]; simp) hset
    fun m hm => by rw [bit_giveUp]; simp [hm]
  have hc := h.count
  rw [pageCount_giveUp, Page.giveUp, allocatedPages_clearBit]
  refine (int_setInt (by omega) (by omega)).trans ?_
  rw [Page.giveUp] at hcount
  omega

theorem created : Exact createdHeader := by
  refine ⟨by decide, by decide, by decide +kernel⟩

end Exact

end Page

/-- The condition on a call: that of `ContentsOk`, and clients leave the header to the pool. -/
def BookOk (name : String) (s : PoolSystem) (a : PoolAct) : Prop :=
  ContentsOk s a ∧ match a with
  | .write k _ => ∀ h, s.handles[k]? = some h → h.file = name → h.page ≠ 0
  | _ => True

namespace DiskBufferPool
variable {s : DiskBufferPool}

theorem freePage_some {file : BPFileHandle} {n : Nat} (h : s.freePage file = some n) :
    n < (s.header file).pageCount.toNat ∧ (s.header file).bit n = false := by
  simp only [freePage] at h
  split at h
  · rename_i hlt
    obtain rfl := Option.some.inj h
    have hbit := firstIdx_spec (p := fun i => !(s.header file).bit i) hlt.2
    exact ⟨hlt.2, by simpa using hbit⟩
  · cases h

theorem checkPageNum_iff {file : BPFileHandle} {p : PageNum} : s.checkPageNum p file = true ↔
    p < (s.header file).pageCount ∧ (s.header file).bit p.toNat = true := by
  rw [checkPageNum, Bool.and_eq_true, decide_eq_true_eq]

end DiskBufferPool

theorem PoolSystem.record_same (s : PoolSystem) (name : String) (p : PageNum) (q : Page) :
    (s.record name p q).last name p = q := if_pos ⟨rfl, rfl⟩

theorem PoolSystem.record_other (s : PoolSystem) {name' : String} {p p' : PageNum} (q : Page)
    (h : name' = name → p' ≠ p) : (s.record name p q).last name' p' = s.last name' p' :=
  if_neg fun heq => h heq.1 heq.2

theorem PoolSystem.obtain_last (s : PoolSystem) (name : String) (p : PageNum) (r : Except RC Nat × DiskBufferPool) :
    (s.obtain name p r).last = s.last := by
  rcases r with ⟨_ | _, _⟩ <;> rfl

theorem Sound.allocatePage_last {s : PoolSystem} (h : Sound s) {io : Io} {file : BPFileHandle}
    (hok : ContentsOk s (.allocatePage io k)) (hk : s.pool.checkFileId k = some file) :
    ((∃ p, s.pool.freePage file = some p ∧ (s.step (.allocatePage io k)).last file.fileName 0 =
        (s.last file.fileName 0).takeFree p) ∨
      s.pool.freePage file = none ∧ ((s.step (.allocatePage io k)).last file.fileName 0 =
        (s.last file.fileName 0).extend ∨ s.step (.allocatePage io k) = s)) ∧
    ∀ n, n ≠ file.fileName → (s.step (.allocatePage io k)).last n 0 = s.last n 0 := by
  have hopen := checkFileId_some hk
  simp only [PoolSystem.step, hk]
  cases hfree : s.pool.freePage file with
  | some p =>
    refine ⟨.inl ⟨p, rfl, ?_⟩, fun n hn => ?_⟩
    · rw [obtain_last, record_same]
    · rw [obtain_last, record_other _ _ fun h => absurd h hn]
  | none =>
    obtain ⟨hlo, hhi⟩ := (hok.1 file hk).2 hfree
    -- The new page is not the header itself: a frame holds that one.
    have hne : (s.pool.header file).pageCount ≠ 0 := fun hzero =>
      (hok.2.2 file hk).2 file.hdrFrame (h.contents.header_eq h.pins hopen).1 (h.pins.header k file hopen).1 hfree
        ((h.pins.header k file hopen).2.trans hzero.symm)
    rcases h.contents.extend h.pins hok.2.1 hk hfree hlo hhi fun j hj hfd => (hok.2.2 file hk).2 j hj hfd hfree with
      ⟨halloc, hrun⟩ | ⟨i, s', halloc, hrun, -⟩
    · simp only [halloc, hrun]
      exact ⟨.inr ⟨trivial, .inr rfl⟩, fun _ _ => rfl⟩
    · simp only [halloc, Option.isSome_some, if_true]
      refine ⟨.inr ⟨trivial, .inl ?_⟩, fun n hn => ?_⟩
      · rw [obtain_last, record_other _ _ fun _ => hne.symm, record_same]
      · rw [obtain_last, record_other _ _ fun h => absurd h hn,
          record_other _ _ fun h => absurd h hn]

theorem disposePage_last {s : PoolSystem} {p : PageNum} {file : BPFileHandle} (hk : s.pool.checkFileId k = some file) :
    (s.pool.checkPageNum p file = true ∧ (s.step (.disposePage k p)).last file.fileName 0 =
        (s.last file.fileName 0).giveUp p.toNat ∨ s.step (.disposePage k p) = s) ∧
    ∀ n, n ≠ file.fileName → (s.step (.disposePage k p)).last n 0 = s.last n 0 := by
  simp only [PoolSystem.step, hk]
  rcases disposePage_cases (p := p) hk with ⟨rc, hrun⟩ | ⟨hcheck, s₁, -, hrun⟩
  · simp only [hrun]
    exact ⟨.inr trivial, fun _ _ => trivial⟩
  · simp only [hrun]
    refine ⟨.inl ⟨hcheck, record_same ..⟩, fun n hn => ?_⟩
    rw [record_other _ _ fun h => absurd h hn, record_other _ _ fun h => absurd h hn]

theorem exact_step (s : PoolSystem) (a : PoolAct) (h : Sound s ∧ (s.last name 0).Exact)
    (hok : BookOk name s a) : Sound (s.step a) ∧ ((s.step a).last name 0).Exact := by
  obtain ⟨hs, hexact⟩ := h
  refine ⟨Sound.step s a hs hok.1, ?_⟩
  cases a with
  | createFile failure name' =>
    cases failure with
    | some rc => exact hexact
    | none =>
      by_cases hn : name = name'
      · rw [show (s.step (.createFile none name')).last name 0 = createdHeader from if_pos ⟨hn, rfl⟩]
        exact Exact.created
      · rw [show (s.step (.createFile none name')).last name 0 = s.last name 0 from if_neg fun h => hn h.1]
        exact hexact
  | openFile io name' => exact hexact
  | closeFile io k => exact hexact
  | getThisPage io k p =>
    simp only [PoolSystem.step]
    cases hk : s.pool.checkFileId k with
    | none => exact hexact
    | some file =>
      simp only [obtain_last]
      exact hexact
  | allocatePage io k =>
    cases hk : s.pool.checkFileId k with
    | none =>
      simp only [PoolSystem.step, hk]
      exact hexact
    | some file =>
      have hheader := (hs.contents.header_eq hs.pins (checkFileId_some hk)).2.2
      obtain ⟨hcase, hother⟩ := hs.allocatePage_last hok.1 hk
      by_cases hn : name = file.fileName
      · subst hn
        rcases hcase with ⟨p, hfree, hlast⟩ | ⟨hfree, hlast | hsame⟩
        · obtain ⟨hlt, hbit⟩ := freePage_some hfree
          rw [hheader] at hlt hbit
          rw [hlast]
          exact hexact.takeFree hlt hbit
        · rw [hlast]
          exact hexact.extend (hheader ▸ ((hok.1.1 file hk).2 hfree).2)
        · rw [hsame]
          exact hexact
      · rw [hother name hn]
        exact hexact
  | write k data =>
    simp only [PoolSystem.step]
    cases hk : s.handles[k]? with
    | none => exact hexact
    | some g =>
      rw [record_other _ _ fun heq h0 => hok.2 g hk heq.symm h0.symm]
      exact hexact
  | markDirty k =>
    simp only [PoolSystem.step]
    split <;> exact hexact
  | unpinPage k =>
    simp only [PoolSystem.step]
    split <;> exact hexact
  | disposePage k p =>
    cases hk : s.pool.checkFileId k with
    | none =>
      simp only [PoolSystem.step, hk]
      exact hexact
    | some file =>
      have hheader := (hs.contents.header_eq hs.pins (checkFileId_some hk)).2.2
      obtain ⟨hcase, hother⟩ := disposePage_last (p := p) hk
      by_cases hn : name = file.fileName
      · subst hn
        rcases hcase with ⟨hcheck, hlast⟩ | hsame
        · obtain ⟨hlt, hbit⟩ := checkPageNum_iff.mp hcheck
          have hlo : 0 ≤ p := (show 0 ≤ p ∧ p < bitmapPages from hok.1.1).1
          rw [hheader] at hlt hbit
          rw [hlast]
          exact hexact.giveUp ((toNat_lt_toNat (Int.lt_of_le_of_lt hlo hlt)).mpr hlt) hbit
        · rw [hsame]
          exact hexact
      · rw [hother name hn]
        exact hexact
  | flushAllPages io k => exact hexact

/-- The page that `allocate_page` looks for: the first free one, or the one behind the last. -/
def DiskBufferPool.nextPage (s : DiskBufferPool) (file : BPFileHandle) : PageNum :=
  ((s.freePage file).map Nat.cast).getD (s.header file).pageCount

namespace Sound
variable {s : PoolSystem} {k : Nat} {file : BPFileHandle}

theorem allocatePage_openList (h : Sound s) {io : Io}
    (hok : ContentsOk s (.allocatePage io k)) (hk : s.pool.checkFileId k = some file) :
    (s.pool.allocatePage io k).2.openList = s.pool.openList := by
  rcases allocatePage_cases io hk with ⟨p, hfree, hrun⟩ | ⟨hfree, -⟩
  · have hdirty := (hok.2.2 file hk).1 (by rw [hfree]; rfl)
    have hc := h.contents.rewriteHeader h.pins (checkFileId_some hk) hdirty (q := (s.pool.header file).takeFree p) rfl
      fun _ _ => rfl
    have hp := h.pins.quiet (Pinned.quiet_takeFree file p)
    rw [hrun]
    exact (hc.getThisPage hp hok.2.1 (p := p) hk).2.1
  · obtain ⟨hlo, hhi⟩ := (hok.1 file hk).2 hfree
    rcases h.contents.extend h.pins hok.2.1 hk hfree hlo hhi fun j hj hfd => (hok.2.2 file hk).2 j hj hfd hfree with
      ⟨-, hrun⟩ | ⟨i, s', -, hrun, hlist, -⟩
    · rw [hrun]
    · rw [hrun]
      exact hlist

theorem step_allocatePage (io : Io) (hk : s.pool.checkFileId k = some file) :
    (s.step (.allocatePage io k)).pool = (s.pool.allocatePage io k).2 ∧ (s.step (.allocatePage io k)).handles =
      Pinned.handlesAfter s.handles file.fileName (s.pool.nextPage file) (s.pool.allocatePage io k).1 := by
  simp only [PoolSystem.step, hk, nextPage]
  cases hfree : s.pool.freePage file with
  | some p => exact obtain_eq ..
  | none =>
    simp only
    split <;> exact obtain_eq ..

theorem header_eq (h : Sound s) (hopen : s.pool.openList k = some file) : s.pool.header file = s.last file.fileName 0 :=
  (h.contents.header_eq h.pins hopen).2.2

theorem allocatePage_header (h : Sound s) {io : Io} (hok : ContentsOk s (.allocatePage io k))
    (hk : s.pool.checkFileId k = some file) :
    (s.pool.allocatePage io k).2.header file = (s.step (.allocatePage io k)).last file.fileName 0 := by
  obtain ⟨hpool, -⟩ := step_allocatePage io hk
  have hopen : (s.step (.allocatePage io k)).pool.openList k = some file := by
    rw [hpool, h.allocatePage_openList hok hk]
    exact checkFileId_some hk
  rw [← (Sound.step s _ h hok).header_eq hopen, hpool]

theorem allocatePage_fresh (h : Sound s) {io : Io} {i : Nat}
    (hexact : (s.last file.fileName 0).Exact) (hok : ContentsOk s (.allocatePage io k))
    (hk : s.pool.checkFileId k = some file) (hget : (s.pool.allocatePage io k).1 = .ok i) :
    let s' := (s.pool.allocatePage io k).2
    let p := (s'.frame i).page.pageNum
    0 ≤ p ∧ s.pool.checkPageNum p file = false ∧
      ∀ q, 0 ≤ q → s'.checkPageNum q file = (s.pool.checkPageNum q file || decide (q = p)) := by
  intro s' p
  have h' := Sound.step s _ h hok
  obtain ⟨hpool, hhandles⟩ := step_allocatePage io hk
  have hheader := h.header_eq (checkFileId_some hk)
  have hheader' : s'.header file = (s.step (.allocatePage io k)).last file.fileName 0 := h.allocatePage_header hok hk
  -- The page number in the frame is the one of the handle.
  have hp : p = s.pool.nextPage file := by
    rw [hget] at hhandles
    have hpage := h'.pins.pages ⟨true, i, file.fileName, s.pool.nextPage file, false⟩
      (by rw [hhandles]; exact List.mem_append_right _ (.head _)) rfl
    rw [hpool] at hpage
    exact hpage.2
  have hnn : 0 ≤ (s.pool.header file).pageCount := by rw [hheader]; exact hexact.nonneg
  rcases (h.allocatePage_last hok hk).1 with ⟨n, hfree, hlast⟩ | ⟨hfree, hlast | hsame⟩
  · have hpn : p = (n : Int) := by rw [hp, nextPage, hfree]; rfl
    obtain ⟨hlt, hbit⟩ := freePage_some hfree
    rw [hpn]
    refine ⟨natCast_nonneg n, ?_, fun q hq => ?_⟩
    · rw [checkPageNum, toNat_natCast, hbit, Bool.and_false]
    · rw [checkPageNum, checkPageNum, hheader', hlast, ← hheader, pageCount_takeFree, bit_takeFree]
      have hqn : q.toNat = n ↔ q = (n : Int) := by
        constructor
        · rintro rfl
          exact (toNat_of_nonneg hq).symm
        · rintro rfl
          exact toNat_natCast n
      by_cases hqe : q = (n : Int)
      · have hqlt : q < (s.pool.header file).pageCount := by
          rw [hqe]
          exact (lt_toNat.mp hlt)
        simp [hqe ▸ hqlt, hqe]
      · simp [hqn, hqe]
  · have hpn : p = (s.pool.header file).pageCount := by rw [hp, nextPage, hfree]; rfl
    have hroom := ((hok.1 file hk).2 hfree).2
    rw [hpn]
    refine ⟨hnn, ?_, fun q hq => ?_⟩
    · rw [checkPageNum, decide_eq_false (Int.lt_irrefl _), Bool.false_and]
    · rw [checkPageNum, checkPageNum, hheader', hlast, ← hheader, pageCount_extend hnn hroom, bit_extend]
      rcases Int.lt_trichotomy q (s.pool.header file).pageCount with hlt | heq | hgt
      · have hne : q ≠ (s.pool.header file).pageCount := Int.ne_of_lt hlt
        have hne' : q.toNat ≠ (s.pool.header file).pageCount.toNat :=
          Nat.ne_of_lt ((toNat_lt_toNat (Int.lt_of_le_of_lt hq hlt)).mpr hlt)
        simp [hne, hne', hlt, lt_add_one_of_le (Int.le_of_lt hlt)]
      · simp [heq, lt_add_one_of_le (Int.le_refl _)]
      · have hge : ¬q < (s.pool.header file).pageCount + 1 :=
          fun hlt => absurd (le_of_lt_add_one hlt) (Int.not_le.mpr hgt)
        simp [hge, Int.not_lt.mpr (Int.le_of_lt hgt), Ne.symm (Int.ne_of_lt hgt)]
  · rw [hsame, hget] at hhandles
    have hlen := congrArg List.length hhandles
    simp [Pinned.handlesAfter] at hlen

theorem disposePage_header (h : Sound s) {p : PageNum} (hok : ContentsOk s (.disposePage k p))
    (hk : s.pool.checkFileId k = some file) :
    (s.pool.disposePage k p).2.header file = (s.step (.disposePage k p)).last file.fileName 0 := by
  have hopen := checkFileId_some hk
  have h' := Sound.step s _ h hok
  rcases h.contents.disposePage h.pins hk (hok.2 file hk) with ⟨rc, hrun⟩ | ⟨s', hrun, hlist, -⟩
  · simp only [PoolSystem.step, hk, hrun]
    exact h.header_eq hopen
  · have hpool : (s.step (.disposePage k p)).pool = s' := by simp only [PoolSystem.step, hk, hrun]; rfl
    rw [hrun, ← h'.header_eq (by rw [hpool, hlist]; exact hopen), hpool]

theorem disposePage_exact (h : Sound s) {p : PageNum}
    (hok : ContentsOk s (.disposePage k p)) (hk : s.pool.checkFileId k = some file) {u : Unit}
    (hrun : (s.pool.disposePage k p).1 = .ok u) :
    s.pool.checkPageNum p file = true ∧ ∀ q, 0 ≤ q →
      (s.pool.disposePage k p).2.checkPageNum q file = (s.pool.checkPageNum q file && !decide (q = p)) := by
  have hlo : 0 ≤ p := (show 0 ≤ p ∧ p < bitmapPages from hok.1).1
  rcases disposePage_cases (p := p) hk with ⟨rc, herr⟩ | ⟨hcheck, s₁, -, hrun'⟩
  · rw [herr] at hrun
    cases hrun
  refine ⟨hcheck, fun q hq => ?_⟩
  have hlast : (s.step (.disposePage k p)).last file.fileName 0 = (s.last file.fileName 0).giveUp p.toNat := by
    simp only [PoolSystem.step, hk, hrun']
    exact record_same ..
  rw [checkPageNum, checkPageNum, h.disposePage_header hok hk, hlast, ← h.header_eq (checkFileId_some hk),
    pageCount_giveUp, bit_giveUp]
  have hqp : q.toNat = p.toNat ↔ q = p := by
    constructor
    · intro heq
      rw [← toNat_of_nonneg hq, heq, toNat_of_nonneg hlo]
    · rintro rfl
      rfl
  simp [hqp, Bool.and_assoc]

end Sound

theorem DiskBufferPool.openFile_ok {s : DiskBufferPool} {io : Io}
    (h : (s.openFile io name).1 = .ok k) : ∃ file, (s.openFile io name).2.checkFileId k = some file ∧
      file.fileName = name := by
  by_cases hname : firstIdx maxOpenFile (fun i => (s.openList i).any fun f => decide (f.fileName = name)) < maxOpenFile
  · have hspec := firstIdx_spec hname
    have hrun : s.openFile io name = (.ok (firstIdx maxOpenFile fun i => (s.openList i).any fun f =>
        decide (f.fileName = name)), s) := by simp only [openFile, if_pos hname]
    rw [hrun] at h ⊢
    obtain rfl : _ = k := by simpa using h
    cases hopen : s.openList (firstIdx maxOpenFile fun i => (s.openList i).any fun f => decide (f.fileName = name)) with
    | none =>
      rw [hopen] at hspec
      cases hspec
    | some file =>
      rw [hopen] at hspec
      exact ⟨file, (if_pos hname).trans hopen, by simpa using hspec⟩
  · by_cases hslot : s.openSlot = maxOpenFile
    · simp only [openFile, if_neg hname, if_pos hslot] at h
      cases h
    obtain ⟨hlt, -⟩ := openSlot_free hslot
    simp only [openFile, if_neg hname, if_neg hslot] at h ⊢
    generalize s.openSlot = slot at h hlt
    cases hfd : io.openFd with
    | none =>
      rw [hfd] at h
      cases h
    | some fd =>
      simp only [hfd] at h
      split at h
      · cases h
      · rename_i j s₁ halloc
        split at h
        · rename_i s₂ hload
          obtain rfl : slot = k := by simpa using h
          simp only [halloc, hload]
          exact ⟨⟨name, fd, j⟩, (if_pos hlt).trans (set_same _ _ _), rfl⟩
        · cases h

/-- In every state of a run whose calls meet `BookOk`, `allocated_pages` is the number of set bits below `page_count`,
    `allocate_page` takes one page that was free, `dispose_page` frees the page it is given and no other, and opening
    the file again gives the same header. -/
theorem bookkeeping_exact (size : Nat) {raw : Nat → Frame} {files : String → PageNum → Page} {as : List PoolAct}
    (name : String) (hraw : ∀ i, (raw i).pinCount = 0) (hfiles : ∀ n p, (files n p).pageNum = p)
    (hstart : (files name 0).Exact) (hrun : Run.Meets PoolSystem.step (BookOk name) (init size raw files) as) :
    let s := Run.run PoolSystem.step (init size raw files) as
    ∀ k file, s.pool.checkFileId k = some file → file.fileName = name → (s.pool.header file).Exact ∧
      (∀ io i, BookOk name s (.allocatePage io k) → (s.pool.allocatePage io k).1 = .ok i →
        let s' := (s.pool.allocatePage io k).2
        let p := (s'.frame i).page.pageNum
        0 ≤ p ∧ s.pool.checkPageNum p file = false ∧
          ∀ q, 0 ≤ q → s'.checkPageNum q file = (s.pool.checkPageNum q file || decide (q = p))) ∧
      (∀ p u, BookOk name s (.disposePage k p) → (s.pool.disposePage k p).1 = .ok u →
        s.pool.checkPageNum p file = true ∧ ∀ q, 0 ≤ q →
          (s.pool.disposePage k p).2.checkPageNum q file = (s.pool.checkPageNum q file && !decide (q = p))) ∧
      ∀ io io' k', BookOk name s (.closeFile io k) → BookOk name (s.step (.closeFile io k)) (.openFile io' name) →
        ((s.step (.closeFile io k)).pool.openFile io' name).1 = .ok k' →
        ∃ file', ((s.step (.closeFile io k)).pool.openFile io' name).2.checkFileId k' = some file' ∧
          file'.fileName = name ∧
          ((s.step (.closeFile io k)).pool.openFile io' name).2.header file' = s.pool.header file := by
  intro s k file hk hname
  obtain ⟨hs, hexact⟩ := Run.invariant (fun s => Sound s ∧ (s.last name 0).Exact) exact_step
    ⟨Sound.init size hraw hfiles, hstart⟩ hrun
  subst hname
  have hheader := (hs.contents.header_eq hs.pins (checkFileId_some hk)).2.2
  refine ⟨hheader ▸ hexact, fun io i hok hget => hs.allocatePage_fresh hexact hok.1 hk hget,
    fun p u hok hget => hs.disposePage_exact hok.1 hk hget, fun io io' k' hclose hopen hget => ?_⟩
  have hs₁ := Sound.step s _ hs hclose.1
  have hlast : (s.step (.closeFile io k)).last = s.last := rfl
  generalize s.step (.closeFile io k) = t at hs₁ hopen hget hlast ⊢
  have hs₂ := Sound.step t _ hs₁ hopen.1
  obtain ⟨file', hk', hname'⟩ := openFile_ok hget
  refine ⟨file', hk', hname', ?_⟩
  -- Closing and opening write nothing to the pages of the file.
  have hpool : (t.step (.openFile io' file.fileName)).pool = (t.pool.openFile io' file.fileName).2 := by
    simp only [PoolSystem.step]
  have hlast' : (t.step (.openFile io' file.fileName)).last = s.last := by simp only [PoolSystem.step, hlast]
  rw [← hpool] at hk' ⊢
  have hheader' := (hs₂.contents.header_eq hs₂.pins (checkFileId_some hk')).2.2
  rw [hheader', hlast', hname', hheader]

def twoPagesOpen : PoolSystem :=
  Run.run PoolSystem.step (init 2 (fun _ => ⟨false, 0, 0, zero 0⟩) twoPages) [.openFile (steadyIo 3) "t"]

theorem bookkeeping_exact_extend : (twoPagesOpen.pool.header ⟨"t", 3, 0⟩).Exact ∧
    twoPagesOpen.pool.checkPageNum ((twoPagesOpen.pool.allocatePage (steadyIo 3) 0).2.frame 1).page.pageNum ⟨"t",
      3, 0⟩ = false := by
  have hio : (steadyIo 3).Succeeds := ⟨rfl, rfl, fun _ => rfl, rfl, rfl, rfl⟩
  have hok : ContentsOk (init 2 (fun _ => ⟨false, 0, 0, zero 0⟩) twoPages) (.openFile (steadyIo 3) "t") :=
    ⟨fun fd _ => rfl, hio⟩
  have hstart : (twoPages "t" 0).Exact := ⟨by decide, by decide, by decide +kernel⟩
  have hmeets : Run.Meets PoolSystem.step ContentsOk (init 2 (fun _ => ⟨false, 0, 0, zero 0⟩) twoPages)
      [.openFile (steadyIo 3) "t"] := ⟨hok, trivial⟩
  have hbook : Run.Meets PoolSystem.step (BookOk "t") (init 2 (fun _ => ⟨false, 0, 0, zero 0⟩) twoPages)
      [.openFile (steadyIo 3) "t"] := ⟨⟨hok, trivial⟩, trivial⟩
  have hall := bookkeeping_exact 2 "t" (fun _ => rfl) (fun _ _ => rfl) hstart hbook
  have hpins : Pinned twoPagesOpen.pool twoPagesOpen.handles :=
    (Run.invariant Sound Sound.step (Sound.init 2 (fun _ => rfl) fun _ _ => rfl) hmeets).pins
  have hopen : twoPagesOpen.pool.checkFileId 0 = some ⟨"t", 3, 0⟩ := by decide +kernel
  have hfree : twoPagesOpen.pool.freePage ⟨"t", 3, 0⟩ = none := by decide +kernel
  have hcount : (twoPagesOpen.pool.header ⟨"t", 3, 0⟩).pageCount = 2 := by decide +kernel
  have hsize : twoPagesOpen.pool.size = 2 := by decide +kernel
  have hzero : (twoPagesOpen.pool.frame 0).page.pageNum = 0 := by decide +kernel
  have hone : (twoPagesOpen.pool.frames 1).allocated = false := by decide +kernel
  have hget : (twoPagesOpen.pool.allocatePage (steadyIo 3) 0).1.toOption = some 1 := by decide +kernel
  rw [← twoPagesOpen] at hall
  generalize twoPagesOpen = s at hall hpins hopen hfree hcount hsize hzero hone hget ⊢
  obtain ⟨hexact, hallocate, -, -⟩ := hall 0 ⟨"t", 3, 0⟩ hopen rfl
  refine ⟨hexact, (hallocate (steadyIo 3) 1 ⟨⟨fun file hfile => ?_, hio, fun file hfile => ?_⟩, trivial⟩ ?_).2.1⟩
  · obtain rfl := Option.some.inj (hopen.symm.trans hfile)
    refine ⟨fun p hp => ?_, fun _ => ?_⟩
    · rw [hfree] at hp
      cases hp
    · rw [hcount]
      decide
  · obtain rfl := Option.some.inj (hopen.symm.trans hfile)
    refine ⟨fun hsome => ?_, fun i hi _ _ => ?_⟩
    · rw [hfree] at hsome
      cases hsome
    · have hlt := hpins.bound i hi
      rw [hsize] at hlt
      rw [hcount]
      match i, hlt with
      | 0, _ =>
        rw [hzero]
        decide
      | 1, _ =>
        rw [hone] at hi
        cases hi
  · generalize (s.pool.allocatePage (steadyIo 3) 0).1 = r at hget
    cases r with
    | ok i => exact congrArg Except.ok (Option.some.inj hget)
    | error rc => cases hget

def onePageFree : String → PageNum → Page := fun _ p =>
  ⟨p, fun i => if i = 0 then 2 else if i = 4 ∨ i = 8 then 1 else 0⟩

/-- A free page is taken, the file is closed and opened again: the page is free again, as the header was not marked
    dirty. -/
theorem allocatePage_forgotten :
    let init := init 2 (fun _ => ⟨false, 0, 0, zero 0⟩) onePageFree
    let s := Run.run PoolSystem.step init [.openFile (steadyIo 3) "t", .allocatePage (steadyIo 3) 0]
    let s' := Run.run PoolSystem.step s [.closeFile (steadyIo 3) 0, .openFile (steadyIo 3) "t"]
    s.pool.checkFileId 0 = some ⟨"t", 3, 0⟩ ∧ s'.pool.checkFileId 0 = some ⟨"t", 3, 0⟩ ∧
      (s.pool.header ⟨"t", 3, 0⟩).allocatedPages = 2 ∧ (s'.pool.header ⟨"t", 3, 0⟩).allocatedPages = 1 ∧
      (s.pool.header ⟨"t", 3, 0⟩).bit 1 = true ∧ (s'.pool.header ⟨"t", 3, 0⟩).bit 1 = false := by
  decide +kernel

end MiniOb
