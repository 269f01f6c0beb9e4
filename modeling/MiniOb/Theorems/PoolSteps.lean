import MiniOb.Storage.BufferPool

/-! # What the calls of the buffer pool change

`Quiet` changes only contents and dirty flags, `OnlyFrame` one frame besides: every call of the pool is made of such
changes. -/

namespace MiniOb
open Slots List

theorem PageData.int_setInt {d : PageData} {off : Nat} {v : Int} (hlo : 0 ≤ v) (hhi : v < 2147483648) :
    (d.setInt off v).int off = v := by
  have hbyte : ∀ k, k < 4 → d.setInt off v (off + k) = UInt8.ofNat (v.toNat / 256 ^ k) := by
    intro k hk
    have hv : v % 4294967296 = v := Int.emod_eq_of_lt hlo (by omega)
    rw [setInt, if_neg (by omega), hv, Nat.add_sub_cancel_left]
  have h0 := hbyte 0 (by omega)
  have h1 := hbyte 1 (by omega)
  have h2 := hbyte 2 (by omega)
  have h3 := hbyte 3 (by omega)
  rw [Nat.add_zero] at h0
  rw [int, h0, h1, h2, h3]
  simp only [readInt, readUInt, getD_cons_zero, getD_cons_succ, UInt8.toNat_ofNat']
  have hsum : v.toNat / 256 ^ 0 % 2 ^ 8 + 256 * (v.toNat / 256 ^ 1 % 2 ^ 8) + 65536 * (v.toNat / 256 ^ 2 % 2 ^ 8) +
      16777216 * (v.toNat / 256 ^ 3 % 2 ^ 8) = v.toNat := by omega
  rw [hsum, if_pos (by omega), Int.toNat_of_nonneg hlo]

theorem PageData.int_setInt_ne {d : PageData} {off off' : Nat} {v : Int} (h : off' + 4 ≤ off ∨ off + 4 ≤ off') :
    (d.setInt off v).int off' = d.int off' := by
  have hbyte : ∀ k, k < 4 → d.setInt off v (off' + k) = d (off' + k) := by
    intro k hk
    rw [setInt, if_pos (by omega)]
  have h0 := hbyte 0 (by omega)
  rw [Nat.add_zero] at h0
  rw [int, int, h0, hbyte 1 (by omega), hbyte 2 (by omega), hbyte 3 (by omega)]

theorem Page.pageCount_extend {p : Page} (hlo : 0 ≤ p.pageCount) (hhi : p.pageCount < bitmapPages) :
    p.extend.pageCount = p.pageCount + 1 := by
  have hbound : (bitmapPages : Int) = 32672 := by decide
  have hset : ∀ (n : Nat) (q : Page), (q.setBit n).pageCount = q.pageCount := by
    intro n q
    simp only [pageCount, PageData.int, setBit]
    rw [set_ne (by omega), set_ne (by omega), set_ne (by omega), set_ne (by omega)]
  have hother : (p.setAllocatedPages (p.allocatedPages + 1)).pageCount = p.pageCount :=
    PageData.int_setInt_ne (.inl (by omega))
  rw [extend, hset, hother]
  exact PageData.int_setInt (by omega) (by omega)

namespace DiskBufferPool
variable {s s' s'' : DiskBufferPool} {i : Nat} {j fd k : Nat} {p : PageNum} {name : String} {io : Io}
  {file : BPFileHandle}

@[simp] theorem frame_modFrame (f : Frame → Frame) (j : Nat) :
    (s.modFrame i f).frame j = if j = i then f (s.frame i) else s.frame j := by
  by_cases h : j = i
  · rw [if_pos h, h]
    simp [modFrame, frame, set_same]
  · rw [if_neg h]
    simp [modFrame, frame, set_ne h]

@[simp] theorem allocated_modFrame (f : Frame → Frame) (j : Nat) :
    ((s.modFrame i f).frames j).allocated = (s.frames j).allocated := by
  by_cases h : j = i
  · subst h
    simp [modFrame, set_same]
  · simp [modFrame, set_ne h]

theorem modFrame_keeps {α : Type} {f : Frame → Frame} (g : Frame → α) (hg : g (f (s.frame i)) = g (s.frame i))
    (j : Nat) : g ((s.modFrame i f).frame j) = g (s.frame j) := by
  rw [frame_modFrame]
  split
  · rename_i h
    rw [h, hg]
  · rfl

@[simp] theorem frame_setAllocated (b : Bool) (j : Nat) : (s.setAllocated i b).frame j = s.frame j := by
  by_cases h : j = i
  · subst h
    simp [setAllocated, frame, set_same]
  · simp [setAllocated, frame, set_ne h]

@[simp] theorem allocated_setAllocated (b : Bool) (j : Nat) :
    ((s.setAllocated i b).frames j).allocated = if j = i then b else (s.frames j).allocated := by
  by_cases h : j = i
  · subst h
    simp [setAllocated, set_same]
  · simp [setAllocated, set_ne h, h]

theorem frames_eq (hframe : s'.frame j = s.frame j)
    (halloc : (s'.frames j).allocated = (s.frames j).allocated) : s'.frames j = s.frames j := by
  cases hj : s'.frames j
  cases hj' : s.frames j
  simp_all [frame]

/-! ### What a step leaves alone -/

def Numbered (s : DiskBufferPool) : Prop := ∀ n p, (s.files n p).pageNum = p

/-- No frame changes hands: entries may go, and data and dirty flags may change. -/
structure Quiet (s s' : DiskBufferPool) : Prop where
  pins : ∀ j, (s'.frame j).pinCount = (s.frame j).pinCount
  fileDesc : ∀ j, (s'.frame j).fileDesc = (s.frame j).fileDesc
  pageNum : ∀ j, (s'.frame j).page.pageNum = (s.frame j).page.pageNum
  allocated : ∀ j, (s'.frames j).allocated = (s.frames j).allocated
  openList : s'.openList = s.openList
  fds : s'.fds = s.fds
  size : s'.size = s.size
  frameList : s'.frameList = s.frameList
  listMap : ∀ k j, s'.listMap k = some j → s.listMap k = some j
  numbered : s.Numbered → s'.Numbered

/-- No other frame than `i` changes, and no new entry leads to one. -/
structure OnlyFrame (i : Nat) (s s' : DiskBufferPool) : Prop where
  frames : ∀ j, j ≠ i → s'.frames j = s.frames j
  openList : s'.openList = s.openList
  fds : s'.fds = s.fds
  size : s'.size = s.size
  frameList : ∀ j ∈ s'.frameList, j ∈ s.frameList ∨ j = i
  listMap : ∀ k j, s'.listMap k = some j → s.listMap k = some j ∨ j = i
  numbered : s.Numbered → s'.Numbered

theorem OnlyFrame.refl : OnlyFrame i s s :=
  ⟨fun _ _ => rfl, rfl, rfl, rfl, fun _ hj => .inl hj, fun _ _ hj => .inl hj, id⟩

theorem OnlyFrame.trans (a : OnlyFrame i s s') (b : OnlyFrame i s' s'') : OnlyFrame i s s'' where
  frames j hj := (b.frames j hj).trans (a.frames j hj)
  openList := b.openList.trans a.openList
  fds := b.fds.trans a.fds
  size := b.size.trans a.size
  frameList j hj := (b.frameList j hj).elim (a.frameList j) .inr
  listMap k j hj := (b.listMap k j hj).elim (a.listMap k j) .inr
  numbered hs := b.numbered (a.numbered hs)

theorem OnlyFrame.frame (o : OnlyFrame i s s') (hj : j ≠ i) : s'.frame j = s.frame j := by
  rw [DiskBufferPool.frame, o.frames j hj]
  rfl

theorem onlyFrame_set (frame : LRUFrame) : OnlyFrame i s { s with frames := set s.frames i frame } where
  frames _ := set_ne
  openList := rfl
  fds := rfl
  size := rfl
  frameList _ hj := .inl hj
  listMap _ _ hj := .inl hj
  numbered := id

theorem onlyFrame_modFrame (f : Frame → Frame) : OnlyFrame i s (s.modFrame i f) := onlyFrame_set _

theorem onlyFrame_setDirty (b : Bool) : OnlyFrame i s (s.setDirty i b) := onlyFrame_modFrame _

theorem onlyFrame_setPins (n : Nat) : OnlyFrame i s (s.setPins i n) := onlyFrame_modFrame _

theorem onlyFrame_setPage (p : Page) : OnlyFrame i s (s.setPage i p) := onlyFrame_modFrame _

theorem onlyFrame_setAllocated (b : Bool) : OnlyFrame i s (s.setAllocated i b) := onlyFrame_set _

theorem onlyFrame_setMap (k : Nat × PageNum) {v : Option Nat} (hv : ∀ j, v = some j → j = i) :
    OnlyFrame i s (s.setMap k v) where
  frames _ _ := rfl
  openList := rfl
  fds := rfl
  size := rfl
  frameList _ hj := .inl hj
  listMap k' j hj := by
    simp only [setMap] at hj
    split at hj
    · exact .inr (hv j hj)
    · exact .inl hj
  numbered := id

theorem onlyFrame_lruUpdate : OnlyFrame i s (s.lruUpdate i) where
  frames _ _ := rfl
  openList := rfl
  fds := rfl
  size := rfl
  frameList _ hj := (mem_cons.mp hj).elim .inr fun h => .inl (mem_of_mem_erase h)
  listMap _ _ hj := .inl hj
  numbered := id

theorem Quiet.refl : Quiet s s :=
  ⟨fun _ => rfl, fun _ => rfl, fun _ => rfl, fun _ => rfl, rfl, rfl, rfl, rfl, fun _ _ h => h, id⟩

theorem Quiet.trans (a : Quiet s s') (b : Quiet s' s'') : Quiet s s'' where
  pins j := (b.pins j).trans (a.pins j)
  fileDesc j := (b.fileDesc j).trans (a.fileDesc j)
  pageNum j := (b.pageNum j).trans (a.pageNum j)
  allocated j := (b.allocated j).trans (a.allocated j)
  openList := b.openList.trans a.openList
  fds := b.fds.trans a.fds
  size := b.size.trans a.size
  frameList := b.frameList.trans a.frameList
  listMap k j hj := a.listMap k j (b.listMap k j hj)
  numbered hs := b.numbered (a.numbered hs)

theorem quiet_modFrame {f : Frame → Frame} (hpins : ∀ x, (f x).pinCount = x.pinCount)
    (hdesc : ∀ x, (f x).fileDesc = x.fileDesc) (hnum : (f (s.frame i)).page.pageNum = (s.frame i).page.pageNum) :
    Quiet s (s.modFrame i f) where
  pins := modFrame_keeps Frame.pinCount (hpins _)
  fileDesc := modFrame_keeps Frame.fileDesc (hdesc _)
  pageNum := modFrame_keeps (fun x => x.page.pageNum) hnum
  allocated j := allocated_modFrame f j
  openList := rfl
  fds := rfl
  size := rfl
  frameList := rfl
  listMap _ _ h := h
  numbered := id

theorem quiet_setDirty (b : Bool) : Quiet s (s.setDirty i b) := quiet_modFrame (fun _ => rfl) (fun _ => rfl) rfl

theorem quiet_setPage {p : Page} (hnum : p.pageNum = (s.frame i).page.pageNum) : Quiet s (s.setPage i p) :=
  quiet_modFrame (fun _ => rfl) (fun _ => rfl) hnum

theorem quiet_eraseMap (k : Nat × PageNum) : Quiet s (s.setMap k none) := by
  refine ⟨fun _ => rfl, fun _ => rfl, fun _ => rfl, fun _ => rfl, rfl, rfl, rfl, rfl, fun k' j hj => ?_, id⟩
  simp only [setMap] at hj
  split at hj
  · cases hj
  · exact hj

theorem quiet_writeFile (name : String) (p : Page) : Quiet s (s.writeFile name p) := by
  refine ⟨fun _ => rfl, fun _ => rfl, fun _ => rfl, fun _ => rfl, rfl, rfl, rfl, rfl, fun _ _ h => h, fun hs n q => ?_⟩
  show (if n = name ∧ q = p.pageNum then p else s.files n q).pageNum = q
  split
  · rename_i hq
    exact hq.2.symm
  · exact hs n q

theorem onlyFrame_writeFile (name : String) (p : Page) : OnlyFrame i s (s.writeFile name p) :=
  ⟨fun _ _ => rfl, rfl, rfl, rfl, fun _ hj => .inl hj, fun _ _ hj => .inl hj, (quiet_writeFile name p).numbered⟩

/-! ### Writing a page, reading one, finding a frame for one -/

theorem flushBlock_cases (ok : Bool) (torn : PageData) (i : Nat) (s : DiskBufferPool) :
    s.fds (s.frame i).fileDesc = none ∧ s.flushBlock ok torn i = (.ioerrWrite, s) ∨
    ∃ name, s.fds (s.frame i).fileDesc = some name ∧
      (ok = true ∧ s.flushBlock ok torn i = (.success, (s.writeFile name (s.frame i).page).setDirty i false) ∨
        ok = false ∧ s.flushBlock ok torn i =
          (.ioerrWrite, s.writeFile name { (s.frame i).page with data := torn })) := by
  cases hfd : s.fds (s.frame i).fileDesc with
  | none => exact .inl ⟨rfl, by simp only [flushBlock, hfd]⟩
  | some name =>
    refine .inr ⟨name, rfl, ?_⟩
    cases ok with
    | true => exact .inl ⟨rfl, by simp [flushBlock, hfd]⟩
    | false => exact .inr ⟨rfl, by simp [flushBlock, hfd]⟩

theorem quiet_of_flush {ok : Bool} {torn : PageData} {rc : RC} (h : s.flushBlock ok torn i = (rc, s')) :
    Quiet s s' := by
  rcases flushBlock_cases ok torn i s with ⟨-, h'⟩ | ⟨name, -, ⟨-, h'⟩ | ⟨-, h'⟩⟩ <;>
    obtain rfl := (Prod.mk.inj (h'.symm.trans h)).2
  · exact Quiet.refl
  · exact (quiet_writeFile name _).trans (quiet_setDirty false)
  · exact quiet_writeFile name _

theorem onlyFrame_of_flush {ok : Bool} {torn : PageData} {rc : RC} (h : s.flushBlock ok torn i = (rc, s')) :
    OnlyFrame i s s' := by
  rcases flushBlock_cases ok torn i s with ⟨-, h'⟩ | ⟨name, -, ⟨-, h'⟩ | ⟨-, h'⟩⟩ <;>
    obtain rfl := (Prod.mk.inj (h'.symm.trans h)).2
  · exact OnlyFrame.refl
  · exact (onlyFrame_writeFile name _).trans (onlyFrame_setDirty false)
  · exact onlyFrame_writeFile name _

theorem loadPage_cases (io : Io) (hfd : s.fds fd = some name) :
    io.read = true ∧ s.loadPage io p fd i = (.success, s.setPage i (s.files name p)) ∨
    io.read = false ∧ s.loadPage io p fd i = (.ioerrRead, s.setPage i io.short) := by
  cases hread : io.read with
  | true => exact .inl ⟨rfl, by simp [loadPage, hfd, hread]⟩
  | false => exact .inr ⟨rfl, by simp [loadPage, hfd, hread]⟩

theorem findUnallocated_some (h : s.findUnallocated = some i) : i < s.size ∧ (s.frames i).allocated = false := by
  simp only [findUnallocated] at h
  split at h
  · rename_i hlt
    obtain rfl := Option.some.inj h
    exact ⟨hlt, by simpa using firstIdx_spec hlt⟩
  · cases h

theorem findUnallocated_none (h : s.findUnallocated = none) (hi : i < s.size) : (s.frames i).allocated = true := by
  simp only [findUnallocated] at h
  split at h
  · cases h
  · rename_i hge
    have hnot := not_of_lt_firstIdx (Nat.lt_of_lt_of_le hi (Nat.le_of_not_lt hge))
    simpa using hnot

theorem evict_cases (io : Io) (s : DiskBufferPool) : s.evict io = (none, s) ∨
    ∃ j ∈ s.frameList, (s.frame j).pinCount = 0 ∧
      ((s.frame j).dirty = false ∧
        s.evict io = (some j, s.setMap ((s.frame j).fileDesc, (s.frame j).page.pageNum) none) ∨
      (s.frame j).dirty = true ∧ ∃ rc s₂, (s.setMap ((s.frame j).fileDesc, (s.frame j).page.pageNum) none).flushBlock
          io.evictWrite io.torn j = (rc, s₂) ∧
        (rc = .success ∧ s.evict io = (some j, s₂) ∨ rc ≠ .success ∧ s.evict io = (none, s₂))) := by
  cases hfind : s.frameList.reverse.find? fun i => decide ((s.frame i).pinCount = 0) with
  | none => exact .inl (by simp only [evict, hfind])
  | some j =>
    refine .inr ⟨j, mem_reverse.mp (mem_of_find?_eq_some hfind), by simpa using find?_some hfind, ?_⟩
    cases hdirty : (s.frame j).dirty with
    | false => exact .inl ⟨rfl, by simp [evict, hfind, hdirty]⟩
    | true =>
      refine .inr ⟨rfl, ?_⟩
      rcases hflush : (s.setMap ((s.frame j).fileDesc, (s.frame j).page.pageNum) none).flushBlock
        io.evictWrite io.torn j with ⟨rc, s₂⟩
      refine ⟨rc, s₂, rfl, ?_⟩
      by_cases hrc : rc = .success
      · exact .inl ⟨hrc, by simp [evict, hfind, hdirty, hflush, hrc]⟩
      · exact .inr ⟨hrc, by simp [evict, hfind, hdirty, hflush]⟩

theorem evict_some (h : s.evict io = (some i, s')) :
    i ∈ s.frameList ∧ (s.frame i).pinCount = 0 ∧ Quiet s s' ∧ OnlyFrame i s s' := by
  rcases evict_cases io s with hnone | ⟨j, hmem, hpin, ⟨-, hrun⟩ | ⟨-, rc, s₂, hflush, ⟨-, hrun⟩ | ⟨-, hrun⟩⟩⟩
  · rw [hnone] at h
    cases h
  · obtain ⟨rfl, rfl⟩ : j = i ∧ _ = s' := by simpa using hrun.symm.trans h
    exact ⟨hmem, hpin, quiet_eraseMap _, onlyFrame_setMap _ fun _ hv => by cases hv⟩
  · obtain ⟨rfl, rfl⟩ : j = i ∧ s₂ = s' := by simpa using hrun.symm.trans h
    exact ⟨hmem, hpin, (quiet_eraseMap _).trans (quiet_of_flush hflush),
      (onlyFrame_setMap _ fun _ hv => by cases hv).trans (onlyFrame_of_flush hflush)⟩
  · cases hrun.symm.trans h

theorem evict_none (h : s.evict io = (none, s')) : Quiet s s' := by
  rcases evict_cases io s with hnone | ⟨j, -, -, ⟨-, hrun⟩ | ⟨-, rc, s₂, hflush, ⟨-, hrun⟩ | ⟨-, hrun⟩⟩⟩
  · obtain rfl : s = s' := by simpa using hnone.symm.trans h
    exact Quiet.refl
  · cases hrun.symm.trans h
  · cases hrun.symm.trans h
  · obtain rfl : s₂ = s' := by simpa using hrun.symm.trans h
    exact (quiet_eraseMap _).trans (quiet_of_flush hflush)

theorem onlyFrame_assign (fd : Nat) (p : PageNum) : OnlyFrame i s (s.assign fd p i) :=
  ((onlyFrame_modFrame _).trans (onlyFrame_setMap _ fun _ hv => (Option.some.inj hv).symm)).trans onlyFrame_lruUpdate

theorem frame_assign (fd : Nat) (p : PageNum) :
    (s.assign fd p i).frame i = { s.frame i with dirty := false, fileDesc := fd } := by
  show (s.modFrame i fun f => { f with dirty := false, fileDesc := fd }).frame i = _
  rw [frame_modFrame, if_pos rfl]

theorem allocated_assign (fd : Nat) (p : PageNum) (j : Nat) :
    ((s.assign fd p i).frames j).allocated = (s.frames j).allocated :=
  allocated_modFrame (s := s) (i := i) (fun f => { f with dirty := false, fileDesc := fd }) j

theorem alloc_cases (io : Io) (fd : Nat) (p : PageNum) (s : DiskBufferPool) :
    (∃ i, s.findUnallocated = some i ∧ s.alloc io fd p = (some i, (s.setAllocated i true).assign fd p i)) ∨
    s.findUnallocated = none ∧ ((∃ s₁, s.evict io = (none, s₁) ∧ s.alloc io fd p = (none, s₁)) ∨
      ∃ i s₁, s.evict io = (some i, s₁) ∧ s.alloc io fd p = (some i, s₁.assign fd p i)) := by
  cases hfind : s.findUnallocated with
  | some i => exact .inl ⟨i, rfl, by simp only [alloc, hfind]⟩
  | none =>
    refine .inr ⟨rfl, ?_⟩
    rcases hevict : s.evict io with ⟨r, s₁⟩
    cases r with
    | none => exact .inl ⟨s₁, rfl, by simp only [alloc, hfind, hevict]⟩
    | some i => exact .inr ⟨i, s₁, rfl, by simp only [alloc, hfind, hevict]⟩

theorem alloc_none (h : s.alloc io fd p = (none, s')) : Quiet s s' := by
  rcases alloc_cases io fd p s with ⟨i, -, hrun⟩ | ⟨-, ⟨s₁, hevict, hrun⟩ | ⟨i, s₁, -, hrun⟩⟩
  · cases hrun.symm.trans h
  · obtain rfl : s₁ = s' := by simpa using hrun.symm.trans h
    exact evict_none hevict
  · cases hrun.symm.trans h

theorem alloc_some (hlist : ∀ j ∈ s.frameList, j < s.size) (h : s.alloc io fd p = (some i, s')) :
    i < s.size ∧ ((s.frames i).allocated = false ∨ (s.frame i).pinCount = 0) ∧ OnlyFrame i s s' ∧
      (s'.frames i).allocated = true ∧ (s'.frame i).pinCount = (s.frame i).pinCount ∧ (s'.frame i).fileDesc = fd ∧
      (s'.frame i).dirty = false := by
  rcases alloc_cases io fd p s with ⟨j, hfind, hrun⟩ | ⟨hfind, ⟨s₁, -, hrun⟩ | ⟨j, s₁, hevict, hrun⟩⟩
  · obtain ⟨rfl, rfl⟩ : j = i ∧ _ = s' := by simpa using hrun.symm.trans h
    obtain ⟨hlt, hfree⟩ := findUnallocated_some hfind
    refine ⟨hlt, .inl hfree, (onlyFrame_setAllocated true).trans (onlyFrame_assign fd p), ?_, ?_⟩
    · rw [allocated_assign, allocated_setAllocated, if_pos rfl]
    · rw [frame_assign, frame_setAllocated]
      exact ⟨rfl, rfl, rfl⟩
  · cases hrun.symm.trans h
  · obtain ⟨rfl, rfl⟩ : j = i ∧ _ = s' := by simpa using hrun.symm.trans h
    obtain ⟨hmem, hpin, hquiet, honly⟩ := evict_some hevict
    have hlt := hlist j hmem
    refine ⟨hlt, .inr hpin, honly.trans (onlyFrame_assign fd p), ?_, ?_⟩
    · rw [allocated_assign, hquiet.allocated]
      exact findUnallocated_none hfind hlt
    · rw [frame_assign]
      exact ⟨hquiet.pins j, rfl, rfl⟩

/-! ### Forcing the pages of a file out -/

theorem disposeBlock_cases (io : Io) (hpin : (s.frame i).pinCount = 0) :
    s.disposeBlock io i = (.success, (s.setDirty i false).setAllocated i false) ∨
    ∃ rc s₁, s.flushBlock io.disposeWrite io.torn i = (rc, s₁) ∧
      ((s.disposeBlock io i).2 = (s₁.setDirty i false).setAllocated i false ∨ (s.disposeBlock io i).2 = s₁) := by
  cases hdirty : (s.frame i).dirty with
  | false => exact .inl (by simp [disposeBlock, hpin, hdirty])
  | true =>
    rcases hflush : s.flushBlock io.disposeWrite io.torn i with ⟨rc, s₁⟩
    refine .inr ⟨rc, s₁, rfl, ?_⟩
    cases rc <;> simp [disposeBlock, hpin, hdirty, hflush]

theorem disposeBlock_spec (io : Io) (hpin : (s.frame i).pinCount = 0) :
    OnlyFrame i s (s.disposeBlock io i).2 ∧ ((s.disposeBlock io i).2.frame i).pinCount = 0 := by
  have hgive : ∀ t : DiskBufferPool, (t.frame i).pinCount = 0 →
      OnlyFrame i t ((t.setDirty i false).setAllocated i false) ∧
        (((t.setDirty i false).setAllocated i false).frame i).pinCount = 0 := fun t ht =>
    ⟨(onlyFrame_setDirty false).trans (onlyFrame_setAllocated false), by simpa [setDirty] using ht⟩
  rcases disposeBlock_cases io hpin with hrun | ⟨rc, s₁, hflush, hrun | hrun⟩ <;> rw [hrun]
  · exact hgive s hpin
  · obtain ⟨honly, hpin'⟩ := hgive s₁ (((quiet_of_flush hflush).pins i).trans hpin)
    exact ⟨(onlyFrame_of_flush hflush).trans honly, hpin'⟩
  · exact ⟨onlyFrame_of_flush hflush, ((quiet_of_flush hflush).pins i).trans hpin⟩

/-- The frames of `fd` among `is` are written where they are dirty, and are no longer allocated. -/
structure Forced (fd : Nat) (name : String) (is : List Nat) (s s' : DiskBufferPool) : Prop where
  frames : ∀ j, (j ∈ is → (s.frame j).fileDesc ≠ fd) → s'.frames j = s.frames j
  released : ∀ j ∈ is, (s.frame j).fileDesc = fd → (s'.frames j).allocated = false
  allocated : ∀ j, (s'.frames j).allocated = true → (s.frames j).allocated = true
  pins : ∀ j, (s'.frame j).pinCount = (s.frame j).pinCount
  fileDesc : ∀ j, (s'.frame j).fileDesc = (s.frame j).fileDesc
  page : ∀ j, (s'.frame j).page = (s.frame j).page
  openList : s'.openList = s.openList
  fds : s'.fds = s.fds
  size : s'.size = s.size
  frameList : s'.frameList = s.frameList
  listMap : s'.listMap = s.listMap
  /-- A page on disk changes only to what one of the frames holds. -/
  files : ∀ n q, s'.files n q = s.files n q ∨ n = name ∧ ∃ j ∈ is, (s.frames j).allocated = true ∧
    (s.frame j).fileDesc = fd ∧ (s.frame j).dirty = true ∧ (s.frame j).page.pageNum = q ∧
      s'.files n q = (s.frame j).page
  /-- A dirty page that is in one frame only is written. -/
  written : ∀ j ∈ is, (s.frames j).allocated = true → (s.frame j).fileDesc = fd → (s.frame j).dirty = true →
    (∀ k, (s.frames k).allocated = true → (s.frame k).fileDesc = fd →
      (s.frame k).page.pageNum = (s.frame j).page.pageNum → k = j) →
    s'.files name (s.frame j).page.pageNum = (s.frame j).page

namespace Forced
variable {fd : Nat} {name : String} {is : List Nat}

theorem nil : Forced fd name [] s s where
  frames _ _ := rfl
  released _ hj := nomatch hj
  allocated _ h := h
  pins _ := rfl
  fileDesc _ := rfl
  page _ := rfl
  openList := rfl
  fds := rfl
  size := rfl
  frameList := rfl
  listMap := rfl
  files _ _ := .inl rfl
  written _ hj := nomatch hj

theorem numbered (h : Forced fd name is s s') (hs : s.Numbered) : s'.Numbered := by
  intro n q
  rcases h.files n q with hsame | ⟨-, j, -, -, -, -, hpage, hj⟩
  · rw [hsame, hs]
  · rw [hj, hpage]

theorem skip (h : Forced fd name is s s')
    (hskip : (s.frames i).allocated = false ∨ (s.frame i).fileDesc ≠ fd) : Forced fd name (i :: is) s s' := by
  refine { h with
    frames := fun j hj => h.frames j fun hmem => hj (.tail _ hmem), released := fun j hj hfd => ?_
    files := fun n q => (h.files n q).imp_right fun ⟨hn, j, hj, hrest⟩ => ⟨hn, j, .tail _ hj, hrest⟩
    written := fun j hj hallocated hfd => ?_ }
  · rcases mem_cons.mp hj with rfl | hmem
    · cases hallocated : (s'.frames j).allocated with
      | false => rfl
      | true => exact hskip.elim (fun hfree => by rw [h.allocated j hallocated] at hfree; cases hfree) (absurd hfd)
    · exact h.released j hmem hfd
  · rcases mem_cons.mp hj with rfl | hmem
    · exact hskip.elim (fun hfree => by rw [hallocated] at hfree; cases hfree) (absurd hfd)
    · exact h.written j hmem hallocated hfd

theorem release {s₁ : DiskBufferPool} (honly : OnlyFrame i s s₁) (hquiet : Quiet s s₁)
    (hpage : (s₁.frame i).page = (s.frame i).page) (hlists : s₁.frameList = s.frameList ∧ s₁.listMap = s.listMap)
    (hallocated : (s.frames i).allocated = true) (hfd : (s.frame i).fileDesc = fd)
    (hfiles : (s.frame i).dirty = false ∧ s₁.files = s.files ∨
      (s.frame i).dirty = true ∧ s₁.files = (s.writeFile name (s.frame i).page).files)
    (h : Forced fd name is (s₁.setAllocated i false) s') : Forced fd name (i :: is) s s' := by
  set s₂ := s₁.setAllocated i false
  have hframe : ∀ j, s₂.frame j = s₁.frame j := frame_setAllocated false
  have hother : ∀ j, j ≠ i → s₂.frames j = s.frames j := fun j hj =>
    ((onlyFrame_setAllocated false).frames j hj).trans (honly.frames j hj)
  have hfree : (s₂.frames i).allocated = false := by rw [allocated_setAllocated, if_pos rfl]
  -- What is still allocated after the step is another frame, as it was before.
  have hleft : ∀ j, (s₂.frames j).allocated = true →
      j ≠ i ∧ s₂.frames j = s.frames j := fun j hj => by
    have hne : j ≠ i := fun heq => by
      rw [heq, hfree] at hj
      cases hj
    exact ⟨hne, hother j hne⟩
  have hother' : ∀ j, j ≠ i → s₂.frame j = s.frame j := fun j hj => by
    rw [frame, hother j hj]
    rfl
  refine ⟨fun j hj => ?_, fun j hj hjfd => ?_, fun j hj => ?_, fun j => ?_, fun j => ?_, fun j => ?_,
    h.openList.trans hquiet.openList, h.fds.trans hquiet.fds, h.size.trans hquiet.size,
    h.frameList.trans hlists.1, h.listMap.trans hlists.2, fun n q => ?_, fun j hj hj' hjfd hdirty huniq => ?_⟩
  · have hne : j ≠ i := fun heq => hj (heq ▸ .head _) (heq ▸ hfd)
    rw [h.frames j fun hmem => by rw [hother' j hne]; exact hj (.tail _ hmem), hother j hne]
  · rcases mem_cons.mp hj with rfl | hmem
    · cases hcase : (s'.frames j).allocated with
      | false => rfl
      | true => rw [h.allocated j hcase] at hfree; cases hfree
    · exact h.released j hmem (by rw [hframe, hquiet.fileDesc]; exact hjfd)
  · have hj₁ := h.allocated j hj
    rwa [(hleft j hj₁).2] at hj₁
  · rw [h.pins, hframe, hquiet.pins]
  · rw [h.fileDesc, hframe, hquiet.fileDesc]
  · rw [h.page, hframe]
    by_cases hji : j = i
    · rw [hji, hpage]
    · rw [honly.frame hji]
  · rcases h.files n q with hsame | ⟨hn, j, hmem, hj, hjfd, hdirty, hnum, hrun⟩
    · rw [hsame]
      rcases hfiles with ⟨-, hfiles⟩ | ⟨hdirty, hfiles⟩
      · exact .inl (congrFun (congrFun hfiles n) q)
      · by_cases hq : n = name ∧ q = (s.frame i).page.pageNum
        · refine .inr ⟨hq.1, i, .head _, hallocated, hfd, hdirty, hq.2.symm, ?_⟩
          show s₁.files n q = _
          rw [hfiles]
          exact if_pos hq
        · refine .inl ?_
          show s₁.files n q = _
          rw [hfiles]
          exact if_neg hq
    · obtain ⟨hne, hjs⟩ := hleft j hj
      rw [hjs] at hj
      rw [hother' j hne] at hjfd hdirty hnum hrun
      exact .inr ⟨hn, j, .tail _ hmem, hj, hjfd, hdirty, hnum, hrun⟩
  · by_cases hji : j = i
    · subst hji
      have hwritten : s₁.files name (s.frame j).page.pageNum = (s.frame j).page := by
        rcases hfiles with ⟨hclean, -⟩ | ⟨-, hfiles⟩
        · rw [hclean] at hdirty
          cases hdirty
        · rw [hfiles]
          exact if_pos ⟨rfl, rfl⟩
      rcases h.files name (s.frame j).page.pageNum with hsame | ⟨-, k, -, hk, hkfd, -, hnum, -⟩
      · exact hsame.trans hwritten
      · obtain ⟨hne, hks⟩ := hleft k hk
        rw [hks] at hk
        rw [hother' k hne] at hkfd hnum
        exact absurd (huniq k hk hkfd hnum) hne
    · have hmem := (mem_cons.mp hj).resolve_left hji
      have huniq' : ∀ k, (s₂.frames k).allocated = true →
          (s₂.frame k).fileDesc = fd →
          (s₂.frame k).page.pageNum = (s₂.frame j).page.pageNum →
          k = j := fun k hk hkfd hnum => by
        obtain ⟨hne, hks⟩ := hleft k hk
        rw [hks] at hk
        rw [hother' k hne] at hkfd hnum
        rw [hother' j hji] at hnum
        exact huniq k hk hkfd hnum
      have hrun := h.written j hmem (by rwa [hother j hji]) (by rwa [hother' j hji]) (by rwa [hother' j hji]) huniq'
      rwa [hother' j hji] at hrun

end Forced

theorem forceFrom_spec (hwrite : ∀ i, io.forceWrite i = true) :
    ∀ (is : List Nat) {s : DiskBufferPool}, s.fds fd = some name →
      ∃ s', s.forceFrom io fd is = (.success, s') ∧ Forced fd name is s s' := by
  intro is
  induction is with
  | nil => exact fun {s} _ => ⟨s, rfl, Forced.nil⟩
  | cons i is ih =>
    intro s hfds
    by_cases hskip : (s.frames i).allocated = false ∨ (s.frame i).fileDesc ≠ fd
    · obtain ⟨s', hrun, hforced⟩ := ih hfds
      exact ⟨s', by simp [forceFrom, hskip, hrun], hforced.skip hskip⟩
    · obtain ⟨hallocated, hfd⟩ : (s.frames i).allocated = true ∧ (s.frame i).fileDesc = fd := by simpa using hskip
      cases hdirty : (s.frame i).dirty with
      | false =>
        obtain ⟨s', hrun, hforced⟩ := ih (s := s.setAllocated i false) hfds
        exact ⟨s', by simp [forceFrom, hallocated, hfd, hdirty, hrun],
          Forced.release OnlyFrame.refl Quiet.refl rfl ⟨rfl, rfl⟩ hallocated hfd (.inl ⟨hdirty, rfl⟩) hforced⟩
      | true =>
        have hflush : s.flushBlock (io.forceWrite i) io.torn i =
            (.success, (s.writeFile name (s.frame i).page).setDirty i false) := by
          simp [flushBlock, hfd, hfds, hwrite]
        obtain ⟨s', hrun, hforced⟩ :=
          ih (s := ((s.writeFile name (s.frame i).page).setDirty i false).setAllocated i false) hfds
        refine ⟨s', by simp [forceFrom, hallocated, hfd, hdirty, hflush, hrun],
          Forced.release (onlyFrame_of_flush hflush) (quiet_of_flush hflush) ?_ ⟨rfl, rfl⟩ hallocated hfd
            (.inr ⟨hdirty, rfl⟩) hforced⟩
        rw [setDirty, frame_modFrame, if_pos rfl]
        rfl

/-! ### The calls of a client -/

theorem checkFileId_some (h : s.checkFileId k = some file) : s.openList k = some file := by
  unfold checkFileId at h
  split at h
  · exact h
  · cases h

theorem set_openList {l : Nat → Option BPFileHandle} {slot : Nat} {v : Option BPFileHandle}
    (h : set l slot v k = some file) : k = slot ∧ v = some file ∨ k ≠ slot ∧ l k = some file := by
  by_cases hk : k = slot
  · rw [hk, set_same] at h
    exact .inl ⟨hk, h⟩
  · rw [set_ne hk] at h
    exact .inr ⟨hk, h⟩

theorem openSlot_free (h : s.openSlot ≠ maxOpenFile) : s.openSlot < maxOpenFile ∧ s.openList s.openSlot = none := by
  have hlt : s.openSlot < maxOpenFile := Nat.lt_of_le_of_ne (firstIdx_le _ _) h
  have hnone := firstIdx_spec (p := fun i => (s.openList i).isNone) hlt
  exact ⟨hlt, Option.isNone_iff_eq_none.mp hnone⟩

theorem getThisPage_cases (io : Io) (hlist : ∀ j ∈ s.frameList, j < s.size) (hk : s.checkFileId k = some file)
    (hcheck : s.checkPageNum p file = true) (hfd : s.fds file.fileDesc = some name) :
    (∃ i, s.listMap (file.fileDesc, p) = some i ∧ s.getThisPage io k p = (.ok i, (s.lruUpdate i).pin i)) ∨
    s.listMap (file.fileDesc, p) = none ∧
      ((∃ s₁, s.alloc io file.fileDesc p = (none, s₁) ∧ s.getThisPage io k p = (.error .genericError, s₁)) ∨
      ∃ i s₁, s.alloc io file.fileDesc p = (some i, s₁) ∧
        (io.read = true ∧ s.getThisPage io k p = (.ok i, (s₁.setPins i 1).setPage i (s₁.files name p)) ∨
        io.read = false ∧ s.getThisPage io k p = (.error .ioerrRead,
          ((((s₁.setPins i 1).setPage i io.short).setPins i 0).disposeBlock io i).2))) := by
  cases hmap : s.listMap (file.fileDesc, p) with
  | some i => exact .inl ⟨i, rfl, by simp [getThisPage, hk, hcheck, get, hmap]⟩
  | none =>
    refine .inr ⟨rfl, ?_⟩
    rcases halloc : s.alloc io file.fileDesc p with ⟨r, s₁⟩
    cases r with
    | none => exact .inl ⟨s₁, rfl, by simp [getThisPage, hk, hcheck, get, hmap, halloc]⟩
    | some i =>
      have hfd₁ : (s₁.setPins i 1).fds file.fileDesc = some name :=
        (congrFun (alloc_some hlist halloc).2.2.1.fds _).trans hfd
      refine .inr ⟨i, s₁, rfl, ?_⟩
      rcases loadPage_cases io (p := p) (i := i) hfd₁ with ⟨hread, hload⟩ | ⟨hread, hload⟩
      · exact .inl ⟨hread, by simp only [getThisPage, hk, hcheck, get, hmap, halloc, hload]; rfl⟩
      · exact .inr ⟨hread, by simp only [getThisPage, hk, hcheck, get, hmap, halloc, hload]; rfl⟩

def readied (fd j : Nat) (s : DiskBufferPool) : DiskBufferPool :=
  ((s.setDirty j false).modFrame j fun f => { f with fileDesc := fd }).setPins j 1

theorem onlyFrame_readied (fd : Nat) : OnlyFrame i s (s.readied fd i) :=
  ((onlyFrame_setDirty false).trans (onlyFrame_modFrame _)).trans (onlyFrame_setPins 1)

theorem frame_readied (fd : Nat) :
    (s.readied fd i).frame i = { s.frame i with dirty := false, fileDesc := fd, pinCount := 1 } := by
  simp [readied, setPins, setDirty]

theorem allocated_readied (fd j : Nat) : ((s.readied fd i).frames j).allocated = (s.frames j).allocated := by
  simp [readied, setPins, setDirty]

def setFd (fd : Nat) (v : Option String) (s : DiskBufferPool) : DiskBufferPool := { s with fds := set s.fds fd v }

theorem openFile_cases (io : Io) (name : String) (hlist : ∀ j ∈ s.frameList, j < s.size) :
    (s.openFile io name).2 = s ∨
    ∃ fd, io.openFd = some fd ∧ (∀ k file, k < maxOpenFile → s.openList k = some file → file.fileName ≠ name) ∧
      s.openSlot < maxOpenFile ∧ s.openList s.openSlot = none ∧
      ((∃ s₁, (s.setFd fd (some name)).alloc io fd 0 = (none, s₁) ∧ (s.openFile io name).2 = s₁.setFd fd none) ∨
      ∃ j s₁, (s.setFd fd (some name)).alloc io fd 0 = (some j, s₁) ∧
        (io.read = true ∧ (s.openFile io name).2 = { (s₁.readied fd j).setPage j (s₁.files name 0) with
          openList := set s₁.openList s.openSlot (some ⟨name, fd, j⟩) } ∨
        io.read = false ∧ (s.openFile io name).2 =
          (((((s₁.readied fd j).setPage j io.short).setPins j 0).disposeBlock io j).2).setFd fd none)) := by
  by_cases hname : firstIdx maxOpenFile (fun i => (s.openList i).any fun f => decide (f.fileName = name)) < maxOpenFile
  · exact .inl (by simp only [openFile, if_pos hname])
  by_cases hslot : s.openSlot = maxOpenFile
  · exact .inl (by simp only [openFile, if_neg hname, if_pos hslot])
  cases hfd : io.openFd with
  | none => exact .inl (by simp only [openFile, if_neg hname, if_neg hslot, hfd])
  | some fd =>
    have hother : ∀ k file, k < maxOpenFile → s.openList k = some file → file.fileName ≠ name := by
      intro k file hk hfile
      have hnot := not_of_lt_firstIdx (Nat.lt_of_lt_of_le hk (Nat.le_of_not_lt hname))
      simpa [hfile] using hnot
    obtain ⟨hlt, hfree⟩ := openSlot_free hslot
    refine .inr ⟨fd, rfl, hother, hlt, hfree, ?_⟩
    rcases halloc : (s.setFd fd (some name)).alloc io fd 0 with ⟨r, s₁⟩
    have hrun := halloc
    rw [setFd] at hrun
    cases r with
    | none => exact .inl ⟨s₁, rfl, by simp only [openFile, if_neg hname, if_neg hslot, hfd, hrun, setFd]⟩
    | some j =>
      have hfd₁ : (s₁.readied fd j).fds fd = some name :=
        (congrFun (alloc_some (s := s.setFd fd (some name)) hlist halloc).2.2.1.fds _).trans (set_same _ _ _)
      refine .inr ⟨j, s₁, rfl, ?_⟩
      rcases loadPage_cases io (p := 0) (i := j) hfd₁ with ⟨hread, hload⟩ | ⟨hread, hload⟩ <;> rw [readied] at hload
      · exact .inl ⟨hread, by simp only [openFile, if_neg hname, if_neg hslot, hfd, hrun, hload]; rfl⟩
      · exact .inr ⟨hread, by simp only [openFile, if_neg hname, if_neg hslot, hfd, hrun, hload]; rfl⟩

/-- The header when `allocate_page` has added a page, and the frame with the page in it. -/
def extended (file : BPFileHandle) (i : Nat) (n : PageNum) (s : DiskBufferPool) : DiskBufferPool :=
  let s₂ := (s.setPage file.hdrFrame (s.header file).extend).setDirty file.hdrFrame true
  (s₂.setPins i 1).setPage i (Page.zero n)

theorem modFrame_modFrame (f g : Frame → Frame) : (s.modFrame i f).modFrame i g = s.modFrame i (g ∘ f) := by
  simp only [modFrame, set_same]
  congr 1
  funext j
  by_cases h : j = i
  · rw [h, set_same, set_same]
    rfl
  · rw [set_ne h, set_ne h, set_ne h]

theorem modFrame_take (hij : j ≠ i) (fd : Nat) (p : PageNum) (f : Frame → Frame) :
    ((s.setAllocated i true).assign fd p i).modFrame j f = ((s.modFrame j f).setAllocated i true).assign fd p i := by
  have hframes : (((s.setAllocated i true).assign fd p i).modFrame j f).frames =
      (((s.modFrame j f).setAllocated i true).assign fd p i).frames := by
    funext l
    refine frames_eq ?_ ?_
    · by_cases hl : l = i
      · subst hl
        rw [frame_modFrame, if_neg hij.symm, frame_assign, frame_assign, frame_setAllocated, frame_setAllocated,
          frame_modFrame, if_neg hij.symm]
      · rw [(onlyFrame_assign fd p).frame hl, frame_setAllocated, frame_modFrame, frame_modFrame,
          (onlyFrame_assign fd p).frame hij, (onlyFrame_assign fd p).frame hl, frame_setAllocated, frame_setAllocated]
    · rw [allocated_modFrame, allocated_assign, allocated_assign, allocated_setAllocated, allocated_setAllocated,
        allocated_modFrame]
  exact congrArg (fun frames => { ((s.setAllocated i true).assign fd p i) with frames := frames }) hframes

theorem allocatePage_cases (io : Io) (hk : s.checkFileId k = some file) :
    (∃ p, s.freePage file = some p ∧
      s.allocatePage io k = (s.setPage file.hdrFrame ((s.header file).takeFree p)).getThisPage io k p) ∨
    s.freePage file = none ∧
      ((∃ s₁, s.alloc io file.fileDesc (s.header file).pageCount = (none, s₁) ∧
        s.allocatePage io k = (.error .genericError, s₁)) ∨
      ∃ i s₁, s.alloc io file.fileDesc (s.header file).pageCount = (some i, s₁) ∧ (i ≠ file.hdrFrame →
        0 ≤ (s₁.header file).pageCount → (s₁.header file).pageCount < bitmapPages →
        ∃ rc s₂, (s₁.extended file i (s₁.header file).pageCount).flushBlock io.extendWrite io.torn i = (rc, s₂) ∧
          s.allocatePage io k = (if rc = .success then .ok i else .error rc, s₂))) := by
  cases hfree : s.freePage file with
  | some p => exact .inl ⟨p, rfl, by simp only [allocatePage, hk, hfree]⟩
  | none =>
    refine .inr ⟨rfl, ?_⟩
    rcases halloc : s.alloc io file.fileDesc (s.header file).pageCount with ⟨r, s₁⟩
    cases r with
    | none => exact .inl ⟨s₁, rfl, by simp only [allocatePage, hk, hfree, halloc]⟩
    | some i =>
      refine .inr ⟨i, s₁, rfl, fun hne hlo hhi => ?_⟩
      rcases hflush : (s₁.extended file i (s₁.header file).pageCount).flushBlock io.extendWrite io.torn i with ⟨rc, s₂⟩
      refine ⟨rc, s₂, rfl, ?_⟩
      -- The number is read back from the header, which counts the new page already.
      have hcount :
          ((((s₁.setPage file.hdrFrame (s₁.header file).extend).setDirty file.hdrFrame true).setPins i 1).setPage i
            (Page.zero 0)).header file = (s₁.header file).extend := by
        simp [header, setPage, setPins, setDirty, Ne.symm hne]
      have hpage : ∀ t : DiskBufferPool, ((t.setPage i (Page.zero 0)).modFrame i fun f =>
          { f with page := { f.page with pageNum := (s₁.header file).extend.pageCount - 1 } }) =
            t.setPage i (Page.zero (s₁.header file).pageCount) := by
        intro t
        rw [Page.pageCount_extend hlo hhi, setPage, modFrame_modFrame, Int.add_sub_cancel]
        rfl
      simp only [allocatePage, hk, hfree, halloc, hcount, hpage]
      have hext : (((s₁.setPage file.hdrFrame (s₁.header file).extend).setDirty file.hdrFrame true).setPins i 1).setPage
          i (Page.zero (s₁.header file).pageCount) = s₁.extended file i (s₁.header file).pageCount := rfl
      rw [hext, hflush]
      cases rc <;> rfl

theorem disposePage_cases (hk : s.checkFileId k = some file) :
    (∃ rc, s.disposePage k p = (.error rc, s)) ∨
    s.checkPageNum p file = true ∧ ∃ s₁, (s.listMap (file.fileDesc, p) = none ∧ s₁ = s ∨
        ∃ i, s.listMap (file.fileDesc, p) = some i ∧ (s.frame i).pinCount = 0 ∧ s₁ = s.setAllocated i false) ∧
      s.disposePage k p = (.ok (), (s₁.setDirty file.hdrFrame true).setPage file.hdrFrame
        ((s.header file).giveUp p.toNat)) := by
  cases hcheck : s.checkPageNum p file with
  | false => exact .inl ⟨.bufferpoolInvalidPageNum, by simp [disposePage, hk, hcheck]⟩
  | true =>
    cases hmap : s.listMap (file.fileDesc, p) with
    | none => exact .inr ⟨rfl, s, .inl ⟨rfl, rfl⟩, by simp [disposePage, hk, hcheck, disposeCached, hmap]⟩
    | some i =>
      by_cases hpin : (s.frame i).pinCount = 0
      · refine .inr ⟨rfl, s.setAllocated i false, .inr ⟨i, rfl, hpin, rfl⟩, ?_⟩
        simp [disposePage, hk, hcheck, disposeCached, hmap, hpin, header]
      · exact .inl ⟨.bufferpoolPagePinned, by simp [disposePage, hk, hcheck, disposeCached, hmap, hpin]⟩

end DiskBufferPool

end MiniOb
