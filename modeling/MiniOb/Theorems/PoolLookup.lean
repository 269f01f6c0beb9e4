import MiniOb.Theorems.PoolReads

/-! # What a lookup finds

`close_file` and `dispose_page` give frames back and leave their entries in `list_map`. A history beside the pool
records the keys (descriptor and page number) that such entries may be left for: those that a frame had when it was
given back, until a frame is allocated for the key again. Every other entry leads to the frame that has its page, so a
run whose calls look up no key that was left reads what was last written. -/

namespace MiniOb
open Slots DiskBufferPool PoolSystem

/-- Frame `i` is allocated to the page of the key. -/
def DiskBufferPool.HasKey (s : DiskBufferPool) (i : Nat) (key : Nat × PageNum) : Prop :=
  (s.frames i).allocated = true ∧ ((s.frame i).fileDesc, (s.frame i).page.pageNum) = key

instance (s : DiskBufferPool) (i : Nat) (key : Nat × PageNum) : Decidable (s.HasKey i key) :=
  inferInstanceAs (Decidable (_ ∧ _))

def DiskBufferPool.cachesKey (s : DiskBufferPool) (key : Nat × PageNum) : Bool :=
  (List.range s.size).any fun i => decide (s.HasKey i key)

/-- The calls that give frames back. -/
def PoolAct.givesBack : PoolAct → Bool
  | .closeFile _ _ | .disposePage _ _ | .flushAllPages _ _ => true
  | _ => false

/-- The system of the pool and its clients, with the keys that entries may have been left for. -/
structure PoolHistory where
  sys : PoolSystem
  left : Nat × PageNum → Bool

namespace PoolHistory

def step (h : PoolHistory) (a : PoolAct) : PoolHistory where
  sys := h.sys.step a
  left key := (h.left key || a.givesBack && h.sys.pool.cachesKey key) && !(h.sys.step a).pool.cachesKey key

def start (size : Nat) (raw : Nat → Frame) (files : String → PageNum → Page) : PoolHistory :=
  ⟨init size raw files, fun _ => false⟩

/-- No entry is left for the page, and a frame that has it takes one more pin. -/
def LookupOk (h : PoolHistory) (file : BPFileHandle) (p : PageNum) : Prop :=
  (0 ≤ p ∧ p < bitmapPages) ∧ h.left (file.fileDesc, p) = false ∧
    ∀ i < h.sys.pool.size, h.sys.pool.HasKey i (file.fileDesc, p) → (h.sys.pool.frame i).pinCount + 1 < 4294967296

instance (h : PoolHistory) (file : BPFileHandle) (p : PageNum) : Decidable (h.LookupOk file p) :=
  inferInstanceAs (Decidable (_ ∧ _ ∧ _))

/-- The condition on a call. Files are read and written without errors. Clients write and unpin through open handles,
    and mark what they have changed before they unpin it. -/
def CallOk (h : PoolHistory) : PoolAct → Prop
  | .createFile failure name => failure = none → ∀ k file, h.sys.pool.openList k = some file → file.fileName ≠ name
  -- The system does not hand out a descriptor that is open; it may have been open before.
  | .openFile io _ => io.Succeeds ∧ ∀ fd ∈ io.openFd, h.sys.pool.fds fd = none
  -- Only the header of the file is pinned, by the file itself.
  | .closeFile io k => io.Succeeds ∧ ∀ file ∈ h.sys.pool.checkFileId k, ∀ i, (h.sys.pool.frames i).allocated = true →
      (h.sys.pool.frame i).fileDesc = file.fileDesc →
        (h.sys.pool.frame i).pinCount = if i = file.hdrFrame then 1 else 0
  | .getThisPage io k p => io.Succeeds ∧ ∀ file ∈ h.sys.pool.checkFileId k, h.LookupOk file p
  -- A free page is taken while the header is dirty anyway; the header has room for a new one, which no frame has yet.
  | .allocatePage io k => io.Succeeds ∧ ∀ file ∈ h.sys.pool.checkFileId k,
      (∀ p ∈ h.sys.pool.freePage file, h.LookupOk file p ∧ (h.sys.pool.frame file.hdrFrame).dirty = true) ∧
      (h.sys.pool.freePage file = none →
        (0 ≤ (h.sys.pool.header file).pageCount ∧ (h.sys.pool.header file).pageCount < bitmapPages) ∧
        ∀ i, ¬h.sys.pool.HasKey i (file.fileDesc, (h.sys.pool.header file).pageCount))
  | .write k _ => ∀ handle ∈ h.sys.handles[k]?, handle.isOpen = true
  | .markDirty _ => True
  | .unpinPage k => ∀ handle ∈ h.sys.handles[k]?, handle.isOpen = true ∧ handle.changed = false
  | .disposePage k p => (0 ≤ p ∧ p < bitmapPages) ∧
      ∀ file ∈ h.sys.pool.checkFileId k, h.left (file.fileDesc, p) = false
  | .flushAllPages _ k => h.sys.pool.checkFileId k = none

end PoolHistory

/-! ### What a call does to the entries -/

section Remaps
variable {s s' s₁ : DiskBufferPool} {hs : List PageHandle} {last : String → PageNum → Page} {i k fd : Nat} {p : PageNum}
  {io : Io} {file : BPFileHandle} {key : Nat × PageNum}

/-- An entry is one that leads to the frame of its key, or an old one that did not do so before. -/
def Remaps (s s' : DiskBufferPool) : Prop :=
  ∀ key i, s'.listMap key = some i → s'.HasKey i key ∨ s.listMap key = some i ∧ ¬s.HasKey i key

theorem Remaps.of_keeps (hmap : ∀ key i, s'.listMap key = some i → s.listMap key = some i)
    (hkeep : ∀ i key, s.HasKey i key → s'.HasKey i key) : Remaps s s' := by
  intro key i hi
  by_cases hkey : s.HasKey i key
  · exact .inl (hkeep i key hkey)
  · exact .inr ⟨hmap key i hi, hkey⟩

theorem DiskBufferPool.Quiet.hasKey (hq : Quiet s s') : s'.HasKey i key ↔ s.HasKey i key := by
  rw [HasKey, HasKey, hq.allocated, hq.fileDesc, hq.pageNum]

theorem DiskBufferPool.Quiet.remaps (hq : Quiet s s') : Remaps s s' := .of_keeps hq.listMap fun _ _ => hq.hasKey.mpr

theorem Remaps.after_quiet (hq : Quiet s s₁) (h : Remaps s₁ s') : Remaps s s' := by
  intro key i hi
  exact (h key i hi).imp_right fun ⟨hmap, hkey⟩ => ⟨hq.listMap key i hmap, fun hold => hkey (hq.hasKey.mpr hold)⟩

theorem remaps_modFrame (i : Nat) (f : Frame → Frame)
    (hf : ∀ x, (f x).fileDesc = x.fileDesc ∧ (f x).page.pageNum = x.page.pageNum) : Remaps s (s.modFrame i f) := by
  refine .of_keeps (fun _ _ => id) fun j key hkey => ?_
  rw [HasKey, allocated_modFrame, frame_modFrame]
  split
  · rename_i heq
    rw [(hf _).1, (hf _).2, ← heq]
    exact hkey
  · exact hkey

/-- The frame that `alloc` returns has lost the entry of its old page. -/
theorem alloc_entries (halloc : s.alloc io fd p = (some i, s₁)) {j : Nat} (hj : s₁.listMap key = some j) :
    key = (fd, p) ∧ j = i ∨ s.listMap key = some j ∧ ¬s.HasKey i key := by
  have hassign : ∀ t : DiskBufferPool, (t.assign fd p i).listMap key = some j →
      key = (fd, p) ∧ j = i ∨ t.listMap key = some j := by
    intro t ht
    have ht' : (if key = (fd, p) then some i else t.listMap key) = some j := ht
    split at ht'
    · rename_i heq
      exact .inl ⟨heq, (Option.some.inj ht').symm⟩
    · exact .inr ht'
  rcases alloc_cases io fd p s with ⟨i', hfind, hrun⟩ | ⟨-, ⟨_, -, hrun⟩ | ⟨i', s₂, hevict, hrun⟩⟩
  · obtain ⟨rfl, rfl⟩ : i' = i ∧ _ = s₁ := by simpa using hrun.symm.trans halloc
    refine (hassign _ hj).imp_right fun hold => ⟨hold, fun hkey => ?_⟩
    exact Bool.false_ne_true ((findUnallocated_some hfind).2.symm.trans hkey.1)
  · cases hrun.symm.trans halloc
  · obtain ⟨rfl, rfl⟩ : i' = i ∧ _ = s₁ := by simpa using hrun.symm.trans halloc
    refine (hassign _ hj).imp_right fun hold => ?_
    have herased : (s.setMap ((s.frame i').fileDesc, (s.frame i').page.pageNum) none).listMap key = some j := by
      rcases evict_cases io s with hnone | ⟨l, -, -, ⟨-, hrun'⟩ | ⟨-, rc, s₃, hflush, ⟨-, hrun'⟩ | ⟨-, hrun'⟩⟩⟩
      · cases hnone.symm.trans hevict
      · obtain ⟨rfl, rfl⟩ : l = i' ∧ _ = s₂ := by simpa using hrun'.symm.trans hevict
        exact hold
      · obtain ⟨rfl, rfl⟩ : l = i' ∧ s₃ = s₂ := by simpa using hrun'.symm.trans hevict
        exact (quiet_of_flush hflush).listMap key j hold
      · cases hrun'.symm.trans hevict
    have herased' : (if key = ((s.frame i').fileDesc, (s.frame i').page.pageNum) then none else s.listMap key) =
      some j :=
      herased
    split at herased'
    · cases herased'
    · rename_i hne
      exact ⟨herased', fun hkey => hne hkey.2.symm⟩

theorem alloc_remaps (hlist : ∀ j ∈ s.frameList, j < s.size) (halloc : s.alloc io fd p = (some i, s₁))
    (hmap : ∀ key j, s'.listMap key = some j → s₁.listMap key = some j) (hnew : s'.HasKey i (fd, p))
    (hother : ∀ j key, j ≠ i → s₁.HasKey j key → s'.HasKey j key) : Remaps s s' := by
  intro key j hj
  rcases alloc_entries halloc (hmap key j hj) with ⟨rfl, rfl⟩ | ⟨hold, hkey⟩
  · exact .inl hnew
  by_cases hji : j = i
  · exact .inr ⟨hold, hji ▸ hkey⟩
  · by_cases hkey' : s.HasKey j key
    · refine .inl (hother j key hji ?_)
      have honly := (alloc_some hlist halloc).2.2.1
      rwa [HasKey, honly.frames j hji, honly.frame hji]
    · exact .inr ⟨hold, hkey'⟩

theorem DiskBufferPool.OnlyFrame.hasKey (honly : OnlyFrame i s s') {j : Nat} (hj : j ≠ i) (hkey : s.HasKey j key) :
    s'.HasKey j key := by
  rwa [HasKey, honly.frames j hj, honly.frame hj]

theorem getThisPage_remaps (hp : Pinned s hs) (hio : io.Succeeds) (hk : s.checkFileId k = some file) :
    Remaps s (s.getThisPage io k p).2 := by
  cases hcheck : s.checkPageNum p file with
  | false => exact (by simpa [DiskBufferPool.getThisPage, hk, hcheck] using Quiet.refl.remaps)
  | true =>
    rcases getThisPage_cases io hp.listed hk hcheck (hp.descriptor k file (checkFileId_some hk)) with
      ⟨i, -, hrun⟩ | ⟨-, ⟨s₁, halloc, hrun⟩ | ⟨i, s₁, halloc, ⟨-, hrun⟩ | ⟨hread, -⟩⟩⟩
    · rw [hrun]
      exact remaps_modFrame (s := s.lruUpdate i) i (fun f => { f with pinCount := (f.pinCount + 1) % 4294967296 })
        fun _ => ⟨rfl, rfl⟩
    · rw [hrun]
      exact (alloc_none halloc).remaps
    · rw [hrun]
      obtain ⟨hframe, hallocated⟩ := hp.fetched halloc (s₁.files file.fileName p)
      have honly := (alloc_some hp.listed halloc).2.2.1
      refine alloc_remaps hp.listed halloc (fun _ _ => id) ⟨hallocated, ?_⟩ fun j key hj hkey =>
        ((onlyFrame_setPins 1).trans (onlyFrame_setPage _)).hasKey hj hkey
      rw [hframe]
      exact Prod.ext rfl (honly.numbered hp.numbered _ _)
    · exact absurd (hread.symm.trans hio.1) Bool.false_ne_true

theorem openFile_remaps (hp : Pinned s hs) (hio : io.Succeeds) (name : String) : Remaps s (s.openFile io name).2 := by
  rcases openFile_cases io name hp.listed with hstay
    | ⟨fd, -, -, -, -, ⟨s₁, halloc, hrun⟩ | ⟨j, s₁, halloc, ⟨-, hrun⟩ | ⟨hread, -⟩⟩⟩
  · rw [hstay]
    exact Quiet.refl.remaps
  · rw [hrun]
    exact (alloc_none halloc).remaps
  · rw [hrun]
    obtain ⟨-, -, honly, hallocated, -⟩ := alloc_some (s := s.setFd fd (some name)) hp.listed halloc
    refine alloc_remaps (s := s.setFd fd (some name)) hp.listed halloc (fun _ _ => id) ⟨?_, ?_⟩ fun l key hl hkey =>
      ((onlyFrame_readied fd).trans (onlyFrame_setPage _)).hasKey hl hkey
    · show (((s₁.readied fd j).setPage j (s₁.files name 0)).frames j).allocated = true
      rw [setPage, allocated_modFrame, allocated_readied]
      exact hallocated
    · show ((((s₁.readied fd j).setPage j (s₁.files name 0)).frame j).fileDesc,
        (((s₁.readied fd j).setPage j (s₁.files name 0)).frame j).page.pageNum) = _
      rw [setPage, frame_modFrame, if_pos rfl, frame_readied]
      exact Prod.ext rfl (honly.numbered hp.numbered _ _)
  · exact absurd (hread.symm.trans hio.1) Bool.false_ne_true

theorem allocatePage_remaps (hp : Pinned s hs) (hio : io.Succeeds) (hk : s.checkFileId k = some file)
    (hroom : s.freePage file = none → 0 ≤ (s.header file).pageCount ∧ (s.header file).pageCount < bitmapPages) :
    Remaps s (s.allocatePage io k).2 := by
  rcases allocatePage_cases io hk with ⟨p, -, hrun⟩ | ⟨hfree, ⟨s₁, halloc, hrun⟩ | ⟨i, s₁, halloc, hrest⟩⟩
  · rw [hrun]
    have hq := Pinned.quiet_takeFree (s := s) file p
    exact .after_quiet hq (getThisPage_remaps (hp.quiet hq) hio hk)
  · rw [hrun]
    exact (alloc_none halloc).remaps
  · obtain ⟨hlo, hhi⟩ := hroom hfree
    have hne := hp.hdrFrame_ne (hp.alloc_unpinned halloc) (checkFileId_some hk)
    obtain ⟨-, -, honly, hallocated, -, hfd, -⟩ := alloc_some hp.listed halloc
    have hheader : s₁.header file = s.header file := by rw [DiskBufferPool.header, honly.frame hne]; rfl
    rw [hheader] at hrest
    obtain ⟨rc, s₂, hflush, hrun⟩ := hrest hne.symm hlo hhi
    have hq := quiet_of_flush hflush
    have hq₁ : Quiet s₁ ((s₁.setPage file.hdrFrame (s₁.header file).extend).setDirty file.hdrFrame true) :=
      (quiet_setPage (p := (s₁.header file).extend) rfl).trans (quiet_setDirty true)
    rw [hrun]
    refine alloc_remaps hp.listed halloc hq.listMap (hq.hasKey.mpr ⟨?_, ?_⟩) fun j key hj hkey =>
      hq.hasKey.mpr (((onlyFrame_setPins 1).trans (onlyFrame_setPage _)).hasKey hj (hq₁.hasKey.mpr hkey))
    · simpa [extended, setPage, setPins, setDirty] using hallocated
    · simp [extended, setPage, setPins, setDirty, hne.symm, hfd, Page.zero]

end Remaps

/-! ### Runs -/

namespace PoolHistory
variable {h : PoolHistory} {a : PoolAct}

structure Tracked (h : PoolHistory) : Prop where
  sound : Sound h.sys
  /-- An entry was left behind, or leads to the frame that has its page. -/
  mapped : ∀ key i, h.sys.pool.listMap key = some i → h.left key = true ∨ h.sys.pool.HasKey i key

theorem cachesKey_of (hs : Sound h.sys) {i : Nat} {key : Nat × PageNum} (hkey : h.sys.pool.HasKey i key) :
    h.sys.pool.cachesKey key = true :=
  List.any_eq_true.mpr ⟨i, List.mem_range.mpr (hs.pins.bound i hkey.1), decide_eq_true hkey⟩

theorem Tracked.lookup (ht : h.Tracked) {file : BPFileHandle} {p : PageNum} (hleft : h.left (file.fileDesc, p) = false)
    {i : Nat} (hi : h.sys.pool.listMap (file.fileDesc, p) = some i) : h.sys.pool.HasKey i (file.fileDesc, p) :=
  (ht.mapped _ i hi).resolve_left fun htrue => Bool.false_ne_true (hleft.symm.trans htrue)

theorem Tracked.freshLookup (ht : h.Tracked) {file : BPFileHandle} {p : PageNum} (ok : h.LookupOk file p) :
    FreshLookup h.sys.pool file p := by
  obtain ⟨hrange, hleft, hroom⟩ := ok
  refine ⟨hrange, fun i hi => ?_⟩
  have hkey := ht.lookup hleft hi
  obtain ⟨hfd, hnum⟩ := Prod.mk.inj hkey.2
  exact ⟨hkey.1, hfd, hnum, hroom i (ht.sound.pins.bound i hkey.1) hkey⟩

/-- A call that meets the condition on calls finds what the pool's invariant asks for. -/
theorem Tracked.contentsOk (ht : h.Tracked) (ok : h.CallOk a) : ContentsOk h.sys a := by
  cases a with
  | createFile failure name => exact ⟨trivial, ok⟩
  | openFile io name => exact ⟨ok.2, ok.1⟩
  | closeFile io k => exact ⟨fun file hk => ⟨ok.1.2.2.2.2.2, ok.1.2.2.1, ok.2 file hk⟩, ok.1⟩
  | getThisPage io k p => exact ⟨fun file hk => ht.freshLookup (ok.2 file hk), ok.1⟩
  | allocatePage io k =>
    refine ⟨fun file hk => ⟨fun p hp => ht.freshLookup ((ok.2 file hk).1 p hp).1,
      fun hfree => ((ok.2 file hk).2 hfree).1⟩, ok.1, fun file hk => ⟨fun hfree => ?_, fun i hi hfd hfree hnum => ?_⟩⟩
    · obtain ⟨p, hp⟩ := Option.isSome_iff_exists.mp hfree
      exact ((ok.2 file hk).1 p hp).2
    · exact ((ok.2 file hk).2 hfree).2 i ⟨hi, Prod.ext hfd hnum⟩
  | write k data => exact ⟨trivial, ok⟩
  | markDirty k => exact ⟨trivial, trivial⟩
  | unpinPage k => exact ⟨fun handle hk => (ok handle hk).1, fun handle hk => (ok handle hk).2⟩
  | disposePage k p =>
    refine ⟨ok.1, fun file hk i hi => ?_⟩
    have hkey := ht.lookup (ok.2 file hk) hi
    obtain ⟨hfd, hnum⟩ := Prod.mk.inj hkey.2
    exact ⟨hkey.1, hfd, hnum⟩
  | flushAllPages io k => exact ⟨ok, trivial⟩

theorem Tracked.remaps (ht : h.Tracked) (ok : h.CallOk a) (hkeep : a.givesBack = false) :
    Remaps h.sys.pool (h.sys.step a).pool := by
  have hp := ht.sound.pins
  cases a with
  | createFile failure name =>
    cases failure with
    | some rc => exact Quiet.refl.remaps
    | none => exact (quiet_writeFile name createdHeader).remaps
  | openFile io name =>
    simp only [PoolSystem.step]
    exact openFile_remaps hp ok.1 name
  | getThisPage io k p =>
    simp only [PoolSystem.step]
    cases hk : h.sys.pool.checkFileId k with
    | none => exact Quiet.refl.remaps
    | some file =>
      rw [(obtain_eq ..).1]
      exact getThisPage_remaps hp ok.1 hk
  | allocatePage io k =>
    simp only [PoolSystem.step]
    cases hk : h.sys.pool.checkFileId k with
    | none => exact Quiet.refl.remaps
    | some file =>
      have hrun := allocatePage_remaps hp ok.1 hk fun hfree => ((ok.2 file hk).2 hfree).1
      cases hfree : h.sys.pool.freePage file <;> simpa only [hfree, (obtain_eq ..).1] using hrun
  | write k data =>
    simp only [PoolSystem.step]
    cases h.sys.handles[k]? with
    | none => exact Quiet.refl.remaps
    | some handle =>
      exact remaps_modFrame handle.frame (fun f => { f with page := { f.page with data := data } })
        fun _ => ⟨rfl, rfl⟩
  | markDirty k =>
    simp only [PoolSystem.step]
    cases h.sys.handles[k]? with
    | none => exact Quiet.refl.remaps
    | some handle => exact remaps_modFrame handle.frame (fun f => { f with dirty := true }) fun _ => ⟨rfl, rfl⟩
  | unpinPage k =>
    simp only [PoolSystem.step]
    cases h.sys.handles[k]? with
    | none => exact Quiet.refl.remaps
    | some handle =>
      exact remaps_modFrame handle.frame
        (fun f => { f with pinCount := (f.pinCount + 4294967295) % 4294967296 }) fun _ => ⟨rfl, rfl⟩
  | closeFile io k => cases hkeep
  | disposePage k p => cases hkeep
  | flushAllPages io k => cases hkeep

/-- What gives frames back leaves the entries as they are. -/
theorem Tracked.entries (ht : h.Tracked) (ok : h.CallOk a) (hgive : a.givesBack = true) :
    (h.sys.step a).pool.listMap = h.sys.pool.listMap := by
  cases a with
  | closeFile io k =>
    simp only [PoolSystem.step]
    cases hk : h.sys.pool.checkFileId k with
    | none => simp only [DiskBufferPool.closeFile, hk]
    | some file =>
      have hopen := checkFileId_some hk
      obtain ⟨hallocated, -⟩ := ht.sound.contents.header_eq ht.sound.pins hopen
      have hpin := ok.2 file hk file.hdrFrame hallocated (ht.sound.pins.header k file hopen).1
      rw [if_pos rfl] at hpin
      obtain ⟨s', hforced, hrun⟩ := ht.sound.pins.closeFile_forced hk ok.1.2.2.2.2.2 ok.1.2.2.1 hpin
      rw [hrun]
      exact hforced.listMap
  | disposePage k p =>
    simp only [PoolSystem.step]
    cases hk : h.sys.pool.checkFileId k with
    | none => simp only [DiskBufferPool.disposePage, hk]
    | some file =>
      rcases disposePage_cases (p := p) hk with ⟨rc, hrun⟩ | ⟨-, s₁, ⟨-, rfl⟩ | ⟨i, -, -, rfl⟩, hrun⟩ <;>
        simp only [hrun] <;> rfl
  | flushAllPages io k =>
    have hk : h.sys.pool.checkFileId k = none := ok
    simp only [PoolSystem.step, DiskBufferPool.flushAllPages, hk]
  | _ => cases hgive

theorem Tracked.step (h : PoolHistory) (a : PoolAct) (ht : h.Tracked) (ok : h.CallOk a) : (h.step a).Tracked := by
  have hsound : Sound (h.step a).sys := Sound.step h.sys a ht.sound (ht.contentsOk ok)
  refine ⟨hsound, fun key i hi => ?_⟩
  cases hcached : (h.sys.step a).pool.cachesKey key with
  | true =>
    -- The frame that has the page is the one that its entry leads to.
    obtain ⟨j, -, hj⟩ := List.any_eq_true.mp hcached
    have hkey := of_decide_eq_true hj
    obtain ⟨-, -, hmap, -⟩ := hsound.contents.cached j hkey.1
    rw [show ((h.step a).sys.pool.frame j).fileDesc = key.1 from congrArg Prod.fst hkey.2,
      show ((h.step a).sys.pool.frame j).page.pageNum = key.2 from congrArg Prod.snd hkey.2] at hmap
    obtain rfl : i = j := Option.some.inj (hi.symm.trans hmap)
    exact .inr hkey
  | false =>
    have hleft : h.left key = true ∨ a.givesBack = true ∧ h.sys.pool.cachesKey key = true := by
      cases hgive : a.givesBack with
      | true =>
        rw [show (h.step a).sys.pool.listMap = _ from ht.entries ok hgive] at hi
        exact (ht.mapped key i hi).imp_right fun hkey => ⟨rfl, cachesKey_of ht.sound hkey⟩
      | false =>
        rcases ht.remaps ok hgive key i hi with hkey | ⟨hold, hkey⟩
        · exact absurd (hcached.symm.trans (cachesKey_of hsound hkey)) Bool.false_ne_true
        · exact .inl ((ht.mapped key i hold).resolve_right hkey)
    left
    show ((h.left key || a.givesBack && h.sys.pool.cachesKey key) && !(h.sys.step a).pool.cachesKey key) = true
    rw [hcached]
    simpa using hleft

theorem Tracked.run (size : Nat) {raw : Nat → Frame} {files : String → PageNum → Page} {as : List PoolAct}
    (hraw : ∀ i, (raw i).pinCount = 0) (hfiles : ∀ n p, (files n p).pageNum = p)
    (hrun : Run.Meets PoolHistory.step CallOk (start size raw files) as) :
    (Run.run PoolHistory.step (start size raw files) as).Tracked :=
  Run.invariant Tracked Tracked.step ⟨Sound.init size hraw hfiles, nofun⟩ hrun

end PoolHistory

/-- In every state of a run whose calls meet `CallOk`, the frame of an open handle has the bytes last written to its
    page of its file, and a `get_this_page` that succeeds returns a frame with the bytes last written to the page that
    it was asked for. -/
theorem getThisPage_reads_last (size : Nat) {raw : Nat → Frame} {files : String → PageNum → Page} {as : List PoolAct}
    (hraw : ∀ i, (raw i).pinCount = 0) (hfiles : ∀ n p, (files n p).pageNum = p)
    (hrun : Run.Meets PoolHistory.step PoolHistory.CallOk (PoolHistory.start size raw files) as) :
    let h := Run.run PoolHistory.step (PoolHistory.start size raw files) as
    let s := h.sys
    (∀ handle ∈ s.handles, handle.isOpen = true → (s.pool.frame handle.frame).page = s.last handle.file handle.page) ∧
    ∀ io k p file i, h.CallOk (.getThisPage io k p) → s.pool.checkFileId k = some file →
      (s.pool.getThisPage io k p).1 = .ok i →
      ((s.pool.getThisPage io k p).2.frame i).page = s.last file.fileName p := by
  intro h s
  have ht : h.Tracked := PoolHistory.Tracked.run size hraw hfiles hrun
  refine ⟨fun handle hmem hopen => ht.sound.page_eq hmem hopen, fun io k p file i hok hk hget => ?_⟩
  have hs' := Sound.step s (.getThisPage io k p) ht.sound (ht.contentsOk hok)
  -- The handle that the call returns is open in the next state.
  rcases hcall : s.pool.getThisPage io k p with ⟨r, pool⟩
  rw [hcall] at hget
  obtain rfl : r = .ok i := hget
  have hstep : s.step (.getThisPage io k p) =
      { s with pool := pool, handles := s.handles ++ [⟨true, i, file.fileName, p, false⟩] } := by
    simp only [step, hk, hcall, obtain]
  have hpage := hs'.page_eq (g := ⟨true, i, file.fileName, p, false⟩)
    (by rw [hstep]; exact List.mem_append_right _ (.head _)) rfl
  rw [hstep] at hpage
  exact hpage

def threePages : String → PageNum → Page := fun _ p =>
  ⟨p, fun i => if i = 0 ∨ i = 4 then 3 else if i = 8 then 7 else 0⟩

/-- Page 1 is written, and evicted from a pool of two frames by the read of page 2. -/
def evicted : List PoolAct := [.openFile (steadyIo 3) "t", .getThisPage (steadyIo 3) 0 1, .write 0 (fun _ => 9),
    .markDirty 0,
  .unpinPage 0, .getThisPage (steadyIo 3) 0 2, .unpinPage 1]

def unused : Nat → Frame := fun _ => ⟨false, 0, 0, Page.zero 0⟩

theorem steadyIo_succeeds (fd : Nat) : (steadyIo fd).Succeeds := ⟨rfl, rfl, fun _ => rfl, rfl, rfl, rfl⟩

theorem evicted_meets :
    Run.Meets PoolHistory.step PoolHistory.CallOk (PoolHistory.start 2 unused threePages) evicted := by
  have hhandle : ∀ (s : PoolSystem) (k : Nat), decide (∀ handle ∈ s.handles[k]?, handle.isOpen = true ∧
    handle.changed = false) →
      ∀ handle ∈ s.handles[k]?, handle.isOpen = true ∧ handle.changed = false := fun _ _ => of_decide_eq_true
  refine ⟨⟨steadyIo_succeeds 3, ?_⟩, ⟨steadyIo_succeeds 3, ?_⟩, fun handle hk => (hhandle _ 0 ?_ handle hk).1, trivial,
    hhandle _ 0 ?_, ⟨steadyIo_succeeds 3, ?_⟩, hhandle _ 1 ?_, trivial⟩ <;> decide +kernel

theorem getThisPage_reads_last_evicted :
    let s := (Run.run PoolHistory.step (PoolHistory.start 2 unused threePages) evicted).sys
    (∀ i < 2, ¬s.pool.HasKey i (3, 1)) ∧ (s.pool.getThisPage (steadyIo 3) 0 1).1.toOption = some 1 ∧
      ((s.pool.getThisPage (steadyIo 3) 0 1).2.frame 1).page.data 100 = 9 := by
  have hall := (@getThisPage_reads_last 2 unused threePages evicted (fun _ => rfl) (fun _ _ => rfl) evicted_meets).2
  have hopen : (Run.run PoolHistory.step (PoolHistory.start 2 unused threePages) evicted).sys.pool.checkFileId 0 =
    some ⟨"t", 3, 0⟩ := by decide +kernel
  have hlookup : (Run.run PoolHistory.step (PoolHistory.start 2 unused threePages) evicted).LookupOk ⟨"t", 3, 0⟩ 1 := by
    decide +kernel
  have hgone : ∀ i < 2, ¬(Run.run PoolHistory.step (PoolHistory.start 2 unused threePages) evicted).sys.pool.HasKey i
      (3, 1) := by
    decide +kernel
  have hlast : ((Run.run PoolHistory.step (PoolHistory.start 2 unused threePages) evicted).sys.last "t" 1).data 100 =
      9 := by
    decide +kernel
  have hget : ((Run.run PoolHistory.step (PoolHistory.start 2 unused threePages) evicted).sys.pool.getThisPage
    (steadyIo 3) 0 1).1.toOption = some 1 := by decide +kernel
  generalize Run.run PoolHistory.step (PoolHistory.start 2 unused threePages) evicted = h at *
  refine ⟨hgone, hget, ?_⟩
  have hok : (h.sys.pool.getThisPage (steadyIo 3) 0 1).1 = .ok 1 := by
    generalize (h.sys.pool.getThisPage (steadyIo 3) 0 1).1 = r at hget
    cases r with
    | ok i => exact congrArg Except.ok (Option.some.inj hget)
    | error rc => cases hget
  rw [hall (steadyIo 3) 0 1 ⟨"t", 3, 0⟩ 1 ⟨steadyIo_succeeds 3, fun file hk => ?_⟩ hopen hok, hlast]
  obtain rfl : _ = file := Option.some.inj (hopen.symm.trans hk)
  exact hlookup

def labelled : String → PageNum → Page := fun n p =>
  ⟨p, fun i => if i = 0 ∨ i = 4 then 2 else if i = 8 then 3 else if i = 100 then (if n = "a" then 1 else 2) else 0⟩

/-- The descriptor of a closed file is reused: `list_map` still finds the frame of the old file for a page number of the
    new one. -/
theorem getThisPage_reads_closed_file :
    let s := Run.run step (init 2 (fun _ => ⟨false, 0, 0, Page.zero 0⟩) labelled)
      [.openFile (steadyIo 3) "a", .getThisPage (steadyIo 3) 0 1, .unpinPage 0, .closeFile (steadyIo 3) 0,
        .openFile (steadyIo 3) "b"]
    s.pool.checkFileId 0 = some ⟨"b", 3, 0⟩ ∧ (s.pool.getThisPage (steadyIo 3) 0 1).1.toOption = some 1 ∧
      ((s.pool.getThisPage (steadyIo 3) 0 1).2.frame 1).page.data 100 = 1 ∧ (s.last "b" 1).data 100 = 2 := by
  decide +kernel

end MiniOb
