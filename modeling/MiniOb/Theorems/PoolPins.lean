import MiniOb.Lib.Run
import MiniOb.Theorems.PoolSteps

/-! # What the pins keep in place

A frame that an open handle or an open file refers to is pinned, and a pinned frame is allocated. `PinsOk` says when a
call keeps this. -/

namespace MiniOb
open PoolSystem List
variable {h : PageHandle}

open Slots DiskBufferPool

/-- The open handles on a frame. -/
def held (hs : List PageHandle) (i : Nat) : Nat := hs.countP fun h => h.isOpen && decide (h.frame = i)

theorem held_append (hs : List PageHandle) (hopen : h.isOpen = true) (i : Nat) :
    held (hs ++ [h]) i = held hs i + if h.frame = i then 1 else 0 := by
  simp [held, countP_append, hopen]

theorem held_pos {hs : List PageHandle} (hmem : h ∈ hs) (hopen : h.isOpen = true) :
    0 < held hs h.frame :=
  countP_pos_iff.mpr ⟨h, hmem, by simp [hopen]⟩

structure SamePage (h h' : PageHandle) : Prop where
  frame : h'.frame = h.frame
  file : h'.file = h.file
  page : h'.page = h.page
  isOpen : h'.isOpen = true → h.isOpen = true

theorem held_set {hs : List PageHandle} {k : Nat} {h' : PageHandle} (hk : hs[k]? = some h) (hsame : SamePage h h')
    (i : Nat) : held (hs.set k h') i + (if h.frame = i ∧ h.isOpen = true ∧ h'.isOpen = false then 1 else 0) =
      held hs i := by
  obtain ⟨hlt, hget⟩ := List.getElem?_eq_some_iff.mp hk
  have hle := boole_getElem_le_countP (p := fun x : PageHandle => x.isOpen && decide (x.frame = i)) hlt
  rw [held, held, countP_set hlt]
  rw [hget] at hle ⊢
  rw [hsame.frame]
  generalize hs.countP (fun x : PageHandle => x.isOpen && decide (x.frame = i)) = n at hle ⊢
  by_cases hi : h.frame = i
  · have hopen := hsame.isOpen
    cases ho : h.isOpen <;> cases ho' : h'.isOpen <;> simp [hi, ho, ho'] at hle hopen ⊢ <;> omega
  · simp [hi]

/-- The pins account for who uses a frame: a pinned frame is allocated, an open file has its header page in a frame with
    a pin of its own, and each open handle refers to the page that it was opened on, with a pin for it. -/
structure Pinned (s : DiskBufferPool) (hs : List PageHandle) : Prop where
  numbered : s.Numbered
  listed : ∀ i ∈ s.frameList, i < s.size
  bound : ∀ i, (s.frames i).allocated = true → i < s.size
  allocated : ∀ i, 0 < (s.frame i).pinCount → (s.frames i).allocated = true
  /-- A pin count fits into its `unsigned int`. -/
  word : ∀ i, (s.frame i).pinCount < 4294967296
  descriptor : ∀ k file, s.openList k = some file → s.fds file.fileDesc = some file.fileName
  distinct : ∀ k k' file file', s.openList k = some file → s.openList k' = some file' →
    file.fileDesc = file'.fileDesc → k = k'
  header : ∀ k file, s.openList k = some file →
    (s.frame file.hdrFrame).fileDesc = file.fileDesc ∧ (s.header file).pageNum = 0
  headerPin : ∀ k file, s.openList k = some file → held hs file.hdrFrame + 1 ≤ (s.frame file.hdrFrame).pinCount
  pages : ∀ h ∈ hs, h.isOpen = true →
    s.fds (s.frame h.frame).fileDesc = some h.file ∧ (s.frame h.frame).page.pageNum = h.page
  heldPin : ∀ i, held hs i ≤ (s.frame i).pinCount

namespace Pinned
variable {s s' : DiskBufferPool} {hs : List PageHandle} {i : Nat} {h : PageHandle} {k fd : Nat} {file : BPFileHandle}
  {io : Io} {p : PageNum} {s₁ : DiskBufferPool}

/-! ### Steps that keep the pins -/

section
variable (hp : Pinned s hs)
include hp

theorem handle_ne (hpin : (s.frame i).pinCount = 0) (hmem : h ∈ hs)
    (hopen : h.isOpen = true) : h.frame ≠ i := by
  rintro rfl
  have := held_pos hmem hopen
  have := hp.heldPin h.frame
  omega

theorem hdrFrame_ne (hpin : (s.frame i).pinCount = 0) (hk : s.openList k = some file) : file.hdrFrame ≠ i := by
  rintro rfl
  have := hp.headerPin k file hk
  omega

theorem held_eq_zero (hpin : (s.frame i).pinCount = 0) : held hs i = 0 := by
  have := hp.heldPin i
  omega

theorem quiet (hq : Quiet s s') : Pinned s' hs where
  numbered := hq.numbered hp.numbered
  listed := by rw [hq.frameList, hq.size]; exact hp.listed
  bound j := by rw [hq.allocated, hq.size]; exact hp.bound j
  allocated j := by rw [hq.pins, hq.allocated]; exact hp.allocated j
  word j := by rw [hq.pins]; exact hp.word j
  descriptor := by rw [hq.openList, hq.fds]; exact hp.descriptor
  distinct := by rw [hq.openList]; exact hp.distinct
  header k file hk := by
    rw [hq.openList] at hk
    rw [DiskBufferPool.header, hq.fileDesc, hq.pageNum]
    exact hp.header k file hk
  headerPin k file hk := by
    rw [hq.openList] at hk
    rw [hq.pins]
    exact hp.headerPin k file hk
  pages h hmem hopen := by
    rw [hq.fds, hq.fileDesc, hq.pageNum]
    exact hp.pages h hmem hopen
  heldPin j := by rw [hq.pins]; exact hp.heldPin j

theorem touch (ho : OnlyFrame i s s') (hpin : (s.frame i).pinCount = 0) (hlt : i < s.size)
    (hallocated : 0 < (s'.frame i).pinCount → (s'.frames i).allocated = true)
    (hword : (s'.frame i).pinCount < 4294967296) : Pinned s' hs where
  numbered := ho.numbered hp.numbered
  listed j hj := by
    rw [ho.size]
    exact (ho.frameList j hj).elim (hp.listed j) fun h => h ▸ hlt
  bound j hj := by
    rw [ho.size]
    by_cases hji : j = i
    · exact hji ▸ hlt
    · exact hp.bound j (ho.frames j hji ▸ hj)
  allocated j hj := by
    by_cases hji : j = i
    · subst hji
      exact hallocated hj
    · rw [ho.frames j hji]
      exact hp.allocated j (ho.frame hji ▸ hj)
  word j := by
    by_cases hji : j = i
    · exact hji ▸ hword
    · rw [ho.frame hji]
      exact hp.word j
  descriptor := by rw [ho.openList, ho.fds]; exact hp.descriptor
  distinct := by rw [ho.openList]; exact hp.distinct
  header k file hk := by
    rw [ho.openList] at hk
    rw [DiskBufferPool.header, ho.frame (hp.hdrFrame_ne hpin hk)]
    exact hp.header k file hk
  headerPin k file hk := by
    rw [ho.openList] at hk
    rw [ho.frame (hp.hdrFrame_ne hpin hk)]
    exact hp.headerPin k file hk
  pages h hmem hopen := by
    rw [ho.fds, ho.frame (hp.handle_ne hpin hmem hopen)]
    exact hp.pages h hmem hopen
  heldPin j := by
    by_cases hji : j = i
    · rw [hji, hp.held_eq_zero hpin]
      exact Nat.zero_le _
    · rw [ho.frame hji]
      exact hp.heldPin j

theorem setPins {n : Nat} (hword : n < 4294967296)
    (hallocated : 0 < n → (s.frames i).allocated = true) (hheld : held hs i ≤ n)
    (hheader : ∀ k file, s.openList k = some file → file.hdrFrame = i → held hs i + 1 ≤ n) :
    Pinned (s.setPins i n) hs := by
  have hother : ∀ j, j ≠ i → (s.setPins i n).frame j = s.frame j := fun j hj => (onlyFrame_setPins n).frame hj
  have hframe : (s.setPins i n).frame i = { s.frame i with pinCount := n } := by
    rw [DiskBufferPool.setPins, frame_modFrame, if_pos rfl]
  have hdesc : ∀ j, ((s.setPins i n).frame j).fileDesc = (s.frame j).fileDesc := modFrame_keeps Frame.fileDesc rfl
  have hpage : ∀ j, ((s.setPins i n).frame j).page = (s.frame j).page := modFrame_keeps Frame.page rfl
  refine { hp with
    bound := fun j hj => hp.bound j (by rwa [DiskBufferPool.setPins, allocated_modFrame] at hj)
    allocated := fun j hj => ?_, word := fun j => ?_, header := fun k file hk => ?_
    headerPin := fun k file hk => ?_, pages := fun h hmem hopen => ?_
    heldPin := fun j => ?_ }
  · rw [DiskBufferPool.setPins, allocated_modFrame]
    by_cases hji : j = i
    · subst hji
      rw [hframe] at hj
      exact hallocated hj
    · rw [hother j hji] at hj
      exact hp.allocated j hj
  · by_cases hji : j = i
    · rw [hji, hframe]
      exact hword
    · rw [hother j hji]
      exact hp.word j
  · rw [DiskBufferPool.header, hdesc, hpage]
    exact hp.header k file hk
  · by_cases hji : file.hdrFrame = i
    · rw [hji, hframe]
      exact hheader k file hk hji
    · rw [hother _ hji]
      exact hp.headerPin k file hk
  · rw [hdesc, hpage]
    exact hp.pages h hmem hopen
  · by_cases hji : j = i
    · rw [hji, hframe]
      exact hheld
    · rw [hother j hji]
      exact hp.heldPin j

theorem handle (hopen : h.isOpen = true)
    (hpage : s.fds (s.frame h.frame).fileDesc = some h.file ∧ (s.frame h.frame).page.pageNum = h.page)
    (hheld : held hs h.frame + 1 ≤ (s.frame h.frame).pinCount)
    (hheader : ∀ k file, s.openList k = some file → file.hdrFrame = h.frame →
      held hs h.frame + 2 ≤ (s.frame h.frame).pinCount) : Pinned s (hs ++ [h]) := by
  refine { hp with headerPin := fun k file hk => ?_, pages := fun h' hmem hopen' => ?_, heldPin := fun j => ?_ }
  · rw [held_append hs hopen]
    split
    · rename_i heq
      have := hheader k file hk heq.symm
      rw [← heq]
      omega
    · exact hp.headerPin k file hk
  · rcases mem_append.mp hmem with hmem | hmem
    · exact hp.pages h' hmem hopen'
    · rwa [mem_singleton.mp hmem]
  · rw [held_append hs hopen]
    split
    · rename_i heq
      rwa [← heq]
    · exact hp.heldPin j

theorem setHandle {h' : PageHandle} (hk : hs[k]? = some h) (hsame : SamePage h h') :
    Pinned s (hs.set k h') := by
  have hle : ∀ j, held (hs.set k h') j ≤ held hs j := fun j => by
    rw [← held_set hk hsame j]
    exact Nat.le_add_right _ _
  refine { hp with headerPin := fun k' file hk' => ?_, pages := fun g hmem hopen => ?_, heldPin := fun j => ?_ }
  · exact Nat.le_trans (Nat.succ_le_succ (hle _)) (hp.headerPin k' file hk')
  · rcases mem_or_eq_of_mem_set hmem with hmem | rfl
    · exact hp.pages g hmem hopen
    · rw [hsame.frame, hsame.file, hsame.page]
      exact hp.pages h (mem_of_getElem? hk) (hsame.isOpen hopen)
  · exact Nat.le_trans (hle j) (hp.heldPin j)

/-! ### A frame for a page -/

theorem alloc_unpinned (h : s.alloc io fd p = (some i, s')) :
    (s.frame i).pinCount = 0 := by
  obtain ⟨-, hfree | hpin, -⟩ := alloc_some hp.listed h
  · by_contra hpos
    rw [hp.allocated i (Nat.pos_of_ne_zero hpos)] at hfree
    cases hfree
  · exact hpin

theorem fetch (h : s.alloc io fd p = (some i, s₁)) (ho : OnlyFrame i s₁ s')
    (hpin : (s'.frame i).pinCount = 0 ∨ (s'.frame i).pinCount = 1 ∧ (s'.frames i).allocated = true) : Pinned s' hs := by
  obtain ⟨hlt, -, honly, -⟩ := alloc_some hp.listed h
  refine hp.touch (honly.trans ho) (hp.alloc_unpinned h) hlt (fun hpos => ?_) (by omega)
  exact (hpin.resolve_left (Nat.ne_of_gt hpos)).2

theorem fetched (h : s.alloc io fd p = (some i, s₁)) (page : Page) :
    ((s₁.setPins i 1).setPage i page).frame i = ⟨false, 1, fd, page⟩ ∧
      (((s₁.setPins i 1).setPage i page).frames i).allocated = true := by
  obtain ⟨-, -, -, hallocated, -, hfd, hdirty⟩ := alloc_some hp.listed h
  refine ⟨?_, by simpa [DiskBufferPool.setPins, setPage] using hallocated⟩
  simp [DiskBufferPool.setPins, setPage, ← hfd, ← hdirty]

theorem giveUp {t : DiskBufferPool} (h : s.alloc io fd p = (some i, s₁)) (ho : OnlyFrame i s₁ t) :
    OnlyFrame i s₁ ((t.setPins i 0).disposeBlock io i).2 ∧ Pinned ((t.setPins i 0).disposeBlock io i).2 hs := by
  have hzero : ((t.setPins i 0).frame i).pinCount = 0 := by simp [DiskBufferPool.setPins]
  obtain ⟨honly, hpin⟩ := disposeBlock_spec io hzero
  have honly' := (ho.trans (onlyFrame_setPins 0)).trans honly
  exact ⟨honly', hp.fetch h honly' (.inl hpin)⟩

/-! ### Opening and closing files -/

theorem withFds {f : Nat → Option String} (hmono : ∀ d n, s.fds d = some n → f d = some n) :
    Pinned { s with fds := f } hs :=
  { hp with
    descriptor := fun k file hk => hmono _ _ (hp.descriptor k file hk)
    pages := fun h hmem hopen => ⟨hmono _ _ (hp.pages h hmem hopen).1, (hp.pages h hmem hopen).2⟩ }

theorem addFile {name : String} {j slot : Nat} (hfd : s.fds fd = some name)
    (hframe : (s.frame j).fileDesc = fd ∧ (s.frame j).page.pageNum = 0) (hpin : held hs j + 1 ≤ (s.frame j).pinCount)
    (hother : ∀ k file, s.openList k = some file → file.fileDesc ≠ fd) :
    Pinned { s with openList := set s.openList slot (some ⟨name, fd, j⟩) } hs := by
  refine { hp with
    descriptor := fun k file hk => ?_, distinct := fun k k' file file' hk hk' hsame => ?_, header := fun k file hk => ?_
    headerPin := fun k file hk => ?_ }
  · rcases set_openList hk with ⟨-, ⟨⟩⟩ | ⟨-, hk⟩
    · exact hfd
    · exact hp.descriptor k file hk
  · rcases set_openList hk with ⟨rfl, ⟨⟩⟩ | ⟨-, hold⟩ <;> rcases set_openList hk' with ⟨rfl, ⟨⟩⟩ | ⟨-, hold'⟩
    · rfl
    · exact absurd hsame.symm (hother k' file' hold')
    · exact absurd hsame (hother k file hold)
    · exact hp.distinct k k' file file' hold hold' hsame
  · rcases set_openList hk with ⟨-, ⟨⟩⟩ | ⟨-, hk⟩
    · exact hframe
    · exact hp.header k file hk
  · rcases set_openList hk with ⟨-, ⟨⟩⟩ | ⟨-, hk⟩
    · exact hpin
    · exact hp.headerPin k file hk

theorem setFd (hnone : s.fds fd = none) (name : String) : Pinned (s.setFd fd (some name)) hs :=
  hp.withFds fun d n hd => by
    rw [set_ne (by rintro rfl; rw [hnone] at hd; cases hd)]
    exact hd

theorem openFile (name : String) (hfresh : ∀ fd, io.openFd = some fd → s.fds fd = none) :
    Pinned (s.openFile io name).2 hs := by
  rcases openFile_cases io name hp.listed with hstay | ⟨fd, hfd, -, -, -, hrest⟩
  · rwa [hstay]
  have hnone := hfresh fd hfd
  have hp₀ := hp.setFd hnone name
  -- The descriptor is closed again when the call fails.
  have hback : ∀ t : DiskBufferPool, t.fds = (s.setFd fd (some name)).fds → (t.setFd fd none).fds = s.fds := by
    intro t ht
    funext d
    show set t.fds fd none d = s.fds d
    by_cases hd : d = fd
    · rw [hd, set_same, hnone]
    · rw [set_ne hd, ht]
      exact set_ne hd
  have hclose : ∀ t : DiskBufferPool, Pinned t hs → t.fds = (s.setFd fd (some name)).fds →
      t.openList = s.openList → (∀ h ∈ hs, h.isOpen = true → (t.frame h.frame).fileDesc = (s.frame h.frame).fileDesc) →
      Pinned (t.setFd fd none) hs := by
    intro t ht hfds hopenList hdesc
    refine { ht with
      descriptor := fun k file hk => ?_, pages := fun h hmem hopen => ⟨?_, (ht.pages h hmem hopen).2⟩ }
    · rw [hback t hfds]
      exact hp.descriptor k file (hopenList ▸ hk)
    · rw [hback t hfds]
      show s.fds (t.frame h.frame).fileDesc = _
      rw [hdesc h hmem hopen]
      exact (hp.pages h hmem hopen).1
  rcases hrest with ⟨s₁, halloc, hrun⟩ | ⟨j, s₁, halloc, ⟨-, hrun⟩ | ⟨-, hrun⟩⟩ <;> rw [hrun]
  · have hq := alloc_none halloc
    exact hclose s₁ (hp₀.quiet hq) hq.fds hq.openList fun h _ _ => hq.fileDesc _
  · obtain ⟨-, -, honly, hallocated, -⟩ := alloc_some hp₀.listed halloc
    have hframe : ((s₁.readied fd j).setPage j (s₁.files name 0)).frame j =
        { s₁.frame j with dirty := false, fileDesc := fd, pinCount := 1, page := s₁.files name 0 } := by
      rw [setPage, frame_modFrame, if_pos rfl, frame_readied]
    have hp₁ : Pinned ((s₁.readied fd j).setPage j (s₁.files name 0)) hs := by
      refine hp₀.fetch halloc ((onlyFrame_readied fd).trans (onlyFrame_setPage _)) (.inr ⟨by rw [hframe], ?_⟩)
      rw [setPage, allocated_modFrame, allocated_readied]
      exact hallocated
    refine hp₁.addFile ?_ ?_ ?_ fun k file hk heq => ?_
    · show s₁.fds fd = _
      rw [honly.fds]
      exact set_same _ _ _
    · rw [hframe]
      exact ⟨rfl, honly.numbered hp.numbered name 0⟩
    · rw [hframe]
      exact Nat.le_of_eq (congrArg (· + 1) (hp₀.held_eq_zero (hp₀.alloc_unpinned halloc)))
    · have hsome := hp.descriptor k file (honly.openList ▸ hk)
      rw [heq, hnone] at hsome
      cases hsome
  · obtain ⟨-, -, honly, -⟩ := alloc_some hp₀.listed halloc
    obtain ⟨honly', hp'⟩ := hp₀.giveUp halloc ((onlyFrame_readied fd).trans (onlyFrame_setPage io.short))
    have honly₂ := honly.trans honly'
    refine hclose _ hp' honly₂.fds honly₂.openList fun h hmem hopen => ?_
    rw [honly₂.frame (hp₀.handle_ne (hp₀.alloc_unpinned halloc) hmem hopen)]
    rfl

omit hp in
theorem unpin_of_pos (hpos : 0 < (s.frame i).pinCount)
    (hword : (s.frame i).pinCount < 4294967296) : s.unpin i = s.setPins i ((s.frame i).pinCount - 1) := by
  have hmod : ((s.frames i).frame.pinCount + 4294967295) % 4294967296 = (s.frame i).pinCount - 1 := by
    show ((s.frame i).pinCount + 4294967295) % 4294967296 = _
    omega
  simp only [unpin, DiskBufferPool.setPins, modFrame, hmod]

omit hp in
theorem pin_of_lt (hlt : (s.frame i).pinCount + 1 < 4294967296) :
    s.pin i = s.setPins i ((s.frame i).pinCount + 1) := by
  have hmod : ((s.frames i).frame.pinCount + 1) % 4294967296 = (s.frame i).pinCount + 1 := Nat.mod_eq_of_lt hlt
  simp only [pin, DiskBufferPool.setPins, modFrame, hmod]

theorem closeFile_forced (hk : s.checkFileId k = some file)
    (hclose : io.close = true) (hwrite : ∀ i, io.forceWrite i = true) (hpin : (s.frame file.hdrFrame).pinCount = 1) :
    ∃ s', Forced file.fileDesc file.fileName (List.range s.size) (s.setPins file.hdrFrame 0) s' ∧
      (s.closeFile io k).2 = { s' with fds := set s.fds file.fileDesc none, openList := set s.openList k none } := by
  have hunpin := unpin_of_pos (by rw [hpin]; exact Nat.one_pos) (hp.word file.hdrFrame)
  rw [hpin] at hunpin
  obtain ⟨s', hrun, hforced⟩ := forceFrom_spec hwrite (List.range s.size) (s := s.setPins file.hdrFrame 0)
    (hp.descriptor k file (checkFileId_some hk))
  refine ⟨s', hforced, ?_⟩
  have hall : (s.unpin file.hdrFrame).forceAllPages io file.fileDesc = (.success, s') := by rw [hunpin]; exact hrun
  simp only [DiskBufferPool.closeFile, hk, hall, hclose, if_true, hforced.fds, hforced.openList]
  rfl

end

/-- Of the frames of the file only the one of its header is pinned, once. -/
def Unused (s : DiskBufferPool) (file : BPFileHandle) : Prop :=
  ∀ i, (s.frames i).allocated = true → (s.frame i).fileDesc = file.fileDesc →
    (s.frame i).pinCount = if i = file.hdrFrame then 1 else 0

theorem Unused.handle_ne (hp : Pinned s hs) (hopen : s.openList k = some file) (honly : Unused s file) (hmem : h ∈ hs)
    (ho : h.isOpen = true) : (s.frame h.frame).fileDesc ≠ file.fileDesc := by
  intro hfd
  have hdr := hp.headerPin k file hopen
  have hheld := held_pos hmem ho
  have hle := hp.heldPin h.frame
  have hone := honly _ (hp.allocated _ (by omega)) hfd
  by_cases hji : h.frame = file.hdrFrame
  · rw [if_pos hji, hji] at hone
    rw [hji] at hheld
    omega
  · rw [if_neg hji] at hone
    omega

theorem closeFile_stays (hp : Pinned s hs) (hopen : s.openList k = some file) {is : List Nat} {name : String}
    (hforced : Forced file.fileDesc name is (s.setPins file.hdrFrame 0) s') {j : Nat}
    (hj : (s.frame j).fileDesc ≠ file.fileDesc) : s'.frames j = s.frames j := by
  have hne : j ≠ file.hdrFrame := by rintro rfl; exact hj (hp.header k file hopen).1
  rw [hforced.frames j fun _ => by rwa [(onlyFrame_setPins 0).frame hne]]
  exact (onlyFrame_setPins 0).frames j hne

theorem closeFile (hp : Pinned s hs) (hk : s.checkFileId k = some file)
    (hclose : io.close = true) (hwrite : ∀ i, io.forceWrite i = true) (honly : Unused s file) :
    Pinned (s.closeFile io k).2 hs := by
  have hopen := checkFileId_some hk
  have hdr := hp.headerPin k file hopen
  have hpin : (s.frame file.hdrFrame).pinCount = 1 := by
    rw [honly _ (hp.allocated _ (by omega)) (hp.header k file hopen).1, if_pos rfl]
  obtain ⟨s', hforced, hrun⟩ := hp.closeFile_forced hk hclose hwrite hpin
  rw [hrun]
  -- A frame that something refers to is of another file, and stays as it was.
  have hstay : ∀ j, (s.frame j).fileDesc ≠ file.fileDesc → s'.frames j = s.frames j :=
    fun j hj => hp.closeFile_stays hopen hforced hj
  have hframe : ∀ j, (s.frame j).fileDesc ≠ file.fileDesc → s'.frame j = s.frame j := fun j hj => by
    rw [frame, hstay j hj]
    rfl
  have hfree : ∀ j, (s.frame j).fileDesc = file.fileDesc → (s'.frame j).pinCount = 0 := by
    intro j hj
    rw [hforced.pins]
    by_cases hji : j = file.hdrFrame
    · simp [hji, DiskBufferPool.setPins]
    · rw [(onlyFrame_setPins 0).frame hji]
      by_contra hpos
      rw [honly j (hp.allocated j (Nat.pos_of_ne_zero hpos)) hj, if_neg hji] at hpos
      exact hpos rfl
  have hhandle : ∀ h ∈ hs, h.isOpen = true → (s.frame h.frame).fileDesc ≠ file.fileDesc :=
    fun _ hmem ho => Unused.handle_ne hp hopen honly hmem ho
  have hother : ∀ k' file', set s.openList k none k' = some file' →
      s.openList k' = some file' ∧ file'.fileDesc ≠ file.fileDesc := by
    intro k' file' hk'
    rcases set_openList hk' with ⟨-, ⟨⟩⟩ | ⟨hne, hk'⟩
    exact ⟨hk', fun hsame => hne (hp.distinct k' k file' file hk' hopen hsame)⟩
  refine ⟨hforced.numbered hp.numbered, ?_, fun j hj => ?_, fun j hj => ?_, fun j => ?_, fun k' file' hk' => ?_,
    fun k₁ k₂ f₁ f₂ h₁ h₂ => hp.distinct k₁ k₂ f₁ f₂ (hother _ _ h₁).1 (hother _ _ h₂).1, fun k' file' hk' => ?_,
    fun k' file' hk' => ?_, fun h hmem ho => ?_, fun j => ?_⟩
  · rw [hforced.frameList, hforced.size]
    exact hp.listed
  · rw [hforced.size]
    have hj' := hforced.allocated j hj
    rw [DiskBufferPool.setPins, allocated_modFrame] at hj'
    exact hp.bound j hj'
  · change 0 < (s'.frame j).pinCount at hj
    have hfd : (s.frame j).fileDesc ≠ file.fileDesc := fun hfd => by rw [hfree j hfd] at hj; cases hj
    rw [hframe j hfd] at hj
    rw [hstay j hfd]
    exact hp.allocated j hj
  · show (s'.frame j).pinCount < _
    by_cases hfd : (s.frame j).fileDesc = file.fileDesc
    · rw [hfree j hfd]
      exact Nat.zero_lt_of_lt (hp.word j)
    · rw [hframe j hfd]
      exact hp.word j
  · obtain ⟨hk', hne⟩ := hother k' file' hk'
    show set s.fds file.fileDesc none _ = _
    rw [set_ne hne]
    exact hp.descriptor k' file' hk'
  · obtain ⟨hk', hne⟩ := hother k' file' hk'
    have hhdr := hp.header k' file' hk'
    show (s'.frame _).fileDesc = _ ∧ (s'.frame _).page.pageNum = 0
    rw [hframe _ (by rwa [hhdr.1])]
    exact hhdr
  · obtain ⟨hk', hne⟩ := hother k' file' hk'
    show _ ≤ (s'.frame _).pinCount
    rw [hframe _ (by rwa [(hp.header k' file' hk').1])]
    exact hp.headerPin k' file' hk'
  · have hfd := hhandle h hmem ho
    show set s.fds file.fileDesc none (s'.frame _).fileDesc = _ ∧ (s'.frame _).page.pageNum = _
    rw [hframe _ hfd, set_ne hfd]
    exact hp.pages h hmem ho
  · show _ ≤ (s'.frame j).pinCount
    by_cases hfd : (s.frame j).fileDesc = file.fileDesc
    · rw [hfree j hfd]
      refine Nat.le_of_eq ?_
      by_contra hpos
      obtain ⟨h, hmem, hh⟩ := countP_pos_iff.mp (Nat.pos_of_ne_zero hpos)
      obtain ⟨ho, rfl⟩ : h.isOpen = true ∧ h.frame = j := by simpa using hh
      exact hhandle h hmem ho hfd
    · rw [hframe j hfd]
      exact hp.heldPin j

end Pinned

/-! ### The calls -/

/-- The lookup of a page finds nothing or the allocated frame that holds the page, with room for one more pin; the
    number is one that the bitmap of the header has a bit for. -/
def FreshLookup (s : DiskBufferPool) (file : BPFileHandle) (p : PageNum) : Prop :=
  (0 ≤ p ∧ p < bitmapPages) ∧ ∀ i, s.listMap (file.fileDesc, p) = some i → (s.frames i).allocated = true ∧
    (s.frame i).fileDesc = file.fileDesc ∧ (s.frame i).page.pageNum = p ∧ (s.frame i).pinCount + 1 < 4294967296

/-- What a call must meet to keep `Pinned`: files are closed when only their header is pinned, and written out then
    without errors; a lookup finds the right frame; a page is unpinned through an open handle; no open file is
    flushed. -/
def PinsOk (s : PoolSystem) : PoolAct → Prop
  | .createFile _ _ => True
  -- The system does not hand out a descriptor that is open.
  | .openFile io _ => ∀ fd, io.openFd = some fd → s.pool.fds fd = none
  | .closeFile io k => ∀ file, s.pool.checkFileId k = some file →
      io.close = true ∧ (∀ i, io.forceWrite i = true) ∧
      ∀ i, (s.pool.frames i).allocated = true → (s.pool.frame i).fileDesc = file.fileDesc →
        (s.pool.frame i).pinCount = if i = file.hdrFrame then 1 else 0
  | .getThisPage _ k p => ∀ file, s.pool.checkFileId k = some file → FreshLookup s.pool file p
  | .allocatePage _ k => ∀ file, s.pool.checkFileId k = some file →
      (∀ p, s.pool.freePage file = some p → FreshLookup s.pool file p) ∧
      (s.pool.freePage file = none →
        0 ≤ (s.pool.header file).pageCount ∧ (s.pool.header file).pageCount < bitmapPages)
  | .write _ _ => True
  | .markDirty _ => True
  | .unpinPage k => ∀ h, s.handles[k]? = some h → h.isOpen = true
  | .disposePage _ p => 0 ≤ p ∧ p < bitmapPages
  | .flushAllPages _ k => s.pool.checkFileId k = none

namespace Pinned
variable {s s' : DiskBufferPool} {hs : List PageHandle} {i : Nat} {p : PageNum} {k : Nat} {file : BPFileHandle}

def handlesAfter (hs : List PageHandle) (name : String) (p : PageNum) : Except RC Nat → List PageHandle
  | .ok i => hs ++ [⟨true, i, name, p, false⟩]
  | .error _ => hs

theorem lruUpdate (hp : Pinned s hs) (hlt : i < s.size) : Pinned (s.lruUpdate i) hs :=
  { hp with listed := fun j hj => (onlyFrame_lruUpdate.frameList j hj).elim (hp.listed j) fun h => h ▸ hlt }

theorem pinned (hp : Pinned s hs) {name : String} (hallocated : (s.frames i).allocated = true)
    (hpage : s.fds (s.frame i).fileDesc = some name ∧ (s.frame i).page.pageNum = p)
    (hword : (s.frame i).pinCount + 1 < 4294967296) : Pinned (s.pin i) (hs ++ [⟨true, i, name, p, false⟩]) := by
  have hheld := hp.heldPin i
  have hheader : ∀ k file, s.openList k = some file → file.hdrFrame = i → held hs i + 1 ≤ (s.frame i).pinCount := by
    rintro k file hk rfl
    exact hp.headerPin k file hk
  have hframe : (s.setPins i ((s.frame i).pinCount + 1)).frame i =
      { s.frame i with pinCount := (s.frame i).pinCount + 1 } := by
    rw [DiskBufferPool.setPins, frame_modFrame, if_pos rfl]
  rw [pin_of_lt hword]
  refine (hp.setPins hword (fun _ => hallocated) (by omega) fun k file hk hi => ?_).handle rfl ?_ ?_
    fun k file hk hi => ?_
  · omega
  · simp only [hframe]
    exact hpage
  · simp only [hframe]
    omega
  · have := hheader k file hk hi
    simp only [hframe]
    omega

theorem getThisPage (hp : Pinned s hs) (io : Io) (hk : s.checkFileId k = some file) (hfresh : FreshLookup s file p) :
    Pinned (s.getThisPage io k p).2 (handlesAfter hs file.fileName p (s.getThisPage io k p).1) := by
  have hfd := hp.descriptor k file (checkFileId_some hk)
  cases hcheck : s.checkPageNum p file with
  | false => simpa [DiskBufferPool.getThisPage, hk, hcheck, handlesAfter] using hp
  | true =>
    rcases getThisPage_cases io hp.listed hk hcheck hfd with
      ⟨i, hmap, hrun⟩ | ⟨-, ⟨s₁, halloc, hrun⟩ | ⟨i, s₁, halloc, ⟨-, hrun⟩ | ⟨-, hrun⟩⟩⟩ <;> rw [hrun]
    · obtain ⟨hallocated, hdesc, hnum, hword⟩ := hfresh.2 i hmap
      exact (hp.lruUpdate (hp.bound i hallocated)).pinned hallocated ⟨by rw [← hdesc] at hfd; exact hfd, hnum⟩ hword
    · exact hp.quiet (alloc_none halloc)
    · obtain ⟨-, -, honly, -⟩ := alloc_some hp.listed halloc
      obtain ⟨hframe, hallocated⟩ := hp.fetched halloc (s₁.files file.fileName p)
      have hzero := hp.alloc_unpinned halloc
      have hp' := hp.fetch halloc ((onlyFrame_setPins 1).trans (onlyFrame_setPage (s₁.files file.fileName p)))
        (.inr ⟨by rw [hframe], hallocated⟩)
      refine hp'.handle rfl ?_ ?_ fun k' file' hk' hi => ?_
      · simp only [hframe]
        exact ⟨(congrFun honly.fds _).trans hfd, honly.numbered hp.numbered _ _⟩
      · simp only [hframe, hp.held_eq_zero hzero]
        exact Nat.le_refl 1
      · exact absurd hi (hp.hdrFrame_ne hzero (honly.openList ▸ hk'))
    · exact (hp.giveUp halloc ((onlyFrame_setPins 1).trans (onlyFrame_setPage io.short))).2

theorem quiet_takeFree (file : BPFileHandle) (p : Nat) :
    Quiet s (s.setPage file.hdrFrame ((s.header file).takeFree p)) := quiet_setPage rfl

theorem allocatePage (hp : Pinned s hs) (io : Io) (hk : s.checkFileId k = some file)
    (hfresh : ∀ p, s.freePage file = some p → FreshLookup s file p)
    (hroom : s.freePage file = none → 0 ≤ (s.header file).pageCount ∧ (s.header file).pageCount < bitmapPages) :
    Pinned (s.allocatePage io k).2 (handlesAfter hs file.fileName
      (((s.freePage file).map Nat.cast).getD (s.header file).pageCount) (s.allocatePage io k).1) := by
  rcases allocatePage_cases io hk with ⟨p, hfree, hrun⟩ | ⟨hfree, ⟨s₁, halloc, hrun⟩ | ⟨i, s₁, halloc, hrest⟩⟩
  · rw [hrun, hfree]
    have hq := quiet_takeFree (s := s) file p
    obtain ⟨hbound, hhit⟩ := hfresh p hfree
    refine (hp.quiet hq).getThisPage io hk ⟨hbound, fun i hi => ?_⟩
    rw [hq.allocated, hq.fileDesc, hq.pageNum, hq.pins]
    exact hhit i hi
  · rw [hrun]
    exact hp.quiet (alloc_none halloc)
  · obtain ⟨hlt, -, honly, hallocated, hpins, hdesc, -⟩ := alloc_some hp.listed halloc
    have hzero := hp.alloc_unpinned halloc
    have hne := hp.hdrFrame_ne hzero (checkFileId_some hk)
    have hheader : s₁.header file = s.header file := by rw [DiskBufferPool.header, honly.frame hne]; rfl
    rw [hheader] at hrest
    obtain ⟨rc, s₂, hflush, hrun⟩ := hrest hne.symm (hroom hfree).1 (hroom hfree).2
    rw [hrun, hfree]
    -- The header first, then the new page in its frame.
    have hp₁ : Pinned s₁ hs := hp.fetch halloc OnlyFrame.refl (.inl (hpins.trans hzero))
    have hq : Quiet s₁ ((s₁.setPage file.hdrFrame (s₁.header file).extend).setDirty file.hdrFrame true) :=
      (quiet_setPage (p := (s₁.header file).extend) rfl).trans (quiet_setDirty true)
    have hzero₂ := (hq.pins i).trans (hpins.trans hzero)
    have hframe : (s₁.extended file i (s.header file).pageCount).frame i =
        { s₁.frame i with pinCount := 1, page := Page.zero (s.header file).pageCount } := by
      simp [extended, setPage, DiskBufferPool.setPins, setDirty, hne.symm]
    have hallocated' : ((s₁.extended file i (s.header file).pageCount).frames i).allocated = true := by
      simpa [extended, setPage, DiskBufferPool.setPins, setDirty] using hallocated
    have hp₂ : Pinned (s₁.extended file i (s.header file).pageCount) hs :=
      (hp₁.quiet hq).touch ((onlyFrame_setPins 1).trans (onlyFrame_setPage _)) hzero₂
        (by rw [hq.size, honly.size]; exact hlt)
        (fun _ => hallocated') (by rw [hframe]; exact (by decide : 1 < 4294967296))
    have hp₃ := hp₂.quiet (quiet_of_flush hflush)
    split
    · have hq' := quiet_of_flush hflush
      refine hp₃.handle rfl ?_ ?_ fun k' file' hk' hi => ?_
      · simp only [hq'.fds, hq'.fileDesc, hq'.pageNum, hframe]
        refine ⟨?_, rfl⟩
        show s₁.fds (s₁.frame i).fileDesc = _
        rw [hdesc, honly.fds]
        exact hp.descriptor k file (checkFileId_some hk)
      · simp only [hq'.pins, hframe, hp.held_eq_zero hzero]
        exact Nat.le_refl 1
      · rw [hq'.openList] at hk'
        exact absurd hi (hp.hdrFrame_ne hzero (honly.openList ▸ hk'))
    · exact hp₃

theorem disposePage (hp : Pinned s hs) (hk : s.checkFileId k = some file) :
    Pinned (s.disposePage k p).2 hs := by
  rcases disposePage_cases hk with ⟨rc, hrun⟩ | ⟨-, s₁, hs₁, hrun⟩ <;> rw [hrun]
  · exact hp
  · have hp₁ : Pinned s₁ hs := by
      rcases hs₁ with ⟨-, rfl⟩ | ⟨i, -, hpin, rfl⟩
      · exact hp
      · have hframe := frame_setAllocated (s := s) (i := i) false
        refine ⟨hp.numbered, hp.listed, fun j hj => ?_, fun j hj => ?_, fun j => ?_, hp.descriptor, hp.distinct,
          fun k' file' hk' => ?_, fun k' file' hk' => ?_, fun h hmem hopen => ?_, fun j => ?_⟩
        · rw [allocated_setAllocated] at hj
          split at hj
          · cases hj
          · exact hp.bound j hj
        · rw [hframe] at hj
          rw [allocated_setAllocated, if_neg (by rintro rfl; omega)]
          exact hp.allocated j hj
        · rw [hframe]
          exact hp.word j
        · rw [DiskBufferPool.header, hframe]
          exact hp.header k' file' hk'
        · rw [hframe]
          exact hp.headerPin k' file' hk'
        · rw [hframe]
          exact hp.pages h hmem hopen
        · rw [hframe]
          exact hp.heldPin j
    refine (hp₁.quiet (quiet_setDirty true)).quiet (quiet_setPage ?_)
    have hnum : ((s.header file).giveUp p.toNat).pageNum = (s.frame file.hdrFrame).page.pageNum := rfl
    rw [hnum, DiskBufferPool.setDirty, frame_modFrame, if_pos rfl]
    rcases hs₁ with ⟨-, rfl⟩ | ⟨i, -, -, rfl⟩
    · rfl
    · rw [frame_setAllocated]

end Pinned

theorem PoolSystem.obtain_eq (s : PoolSystem) (name : String) (p : PageNum) (r : Except RC Nat × DiskBufferPool) :
    (s.obtain name p r).pool = r.2 ∧ (s.obtain name p r).handles = Pinned.handlesAfter s.handles name p r.1 := by
  rcases r with ⟨_ | _, _⟩ <;> exact ⟨rfl, rfl⟩

theorem pinned_step (s : PoolSystem) (a : PoolAct) (hp : Pinned s.pool s.handles) (hok : PinsOk s a) :
    Pinned (s.step a).pool (s.step a).handles := by
  cases a with
  | createFile failure name =>
    cases failure with
    | some rc => exact hp
    | none => exact hp.quiet (quiet_writeFile name createdHeader)
  | openFile io name =>
    simp only [step]
    exact hp.openFile name hok
  | closeFile io k =>
    simp only [step]
    cases hk : s.pool.checkFileId k with
    | none =>
      simp only [DiskBufferPool.closeFile, hk]
      exact hp
    | some file =>
      obtain ⟨hclose, hwrite, honly⟩ := hok file hk
      exact hp.closeFile hk hclose hwrite honly
  | getThisPage io k p =>
    simp only [step]
    cases hk : s.pool.checkFileId k with
    | none => exact hp
    | some file =>
      have hobtain := obtain_eq s file.fileName p (s.pool.getThisPage io k p)
      rw [hobtain.1, hobtain.2]
      exact hp.getThisPage io hk (hok file hk)
  | allocatePage io k =>
    simp only [step]
    cases hk : s.pool.checkFileId k with
    | none => exact hp
    | some file =>
      have hp' := hp.allocatePage io hk (hok file hk).1 (hok file hk).2
      cases hfree : s.pool.freePage file with
      | some p =>
        rw [hfree] at hp'
        have hobtain := obtain_eq (s.record file.fileName 0 ((s.last file.fileName 0).takeFree p))
          file.fileName p (s.pool.allocatePage io k)
        simp only [hfree]
        rw [hobtain.1, hobtain.2]
        exact hp'
      | none =>
        rw [hfree] at hp'
        simp only [hfree]
        split <;> rw [(obtain_eq ..).1, (obtain_eq ..).2] <;> exact hp'
  | write k data =>
    simp only [step]
    cases hk : s.handles[k]? with
    | none => exact hp
    | some h =>
      have hsame : SamePage h { h with changed := true } := ⟨rfl, rfl, rfl, id⟩
      have hq : Quiet s.pool (s.pool.modFrame h.frame fun f => { f with page := { f.page with data := data } }) :=
        quiet_modFrame (fun _ => rfl) (fun _ => rfl) rfl
      exact (hp.setHandle hk hsame).quiet hq
  | markDirty k =>
    simp only [step]
    cases hk : s.handles[k]? with
    | none => exact hp
    | some h =>
      have hsame : SamePage h { h with changed := false } := ⟨rfl, rfl, rfl, id⟩
      exact (hp.setHandle hk hsame).quiet (quiet_setDirty true)
  | unpinPage k =>
    simp only [step]
    cases hk : s.handles[k]? with
    | none => exact hp
    | some h =>
      have hopen := hok h hk
      have hsame : SamePage h { h with isOpen := false } := ⟨rfl, rfl, rfl, fun hf => by cases hf⟩
      -- The handle gives its pin back.
      have hcount := held_set hk hsame h.frame
      rw [if_pos ⟨rfl, hopen, rfl⟩] at hcount
      have hheld := hp.heldPin h.frame
      have hp' := hp.setHandle hk hsame
      show Pinned (s.pool.unpin h.frame) _
      rw [Pinned.unpin_of_pos (by omega) (hp.word h.frame)]
      refine hp'.setPins (Nat.lt_of_le_of_lt (Nat.sub_le _ _) (hp.word h.frame)) (fun hpos => hp.allocated _ (by omega))
        (by omega) ?_
      intro k' file hk' heq
      have hdr := hp.headerPin k' file hk'
      rw [heq] at hdr
      omega
  | disposePage k p =>
    simp only [step]
    cases hk : s.pool.checkFileId k with
    | none =>
      simp only [DiskBufferPool.disposePage, hk]
      exact hp
    | some file =>
      have hp' := hp.disposePage (p := p) hk
      rcases hrun : s.pool.disposePage k p with ⟨r, pool⟩
      rw [hrun] at hp'
      cases r <;> exact hp'
  | flushAllPages io k =>
    have hk : s.pool.checkFileId k = none := hok
    simp only [step, DiskBufferPool.flushAllPages, hk]
    exact hp

theorem pinned_init (size : Nat) {raw : Nat → Frame} {files : String → PageNum → Page}
    (hraw : ∀ i, (raw i).pinCount = 0) (hfiles : ∀ n p, (files n p).pageNum = p) :
    Pinned (init size raw files).pool (init size raw files).handles where
  numbered := hfiles
  listed _ hi := mem_range.mp hi
  bound _ hi := nomatch hi
  allocated i hi := by
    rw [show ((init size raw files).pool.frame i).pinCount = 0 from hraw i] at hi
    cases hi
  word i := by
    rw [show ((init size raw files).pool.frame i).pinCount = 0 from hraw i]
    decide
  descriptor _ _ hk := nomatch hk
  distinct _ _ _ _ hk := nomatch hk
  header _ _ hk := nomatch hk
  headerPin _ _ hk := nomatch hk
  pages _ hmem := nomatch hmem
  heldPin _ := Nat.zero_le _

/-! ### Runs -/

/-- In every state of a run whose calls meet `PinsOk`: `alloc` returns no pinned frame, an open handle refers to the
    page it was obtained for, and the header frame of an open file holds page 0 of this file. -/
theorem pinned_frames_stay (size : Nat) {raw : Nat → Frame} {files : String → PageNum → Page} {as : List PoolAct}
    (hraw : ∀ i, (raw i).pinCount = 0) (hfiles : ∀ n p, (files n p).pageNum = p)
    (hrun : Run.Meets step PinsOk (init size raw files) as) :
    let s := Run.run step (init size raw files) as
    (∀ io fd p i, (s.pool.alloc io fd p).1 = some i → (s.pool.frame i).pinCount = 0) ∧
    (∀ h ∈ s.handles, h.isOpen = true →
      s.pool.fds (s.pool.frame h.frame).fileDesc = some h.file ∧ (s.pool.frame h.frame).page.pageNum = h.page) ∧
    ∀ k file, s.pool.openList k = some file → s.pool.fds (s.pool.frame file.hdrFrame).fileDesc = some file.fileName ∧
      (s.pool.frame file.hdrFrame).page.pageNum = 0 := by
  intro s
  have hp : Pinned s.pool s.handles := Run.invariant (fun s : PoolSystem => Pinned s.pool s.handles)
    pinned_step (pinned_init size hraw hfiles) hrun
  refine ⟨fun io fd p i halloc => ?_, hp.pages, fun k file hk => ?_⟩
  · rcases hrun : s.pool.alloc io fd p with ⟨r, s'⟩
    rw [hrun] at halloc
    obtain rfl : r = some i := halloc
    exact hp.alloc_unpinned hrun
  · rw [(hp.header k file hk).1]
    exact ⟨hp.descriptor k file hk, (hp.header k file hk).2⟩

def steadyIo (fd : Nat) : Io where
  openFd := some fd
  read := true
  short := Page.zero 0
  evictWrite := true
  forceWrite _ := true
  extendWrite := true
  disposeWrite := true
  torn _ := 0
  close := true

def twoPages : String → PageNum → Page := fun _ p =>
  ⟨p, fun i => if i = 0 ∨ i = 4 then 2 else if i = 8 then 3 else 0⟩

theorem pinned_frames_stay_read :
    let as := [.openFile (steadyIo 3) "t", .getThisPage (steadyIo 3) 0 1, .unpinPage 0]
    let init := init 2 (fun _ => ⟨false, 0, 0, Page.zero 0⟩) twoPages
    Run.Meets step PinsOk init as ∧
      ∀ io fd p i, ((Run.run step init as).pool.alloc io fd p).1 = some i →
        ((Run.run step init as).pool.frame i).pinCount = 0 := by
  intro as init
  have hmeets : Run.Meets step PinsOk init as := by
    refine ⟨fun fd _ => rfl, ?_⟩
    have hopen : (init.step (.openFile (steadyIo 3) "t")).pool.checkFileId 0 = some ⟨"t", 3, 0⟩ := by decide +kernel
    have hmap : (init.step (.openFile (steadyIo 3) "t")).pool.listMap (3, 1) = none := by decide +kernel
    have hhandle : (((init.step (.openFile (steadyIo 3) "t")).step (.getThisPage (steadyIo 3) 0 1)).handles[0]?).all
        (fun h => h.isOpen) = true := by decide +kernel
    generalize init.step (.openFile (steadyIo 3) "t") = s₁ at hopen hmap hhandle ⊢
    refine ⟨fun file hfile => ⟨by decide, fun i hi => ?_⟩, fun h hh => ?_, trivial⟩
    · rw [hopen] at hfile
      obtain rfl := Option.some.inj hfile
      rw [hmap] at hi
      cases hi
    · rw [hh] at hhandle
      exact hhandle
  exact ⟨hmeets, (pinned_frames_stay 2 (fun _ => rfl) (fun _ _ => rfl) hmeets).1⟩

/-- `flush_all_pages` on an open file gives its pinned header frame away: `alloc` returns the frame, and the next page
    that is read takes the place of the header. -/
theorem flushAllPages_frees_pinned :
    let s := Run.run step (init 2 (fun _ => ⟨false, 0, 0, Page.zero 0⟩) twoPages)
      [.openFile (steadyIo 3) "t", .flushAllPages (steadyIo 3) 0]
    let s' := s.step (.getThisPage (steadyIo 3) 0 1)
    (s.pool.alloc (steadyIo 3) 3 1).1 = some 0 ∧ (s.pool.frame 0).pinCount = 1 ∧
      s'.pool.openList 0 = some ⟨"t", 3, 0⟩ ∧ (s'.pool.frame 0).page.pageNum = 1 := by
  decide +kernel

end MiniOb
