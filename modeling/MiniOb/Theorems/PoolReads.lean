import MiniOb.Theorems.PoolContents

/-! # What a page handle reads

Under `ContentsOk`, `get_this_page` returns a frame with the bytes last written to the page in every run. -/

namespace MiniOb
open Slots DiskBufferPool PoolSystem Option

namespace Coherent
variable {s s' : DiskBufferPool} {hs : List PageHandle} {last last' : String → PageNum → Page} {i : Nat} {fd k : Nat}
  {p : PageNum} {name : String} {io : Io} {file : BPFileHandle}

/-! ### Pages -/

section
variable (hc : Coherent s hs last)
include hc

theorem handlesAfter (name : String) (p : PageNum) (r : Except RC Nat) :
    Coherent s (Pinned.handlesAfter hs name p r) last := by
  cases r with
  | error rc => exact hc
  | ok i =>
    refine hc.handles (fun h hmem hch => ?_) fun j ⟨h, hmem, hh⟩ => .inl ⟨h, List.mem_append_left _ hmem, hh⟩
    rcases List.mem_append.mp hmem with hmem | hmem
    · exact hc.changedOpen h hmem hch
    · obtain rfl := List.mem_singleton.mp hmem
      cases hch

theorem last_of_fresh (hname : s.fds fd = some name)
    (hfresh : s.Uncached fd p) : last name p = s.files name p :=
  (hc.absent name p fun j hj hn => hfresh j hj (hc.inj _ _ name hn hname)).symm

omit hc in
theorem fresh_only {s₀ : DiskBufferPool} (honly : OnlyFrame i s s₀) (hi : (s₀.frames i).allocated = false)
    (hfresh : s.Uncached fd p) : s₀.Uncached fd p := by
  intro j hj
  have hji : j ≠ i := by
    rintro rfl
    rw [hi] at hj
    cases hj
  rw [honly.frames j hji] at hj
  rw [honly.frame hji]
  exact hfresh j hj

theorem uncached (hmap : s.listMap (fd, p) = none) : s.Uncached fd p := by
  intro j hj hfd hnum
  obtain ⟨-, -, hm, -⟩ := hc.cached j hj
  rw [hfd, hnum, hmap] at hm
  cases hm

theorem getThisPage (hp : Pinned s hs) (hio : io.Succeeds) (hk : s.checkFileId k = some file) :
    Coherent (s.getThisPage io k p).2 (Pinned.handlesAfter hs file.fileName p (s.getThisPage io k p).1) last ∧
      (s.getThisPage io k p).2.openList = s.openList ∧ (s.getThisPage io k p).2.fds = s.fds := by
  have hname := hp.descriptor k file (checkFileId_some hk)
  cases hcheck : s.checkPageNum p file with
  | false =>
    have hrun : s.getThisPage io k p = (.error .bufferpoolInvalidPageNum, s) := by
      simp [DiskBufferPool.getThisPage, hk, hcheck]
    rw [hrun]
    exact ⟨hc, rfl, rfl⟩
  | true =>
    rcases getThisPage_cases io hp.listed hk hcheck hname with
      ⟨i, hmap, hrun⟩ | ⟨hmap, ⟨s₁, halloc, hrun⟩ | ⟨i, s₁, halloc, ⟨-, hrun⟩ | ⟨hread, -⟩⟩⟩
    · rw [hrun]
      have hc₁ : Coherent (s.lruUpdate i) hs last := hc.congr (fun _ => ⟨rfl, rfl, id, rfl⟩) rfl rfl rfl
      have hc₂ : Coherent ((s.lruUpdate i).pin i) hs last := hc₁.repin fun _ => ⟨rfl, rfl, id⟩
      exact ⟨hc₂.handlesAfter _ _ _, rfl, rfl⟩
    · rw [hrun]
      rcases hc.alloc hp hio.2.1 file.fileDesc p with hnone | ⟨i, s₀, hsome, -⟩
      · obtain rfl : s = s₁ := by simpa using hnone.symm.trans halloc
        exact ⟨hc, rfl, rfl⟩
      · cases hsome.symm.trans halloc
    · rw [hrun]
      rcases hc.alloc hp hio.2.1 file.fileDesc p with hnone | ⟨i', s₀, hsome, hc₀, hi, honly⟩
      · cases hnone.symm.trans halloc
      · obtain ⟨rfl, rfl⟩ : i' = i ∧ _ = s₁ := by simpa using hsome.symm.trans halloc
        have hname₀ : s₀.fds file.fileDesc = some file.fileName := (congrFun honly.fds _).trans hname
        have hfresh := fresh_only honly hi (hc.uncached hmap)
        have hmove := (onlyFrame_setPins (i := i') 1).trans
          (onlyFrame_setPage (s := ((s₀.setAllocated i' true).assign file.fileDesc p i').setPins i' 1) (i := i')
            (s₀.files file.fileName p))
        refine ⟨(hc₀.fetch (q := s₀.files file.fileName p) hi hname₀ hfresh hmove ⟨?_, ?_⟩ ?_ rfl
          (honly.numbered hp.numbered _ _) (UpdatedPage.refl rfl)
          (UpdatedPage.refl (hc₀.last_of_fresh hname₀ hfresh))).handlesAfter _ _ _, ?_, ?_⟩
        · simp [setPage, DiskBufferPool.setPins, frame_assign]
        · simp [setPage]
        · simp [setPage, DiskBufferPool.setPins, allocated_assign]
        · exact honly.openList
        · exact honly.fds
    · exact absurd (hread.symm.trans hio.1) (by decide)

theorem header_eq (hp : Pinned s hs)
    (hk : s.openList k = some file) : (s.frames file.hdrFrame).allocated = true ∧
      s.fds (s.frame file.hdrFrame).fileDesc = some file.fileName ∧ s.header file = last file.fileName 0 := by
  have hdr := hp.header k file hk
  have hname : s.fds (s.frame file.hdrFrame).fileDesc = some file.fileName := by
    rw [hdr.1]
    exact hp.descriptor k file hk
  have hallocated := hp.allocated file.hdrFrame (Nat.lt_of_lt_of_le (Nat.succ_pos _) (hp.headerPin k file hk))
  refine ⟨hallocated, hname, ?_⟩
  have hpage := hc.page_eq hallocated hname
  rwa [show (s.frame file.hdrFrame).page.pageNum = 0 from hdr.2] at hpage

theorem rewriteHeader (hp : Pinned s hs)
    (hk : s.openList k = some file) (hdirty : (s.frame file.hdrFrame).dirty = true) {q : Page}
    (hnum : q.pageNum = (s.header file).pageNum) (hlast : UpdatedPage file.fileName 0 q last last') :
    Coherent (s.setPage file.hdrFrame q) hs last' := by
  obtain ⟨hallocated, hname, -⟩ := hc.header_eq hp hk
  have hzero : q.pageNum = 0 := hnum.trans (hp.header k file hk).2
  exact hc.rewrite hallocated hname hnum (.inl hdirty) (by rwa [hzero])

theorem extend (hp : Pinned s hs) (hio : io.Succeeds) (hk : s.checkFileId k = some file)
    (hfree : s.freePage file = none) (hlo : 0 ≤ (s.header file).pageCount)
    (hhi : (s.header file).pageCount < bitmapPages) (hfresh : s.Uncached file.fileDesc (s.header file).pageCount) :
    (s.alloc io file.fileDesc (s.header file).pageCount = (none, s) ∧
      s.allocatePage io k = (.error .genericError, s)) ∨
    ∃ i s', (s.alloc io file.fileDesc (s.header file).pageCount).1 = some i ∧ s.allocatePage io k = (.ok i, s') ∧
      s'.openList = s.openList ∧ s'.fds = s.fds ∧
      ∀ last₁ last', UpdatedPage file.fileName 0 (s.header file).extend last last₁ →
        UpdatedPage file.fileName (s.header file).pageCount (Page.zero (s.header file).pageCount) last₁ last' →
        Coherent s' hs last' := by
  have hopen := checkFileId_some hk
  have hname := hp.descriptor k file hopen
  rcases allocatePage_cases io hk with ⟨p, hp', -⟩ | ⟨-, hrest⟩
  · cases hp'.symm.trans hfree
  rcases hc.alloc hp hio.2.1 file.fileDesc (s.header file).pageCount with hnone | ⟨i, s₀, hsome, hc₀, hi, honly⟩
  · refine .inl ⟨hnone, ?_⟩
    rcases hrest with ⟨s₁, halloc, hrun⟩ | ⟨i, s₁, halloc, -⟩
    · obtain rfl : s = s₁ := by simpa using hnone.symm.trans halloc
      exact hrun
    · cases hnone.symm.trans halloc
  refine .inr ?_
  rcases hrest with ⟨s₁, halloc, -⟩ | ⟨i', s₁, halloc, hrest⟩
  · cases hsome.symm.trans halloc
  obtain ⟨rfl, rfl⟩ : i = i' ∧ _ = s₁ := by simpa using hsome.symm.trans halloc
  set taken := (s₀.setAllocated i true).assign file.fileDesc (s.header file).pageCount i with htaken
  have hne : file.hdrFrame ≠ i := hp.hdrFrame_ne (hp.alloc_unpinned halloc) hopen
  have honly₁ := (alloc_some hp.listed halloc).2.2.1
  have hheader : taken.header file = s.header file := by
    rw [DiskBufferPool.header, honly₁.frame hne]
    rfl
  rw [hheader] at hrest
  obtain ⟨rc, s₂, hflush, hrun⟩ := hrest hne.symm hlo hhi
  -- The write of the new page succeeds.
  have hfd : (taken.extended file i (s.header file).pageCount).frame i =
      ⟨false, 1, file.fileDesc, Page.zero (s.header file).pageCount⟩ := by
    simp [taken, extended, setPage, DiskBufferPool.setPins, DiskBufferPool.setDirty, hne.symm, frame_assign]
  have hfds : (taken.extended file i (s.header file).pageCount).fds file.fileDesc = some file.fileName :=
    (congrFun honly.fds _).trans hname
  rcases flushBlock_cases io.extendWrite io.torn i (taken.extended file i (s.header file).pageCount) with ⟨hbad, -⟩
    | ⟨n, hn, ⟨-, hwrite⟩ | ⟨hbad, -⟩⟩
  · rw [hfd, hfds] at hbad
    cases hbad
  · obtain rfl : file.fileName = n := by
      rw [hfd, hfds] at hn
      exact some.inj hn
    rw [hfd] at hwrite
    obtain ⟨rfl, rfl⟩ := Prod.mk.inj (hwrite.symm.trans hflush)
    refine ⟨i, _, by rw [halloc], hrun, honly.openList, honly.fds, fun last₁ last' hl₁ hl' => ?_⟩
    -- The header is written in the state before the frame is taken.
    have hdr₀ : s₀.header file = s.header file := by
      rw [DiskBufferPool.header, honly.frame hne]
      rfl
    have hallocated₀ : (s₀.frames file.hdrFrame).allocated = true := by
      rw [honly.frames _ hne]
      exact (hc.header_eq hp hopen).1
    have hname₀ : s₀.fds (s₀.frame file.hdrFrame).fileDesc = some file.fileName := by
      rw [honly.fds, honly.frame hne]
      exact (hc.header_eq hp hopen).2.1
    have hzero : (s.header file).extend.pageNum = 0 := (hp.header k file hopen).2
    set grown := (s₀.setDirty file.hdrFrame true).setPage file.hdrFrame (s.header file).extend with hgrown
    have hc₁ : Coherent grown hs last₁ := by
      refine hc₀.setDirty.rewrite ?_ ?_ ?_ (.inl ?_) (by rwa [hzero]) <;>
        simp only [DiskBufferPool.setDirty, frame_modFrame, allocated_modFrame, if_true]
      · exact hallocated₀
      · exact hname₀
      · exact (congrArg Page.pageNum hdr₀).symm
    have hstate : taken.extended file i (s.header file).pageCount = (((grown.setAllocated i true).assign file.fileDesc
        (s.header file).pageCount i).setPins i 1).setPage i (Page.zero (s.header file).pageCount) := by
      rw [extended, hheader]
      simp only [htaken, hgrown, setPage, DiskBufferPool.setDirty, modFrame_modFrame, modFrame_take hne]
      rfl
    have hfresh₁ : grown.Uncached file.fileDesc (s.header file).pageCount := by
      have hq : Quiet s₀ grown := by
        refine (quiet_setDirty true).trans (quiet_setPage ?_)
        rw [DiskBufferPool.setDirty, frame_modFrame, if_pos rfl]
        exact (congrArg Page.pageNum hdr₀).symm
      intro j
      rw [hq.allocated, hq.fileDesc, hq.pageNum]
      exact fresh_only honly hi hfresh j
    rw [hstate]
    refine hc₁.fetch (i := i) (p := (s.header file).pageCount) (q := Page.zero (s.header file).pageCount) ?_
      ((congrFun honly.fds _).trans hname) hfresh₁ ((((onlyFrame_setPins 1).trans (onlyFrame_setPage _)).trans
        (onlyFrame_writeFile _ _)).trans (onlyFrame_setDirty false)) ⟨?_, ?_⟩ ?_ rfl rfl (fun _ _ => rfl) hl'
    · simpa [grown, setPage, DiskBufferPool.setDirty] using hi
    · rw [DiskBufferPool.setDirty, frame_modFrame, if_pos rfl, ← hstate]
      exact congrArg Frame.fileDesc hfd
    · rw [DiskBufferPool.setDirty, frame_modFrame, if_pos rfl, ← hstate]
      exact congrArg Frame.page hfd
    · simp [setPage, DiskBufferPool.setDirty, DiskBufferPool.setPins, allocated_assign, writeFile]
  · exact absurd (hbad.symm.trans hio.2.2.2.1) (by decide)

/-! ### Opening and closing files -/

theorem setFd (hnone : s.fds fd = none)
    (hnew : ∀ d, s.fds d ≠ some name) : Coherent (s.setFd fd (some name)) hs last := by
  have hfds : ∀ j, (s.frames j).allocated = true →
      (s.setFd fd (some name)).fds (s.frame j).fileDesc = s.fds (s.frame j).fileDesc := by
    intro j hj
    obtain ⟨n, hn, -⟩ := hc.cached j hj
    refine set_ne fun heq => ?_
    rw [heq, hnone] at hn
    cases hn
  refine ⟨fun d d' n hd hd' => ?_, fun j hj => ?_, fun j n hj hn => ?_, fun n p h => ?_, hc.changedOpen⟩
  · change set s.fds fd (some name) d = some n at hd
    change set s.fds fd (some name) d' = some n at hd'
    by_cases h : d = fd <;> by_cases h' : d' = fd
    · rw [h, h']
    · rw [h, set_same] at hd
      rw [set_ne h', ← hd] at hd'
      exact absurd hd' (hnew d')
    · rw [h', set_same] at hd'
      rw [set_ne h, ← hd'] at hd
      exact absurd hd (hnew d)
    · rw [set_ne h] at hd
      rw [set_ne h'] at hd'
      exact hc.inj d d' n hd hd'
  · obtain ⟨n, hn, hrest⟩ := hc.cached j hj
    exact ⟨n, (hfds j hj).trans hn, hrest⟩
  · exact hc.clean j n hj ((hfds j hj).symm.trans hn)
  · exact hc.absent n p fun j hj hn => h j hj ((hfds j hj).trans hn)

theorem openFile (hp : Pinned s hs) (ho : OpenFiles s) (hio : io.Succeeds)
    (name : String) (hfresh : ∀ fd, io.openFd = some fd → s.fds fd = none) :
    Coherent (s.openFile io name).2 hs last ∧ OpenFiles (s.openFile io name).2 := by
  rcases openFile_cases io name hp.listed with hstay | ⟨fd, hfd, hother, hlt, hslot, hrest⟩
  · rw [hstay]
    exact ⟨hc, ho⟩
  generalize s.openSlot = slot at hlt hslot hrest
  have hnone := hfresh fd hfd
  have hnew : ∀ d, s.fds d ≠ some name := by
    intro d hd
    obtain ⟨k, file, hk, -, hname⟩ := ho.owned d name hd
    exact hother k file (ho.slots k file hk) hk hname
  have hc₀ := hc.setFd hnone hnew
  have hp₀ := hp.setFd hnone name
  have hread := hio.1
  rcases hc₀.alloc hp₀ hio.2.1 fd 0 with hfail | ⟨i, s₀, hsome, hc₁, hi, honly⟩
  · rcases hrest with ⟨s₁, halloc, hrun⟩ | ⟨j, s₁, halloc, -⟩
    · obtain rfl : s.setFd fd (some name) = s₁ := by simpa using hfail.symm.trans halloc
      have hback : (s.setFd fd (some name)).setFd fd none = s := by
        have hfds : set (set s.fds fd (some name)) fd none = s.fds := by
          funext d
          by_cases hd : d = fd
          · rw [hd, set_same, hnone]
          · rw [set_ne hd, set_ne hd]
        exact congrArg (fun fds => { s with fds := fds }) hfds
      rw [hrun, hback]
      exact ⟨hc, ho⟩
    · cases hfail.symm.trans halloc
  rcases hrest with ⟨s₁, halloc, -⟩ | ⟨j, s₁, halloc, ⟨-, hrun⟩ | ⟨hbad, -⟩⟩
  · cases hsome.symm.trans halloc
  · obtain ⟨rfl, rfl⟩ : i = j ∧ _ = s₁ := by simpa using hsome.symm.trans halloc
    rw [hrun]
    have hname₀ : s₀.fds fd = some name := (congrFun honly.fds _).trans (set_same _ _ _)
    have hunused : s.Uncached fd 0 := by
      intro j hj hjfd
      obtain ⟨n, hn, -⟩ := hc.cached j hj
      rw [hjfd, hnone] at hn
      cases hn
    have hfresh₀ := fresh_only honly hi hunused
    have hmove := (onlyFrame_readied (s := (s₀.setAllocated i true).assign fd 0 i) (i := i) fd).trans
      (onlyFrame_setPage (s₀.files name 0))
    have hc₂ : Coherent ((((s₀.setAllocated i true).assign fd 0 i).readied fd i).setPage i (s₀.files name 0))
        hs last := by
      refine hc₁.fetch (q := s₀.files name 0) hi hname₀ hfresh₀ hmove ⟨?_, ?_⟩ ?_ rfl (honly.numbered hp₀.numbered _ _)
        (UpdatedPage.refl rfl) (UpdatedPage.refl (hc₁.last_of_fresh hname₀ hfresh₀))
      · simp [setPage, frame_readied]
      · simp [setPage]
      · simp [setPage, allocated_readied, allocated_assign]
    have hlist : ∀ k file, set s₀.openList slot (some ⟨name, fd, i⟩) k = some file →
        k = slot ∧ some ⟨name, fd, i⟩ = some file ∨ k ≠ slot ∧ s.openList k = some file :=
      fun k file hk => honly.openList ▸ set_openList hk
    refine ⟨hc₂.congr (fun _ => ⟨rfl, rfl, id, rfl⟩) rfl rfl rfl, fun k file hk => ?_, fun k k' f f' hk hk' hsame => ?_,
      fun d n hd => ?_⟩
    · rcases hlist k file hk with ⟨rfl, -⟩ | ⟨-, hk⟩
      · exact hlt
      · exact ho.slots k file hk
    · rcases hlist k f hk with ⟨rfl, ⟨⟩⟩ | ⟨-, hold⟩ <;> rcases hlist k' f' hk' with ⟨rfl, ⟨⟩⟩ | ⟨-, hold'⟩
      · rfl
      · exact absurd hsame.symm (hother k' f' (ho.slots k' f' hold') hold')
      · exact absurd hsame (hother k f (ho.slots k f hold) hold)
      · exact ho.names k k' f f' hold hold' hsame
    · have hd' : set s.fds fd (some name) d = some n := (congrFun honly.fds d).symm.trans hd
      by_cases hdf : d = fd
      · rw [hdf, set_same] at hd'
        exact ⟨slot, ⟨name, fd, i⟩, set_same _ _ _, hdf.symm, some.inj hd'⟩
      · rw [set_ne hdf] at hd'
        obtain ⟨k, file, hk, hrest⟩ := ho.owned d n hd'
        refine ⟨k, file, ?_, hrest⟩
        have hks : k ≠ slot := by
          rintro rfl
          rw [hslot] at hk
          cases hk
        show set s₀.openList slot _ k = _
        rw [set_ne hks, honly.openList]
        exact hk
  · exact absurd (hbad.symm.trans hread) (by decide)

theorem forced {is : List Nat} (hname : s.fds fd = some name)
    (his : ∀ j, (s.frames j).allocated = true → (s.frame j).fileDesc = fd → j ∈ is)
    (hnot : ∀ j, (s.frames j).allocated = true → (s.frame j).fileDesc = fd → ¬Changed hs j)
    (hf : Forced fd name is s s') (p : PageNum) : s'.files name p = last name p := by
  by_cases hheld : ∃ j, (s.frames j).allocated = true ∧ (s.frame j).fileDesc = fd ∧ (s.frame j).page.pageNum = p
  · obtain ⟨j, hj, hfd, rfl⟩ := hheld
    have hj' : s.fds (s.frame j).fileDesc = some name := by rwa [hfd]
    rw [← hc.page_eq hj hj']
    have huniq : ∀ k, (s.frames k).allocated = true → (s.frame k).fileDesc = fd →
        (s.frame k).page.pageNum = (s.frame j).page.pageNum → k = j :=
      fun k hk hkfd hnum => hc.unique hk hj (hkfd.trans hfd.symm) hnum
    cases hdirty : (s.frame j).dirty with
    | true => exact hf.written j (his j hj hfd) hj hfd hdirty huniq
    | false =>
      rcases hf.files name (s.frame j).page.pageNum with hsame | ⟨-, k, -, hk, hkfd, hkdirty, hnum, -⟩
      · rw [hsame]
        exact hc.clean j name hj hj' hdirty (hnot j hj hfd)
      · rw [huniq k hk hkfd hnum, hdirty] at hkdirty
        cases hkdirty
  · have habsent : ∀ j, (s.frames j).allocated = true → s.fds (s.frame j).fileDesc = some name →
        (s.frame j).page.pageNum ≠ p := fun j hj hn hnum => hheld ⟨j, hj, hc.inj _ _ name hn hname, hnum⟩
    rcases hf.files name p with hsame | ⟨-, k, -, hk, hkfd, -, hnum, -⟩
    · rw [hsame]
      exact hc.absent name p habsent
    · exact absurd ⟨k, hk, hkfd, hnum⟩ hheld

theorem closeFile (hp : Pinned s hs) (ho : OpenFiles s) (hio : io.Succeeds)
    (hk : s.checkFileId k = some file) (honly : Pinned.Unused s file) :
    Coherent (s.closeFile io k).2 hs last ∧ OpenFiles (s.closeFile io k).2 := by
  have hopen := checkFileId_some hk
  have hname := hp.descriptor k file hopen
  have hpin : (s.frame file.hdrFrame).pinCount = 1 := by
    rw [honly _ (hc.header_eq hp hopen).1 (hp.header k file hopen).1, if_pos rfl]
  obtain ⟨s', hforced, hrun⟩ := hp.closeFile_forced hk hio.2.2.2.2.2 hio.2.2.1 hpin
  rw [hrun]
  have hc₁ : Coherent (s.setPins file.hdrFrame 0) hs last := hc.repin fun _ => ⟨rfl, rfl, id⟩
  have hallocated : ∀ j, ((s.setPins file.hdrFrame 0).frames j).allocated = (s.frames j).allocated :=
    allocated_modFrame _
  have hdesc : ∀ j, ((s.setPins file.hdrFrame 0).frame j).fileDesc = (s.frame j).fileDesc :=
    modFrame_keeps Frame.fileDesc rfl
  -- Nobody is changing a page of the file.
  have hnot : ∀ j, (s.frames j).allocated = true → (s.frame j).fileDesc = file.fileDesc → ¬Changed hs j := by
    rintro j - hfd ⟨h, hh, rfl, hch⟩
    exact honly.handle_ne hp hopen hh (hc.changedOpen h hh hch) hfd
  have hdisk := hc₁.forced (hp.descriptor k file hopen)
    (fun j hj _ => List.mem_range.mpr (hp.bound j (hallocated j ▸ hj)))
    (fun j hj hfd => hnot j (hallocated j ▸ hj) (hdesc j ▸ hfd)) hforced
  -- A frame that is still allocated is of another file.
  have hleft : ∀ j, (s'.frames j).allocated = true → (s.frames j).allocated = true ∧
      (s.frame j).fileDesc ≠ file.fileDesc ∧ (s'.frame j).dirty = (s.frame j).dirty := by
    intro j hj
    have hj₁ := hallocated j ▸ hforced.allocated j hj
    have hfd : (s.frame j).fileDesc ≠ file.fileDesc := by
      intro hfd
      rw [hforced.released j (List.mem_range.mpr (hp.bound j hj₁)) (by rw [hdesc]; exact hfd)] at hj
      cases hj
    exact ⟨hj₁, hfd, by rw [frame, hp.closeFile_stays hopen hforced hfd, frame]⟩
  have hpage : ∀ j, (s'.frame j).page = (s.frame j).page := fun j =>
    (hforced.page j).trans (modFrame_keeps Frame.page rfl j)
  have hfd' : ∀ j, (s'.frame j).fileDesc = (s.frame j).fileDesc := fun j => (hforced.fileDesc j).trans (hdesc j)
  have hfds : ∀ d n, set s.fds file.fileDesc none d = some n → s.fds d = some n ∧ n ≠ file.fileName := by
    intro d n hd
    have hne : d ≠ file.fileDesc := by
      rintro rfl
      rw [set_same] at hd
      cases hd
    rw [set_ne hne] at hd
    refine ⟨hd, ?_⟩
    rintro rfl
    exact hne (hc.inj _ _ _ hd hname)
  have hfiles : ∀ n p, n ≠ file.fileName → s'.files n p = s.files n p := fun n p hne =>
    (hforced.files n p).resolve_right fun h => hne h.1
  have hold : ∀ k' file', set s.openList k none k' = some file' → s.openList k' = some file' := by
    intro k' file' hk'
    rcases set_openList hk' with ⟨-, ⟨⟩⟩ | ⟨-, hk'⟩
    exact hk'
  refine ⟨⟨fun d d' n hd hd' => hc.inj d d' n (hfds d n hd).1 (hfds d' n hd').1, fun j hj => ?_,
    fun j n hj hn hdirty hch => ?_, fun n p h => ?_, hc.changedOpen⟩, fun k' file' hk' => ?_,
    fun k₁ k₂ f₁ f₂ h₁ h₂ => ?_, fun d n hd => ?_⟩
  · obtain ⟨hj₁, hne, -⟩ := hleft j hj
    obtain ⟨n, hn, hmap, hlast⟩ := hc.cached j hj₁
    show ∃ name, set s.fds file.fileDesc none (s'.frame j).fileDesc = some name ∧
      s'.listMap ((s'.frame j).fileDesc, (s'.frame j).page.pageNum) = some j ∧
      (s'.frame j).page = last name (s'.frame j).page.pageNum
    rw [hfd', hpage, hforced.listMap, set_ne hne]
    exact ⟨n, hn, hmap, hlast⟩
  · obtain ⟨hj₁, -, hd⟩ := hleft j hj
    change set s.fds file.fileDesc none (s'.frame j).fileDesc = some n at hn
    rw [hfd'] at hn
    obtain ⟨hn, hnn⟩ := hfds _ n hn
    show s'.files n (s'.frame j).page.pageNum = (s'.frame j).page
    rw [hpage, hfiles n _ hnn]
    exact hc.clean j n hj₁ hn (hd.symm.trans hdirty) hch
  · by_cases hnn : n = file.fileName
    · rw [hnn]
      exact hdisk p
    · rw [hfiles n p hnn]
      refine hc.absent n p fun j hj hn => ?_
      have hne : (s.frame j).fileDesc ≠ file.fileDesc := by
        intro hfd
        rw [hfd, hname] at hn
        exact hnn (some.inj hn).symm
      have := h j (by rwa [hp.closeFile_stays hopen hforced hne])
      change set s.fds file.fileDesc none (s'.frame j).fileDesc = some n → (s'.frame j).page.pageNum ≠ p at this
      rw [hfd', hpage, set_ne hne] at this
      exact this hn
  · exact ho.slots k' file' (hold k' file' hk')
  · exact ho.names k₁ k₂ f₁ f₂ (hold _ _ h₁) (hold _ _ h₂)
  · obtain ⟨hd, hne⟩ := hfds d n hd
    obtain ⟨k', file', hk', hrest⟩ := ho.owned d n hd
    refine ⟨k', file', ?_, hrest⟩
    have hkk : k' ≠ k := by
      rintro rfl
      rw [hopen] at hk'
      obtain rfl := some.inj hk'
      exact hne hrest.2.symm
    exact (set_ne hkk).trans hk'

/-! ### Pages written outside the frames, pages given up -/

theorem writeAbsent {q : Page}
    (habsent : ∀ j, (s.frames j).allocated = true → s.fds (s.frame j).fileDesc ≠ some name)
    (hlast : UpdatedPage name q.pageNum q last last') : Coherent (s.writeFile name q) hs last' := by
  have hfiles : UpdatedPage name q.pageNum q s.files (s.writeFile name q).files := fun _ _ => rfl
  have hne : ∀ j n, (s.frames j).allocated = true → s.fds (s.frame j).fileDesc = some n → n ≠ name := by
    rintro j n hj hn rfl
    exact habsent j hj hn
  refine ⟨hc.inj, fun j hj => ?_, fun j n hj hn hdirty hnot => ?_, fun n p h => ?_, hc.changedOpen⟩
  · obtain ⟨n, hn, hmap, hpage⟩ := hc.cached j hj
    refine ⟨n, hn, hmap, ?_⟩
    rw [hlast.other fun h => absurd h (hne j n hj hn)]
    exact hpage
  · rw [hfiles.other fun h => absurd h (hne j n hj hn)]
    exact hc.clean j n hj hn hdirty hnot
  · rw [hfiles n p, hlast n p]
    split
    · rfl
    · exact hc.absent n p h

theorem disposePage (hp : Pinned s hs)
    (hk : s.checkFileId k = some file) (hlook : ∀ i, s.listMap (file.fileDesc, p) = some i →
      (s.frames i).allocated = true ∧ (s.frame i).fileDesc = file.fileDesc ∧ (s.frame i).page.pageNum = p) :
    (∃ rc, s.disposePage k p = (.error rc, s)) ∨
    ∃ s', s.disposePage k p = (.ok (), s') ∧ s'.openList = s.openList ∧ s'.fds = s.fds ∧
      ∀ last₁ last', UpdatedPage file.fileName p (s.files file.fileName p) last last₁ →
        UpdatedPage file.fileName 0 ((s.header file).giveUp p.toNat) last₁ last' → Coherent s' hs last' := by
  have hopen := checkFileId_some hk
  have hname := hp.descriptor k file hopen
  obtain ⟨hdrAllocated, hdrName, -⟩ := hc.header_eq hp hopen
  rcases disposePage_cases (p := p) hk with herr | ⟨-, s₁, hs₁, hrun⟩
  · exact .inl herr
  refine .inr ⟨_, hrun, ?_, ?_, fun last₁ last' hl₁ hl' => ?_⟩
  · rcases hs₁ with ⟨-, rfl⟩ | ⟨i, -, -, rfl⟩ <;> rfl
  · rcases hs₁ with ⟨-, rfl⟩ | ⟨i, -, -, rfl⟩ <;> rfl
  -- The frame of the page is given back first, then the header is written.
  have hs₁' : Coherent s₁ hs last₁ ∧ (s₁.frames file.hdrFrame).allocated = true ∧
      s₁.frame file.hdrFrame = s.frame file.hdrFrame ∧ s₁.fds = s.fds := by
    rcases hs₁ with ⟨hmap, rfl⟩ | ⟨i, hmap, hpin, rfl⟩
    · have hsame : last file.fileName p = s₁.files file.fileName p := hc.last_of_fresh hname (hc.uncached hmap)
      obtain rfl : last₁ = last := by
        funext n r
        rw [hl₁ n r]
        split
        · rename_i h
          rw [h.1, h.2, hsame]
        · rfl
      exact ⟨hc, hdrAllocated, rfl, rfl⟩
    · obtain ⟨hallocated, hfd, hnum⟩ := hlook i hmap
      refine ⟨hc.drop hallocated (by rw [hfd]; exact hname) (by rw [hnum]; exact hl₁), ?_, frame_setAllocated _ _, rfl⟩
      rw [allocated_setAllocated, if_neg (hp.hdrFrame_ne hpin hopen)]
      exact hdrAllocated
  obtain ⟨hc₁, hallocated₁, hframe₁, hfds₁⟩ := hs₁'
  have hzero : ((s.header file).giveUp p.toNat).pageNum = 0 := (hp.header k file hopen).2
  refine hc₁.setDirty.rewrite ?_ ?_ ?_ (.inl ?_) (by rwa [hzero]) <;>
    simp only [DiskBufferPool.setDirty, frame_modFrame, allocated_modFrame, if_true]
  · exact hallocated₁
  · show s₁.fds _ = _
    rw [hfds₁, hframe₁]
    exact hdrName
  · rw [hframe₁]
    rfl

end

end Coherent

/-! ### The invariant of the pool and its clients -/

structure Sound (s : PoolSystem) : Prop where
  pins : Pinned s.pool s.handles
  files : OpenFiles s.pool
  contents : Coherent s.pool s.handles s.last

def ContentsKept (s : PoolSystem) : Prop := OpenFiles s.pool ∧ Coherent s.pool s.handles s.last

namespace Sound
variable {s : PoolSystem} {k : Nat}

theorem createFile (h : Sound s) {failure : Option RC} {name : String}
    (hok : failure = none → ∀ k file, s.pool.openList k = some file → file.fileName ≠ name) :
    ContentsKept (s.step (.createFile failure name)) := by
  cases failure with
  | some rc => exact ⟨h.files, h.contents⟩
  | none =>
    refine ⟨h.files.congr rfl rfl, h.contents.writeAbsent (fun j hj hn => ?_) fun _ _ => rfl⟩
    obtain ⟨k, file, hk, -, hname⟩ := h.files.owned _ name hn
    exact hok rfl k file hk hname

theorem getThisPage (h : Sound s) {io : Io} {p : PageNum} (hio : io.Succeeds) :
    ContentsKept (s.step (.getThisPage io k p)) := by
  simp only [ContentsKept, step]
  cases hk : s.pool.checkFileId k with
  | none => exact ⟨h.files, h.contents⟩
  | some file =>
    have hobtain := obtain_eq s file.fileName p (s.pool.getThisPage io k p)
    obtain ⟨hc, hlist, hfds⟩ := h.contents.getThisPage h.pins hio (p := p) hk
    have hlast : (s.obtain file.fileName p (s.pool.getThisPage io k p)).last = s.last := by
      rcases s.pool.getThisPage io k p with ⟨_ | _, _⟩ <;> rfl
    simp only [hobtain.1, hobtain.2, hlast]
    exact ⟨h.files.congr hlist hfds, hc⟩

theorem allocatePage (h : Sound s) {io : Io} (hpins : PinsOk s (.allocatePage io k)) (hio : io.Succeeds)
    (hok : ∀ file, s.pool.checkFileId k = some file →
      ((s.pool.freePage file).isSome = true → (s.pool.frame file.hdrFrame).dirty = true) ∧
      ∀ i, (s.pool.frames i).allocated = true → (s.pool.frame i).fileDesc = file.fileDesc →
        s.pool.freePage file = none → (s.pool.frame i).page.pageNum ≠ (s.pool.header file).pageCount) :
    ContentsKept (s.step (.allocatePage io k)) := by
  simp only [ContentsKept, step]
  cases hk : s.pool.checkFileId k with
  | none => exact ⟨h.files, h.contents⟩
  | some file =>
    have hopen := checkFileId_some hk
    obtain ⟨-, -, hheader⟩ := h.contents.header_eq h.pins hopen
    have hlast : ∀ (t : PoolSystem) p r, (t.obtain file.fileName p r).last = t.last := by
      rintro t p ⟨_ | _, _⟩ <;> rfl
    cases hfree : s.pool.freePage file with
    | some p =>
      have hdirty := (hok file hk).1 (by rw [hfree]; rfl)
      have hrecord : UpdatedPage file.fileName 0 ((s.pool.header file).takeFree p) s.last
          (s.record file.fileName 0 ((s.last file.fileName 0).takeFree p)).last := fun n r => by rw [hheader]; rfl
      have hc := h.contents.rewriteHeader h.pins hopen hdirty (q := (s.pool.header file).takeFree p) rfl hrecord
      have hp := h.pins.quiet (Pinned.quiet_takeFree file p)
      rcases allocatePage_cases io hk with ⟨p', hp', hrun⟩ | ⟨hnone, -⟩
      · obtain rfl : p' = p := some.inj (hp'.symm.trans hfree)
        obtain ⟨hc', hlist, hfds⟩ := hc.getThisPage hp hio (p := p') hk
        simp only [hfree, hrun, hlast]
        rw [(obtain_eq ..).1, (obtain_eq ..).2]
        exact ⟨h.files.congr hlist hfds, hc'⟩
      · cases hnone.symm.trans hfree
    | none =>
      obtain ⟨hlo, hhi⟩ := (hpins file hk).2 hfree
      rcases h.contents.extend h.pins hio hk hfree hlo hhi fun j hj hfd => (hok file hk).2 j hj hfd hfree with
        ⟨halloc, hrun⟩ | ⟨i, s', halloc, hrun, hlist, hfds, hc⟩
      · simp only [hfree, halloc, hrun]
        exact ⟨h.files, h.contents⟩
      · simp only [hfree, halloc, hrun, isSome_some, if_true]
        refine ⟨h.files.congr hlist hfds, ?_⟩
        refine Coherent.handlesAfter (hc (s.record file.fileName 0 (s.last file.fileName 0).extend).last _ ?_
          fun _ _ => rfl) file.fileName (s.pool.header file).pageCount (.ok i)
        intro n r
        rw [hheader]
        rfl

theorem write (h : Sound s) {data : PageData} (hok : ∀ g, s.handles[k]? = some g → g.isOpen = true) :
    ContentsKept (s.step (.write k data)) := by
  simp only [ContentsKept, step]
  cases hk : s.handles[k]? with
  | none => exact ⟨h.files, h.contents⟩
  | some g =>
    have hopen := hok g hk
    have hmem := List.mem_of_getElem? hk
    obtain ⟨hname, hnum⟩ := h.pins.pages g hmem hopen
    have hallocated := h.pins.allocated g.frame (Nat.lt_of_lt_of_le (held_pos hmem hopen) (h.pins.heldPin g.frame))
    have hhandles : Coherent s.pool (s.handles.set k { g with changed := true }) s.last :=
      h.contents.setHandle hk (fun _ => hopen) fun _ => .inl ⟨rfl, rfl⟩
    have hchanged : Changed (s.handles.set k { g with changed := true }) g.frame :=
      ⟨_, List.mem_set (List.getElem?_eq_some_iff.mp hk).1 _, rfl, rfl⟩
    have hpage : (s.pool.modFrame g.frame fun f => { f with page := { f.page with data := data } }) =
        s.pool.setPage g.frame ⟨g.page, data⟩ := by
      simp only [setPage, modFrame, ← hnum]
      rfl
    have hc := hhandles.rewrite (q := ⟨g.page, data⟩) hallocated hname hnum.symm (.inr hchanged) fun _ _ => rfl
    rw [← hpage] at hc
    exact ⟨h.files.congr rfl rfl, hc⟩

theorem markDirty (h : Sound s) : ContentsKept (s.step (.markDirty k)) := by
  simp only [ContentsKept, step]
  cases hk : s.handles[k]? with
  | none => exact ⟨h.files, h.contents⟩
  | some g =>
    refine ⟨h.files.congr rfl rfl, h.contents.setDirty.setHandle hk (fun hch => by cases hch) fun _ => .inr ?_⟩
    rw [DiskBufferPool.setDirty, frame_modFrame, if_pos rfl]

theorem unpinPage (h : Sound s) (hok : ∀ g, s.handles[k]? = some g → g.changed = false) :
    ContentsKept (s.step (.unpinPage k)) := by
  simp only [ContentsKept, step]
  cases hk : s.handles[k]? with
  | none => exact ⟨h.files, h.contents⟩
  | some g =>
    have hunchanged := hok g hk
    have hc : Coherent (s.pool.unpin g.frame) s.handles s.last := h.contents.repin fun _ => ⟨rfl, rfl, id⟩
    exact ⟨h.files.congr rfl rfl, hc.setHandle hk (fun hch => absurd (hunchanged.symm.trans hch) Bool.false_ne_true)
      fun hch => absurd (hunchanged.symm.trans hch) Bool.false_ne_true⟩

theorem disposePage (h : Sound s) {p : PageNum} (hok : ∀ file, s.pool.checkFileId k = some file →
      ∀ i, s.pool.listMap (file.fileDesc, p) = some i → (s.pool.frames i).allocated = true ∧
        (s.pool.frame i).fileDesc = file.fileDesc ∧ (s.pool.frame i).page.pageNum = p) :
    ContentsKept (s.step (.disposePage k p)) := by
  simp only [ContentsKept, step]
  cases hk : s.pool.checkFileId k with
  | none =>
    simp only [DiskBufferPool.disposePage, hk]
    exact ⟨h.files, h.contents⟩
  | some file =>
    obtain ⟨-, -, hheader⟩ := h.contents.header_eq h.pins (checkFileId_some hk)
    rcases h.contents.disposePage h.pins hk (hok file hk) with ⟨rc, hrun⟩ | ⟨s', hrun, hlist, hfds, hc⟩
    · simp only [hrun]
      exact ⟨h.files, h.contents⟩
    · simp only [hrun]
      refine ⟨h.files.congr hlist hfds, hc _ _ (fun _ _ => rfl) fun n r => ?_⟩
      rw [hheader]
      rfl

theorem step (s : PoolSystem) (a : PoolAct) (h : Sound s) (hok : ContentsOk s a) : Sound (s.step a) := by
  have hpins := pinned_step s a h.pins hok.1
  suffices hrest : ContentsKept (s.step a) from ⟨hpins, hrest.1, hrest.2⟩
  obtain ⟨hpinsOk, hok⟩ := hok
  cases a with
  | createFile failure name => exact h.createFile hok
  | openFile io name =>
    simp only [ContentsKept, PoolSystem.step]
    exact (h.contents.openFile h.pins h.files hok name hpinsOk).symm
  | closeFile io k =>
    simp only [ContentsKept, PoolSystem.step]
    cases hk : s.pool.checkFileId k with
    | none =>
      simp only [DiskBufferPool.closeFile, hk]
      exact ⟨h.files, h.contents⟩
    | some file => exact (h.contents.closeFile h.pins h.files hok hk (hpinsOk file hk).2.2).symm
  | getThisPage io k p => exact h.getThisPage hok
  | allocatePage io k => exact h.allocatePage hpinsOk hok.1 hok.2
  | write k data => exact h.write hok
  | markDirty k => exact h.markDirty
  | unpinPage k => exact h.unpinPage hok
  | disposePage k p => exact h.disposePage hok
  | flushAllPages io k =>
    have hk : s.pool.checkFileId k = none := hpinsOk
    simp only [ContentsKept, PoolSystem.step, DiskBufferPool.flushAllPages, hk]
    exact ⟨h.files, h.contents⟩

theorem init (size : Nat) {raw : Nat → Frame} {files : String → PageNum → Page} (hraw : ∀ i, (raw i).pinCount = 0)
    (hfiles : ∀ n p, (files n p).pageNum = p) : Sound (init size raw files) where
  pins := pinned_init size hraw hfiles
  files := by
    refine ⟨?_, ?_, ?_⟩
    · rintro _ _ ⟨⟩
    · rintro _ _ _ _ ⟨⟩
    · rintro _ _ ⟨⟩
  contents := by
    refine ⟨?_, ?_, ?_, fun _ _ _ => rfl, ?_⟩
    · rintro _ _ _ ⟨⟩
    · rintro _ ⟨⟩
    · rintro _ _ ⟨⟩
    · rintro _ ⟨⟩

theorem page_eq (h : Sound s) {g : PageHandle} (hg : g ∈ s.handles) (hopen : g.isOpen = true) :
    (s.pool.frame g.frame).page = s.last g.file g.page := by
  obtain ⟨hname, hnum⟩ := h.pins.pages g hg hopen
  have hallocated := h.pins.allocated g.frame (Nat.lt_of_lt_of_le (held_pos hg hopen) (h.pins.heldPin g.frame))
  rw [← hnum]
  exact h.contents.page_eq hallocated hname

end Sound

end MiniOb
