import MiniOb.Theorems.PoolPins

/-! # What the frames hold

The pool as a write-back cache: a frame holds the bytes last written to its page, and a page that no frame holds is on
disk as it was last written. `ContentsOk` says when a call keeps the invariant. -/

namespace MiniOb
variable {name : String} {p : PageNum} {q : Page} {f f' : String → PageNum → Page}

open Slots DiskBufferPool

/-- A handle on the frame has been written through and not marked dirty since. -/
def Changed (hs : List PageHandle) (i : Nat) : Prop := ∃ h ∈ hs, h.frame = i ∧ h.changed = true

/-- No allocated frame holds the page. -/
def DiskBufferPool.Uncached (s : DiskBufferPool) (fd : Nat) (p : PageNum) : Prop :=
  ∀ j, (s.frames j).allocated = true → (s.frame j).fileDesc = fd → (s.frame j).page.pageNum ≠ p

/-- The frames, the files and `last`, the bytes last written to each page: the map finds every allocated frame, which
    holds what was last written to its page; a frame that is not dirty, and that nobody is changing, agrees with the
    file; a page in no frame is in its file as it was last written. -/
structure Coherent (s : DiskBufferPool) (hs : List PageHandle) (last : String → PageNum → Page) : Prop where
  /-- A file is open under one descriptor only. -/
  inj : ∀ d d' n, s.fds d = some n → s.fds d' = some n → d = d'
  cached : ∀ i, (s.frames i).allocated = true → ∃ name, s.fds (s.frame i).fileDesc = some name ∧
    s.listMap ((s.frame i).fileDesc, (s.frame i).page.pageNum) = some i ∧
    (s.frame i).page = last name (s.frame i).page.pageNum
  clean : ∀ i name, (s.frames i).allocated = true → s.fds (s.frame i).fileDesc = some name →
    (s.frame i).dirty = false → ¬Changed hs i → s.files name (s.frame i).page.pageNum = (s.frame i).page
  absent : ∀ name p, (∀ i, (s.frames i).allocated = true → s.fds (s.frame i).fileDesc = some name →
    (s.frame i).page.pageNum ≠ p) → s.files name p = last name p
  changedOpen : ∀ h ∈ hs, h.changed = true → h.isOpen = true

/-- The pages `f'` are the pages `f` with `q` in place of one of them. -/
def UpdatedPage (name : String) (p : PageNum) (q : Page) (f f' : String → PageNum → Page) : Prop :=
  ∀ n r, f' n r = if n = name ∧ r = p then q else f n r

theorem UpdatedPage.same (h : UpdatedPage name p q f f') : f' name p = q := by rw [h, if_pos ⟨rfl, rfl⟩]

theorem UpdatedPage.other
    (h : UpdatedPage name p q f f') {n : String} {r : PageNum} (hne : n = name → r ≠ p) : f' n r = f n r := by
  rw [h, if_neg fun heq => hne heq.1 heq.2]

theorem UpdatedPage.refl (h : f name p = q) :
    UpdatedPage name p q f f := by
  intro n r
  split
  · rename_i heq
    rw [heq.1, heq.2, h]
  · rfl

namespace Coherent
variable {s s' : DiskBufferPool} {hs : List PageHandle} {last last' : String → PageNum → Page} {i : Nat} {name : String}
  {q : Page}

section
variable (hc : Coherent s hs last)
include hc

theorem unique {j : Nat} (hi : (s.frames i).allocated = true)
    (hj : (s.frames j).allocated = true) (hfd : (s.frame i).fileDesc = (s.frame j).fileDesc)
    (hnum : (s.frame i).page.pageNum = (s.frame j).page.pageNum) : i = j := by
  obtain ⟨-, -, hmapi, -⟩ := hc.cached i hi
  obtain ⟨-, -, hmapj, -⟩ := hc.cached j hj
  rw [hfd, hnum, hmapj] at hmapi
  exact (Option.some.inj hmapi).symm

theorem page_eq (hi : (s.frames i).allocated = true)
    (hfd : s.fds (s.frame i).fileDesc = some name) : (s.frame i).page = last name (s.frame i).page.pageNum := by
  obtain ⟨name', hfd', -, hpage⟩ := hc.cached i hi
  rw [hfd] at hfd'
  rwa [Option.some.inj hfd']

theorem of_name {j : Nat} (hi : s.fds (s.frame i).fileDesc = some name)
    (hj : s.fds (s.frame j).fileDesc = some name) : (s.frame i).fileDesc = (s.frame j).fileDesc :=
  hc.inj _ _ name hi hj

theorem congr (hframe : ∀ j, (s'.frame j).fileDesc = (s.frame j).fileDesc ∧ (s'.frame j).page = (s.frame j).page ∧
      ((s'.frame j).dirty = false → (s.frame j).dirty = false) ∧ (s'.frames j).allocated = (s.frames j).allocated)
    (hmap : s'.listMap = s.listMap) (hfiles : s'.files = s.files) (hfds : s'.fds = s.fds) : Coherent s' hs last := by
  refine ⟨fun d d' n => ?_, fun j hj => ?_, fun j name hj hname hdirty => ?_, fun name p h => ?_, hc.changedOpen⟩
  · rw [hfds]
    exact hc.inj d d' n
  · obtain ⟨hfd, hpage, -, hallocated⟩ := hframe j
    rw [hallocated] at hj
    rw [hfd, hpage, hmap, hfds]
    exact hc.cached j hj
  · obtain ⟨hfd, hpage, hd, hallocated⟩ := hframe j
    rw [hallocated] at hj
    rw [hfd, hfds] at hname
    rw [hpage, hfiles]
    exact hc.clean j name hj hname (hd hdirty)
  · rw [hfiles]
    refine hc.absent name p fun j hj hname => ?_
    obtain ⟨hfd, hpage, -, hallocated⟩ := hframe j
    have hother := h j (by rwa [hallocated]) (by rwa [hfds, hfd])
    rwa [hpage] at hother

theorem repin {f : Frame → Frame}
    (hf : ∀ x, (f x).fileDesc = x.fileDesc ∧ (f x).page = x.page ∧ ((f x).dirty = false → x.dirty = false)) :
    Coherent (s.modFrame i f) hs last := by
  refine hc.congr (fun j => ?_) rfl rfl rfl
  refine ⟨modFrame_keeps Frame.fileDesc (hf _).1 j, modFrame_keeps Frame.page (hf _).2.1 j, ?_, allocated_modFrame f j⟩
  rw [frame_modFrame]
  split
  · rename_i h
    rw [h]
    exact (hf _).2.2
  · exact id

theorem handles {hs' : List PageHandle} (hopen : ∀ h ∈ hs', h.changed = true → h.isOpen = true)
    (hchanged : ∀ j, Changed hs j → Changed hs' j ∨ (s.frame j).dirty = true) : Coherent s hs' last := by
  refine { hc with clean := fun j name hj hname hdirty hnot => hc.clean j name hj hname hdirty fun hch => ?_,
                   changedOpen := hopen }
  rcases hchanged j hch with h | h
  · exact hnot h
  · rw [hdirty] at h
    cases h

theorem setDirty : Coherent (s.setDirty i true) hs last :=
  hc.repin fun _ => ⟨rfl, rfl, fun h => by cases h⟩

/-- One handle is replaced. If the old one said that the frame is being changed, the new one says so too, or the frame
    is dirty. -/
theorem setHandle {k : Nat} {g g' : PageHandle} (hk : hs[k]? = some g)
    (hopen : g'.changed = true → g'.isOpen = true)
    (hkeep : g.changed = true → g'.frame = g.frame ∧ g'.changed = true ∨ (s.frame g.frame).dirty = true) :
    Coherent s (hs.set k g') last := by
  obtain ⟨hlt, hget⟩ := List.getElem?_eq_some_iff.mp hk
  refine hc.handles (fun x hx hch => ?_) fun j hj => ?_
  · rcases List.mem_or_eq_of_mem_set hx with hx | rfl
    · exact hc.changedOpen x hx hch
    · exact hopen hch
  · obtain ⟨x, hx, rfl, hch⟩ := hj
    obtain ⟨l, hl, rfl⟩ := List.mem_iff_getElem.mp hx
    by_cases hkl : k = l
    · subst hkl
      rw [hget] at hch ⊢
      exact (hkeep hch).imp_left fun ⟨hframe, hch'⟩ => ⟨g', List.mem_set hlt g', hframe, hch'⟩
    · refine .inl ⟨hs[l], List.mem_iff_getElem.mpr ⟨l, by simpa using hl, ?_⟩, rfl, hch⟩
      exact List.getElem_set_ne hkl _

theorem rewrite (hi : (s.frames i).allocated = true)
    (hname : s.fds (s.frame i).fileDesc = some name) (hnum : q.pageNum = (s.frame i).page.pageNum)
    (hmark : (s.frame i).dirty = true ∨ Changed hs i) (hlast : UpdatedPage name q.pageNum q last last') :
    Coherent (s.setPage i q) hs last' := by
  have hframe : (s.setPage i q).frame i = { s.frame i with page := q } := by
    rw [setPage, frame_modFrame, if_pos rfl]
  have hother : ∀ j, j ≠ i → (s.setPage i q).frame j = s.frame j := fun j hj => (onlyFrame_setPage q).frame hj
  have hallocated : ∀ j, ((s.setPage i q).frames j).allocated = (s.frames j).allocated := fun j => by
    rw [setPage, allocated_modFrame]
  -- Another frame holds another page.
  have hne : ∀ j, j ≠ i → (s.frames j).allocated = true → ∀ n, s.fds (s.frame j).fileDesc = some n → n = name →
      (s.frame j).page.pageNum ≠ q.pageNum := by
    rintro j hji hj n hn rfl heq
    exact hji (hc.unique hj hi (hc.of_name hn hname) (heq.trans hnum))
  refine ⟨hc.inj, fun j hj => ?_, fun j n hj hn hdirty hnot => ?_, fun n p h => ?_, hc.changedOpen⟩
  · rw [hallocated] at hj
    by_cases hji : j = i
    · subst hji
      obtain ⟨name', hname', hmap, -⟩ := hc.cached j hj
      rw [hframe]
      exact ⟨name, hname, by rw [hnum]; exact hmap, hlast.same.symm⟩
    · rw [hother j hji]
      obtain ⟨n, hn, hmap, hpage⟩ := hc.cached j hj
      exact ⟨n, hn, hmap, by rw [hlast.other (hne j hji hj n hn)]; exact hpage⟩
  · rw [hallocated] at hj
    by_cases hji : j = i
    · subst hji
      rw [hframe] at hdirty
      rcases hmark with hmark | hmark
      · exact absurd (hdirty.symm.trans hmark) (by decide)
      · exact absurd hmark hnot
    · rw [hother j hji] at hn hdirty ⊢
      exact hc.clean j n hj hn hdirty hnot
  · have hold : ∀ j, (s.frames j).allocated = true → s.fds (s.frame j).fileDesc = some n →
        (s.frame j).page.pageNum ≠ p := by
      intro j hj hn
      have := h j (by rwa [hallocated])
      by_cases hji : j = i
      · subst hji
        rw [hframe] at this
        rw [← hnum]
        exact this hn
      · rw [hother j hji] at this
        exact this hn
    have hpage : n = name → p ≠ q.pageNum := by
      rintro rfl rfl
      exact hold i hi hname hnum.symm
    rw [hlast.other hpage]
    exact hc.absent n p hold

omit hc in
theorem flushed_keeps (name : String) (q : Page) (j : Nat) :
    (((s.writeFile name q).setDirty i false).frame j).fileDesc = (s.frame j).fileDesc ∧
      (((s.writeFile name q).setDirty i false).frame j).page = (s.frame j).page ∧
      (((s.writeFile name q).setDirty i false).frames j).allocated = (s.frames j).allocated :=
  ⟨modFrame_keeps Frame.fileDesc rfl j, modFrame_keeps Frame.page rfl j, allocated_modFrame _ j⟩

section
variable (hi : (s.frames i).allocated = true) (hname : s.fds (s.frame i).fileDesc = some name)
include hi hname

theorem flush :
    Coherent ((s.writeFile name (s.frame i).page).setDirty i false) hs last := by
  have hframe := fun j => flushed_keeps (s := s) (i := i) name (s.frame i).page j
  have hfiles : UpdatedPage name (s.frame i).page.pageNum (s.frame i).page s.files
      ((s.writeFile name (s.frame i).page).setDirty i false).files := fun _ _ => rfl
  refine ⟨hc.inj, fun j hj => ?_, fun j n hj hn hdirty hnot => ?_, fun n p h => ?_, hc.changedOpen⟩
  · obtain ⟨hfd, hpage, hallocated⟩ := hframe j
    rw [hfd, hpage]
    exact hc.cached j (hallocated ▸ hj)
  · obtain ⟨hfd, hpage, hallocated⟩ := hframe j
    rw [hallocated] at hj
    rw [hfd] at hn
    rw [hpage]
    by_cases hji : j = i
    · subst hji
      have hnn : n = name := Option.some.inj (hn.symm.trans hname)
      rw [hnn]
      exact hfiles.same
    · have hne : n = name → (s.frame j).page.pageNum ≠ (s.frame i).page.pageNum := by
        rintro rfl heq
        exact hji (hc.unique hj hi (hc.of_name hn hname) heq)
      rw [(onlyFrame_setDirty false).frame hji] at hdirty
      rw [hfiles.other hne]
      exact hc.clean j n hj hn hdirty hnot
  · have hold : ∀ j, (s.frames j).allocated = true → s.fds (s.frame j).fileDesc = some n →
        (s.frame j).page.pageNum ≠ p := by
      intro j hj hn
      obtain ⟨hfd, hpage, hallocated⟩ := hframe j
      exact hpage ▸ h j (hallocated.trans hj) ((congrArg s.fds hfd).trans hn)
    have hne : n = name → p ≠ (s.frame i).page.pageNum := by
      rintro rfl rfl
      exact hold i hi hname rfl
    rw [hfiles.other hne]
    exact hc.absent n p hold

theorem drop (hlast : UpdatedPage name (s.frame i).page.pageNum (s.files name (s.frame i).page.pageNum) last last') :
    Coherent (s.setAllocated i false) hs last' := by
  have hleft : ∀ j, ((s.setAllocated i false).frames j).allocated = true → j ≠ i ∧ (s.frames j).allocated = true := by
    intro j hj
    rw [allocated_setAllocated] at hj
    split at hj
    · cases hj
    · rename_i hne
      exact ⟨hne, hj⟩
  refine ⟨hc.inj, fun j hj => ?_, fun j n hj => ?_, fun n p h => ?_, hc.changedOpen⟩
  · obtain ⟨hne, hj⟩ := hleft j hj
    obtain ⟨n, hn, hmap, hpage⟩ := hc.cached j hj
    rw [frame_setAllocated]
    refine ⟨n, hn, hmap, ?_⟩
    rw [hlast.other ?_]
    · exact hpage
    · rintro rfl heq
      exact hne (hc.unique hj hi (hc.of_name hn hname) heq)
  · rw [frame_setAllocated]
    exact hc.clean j n (hleft j hj).2
  · by_cases hpage : n = name ∧ p = (s.frame i).page.pageNum
    · rw [hpage.1, hpage.2, hlast.same]
      rfl
    · rw [hlast.other fun hn hp => hpage ⟨hn, hp⟩]
      refine hc.absent n p fun j hj hn => ?_
      by_cases hji : j = i
      · subst hji
        intro heq
        exact hpage ⟨Option.some.inj (hn.symm.trans hname), heq.symm⟩
      · have := h j (by rw [allocated_setAllocated, if_neg hji]; exact hj)
        rw [frame_setAllocated] at this
        exact this hn

theorem release (hdisk : s.files name (s.frame i).page.pageNum = (s.frame i).page) :
    Coherent (s.setAllocated i false) hs last := by
  refine hc.drop hi hname (UpdatedPage.refl ?_)
  rw [hdisk]
  exact (hc.page_eq hi hname).symm

end

theorem eraseMap {k : Nat × PageNum}
    (hk : ∀ j, (s.frames j).allocated = true → ((s.frame j).fileDesc, (s.frame j).page.pageNum) ≠ k) :
    Coherent (s.setMap k none) hs last := by
  refine { hc with cached := fun j hj => ?_ }
  obtain ⟨n, hn, hmap, hpage⟩ := hc.cached j hj
  exact ⟨n, hn, (if_neg (hk j hj)).trans hmap, hpage⟩

theorem take {fd : Nat} {p : PageNum}
    (hi : (s.frames i).allocated = false) (hname : s.fds fd = some name)
    (hfresh : s.Uncached fd p)
    (hother : ∀ j, j ≠ i → s'.frames j = s.frames j) (hallocated : (s'.frames i).allocated = true)
    (hframe : (s'.frame i).fileDesc = fd ∧ (s'.frame i).page = q) (hnum : q.pageNum = p)
    (hmap : ∀ k, s'.listMap k = if k = (fd, p) then some i else s.listMap k) (hfds : s'.fds = s.fds)
    (hfiles : UpdatedPage name p q s.files s'.files) (hlast : UpdatedPage name p q last last') :
    Coherent s' hs last' := by
  have hother' : ∀ j, j ≠ i → s'.frame j = s.frame j := fun j hj => by rw [frame, hother j hj]; rfl
  have hne : ∀ j, j ≠ i → (s'.frames j).allocated = true → (s.frames j).allocated = true :=
    fun j hj h => hother j hj ▸ h
  -- The other frames do not hold this page.
  have hpage : ∀ j n, (s.frames j).allocated = true → s.fds (s.frame j).fileDesc = some n → n = name →
      (s.frame j).page.pageNum ≠ p := by
    rintro j n hj hn rfl
    exact hfresh j hj (hc.inj _ _ n hn hname)
  refine ⟨fun d d' n => ?_, fun j hj => ?_, fun j n hj hn hdirty hnot => ?_, fun n r h => ?_, hc.changedOpen⟩
  · rw [hfds]
    exact hc.inj d d' n
  · by_cases hji : j = i
    · subst hji
      rw [hframe.1, hframe.2, hnum, hfds]
      exact ⟨name, hname, (hmap _).trans (if_pos rfl), hlast.same.symm⟩
    · obtain ⟨n, hn, hm, hl⟩ := hc.cached j (hne j hji hj)
      rw [hother' j hji, hfds]
      refine ⟨n, hn, ?_, ?_⟩
      · rw [hmap, if_neg fun heq => ?_]
        · exact hm
        · obtain ⟨h₁, h₂⟩ := Prod.mk.inj heq
          exact hfresh j (hne j hji hj) h₁ h₂
      · rw [hlast.other (hpage j n (hne j hji hj) hn)]
        exact hl
  · by_cases hji : j = i
    · subst hji
      rw [hframe.1, hfds] at hn
      rw [hframe.2, hnum, Option.some.inj (hn.symm.trans hname), hfiles.same]
    · rw [hother' j hji] at hn hdirty ⊢
      rw [hfds] at hn
      rw [hfiles.other (hpage j n (hne j hji hj) hn)]
      exact hc.clean j n (hne j hji hj) hn hdirty hnot
  · have hpn : n = name → r ≠ p := by
      rintro rfl rfl
      exact h i hallocated (by rw [hframe.1, hfds]; exact hname) (by rw [hframe.2, hnum])
    rw [hfiles.other hpn, hlast.other hpn]
    refine hc.absent n r fun j hj hn => ?_
    have hji : j ≠ i := by
      rintro rfl
      rw [hi] at hj
      cases hj
    have := h j (by rwa [hother j hji])
    rw [hother' j hji, hfds] at this
    exact this hn

/-! ### A frame for a page -/

theorem evict (hp : Pinned s hs) {io : Io} (hwrite : io.evictWrite = true)
    (hall : ∀ j, j < s.size → (s.frames j).allocated = true) :
    s.evict io = (none, s) ∨ ∃ j s₁, s.evict io = (some j, s₁) ∧ (s₁.frames j).allocated = true ∧
      Coherent (s₁.setAllocated j false) hs last := by
  rcases evict_cases io s with hnone | ⟨j, hmem, hpin, hrest⟩
  · exact .inl hnone
  have hj := hall j (hp.listed j hmem)
  obtain ⟨name, hname, -, -⟩ := hc.cached j hj
  have hkey : ∀ k, (s.frames k).allocated = true → k ≠ j →
      ((s.frame k).fileDesc, (s.frame k).page.pageNum) ≠ ((s.frame j).fileDesc, (s.frame j).page.pageNum) := by
    intro k hk hne heq
    obtain ⟨h₁, h₂⟩ := Prod.mk.inj heq
    exact hne (hc.unique hk hj h₁ h₂)
  have hnot : ¬Changed hs j := by
    rintro ⟨h, hh, rfl, hch⟩
    exact hp.handle_ne hpin hh (hc.changedOpen h hh hch) rfl
  have herase : ∀ t : DiskBufferPool, Coherent (t.setAllocated j false) hs last →
      (∀ k, (t.frame k).fileDesc = (s.frame k).fileDesc ∧ (t.frame k).page = (s.frame k).page) →
      (∀ k, (t.frames k).allocated = (s.frames k).allocated) →
      Coherent ((t.setAllocated j false).setMap ((s.frame j).fileDesc, (s.frame j).page.pageNum) none) hs last := by
    intro t ht hframe hallocated
    refine ht.eraseMap fun k hk => ?_
    rw [allocated_setAllocated] at hk
    split at hk
    · cases hk
    · rename_i hne
      rw [hallocated] at hk
      rw [frame_setAllocated, (hframe k).1, (hframe k).2]
      exact hkey k hk hne
  rcases hrest with ⟨hdirty, hrun⟩ | ⟨-, rc, s₂, hflush, hrest⟩
  · exact .inr ⟨j, _, hrun, hj,
      herase s (hc.release hj hname (hc.clean j name hj hname hdirty hnot)) (fun _ => ⟨rfl, rfl⟩) fun _ => rfl⟩
  · have hok : (s.setMap ((s.frame j).fileDesc, (s.frame j).page.pageNum) none).flushBlock io.evictWrite io.torn j =
        (.success, ((s.setMap ((s.frame j).fileDesc, (s.frame j).page.pageNum) none).writeFile name
          (s.frame j).page).setDirty j false) := by
      have hfds : (s.setMap ((s.frame j).fileDesc, (s.frame j).page.pageNum) none).fds
          ((s.setMap ((s.frame j).fileDesc, (s.frame j).page.pageNum) none).frame j).fileDesc = some name := hname
      simp only [flushBlock, hfds, hwrite, if_true]
      rfl
    obtain ⟨rfl, rfl⟩ := Prod.mk.inj (hok.symm.trans hflush)
    rcases hrest with ⟨-, hrun⟩ | ⟨hne, -⟩
    · have hc₁ := hc.flush hj hname
      have hframe := fun k => flushed_keeps (s := s) (i := j) name (s.frame j).page k
      have hallocated := (hframe j).2.2.trans hj
      have hc₂ := hc₁.release hallocated ((congrArg s.fds (hframe j).1).trans hname) (by
        rw [(hframe j).2.1]
        exact if_pos ⟨rfl, rfl⟩)
      exact .inr ⟨j, _, hrun, hallocated, herase _ hc₂ (fun k => ⟨(hframe k).1, (hframe k).2.1⟩) fun k =>
        (hframe k).2.2⟩
    · exact absurd rfl hne

omit hc in
theorem setAllocated_back (hi : (s.frames i).allocated = true) : (s.setAllocated i false).setAllocated i true = s := by
  have hframes : ((s.setAllocated i false).setAllocated i true).frames = s.frames := by
    funext j
    by_cases hji : j = i
    · subst hji
      simp [setAllocated, set_same, ← hi]
    · simp [setAllocated, set_ne hji]
  show { s with frames := ((s.setAllocated i false).setAllocated i true).frames } = s
  rw [hframes]

theorem alloc (hp : Pinned s hs) {io : Io} (hwrite : io.evictWrite = true) (fd : Nat)
    (p : PageNum) : s.alloc io fd p = (none, s) ∨
    ∃ i s₀, s.alloc io fd p = (some i, (s₀.setAllocated i true).assign fd p i) ∧ Coherent s₀ hs last ∧
      (s₀.frames i).allocated = false ∧ OnlyFrame i s s₀ := by
  rcases alloc_cases io fd p s with ⟨i, hfind, hrun⟩ | ⟨hfind, hrest⟩
  · exact .inr ⟨i, s, hrun, hc, (findUnallocated_some hfind).2, OnlyFrame.refl⟩
  rcases hc.evict hp hwrite fun j hj => findUnallocated_none hfind hj with hnone | ⟨j, s₁, hevict, hj, hc₁⟩
  · rcases hrest with ⟨s₁, hevict, hrun⟩ | ⟨i, s₁, hevict, -⟩
    · obtain rfl : s = s₁ := by simpa using hnone.symm.trans hevict
      exact .inl hrun
    · cases hnone.symm.trans hevict
  · rcases hrest with ⟨s₁, hevict', -⟩ | ⟨i, s₁', hevict', hrun⟩
    · cases hevict.symm.trans hevict'
    · obtain ⟨rfl, rfl⟩ : j = i ∧ s₁ = s₁' := by simpa using hevict.symm.trans hevict'
      refine .inr ⟨j, s₁.setAllocated j false, ?_, hc₁, ?_,
        (evict_some hevict).2.2.2.trans (onlyFrame_setAllocated false)⟩
      · rw [setAllocated_back hj]
        exact hrun
      · rw [allocated_setAllocated, if_pos rfl]

theorem fetch {fd : Nat} {p : PageNum}
    (hi : (s.frames i).allocated = false) (hname : s.fds fd = some name)
    (hfresh : s.Uncached fd p)
    (honly : OnlyFrame i ((s.setAllocated i true).assign fd p i) s')
    (hframe : (s'.frame i).fileDesc = fd ∧ (s'.frame i).page = q) (hallocated : (s'.frames i).allocated = true)
    (hmap : s'.listMap = ((s.setAllocated i true).assign fd p i).listMap)
    (hnum : q.pageNum = p) (hfiles : UpdatedPage name p q s.files s'.files) (hlast : UpdatedPage name p q last last') :
    Coherent s' hs last' := by
  have honly' := ((onlyFrame_setAllocated (s := s) (i := i) true).trans (onlyFrame_assign fd p)).trans honly
  exact hc.take hi hname hfresh honly'.frames hallocated hframe hnum (fun k => by rw [hmap]; rfl) honly'.fds
    hfiles hlast

end

end Coherent

/-- The slots of open files and the descriptors of the system match: a slot is one of `MAX_OPEN_FILE`, a file is open in
    one slot only, and a descriptor in use is that of an open file. -/
structure OpenFiles (s : DiskBufferPool) : Prop where
  slots : ∀ k file, s.openList k = some file → k < maxOpenFile
  names : ∀ k k' file file', s.openList k = some file → s.openList k' = some file' →
    file.fileName = file'.fileName → k = k'
  owned : ∀ d n, s.fds d = some n → ∃ k file, s.openList k = some file ∧ file.fileDesc = d ∧ file.fileName = n

theorem OpenFiles.congr {s s' : DiskBufferPool} (ho : OpenFiles s) (hlist : s'.openList = s.openList)
    (hfds : s'.fds = s.fds) : OpenFiles s' := by
  refine ⟨?_, ?_, ?_⟩
  · rw [hlist]
    exact ho.slots
  · rw [hlist]
    exact ho.names
  · rw [hlist, hfds]
    exact ho.owned

/-- What the calls of the system do, as far as a call of the pool reaches them: they succeed. -/
def Io.Succeeds (io : Io) : Prop :=
  io.read = true ∧ io.evictWrite = true ∧ (∀ i, io.forceWrite i = true) ∧ io.extendWrite = true ∧
    io.disposeWrite = true ∧ io.close = true

/-- The condition on a call: the pins are kept, files are read and written without errors, clients mark what they change
    through open handles, `dispose_page` finds no stale entry, and a free page is taken while the header is dirty
    anyway. -/
def ContentsOk (s : PoolSystem) (a : PoolAct) : Prop :=
  PinsOk s a ∧ match a with
  | .createFile failure name => failure = none → ∀ k file, s.pool.openList k = some file → file.fileName ≠ name
  | .openFile io _ => io.Succeeds
  | .closeFile io _ => io.Succeeds
  | .getThisPage io _ _ => io.Succeeds
  | .allocatePage io k => io.Succeeds ∧ ∀ file, s.pool.checkFileId k = some file →
      ((s.pool.freePage file).isSome = true → (s.pool.frame file.hdrFrame).dirty = true) ∧
      ∀ i, (s.pool.frames i).allocated = true → (s.pool.frame i).fileDesc = file.fileDesc →
        s.pool.freePage file = none → (s.pool.frame i).page.pageNum ≠ (s.pool.header file).pageCount
  | .write k _ => ∀ h, s.handles[k]? = some h → h.isOpen = true
  | .markDirty _ => True
  | .unpinPage k => ∀ h, s.handles[k]? = some h → h.changed = false
  | .disposePage k p => ∀ file, s.pool.checkFileId k = some file → ∀ i, s.pool.listMap (file.fileDesc, p) = some i →
      (s.pool.frames i).allocated = true ∧ (s.pool.frame i).fileDesc = file.fileDesc ∧ (s.pool.frame i).page.pageNum = p
  | .flushAllPages _ _ => True

end MiniOb
