import MiniOb.Theorems.BitmapBounds

/-! # Requests for a page that fail

`get_this_page` and `allocate_page` change the pool step by step before the last step can fail, and take nothing
back. -/

namespace MiniOb
open Slots

theorem PageData.int_emod (d : PageData) (off : Nat) : d.int off % 256 = (d off).toNat := by
  have h := (d off).toNat_lt
  simp only [PageData.int, readInt, readUInt, List.getD_cons_zero, List.getD_cons_succ]
  split <;> omega

theorem PageData.int_setInt_succ (d : PageData) (off : Nat) : (d.setInt off (d.int off + 1)).int off ≠ d.int off := by
  intro h
  have hbyte : d.setInt off (d.int off + 1) off = UInt8.ofNat ((d.int off + 1) % 4294967296).toNat := by
    rw [setInt, if_neg (by omega), Nat.sub_self, Nat.pow_zero, Nat.div_one]
  have hlow := (d.setInt off (d.int off + 1)).int_emod off
  rw [h, hbyte, UInt8.toNat_ofNat'] at hlow
  omega

theorem Page.allocatedPages_extend_ne (p : Page) : p.extend.allocatedPages ≠ p.allocatedPages := by
  have hcount : p.extend.allocatedPages = (p.setAllocatedPages (p.allocatedPages + 1)).allocatedPages := by
    rw [extend, allocatedPages_setBit]
    exact PageData.int_setInt_ne (.inr (by omega))
  rw [hcount]
  exact p.data.int_setInt_succ 4

namespace DiskBufferPool
variable {s s' s₁ : DiskBufferPool} {io : Io} {fd i k : Nat} {p : PageNum} {file : BPFileHandle}

inductive Request
  | get (fileId : Nat) (pageNum : PageNum)
  | allocate (fileId : Nat)

def request (io : Io) (s : DiskBufferPool) : Request → Except RC Nat × DiskBufferPool
  | .get fileId pageNum => s.getThisPage io fileId pageNum
  | .allocate fileId => s.allocatePage io fileId

def Request.page (s : DiskBufferPool) : Request → Option (Nat × PageNum)
  | .get fileId pageNum => (s.checkFileId fileId).map fun file => (file.fileDesc, pageNum)
  | .allocate fileId => (s.checkFileId fileId).map fun file =>
    (file.fileDesc, match s.freePage file with
      | some p => (p : Int)
      | none => (s.header file).pageCount)

def key (s : DiskBufferPool) (i : Nat) : Nat × PageNum := ((s.frame i).fileDesc, (s.frame i).page.pageNum)

/-- The page is up to date in a dirty frame only, which `list_map` finds. -/
structure OnlyCopy (s : DiskBufferPool) (page : Nat × PageNum) (i : Nat) : Prop where
  found : s.listMap page = some i
  allocated : (s.frames i).allocated = true
  dirty : (s.frame i).dirty = true
  key : s.key i = page

/-- A failed request has changed nothing: the counters and the bitmaps of the open files are as before, every page whose
    only copy was in a dirty frame is found there, and there is no new entry for the requested page. -/
structure Kept (s s' : DiskBufferPool) (requested : Option (Nat × PageNum)) : Prop where
  header : ∀ n file, s.openList n = some file → (s'.header file).pageCount = (s.header file).pageCount ∧
    (s'.header file).allocatedPages = (s.header file).allocatedPages ∧ (s'.header file).bit = (s.header file).bit
  copies : ∀ page i, s.OnlyCopy page i → s'.listMap page = some i
  entry : ∀ page ∈ requested, s.listMap page = none → s'.listMap page = none

theorem Kept.refl (s : DiskBufferPool) (requested : Option (Nat × PageNum)) : s.Kept s requested :=
  ⟨fun _ _ _ => ⟨rfl, rfl, rfl⟩, fun _ _ h => h.found, fun _ _ h => h⟩

def victim (s : DiskBufferPool) : Option Nat := s.frameList.reverse.find? fun i => decide ((s.frame i).pinCount = 0)

def WriteFails (io : Io) (s : DiskBufferPool) (i : Nat) : Prop :=
  io.evictWrite = false ∨ s.fds (s.frame i).fileDesc = none

/-- There is no frame to be had, and looking for one does no harm: every frame is allocated and pinned, or the page of
    the frame that cannot be written has been lost before. -/
def NoFrame (io : Io) (s : DiskBufferPool) : Prop :=
  s.findUnallocated = none ∧ ∀ v ∈ s.victim, (s.frame v).dirty = true ∧ s.WriteFails io v ∧
    ∀ i, ¬ s.OnlyCopy (s.key v) i

theorem flushBlock_fails {torn : PageData} (h : s.flushBlock io.evictWrite torn i = (.ioerrWrite, s₁)) :
    s.WriteFails io i ∧ ∃ files, s₁ = { s with files := files } := by
  rcases flushBlock_cases io.evictWrite torn i s with ⟨hfd, hrun⟩ | ⟨name, -, ⟨-, hrun⟩ | ⟨hok, hrun⟩⟩
  · cases h.symm.trans hrun
    exact ⟨.inr hfd, _, rfl⟩
  · cases h.symm.trans hrun
  · cases h.symm.trans hrun
    exact ⟨.inl hok, _, rfl⟩

/-- The next write of the page covers what the failed one has left on disk. -/
theorem flushBlock_again {torn : PageData} (h : s.flushBlock io.evictWrite torn i = (.ioerrWrite, s₁)) (ok : Bool)
    (torn' : PageData) : s₁.flushBlock ok torn' i = s.flushBlock ok torn' i := by
  rcases flushBlock_cases io.evictWrite torn i s with ⟨-, hrun⟩ | ⟨name, hname, ⟨-, hrun⟩ | ⟨-, hrun⟩⟩
  · cases h.symm.trans hrun
    rfl
  · cases h.symm.trans hrun
  · cases h.symm.trans hrun
    have hcovers : ∀ d q, q.pageNum = (s.frame i).page.pageNum →
        (s.writeFile name ⟨(s.frame i).page.pageNum, d⟩).writeFile name q = s.writeFile name q := by
      intro d q heq
      simp only [writeFile, heq]
      congr
      funext n m
      split <;> rfl
    have hfd : (s.writeFile name ⟨(s.frame i).page.pageNum, torn⟩).fds (s.frame i).fileDesc = some name := hname
    simp only [flushBlock, hname, hfd, show ∀ q, (s.writeFile name q).frame i = s.frame i from fun _ => rfl, hcovers]

theorem evict_dirty {v : Nat} (hv : s.victim = some v) (hdirty : (s.frame v).dirty = true) :
    s.evict io = let r := (s.setMap (s.key v) none).flushBlock io.evictWrite io.torn v
      (if r.1 = .success then some v else none, r.2) := by
  unfold evict
  unfold victim at hv
  rw [hv]
  dsimp only
  rw [hdirty, if_pos rfl]
  unfold key
  split
  · rename_i hrun
    rw [hrun]
    rfl
  · rename_i hne hrun
    rw [hrun, if_neg hne]

theorem evict_none_cases (h : s.evict io = (none, s₁)) :
    s.victim = none ∧ s₁ = s ∨
    ∃ v, s.victim = some v ∧ (s.frame v).dirty = true ∧
      (s.setMap (s.key v) none).flushBlock io.evictWrite io.torn v = (.ioerrWrite, s₁) := by
  cases hv : s.victim with
  | none =>
    unfold evict at h
    unfold victim at hv
    rw [hv] at h
    cases h
    exact .inl ⟨rfl, rfl⟩
  | some v =>
    refine .inr ⟨v, rfl, ?_⟩
    cases hdirty : (s.frame v).dirty with
    | false =>
      unfold evict at h
      unfold victim at hv
      rw [hv] at h
      dsimp only at h
      rw [hdirty] at h
      cases h
    | true =>
      rw [evict_dirty hv hdirty] at h
      rcases flushBlock_cases io.evictWrite io.torn v (s.setMap (s.key v) none) with ⟨-, hrun⟩
        | ⟨name, -, ⟨-, hrun⟩ | ⟨-, hrun⟩⟩
      all_goals
        rw [hrun] at h
        cases h
      · exact ⟨rfl, hrun⟩
      · exact ⟨rfl, hrun⟩

/-- A frame that could not be had is looked for as if for the first time. -/
theorem evict_again (h : s.evict io = (none, s₁)) (io' : Io) : s₁.evict io' = s.evict io' := by
  rcases evict_none_cases h with ⟨-, rfl⟩ | ⟨v, hv, hdirty, hflush⟩
  · rfl
  · have hagain := flushBlock_again hflush io'.evictWrite io'.torn
    obtain ⟨-, files, hs⟩ := flushBlock_fails hflush
    have herased : s₁.setMap (s.key v) none = s₁ := by
      rw [hs]
      simp only [setMap]
      congr
      funext page
      split <;> rfl
    have hv₁ : s₁.victim = some v := by rw [hs]; exact hv
    have hframe : s₁.frame v = s.frame v := by rw [hs]; rfl
    have hkey : s₁.key v = s.key v := by rw [hs]; rfl
    rw [evict_dirty hv₁ (hframe ▸ hdirty), evict_dirty hv hdirty, hkey, herased, hagain]

section
variable (h : s.alloc io fd p = (none, s₁))
include h

theorem alloc_none_cases : s.findUnallocated = none ∧ s.evict io = (none, s₁) := by
  rcases alloc_cases io fd p s with ⟨j, -, hrun⟩ | ⟨hfind, ⟨s₂, hevict, hrun⟩ | ⟨j, s₂, -, hrun⟩⟩
  · cases hrun.symm.trans h
  · cases hrun.symm.trans h
    exact ⟨hfind, hevict⟩
  · cases hrun.symm.trans h

omit h in
theorem evict_noFrame (h : NoFrame io s) : (s.evict io).1 = none := by
  cases hv : s.victim with
  | none =>
    unfold evict
    unfold victim at hv
    rw [hv]
  | some v =>
    obtain ⟨hdirty, hfails, -⟩ := h.2 v hv
    rw [evict_dirty hv hdirty]
    refine if_neg fun hok => ?_
    rcases flushBlock_cases io.evictWrite io.torn v (s.setMap (s.key v) none) with ⟨-, hrun⟩
      | ⟨name, hname, ⟨hwrite, -⟩ | ⟨-, hrun⟩⟩
    · rw [hrun] at hok
      cases hok
    · rcases hfails with hfails | hfails
      · cases hfails.symm.trans hwrite
      · cases hfails.symm.trans hname
    · rw [hrun] at hok
      cases hok

omit h in
theorem alloc_noFrame (h : NoFrame io s) : (s.alloc io fd p).1 = none := by
  have hevict := evict_noFrame h
  unfold alloc
  rw [h.1]
  rcases hrun : s.evict io with ⟨r, s₂⟩
  rw [hrun] at hevict
  cases hevict
  rfl

theorem alloc_kept_iff {requested : Option (Nat × PageNum)} :
    s.Kept s₁ requested ↔ NoFrame io s := by
  obtain ⟨hfind, hevict⟩ := alloc_none_cases h
  rcases evict_none_cases hevict with ⟨hnone, rfl⟩ | ⟨v, hv, hdirty, hflush⟩
  · refine iff_of_true (.refl _ _) ⟨hfind, fun v hv => ?_⟩
    cases hnone.symm.trans hv
  · obtain ⟨hfails, files, hs⟩ := flushBlock_fails hflush
    have herased : s₁.listMap (s.key v) = none := by rw [hs]; exact if_pos rfl
    have hother : ∀ page, page ≠ s.key v → s₁.listMap page = s.listMap page := fun page hne => by
      rw [hs]; exact if_neg hne
    constructor
    · intro hkept
      refine ⟨hfind, fun w hw => ?_⟩
      obtain rfl : v = w := Option.some.inj (hv.symm.trans hw)
      refine ⟨hdirty, hfails, fun j hj => ?_⟩
      cases herased.symm.trans (hkept.copies _ j hj)
    · rintro ⟨-, hlost⟩
      obtain ⟨-, -, hlost⟩ := hlost v hv
      refine ⟨fun n file _ => ?_, fun page j hj => ?_, fun page _ hpage => ?_⟩
      · have hheader : s₁.header file = s.header file := by rw [hs]; rfl
        rw [hheader]
        exact ⟨rfl, rfl, rfl⟩
      · have hne : page ≠ s.key v := by
          rintro rfl
          exact hlost j hj
        rw [hother page hne]
        exact hj.found
      · by_cases hne : page = s.key v
        · rw [hne, herased]
        · rw [hother page hne, hpage]

theorem alloc_none_state :
    ∃ listMap files, s₁ = { s with listMap := listMap, files := files } ∧ ∀ page, s.listMap page = none →
      listMap page = none := by
  rcases evict_none_cases (alloc_none_cases h).2 with ⟨-, rfl⟩ | ⟨v, -, -, hflush⟩
  · exact ⟨_, _, rfl, fun _ h => h⟩
  · obtain ⟨-, files, rfl⟩ := flushBlock_fails hflush
    refine ⟨_, files, rfl, fun page hpage => ?_⟩
    dsimp only [setMap]
    split
    · rfl
    · exact hpage

theorem alloc_again (io' : Io) (fd' : Nat) (p' : PageNum) :
    s₁.alloc io' fd' p' = s.alloc io' fd' p' := by
  obtain ⟨hfind, hevict⟩ := alloc_none_cases h
  obtain ⟨_, _, hs, -⟩ := alloc_none_state h
  have hfind₁ : s₁.findUnallocated = none := by rw [hs]; exact hfind
  unfold alloc
  rw [hfind, hfind₁, evict_again hevict]

end

theorem alloc_listMap (h : s.alloc io fd p = (some i, s₁)) : s₁.listMap (fd, p) = some i := by
  have hassign : ∀ t : DiskBufferPool, (t.assign fd p i).listMap (fd, p) = some i := fun t => if_pos rfl
  rcases alloc_cases io fd p s with ⟨j, -, hrun⟩ | ⟨-, ⟨s₂, -, hrun⟩ | ⟨j, s₂, -, hrun⟩⟩
  · cases hrun.symm.trans h
    exact hassign _
  · cases hrun.symm.trans h
  · cases hrun.symm.trans h
    exact hassign _

theorem flushBlock_listMap (ok : Bool) (torn : PageData) (i : Nat) (s : DiskBufferPool) :
    (s.flushBlock ok torn i).2.listMap = s.listMap := by
  rcases flushBlock_cases ok torn i s with ⟨-, h⟩ | ⟨name, -, ⟨-, h⟩ | ⟨-, h⟩⟩ <;> rw [h] <;> rfl

theorem loadPage_listMap (io : Io) (p : PageNum) (fd i : Nat) (s : DiskBufferPool) :
    (s.loadPage io p fd i).2.listMap = s.listMap := by
  unfold loadPage
  split
  · rfl
  · split <;> rfl

theorem disposeBlock_listMap (io : Io) (i : Nat) (s : DiskBufferPool) :
    (s.disposeBlock io i).2.listMap = s.listMap := by
  have hflush := flushBlock_listMap io.disposeWrite io.torn i s
  unfold disposeBlock
  split
  · rfl
  · split
    · split
      · rename_i hrun
        rw [hrun] at hflush
        exact hflush
      · rename_i hrun
        rw [hrun] at hflush
        exact hflush
    · rfl

theorem getThisPage_error {rc : RC} (hk : s.checkFileId k = some file) (h : s.getThisPage io k p = (.error rc, s')) :
    s.checkPageNum p file = false ∧ s' = s ∨
    s.checkPageNum p file = true ∧ s.listMap (file.fileDesc, p) = none ∧
      (s.alloc io file.fileDesc p = (none, s') ∨
        (s.alloc io file.fileDesc p).1 ≠ none ∧ s'.listMap (file.fileDesc, p) ≠ none) := by
  cases hcheck : s.checkPageNum p file with
  | false =>
    simp only [getThisPage, hk, hcheck, Bool.not_false, if_true] at h
    cases h
    exact .inl ⟨rfl, rfl⟩
  | true =>
    simp only [getThisPage, hk, hcheck, Bool.not_true, Bool.false_eq_true, if_false, get] at h
    cases hmap : s.listMap (file.fileDesc, p) with
    | some i =>
      simp only [hmap, Option.map_some] at h
      cases h
    | none =>
      simp only [hmap, Option.map_none] at h
      refine .inr ⟨rfl, rfl, ?_⟩
      rcases halloc : s.alloc io file.fileDesc p with ⟨r, s₁⟩
      cases r with
      | none =>
        rw [halloc] at h
        cases h
        exact .inl rfl
      | some i =>
        rw [halloc] at h
        refine .inr ⟨Option.some_ne_none i, ?_⟩
        have hload := loadPage_listMap io p file.fileDesc i (s₁.setPins i 1)
        dsimp only at h
        split at h
        · cases h
        · rename_i s₂ _ hrun
          cases h
          rw [hrun] at hload
          rw [disposeBlock_listMap]
          have hfound := alloc_listMap halloc
          have hentry : (s₂.setPins i 0).listMap (file.fileDesc, p) = some i := (congrFun hload _).trans hfound
          rw [hentry]
          exact Option.some_ne_none i

/-- The request is turned down before anything has changed: the file or the page number is none, or there is no frame,
    and for `allocate_page` no free page either. -/
def Refused (io : Io) (s : DiskBufferPool) : Request → Prop
  | .get k p => ∀ file, s.checkFileId k = some file → s.checkPageNum p file = false ∨ NoFrame io s
  | .allocate k => ∀ file, s.checkFileId k = some file → s.freePage file = none ∧ NoFrame io s

/-- The header frame of an open file is in use, so that no page gets it. -/
def HeadersHeld (s : DiskBufferPool) : Prop :=
  ∀ k file, s.openList k = some file → (s.frames file.hdrFrame).allocated = true ∧ (s.frame file.hdrFrame).pinCount ≠ 0

theorem getThisPage_refused {rc : RC} (h : s.getThisPage io k p = (.error rc, s'))
    (hkept : s.Kept s' (Request.page s (.get k p))) : s.Refused io (.get k p) := by
  intro file hk
  rcases getThisPage_error hk h with ⟨hcheck, -⟩ | ⟨-, hmap, halloc | ⟨-, hentry⟩⟩
  · exact .inl hcheck
  · exact .inr ((alloc_kept_iff halloc).1 hkept)
  · exact absurd (hkept.entry _ (by simp [Request.page, hk]) hmap) hentry

theorem HeadersHeld.alloc_ne (held : s.HeadersHeld) (hopen : s.openList k = some file)
    (h : s.alloc io fd p = (some i, s₁)) : file.hdrFrame ≠ i ∧ s₁.header file = s.header file := by
  obtain ⟨hallocated, hpin⟩ := held k file hopen
  rcases alloc_cases io fd p s with ⟨j, hfind, hrun⟩ | ⟨-, ⟨s₂, -, hrun⟩ | ⟨j, s₂, hevict, hrun⟩⟩
  · cases hrun.symm.trans h
    have hne : file.hdrFrame ≠ i := by
      rintro rfl
      cases (findUnallocated_some hfind).2.symm.trans hallocated
    exact ⟨hne, ((onlyFrame_setAllocated true).trans (onlyFrame_assign fd p)).header hne⟩
  · cases hrun.symm.trans h
  · cases hrun.symm.trans h
    obtain ⟨-, hunpinned, -, honly⟩ := evict_some hevict
    have hne : file.hdrFrame ≠ i := by
      rintro rfl
      exact hpin hunpinned
    exact ⟨hne, (honly.trans (onlyFrame_assign fd p)).header hne⟩

theorem freePage_bit {n : Nat} (h : s.freePage file = some n) : (s.header file).bit n = false := by
  unfold freePage at h
  dsimp only at h
  split at h
  · rename_i hfree
    cases h
    simpa using firstIdx_spec hfree.2
  · cases h

theorem allocatePage_free_not_kept {rc : RC} {n : Nat} (hk : s.checkFileId k = some file)
    (hfree : s.freePage file = some n) (h : s.allocatePage io k = (.error rc, s')) :
    ¬ s.Kept s' (Request.page s (.allocate k)) := by
  intro hkept
  have hrun : (s.setPage file.hdrFrame ((s.header file).takeFree n)).getThisPage io k n = (.error rc, s') := by
    simpa only [allocatePage, hk, hfree] using h
  have htaken : (s.setPage file.hdrFrame ((s.header file).takeFree n)).header file = (s.header file).takeFree n := by
    simp [DiskBufferPool.header, setPage]
  have hbit : s'.header file ≠ (s.header file).takeFree n := by
    intro hheader
    have hsame := congrFun (hkept.header k file (checkFileId_some hk)).2.2 n
    rw [hheader, Page.bit_takeFree, freePage_bit hfree] at hsame
    simp at hsame
  rcases getThisPage_error (s := s.setPage file.hdrFrame ((s.header file).takeFree n)) hk hrun with
    ⟨-, rfl⟩ | ⟨-, hmap, halloc | ⟨-, hentry⟩⟩
  · exact hbit htaken
  · exact hbit ((alloc_none_header halloc).trans htaken)
  · exact hentry (hkept.entry _ (by simp [Request.page, hk, hfree]) hmap)

theorem allocatePage_extend_not_kept {rc : RC} (held : s.HeadersHeld) (hk : s.checkFileId k = some file)
    (hfree : s.freePage file = none) (halloc : s.alloc io file.fileDesc (s.header file).pageCount = (some i, s₁))
    (h : s.allocatePage io k = (.error rc, s')) : ¬ s.Kept s' (Request.page s (.allocate k)) := by
  intro hkept
  have hopen := checkFileId_some hk
  obtain ⟨hne, hheader⟩ := held.alloc_ne hopen halloc
  have hcounted : s'.header file = (s.header file).extend := by
    simp only [allocatePage, hk, hfree, halloc] at h
    generalize hadded : (DiskBufferPool.modFrame i _ _) = t at h
    have ht : t.header file = (s₁.header file).extend := hadded ▸ added_header hne _ _
    have hflush := flushBlock_header io.extendWrite io.torn i t file
    split at h
    · cases h
    · rename_i hrun
      cases h
      rw [hrun] at hflush
      rw [← hheader, ← ht]
      exact hflush
  have hsame := (hkept.header k file hopen).2.1
  rw [hcounted] at hsame
  exact (s.header file).allocatedPages_extend_ne hsame

theorem allocatePage_refused {rc : RC} (held : s.HeadersHeld) (h : s.allocatePage io k = (.error rc, s'))
    (hkept : s.Kept s' (Request.page s (.allocate k))) : s.Refused io (.allocate k) := by
  intro file hk
  cases hfree : s.freePage file with
  | some n => exact absurd hkept (allocatePage_free_not_kept hk hfree h)
  | none =>
    rcases halloc : s.alloc io file.fileDesc (s.header file).pageCount with ⟨_ | i, s₁⟩
    · simp only [allocatePage, hk, hfree, halloc] at h
      cases h
      exact ⟨rfl, (alloc_kept_iff halloc).1 hkept⟩
    · exact absurd hkept (allocatePage_extend_not_kept held hk hfree halloc h)

theorem Refused.kept {r : Request} {rc : RC} (hr : s.Refused io r) (h : s.request io r = (.error rc, s')) :
    s.Kept s' (r.page s) ∧ ∀ io', s'.request io' r = s.request io' r := by
  cases r with
  | get k p =>
    cases hk : s.checkFileId k with
    | none =>
      rw [request, getThisPage, hk] at h
      cases h
      exact ⟨.refl _ _, fun _ => rfl⟩
    | some file =>
      rcases getThisPage_error hk h with ⟨-, rfl⟩ | ⟨hcheck, hmap, halloc⟩
      · exact ⟨.refl _ _, fun _ => rfl⟩
      · have hno : NoFrame io s := (hr file hk).resolve_left (by simp [hcheck])
        have halloc := halloc.resolve_right fun hsome => hsome.1 (alloc_noFrame hno)
        obtain ⟨listMap, files, hs, hnone⟩ := alloc_none_state halloc
        have hk' : s'.checkFileId k = some file := by rw [hs]; exact hk
        have hcheck' : s'.checkPageNum p file = true := by rw [hs]; exact hcheck
        have hmap' : s'.listMap (file.fileDesc, p) = none := by rw [hs]; exact hnone _ hmap
        refine ⟨(alloc_kept_iff halloc).2 hno, fun io' => ?_⟩
        simp only [request, getThisPage, get, hk, hk', hcheck, hcheck', hmap, hmap', alloc_again halloc]
        rfl
  | allocate k =>
    cases hk : s.checkFileId k with
    | none =>
      rw [request, allocatePage, hk] at h
      cases h
      exact ⟨.refl _ _, fun _ => rfl⟩
    | some file =>
      obtain ⟨hfree, hno⟩ := hr file hk
      have hnone : (s.alloc io file.fileDesc (s.header file).pageCount).1 = none := alloc_noFrame hno
      rcases halloc : s.alloc io file.fileDesc (s.header file).pageCount with ⟨_ | i, s₁⟩
      · simp only [request, allocatePage, hk, hfree, halloc] at h
        cases h
        obtain ⟨listMap, files, hs, -⟩ := alloc_none_state halloc
        have hk' : s'.checkFileId k = some file := by rw [hs]; exact hk
        have hfree' : s'.freePage file = none := by rw [hs]; exact hfree
        have hheader : s'.header file = s.header file := by rw [hs]; rfl
        refine ⟨(alloc_kept_iff halloc).2 hno, fun io' => ?_⟩
        simp only [request, allocatePage, hk, hk', hfree, hfree', hheader, alloc_again halloc]
      · rw [halloc] at hnone
        cases hnone

/-- A failed request leaves the pool as it was exactly if it is turned down before anything has changed, and then it
    does what it would have done at first whenever it is repeated. That a file is extended in vain shows in its header
    only if no page can get the header's frame. -/
theorem request_kept_iff {r : Request} {rc : RC} (h : (s.request io r).1 = .error rc) :
    (s.Refused io r →
      s.Kept (s.request io r).2 (r.page s) ∧ ∀ io', (s.request io r).2.request io' r = s.request io' r) ∧
    (s.HeadersHeld → s.Kept (s.request io r).2 (r.page s) → s.Refused io r) := by
  rcases hrun : s.request io r with ⟨result, s'⟩
  rw [hrun] at h
  obtain rfl : result = .error rc := h
  refine ⟨fun hr => Refused.kept hr hrun, fun held hkept => ?_⟩
  cases r with
  | get k p => exact getThisPage_refused hrun hkept
  | allocate k => exact allocatePage_refused held hrun hkept

end DiskBufferPool

open DiskBufferPool

theorem Pinned.headersHeld {s : DiskBufferPool} {hs : List PageHandle} (hp : Pinned s hs) : s.HeadersHeld := by
  intro k file hk
  have hpin := hp.headerPin k file hk
  have hpos : 0 < (s.frame file.hdrFrame).pinCount := by omega
  exact ⟨hp.allocated _ hpos, Nat.ne_of_gt hpos⟩

def opened (size : Nat) : PoolSystem :=
  (PoolSystem.init size (fun _ => ⟨false, 0, 0, Page.zero 0⟩) twoPages).step (.openFile (steadyIo 3) "t")

theorem request_kept_pinned :
    (opened 1).pool.HeadersHeld ∧
      (opened 1).pool.Kept ((opened 1).pool.request (steadyIo 3) (.get 0 1)).2 (some (3, 1)) := by
  have hp : Pinned (opened 1).pool (opened 1).handles :=
    pinned_step _ (.openFile (steadyIo 3) "t") (pinned_init 1 (fun _ => rfl) fun _ _ => rfl) fun _ _ => rfl
  have hfail : ((opened 1).pool.request (steadyIo 3) (.get 0 1)).1 = .error .genericError := by decide +kernel
  have hpage : Request.page (opened 1).pool (.get 0 1) = some (3, 1) := by decide +kernel
  rw [← hpage]
  refine ⟨hp.headersHeld, ((request_kept_iff hfail).1 fun file _ => .inr ⟨by decide +kernel, fun v hv => ?_⟩).1⟩
  have hnone : (opened 1).pool.victim = none := by decide +kernel
  cases hnone.symm.trans hv

def failedRead : Except RC Nat × DiskBufferPool := (opened 2).pool.request { steadyIo 3 with read := false } (.get 0 1)

/-- The read fails and leaves an entry for the page: the same request finds the entry afterwards, and what comes back is
    not the page that it would have been at first. -/
theorem request_retried :
    failedRead.1 = .error .ioerrRead ∧ (opened 2).pool.listMap (3, 1) = none ∧ failedRead.2.listMap (3, 1) = some 1 ∧
      (failedRead.2.request (steadyIo 3) (.get 0 1)).1 = .ok 1 ∧
      ((failedRead.2.request (steadyIo 3) (.get 0 1)).2.frame 1).page.pageNum = 0 ∧
      (((opened 2).pool.request (steadyIo 3) (.get 0 1)).2.frame 1).page.pageNum = 1 := by
  decide +kernel

end MiniOb
