import MiniOb.Lib.Recency
import MiniOb.Lib.Run
import MiniOb.Storage.BPManager
import MiniOb.Storage.BufferPool

/-! # The replacement policy

`frame_list` holds all frames in the order in which they were last touched, so that `evict` finds the least recently
touched frame without pins. -/

namespace MiniOb
open Slots Recency List Function Run

namespace BPManager
variable {m : BPManager} {l : List Nat} {fileDesc : Int} {i : Nat}

theorem key_inj {pageNum fileDesc' pageNum' : Int} (hf : IsInt fileDesc) (hp : IsInt pageNum) (hf' : IsInt fileDesc')
    (hp' : IsInt pageNum') : key fileDesc pageNum = key fileDesc' pageNum' ↔ fileDesc = fileDesc' ∧
      pageNum = pageNum' := by
  unfold IsInt at hf hp hf' hp'
  unfold key
  omega

structure Holds (m : BPManager) (l : List Nat) : Prop where
  rep : m.links.Rep none (l.map some)
  all : l.Perm (List.range m.size)

theorem Holds.mem (holds : m.Holds l) : i ∈ l ↔ i < m.size := by
  rw [holds.all.mem_iff, mem_range]

theorem Holds.nodup (holds : m.Holds l) : l.Nodup := holds.all.nodup_iff.mpr nodup_range

theorem create_holds (size : Nat) (raw : Nat → LRUFrame) (links : Ring (Option Nat)) :
    (create size raw links).Holds (List.range size) where
  rep := by
    unfold create
    induction size with
    | zero => exact Ring.rep_init links none
    | succ n ih =>
      rw [range_succ, foldl_append, map_append]
      exact ih.addPrev (by simp)
  all := .refl _

theorem Holds.lruUpdate (holds : m.Holds l) (hi : i < m.size) : (m.lruUpdate i).Holds (i :: l.erase i) where
  rep := by
    have rep := holds.rep
    have nodup := holds.nodup
    obtain ⟨l₁, l₂, rfl⟩ := append_of_mem (holds.mem.mpr hi)
    have hi₁ : i ∉ l₁ := fun h => (nodup_append.mp nodup).2.2 i h i mem_cons_self rfl
    have hi₂ : i ∉ l₂ := (nodup_cons.mp (nodup_append.mp nodup).2.1).1
    rw [map_append, map_cons] at rep
    rw [erase_append_right _ hi₁, erase_cons_head, map_cons, map_append]
    exact rep.delete.add (by simp [hi₁, hi₂])
  all := (perm_cons_erase (holds.mem.mpr hi)).symm.trans holds.all

theorem Holds.victim (holds : m.Holds l) (p : Nat → Bool) :
    m.links.findBack none (fun n => n.any p) (m.size + 1) (m.links.prev none) = (l.reverse.find? p).map some := by
  have hlength : (l.map some).length < m.size + 1 := by
    rw [length_map, holds.all.length_eq, length_range]
    exact Nat.lt_succ_self _
  rw [holds.rep.findBack _ hlength, ← map_reverse, find?_map]
  rfl

theorem store_assign_frames {m₁ : BPManager} (other : ∀ j, j ≠ i → m₁.frames j = m.frames j)
    (halloc : (m₁.frames i).allocated = true) (fileDesc : Int) (pageNum : PageNum) (pins : Nat) :
    ((m₁.assign fileDesc pageNum i).store pageNum pins i).frames =
      set m.frames i ⟨false, pins, fileDesc, pageNum, true⟩ := by
  funext j
  unfold store assign modFrame setMap BPManager.lruUpdate
  dsimp only
  by_cases hj : j = i
  · rw [hj, set_same, set_same, set_same, halloc]
  · rw [set_ne hj, set_ne hj, set_ne hj, other j hj]

/-- The victim is free of pins, and all frames are taken: it gives up its page. -/
structure Victim (m : BPManager) (l : List Nat) (i : Nat) : Prop where
  taken : ∀ j < m.size, (m.frames j).allocated = true
  found : l.reverse.find? (fun j => decide ((m.frames j).pinCount = 0)) = some i

theorem Victim.lt (holds : m.Holds l) (victim : m.Victim l i) : i < m.size :=
  holds.mem.mp (mem_reverse.mp (mem_of_find?_eq_some victim.found))

theorem Victim.unpinned (victim : m.Victim l i) : (m.frames i).pinCount = 0 := by
  simpa using find?_some victim.found

theorem assign_clean (fileDesc : Int) (pageNum : PageNum) (i : Nat) (m : BPManager) :
    (m.modFrame i fun f => { f with dirty := false }).assign fileDesc pageNum i = m.assign fileDesc pageNum i := by
  have hframes : ∀ g : LRUFrame → LRUFrame, (∀ f, g { f with dirty := false } = g f) →
      set (set m.frames i { m.frames i with dirty := false }) i (g { m.frames i with dirty := false }) =
        set m.frames i (g (m.frames i)) := by
    intro g hg
    funext j
    by_cases hj : j = i
    · rw [hj, set_same, set_same, hg]
    · rw [set_ne hj, set_ne hj, set_ne hj]
  unfold assign modFrame
  dsimp only
  rw [set_same, hframes (fun f => { f with dirty := false, fileDesc := fileDesc }) fun _ => rfl]

theorem findUnallocated_cases (m : BPManager) :
    (∃ i < m.size, (m.frames i).allocated = false ∧ m.findUnallocated = some i) ∨
      ((∀ i < m.size, (m.frames i).allocated = true) ∧ m.findUnallocated = none) := by
  by_cases hlt : firstIdx m.size (fun i => !(m.frames i).allocated) < m.size
  · left
    exact ⟨_, hlt, by simpa using firstIdx_spec hlt, if_pos hlt⟩
  · refine .inr ⟨fun i hi => ?_, if_neg hlt⟩
    simpa using not_of_lt_firstIdx (Nat.lt_of_lt_of_le hi (Nat.le_of_not_lt hlt))

/-- `alloc` takes a frame that is not in use, or the victim; it returns nothing if all frames are pinned, or if the page
    of the victim cannot be written. -/
theorem alloc_cases (holds : m.Holds l) (flush : Bool) (fileDesc : Int) (pageNum : PageNum) :
    (∃ i < m.size, (m.frames i).allocated = false ∧ m.alloc flush fileDesc pageNum =
        (some i, (m.modFrame i fun f => { f with allocated := true }).assign fileDesc pageNum i)) ∨
      ((∀ i < m.size, (m.frames i).allocated = true) ∧ (∀ i < m.size, (m.frames i).pinCount ≠ 0) ∧
        m.alloc flush fileDesc pageNum = (none, m)) ∨
      ∃ i, m.Victim l i ∧
        (((m.frames i).dirty = true ∧ flush = false ∧ m.alloc flush fileDesc pageNum =
            (none, m.setMap (key (m.frames i).fileDesc (m.frames i).pageNum) none)) ∨
          m.alloc flush fileDesc pageNum =
            (some i, (m.setMap (key (m.frames i).fileDesc (m.frames i).pageNum) none).assign fileDesc pageNum i)) := by
  unfold alloc
  rcases m.findUnallocated_cases with ⟨i, hi, hfree, hfind⟩ | ⟨taken, hfind⟩
  · rw [hfind]
    exact .inl ⟨i, hi, hfree, rfl⟩
  · rw [hfind]
    unfold evict
    rw [holds.victim fun i => decide ((m.frames i).pinCount = 0)]
    cases found : l.reverse.find? fun i => decide ((m.frames i).pinCount = 0) with
    | none =>
      refine .inr (.inl ⟨taken, fun i hi => ?_, rfl⟩)
      simpa using find?_eq_none.mp found i (mem_reverse.mpr (holds.mem.mpr hi))
    | some i =>
      refine .inr (.inr ⟨i, ⟨taken, found⟩, ?_⟩)
      dsimp only [Option.map_some]
      cases hdirty : (m.frames i).dirty with
      | false => exact .inr rfl
      | true =>
        cases flush with
        | false => exact .inl ⟨rfl, rfl, rfl⟩
        | true =>
          exact .inr (congrArg (Prod.mk (some i)) (assign_clean fileDesc pageNum i _))

/-! ### The pool above

The pool has the list of the frames where the manager has links, and pairs where the map has keys. -/

def ofFrame (f : MiniOb.LRUFrame) : LRUFrame :=
  ⟨f.frame.dirty, f.frame.pinCount, f.frame.fileDesc, f.frame.page.pageNum, f.allocated⟩

structure Models (m : BPManager) (s : DiskBufferPool) : Prop where
  size : m.size = s.size
  holds : m.Holds s.frameList
  frames : ∀ i, m.frames i = ofFrame (s.frames i)
  ints : ∀ i, IsInt (m.frames i).fileDesc ∧ IsInt (m.frames i).pageNum
  listMap : ∀ fileDesc : Nat, ∀ pageNum : PageNum, IsInt fileDesc → IsInt pageNum →
    m.listMap (key fileDesc pageNum) = s.listMap (fileDesc, pageNum)

section Models
variable {s : DiskBufferPool} {fileDesc : Nat} {pageNum : PageNum}

section
variable (models : m.Models s)
include models

theorem Models.setMap (hf : IsInt fileDesc) (hp : IsInt pageNum)
    (v : Option Nat) : (m.setMap (key fileDesc pageNum) v).Models (s.setMap (fileDesc, pageNum) v) where
  size := models.size
  holds := ⟨models.holds.rep, models.holds.all⟩
  frames := models.frames
  ints := models.ints
  listMap fileDesc' pageNum' hf' hp' := by
    unfold BPManager.setMap DiskBufferPool.setMap
    dsimp only
    by_cases h : (fileDesc', pageNum') = (fileDesc, pageNum)
    · cases h
      rw [if_pos rfl, update_self]
    · have hne : key fileDesc' pageNum' ≠ key fileDesc pageNum := by
        intro hkey
        obtain ⟨h1, h2⟩ := (key_inj hf' hp' hf hp).mp hkey
        exact h (by rw [Int.natCast_inj.mp h1, h2])
      rw [if_neg h, update_of_ne hne]
      exact models.listMap fileDesc' pageNum' hf' hp'

theorem Models.setFrame (i : Nat) {f : LRUFrame} {g : MiniOb.LRUFrame} (same : f = ofFrame g)
    (ints : IsInt f.fileDesc ∧ IsInt f.pageNum) :
    ({ m with frames := set m.frames i f } : BPManager).Models { s with frames := set s.frames i g } where
  size := models.size
  holds := ⟨models.holds.rep, models.holds.all⟩
  frames j := by
    dsimp only
    by_cases hj : j = i
    · rw [hj, set_same, set_same, same]
    · rw [set_ne hj, set_ne hj, models.frames]
  ints j := by
    dsimp only
    by_cases hj : j = i
    · rw [hj, set_same]
      exact ints
    · rw [set_ne hj]
      exact models.ints j
  listMap := models.listMap

theorem Models.lruUpdate {i : Nat} (hi : i < m.size) : (m.lruUpdate i).Models (s.lruUpdate i) :=
  { models with holds := models.holds.lruUpdate hi }

theorem Models.writeFile (name : String) (p : Page) : m.Models (s.writeFile name p) :=
  ⟨models.size, models.holds, models.frames, models.ints, models.listMap⟩

theorem Models.assign (hf : IsInt fileDesc) (hp : IsInt pageNum) {i : Nat}
    (hi : i < m.size) : (m.assign fileDesc pageNum i).Models (s.assign fileDesc pageNum i) := by
  have changed := models.setFrame i (f := { m.frames i with dirty := false, fileDesc := fileDesc })
    (g := { s.frames i with frame := { (s.frames i).frame with dirty := false, fileDesc := fileDesc } })
    (by rw [models.frames i]; rfl) ⟨hf, (models.ints i).2⟩
  exact (changed.setMap hf hp (some i)).lruUpdate hi

theorem Models.findUnallocated : m.findUnallocated = s.findUnallocated := by
  unfold BPManager.findUnallocated DiskBufferPool.findUnallocated
  simp only [models.frames, models.size]
  rfl

theorem Models.get (hf : IsInt fileDesc) (hp : IsInt pageNum)
    (inRange : ∀ i, s.listMap (fileDesc, pageNum) = some i → i < s.size) :
    (m.get fileDesc pageNum = none ∧ s.get fileDesc pageNum = none) ∨
      ∃ i m' s', m.get fileDesc pageNum = some (i, m') ∧ s.get fileDesc pageNum = some (i, s') ∧ m'.Models s' := by
  unfold BPManager.get DiskBufferPool.get BPManager.find
  rw [models.listMap fileDesc pageNum hf hp]
  cases h : s.listMap (fileDesc, pageNum) with
  | none => exact .inl ⟨rfl, rfl⟩
  | some i => exact .inr ⟨i, _, _, rfl, rfl, models.lruUpdate (models.size ▸ inRange i h)⟩

theorem Models.alloc (hf : IsInt fileDesc) (hp : IsInt pageNum) (io : Io) :
    ∃ flush, (m.alloc flush fileDesc pageNum).1 = (s.alloc io fileDesc pageNum).1 ∧
      (m.alloc flush fileDesc pageNum).2.Models (s.alloc io fileDesc pageNum).2 := by
  unfold BPManager.alloc DiskBufferPool.alloc
  rcases m.findUnallocated_cases with ⟨i, hi, -, hfind⟩ | ⟨-, hfind⟩
  · rw [← models.findUnallocated, hfind]
    have changed := models.setFrame i (f := { m.frames i with allocated := true })
      (g := { s.frames i with allocated := true }) (by rw [models.frames i]; rfl) (models.ints i)
    exact ⟨true, rfl, changed.assign hf hp hi⟩
  rw [← models.findUnallocated, hfind]
  unfold BPManager.evict DiskBufferPool.evict
  have pins : ∀ i, (m.frames i).pinCount = (s.frame i).pinCount := fun i => by rw [models.frames i]; rfl
  simp only [pins]
  rw [models.holds.victim fun i => decide ((s.frame i).pinCount = 0)]
  cases found : s.frameList.reverse.find? fun i => decide ((s.frame i).pinCount = 0) with
  | none => exact ⟨true, rfl, models⟩
  | some i =>
    have hi : i < m.size := models.holds.mem.mp (mem_reverse.mp (mem_of_find?_eq_some found))
    have hframe : m.frames i = ofFrame (s.frames i) := models.frames i
    obtain ⟨hfd, hpn⟩ := models.ints i
    rw [hframe] at hfd hpn
    have erased : (m.setMap (key (s.frame i).fileDesc (s.frame i).page.pageNum) none).Models
        (s.setMap ((s.frame i).fileDesc, (s.frame i).page.pageNum) none) := models.setMap hfd hpn none
    have cleaned := erased.setFrame i (f := { m.frames i with dirty := false })
      (g := { s.frames i with frame := { (s.frames i).frame with dirty := false } }) (by rw [hframe]; rfl)
        (models.ints i)
    dsimp only [Option.map_some]
    have hdirty : (m.frames i).dirty = (s.frame i).dirty := by rw [hframe]; rfl
    rw [hdirty]
    have hkey : key (m.frames i).fileDesc (m.frames i).pageNum = key (s.frame i).fileDesc (s.frame i).page.pageNum := by
      rw [hframe]
      rfl
    rw [hkey]
    cases (s.frame i).dirty with
    | false => exact ⟨true, rfl, erased.assign hf hp hi⟩
    | true =>
      unfold DiskBufferPool.flushBlock
      have hfds : (s.setMap ((s.frame i).fileDesc, (s.frame i).page.pageNum) none).fds
          ((s.setMap ((s.frame i).fileDesc, (s.frame i).page.pageNum) none).frame i).fileDesc =
            s.fds (s.frame i).fileDesc := rfl
      rw [hfds]
      cases s.fds (s.frame i).fileDesc with
      | none => exact ⟨false, rfl, erased⟩
      | some name =>
        cases io.evictWrite with
        | true => exact ⟨true, rfl, (cleaned.writeFile name _).assign hf hp hi⟩
        | false => exact ⟨false, rfl, erased.writeFile name _⟩

end

end Models

/-- A key leads to a frame exactly if the frame is allocated and holds the page of the key. -/
structure Mapped (m : BPManager) : Prop where
  ints : ∀ i < m.size, (m.frames i).allocated = true → IsInt (m.frames i).fileDesc ∧ IsInt (m.frames i).pageNum
  listMap : ∀ k i, m.listMap k = some i ↔
    i < m.size ∧ (m.frames i).allocated = true ∧ key (m.frames i).fileDesc (m.frames i).pageNum = k

theorem create_mapped (size : Nat) (raw : Nat → LRUFrame) (links : Ring (Option Nat)) :
    (create size raw links).Mapped := by
  have free : ∀ i < size, ((create size raw links).frames i).allocated = false := by
    intro i hi
    unfold create
    dsimp only
    rw [if_pos hi]
  refine ⟨fun i hi halloc => ?_, fun k i => ⟨fun h => ?_, fun ⟨hi, halloc, _⟩ => ?_⟩⟩
  · rw [free i hi] at halloc
    cases halloc
  · cases h
  · rw [free i hi] at halloc
    cases halloc

theorem Mapped.modFrame (mapped : m.Mapped) (i : Nat) {f : LRUFrame → LRUFrame}
    (keeps : ∀ g, (f g).fileDesc = g.fileDesc ∧ (f g).pageNum = g.pageNum ∧ (f g).allocated = g.allocated) :
    (m.modFrame i f).Mapped := by
  have same : ∀ j, ((m.modFrame i f).frames j).fileDesc = (m.frames j).fileDesc ∧
      ((m.modFrame i f).frames j).pageNum = (m.frames j).pageNum ∧
      ((m.modFrame i f).frames j).allocated = (m.frames j).allocated := by
    intro j
    unfold BPManager.modFrame
    dsimp only
    by_cases hj : j = i
    · rw [hj, set_same]
      exact keeps _
    · rw [set_ne hj]
      exact ⟨rfl, rfl, rfl⟩
  refine ⟨fun j hj halloc => ?_, fun k j => ?_⟩
  · rw [(same j).2.2] at halloc
    rw [(same j).1, (same j).2.1]
    exact mapped.ints j hj halloc
  · rw [(same j).1, (same j).2.1, (same j).2.2]
    exact mapped.listMap k j

theorem Mapped.without (mapped : m.Mapped) (hi : i < m.size) (halloc : (m.frames i).allocated = true) (k j : Nat) :
    update m.listMap (key (m.frames i).fileDesc (m.frames i).pageNum) none k = some j ↔ m.listMap k = some j ∧
      j ≠ i := by
  by_cases hk : k = key (m.frames i).fileDesc (m.frames i).pageNum
  · rw [hk, update_self]
    refine ⟨fun h => (nomatch h), fun ⟨hj, hne⟩ => absurd ?_ hne⟩
    exact Option.some.inj (hj.symm.trans ((mapped.listMap _ i).mpr ⟨hi, halloc, rfl⟩))
  · rw [update_of_ne hk]
    refine ⟨fun h => ⟨h, ?_⟩, And.left⟩
    rintro rfl
    exact hk ((mapped.listMap k j).mp h).2.2.symm

theorem Mapped.place {m' : BPManager} {base : Nat → Option Nat} {pageNum : PageNum} {pins : Nat}
    (mapped : m.Mapped) (hi : i < m.size) (hsize : m'.size = m.size)
    (hframes : m'.frames = set m.frames i ⟨false, pins, fileDesc, pageNum, true⟩)
    (hmap : m'.listMap = update base (key fileDesc pageNum) (some i))
    (hbase : ∀ k j, base k = some j ↔ m.listMap k = some j ∧ j ≠ i)
    (hf : IsInt fileDesc) (hp : IsInt pageNum) (fresh : m.find fileDesc pageNum = none) : m'.Mapped := by
  have same : m'.frames i = ⟨false, pins, fileDesc, pageNum, true⟩ := by rw [hframes, set_same]
  have other : ∀ j, j ≠ i → m'.frames j = m.frames j := fun j hj => by rw [hframes, set_ne hj]
  refine ⟨fun j hj halloc => ?_, fun k j => ?_⟩
  · by_cases hji : j = i
    · rw [hji, same]
      exact ⟨hf, hp⟩
    · rw [other j hji] at halloc ⊢
      exact mapped.ints j (hsize ▸ hj) halloc
  rw [hmap, hsize]
  by_cases hk : k = key fileDesc pageNum
  · rw [hk, update_self]
    refine ⟨fun h => ?_, fun ⟨hj, halloc, hkey⟩ => ?_⟩
    · cases h
      exact ⟨hi, by rw [same], by rw [same]⟩
    · by_cases hji : j = i
      · rw [hji]
      · rw [other j hji] at halloc hkey
        have found : m.find fileDesc pageNum = some j := (mapped.listMap _ j).mpr ⟨hj, halloc, hkey⟩
        rw [fresh] at found
        cases found
  · rw [update_of_ne hk, hbase]
    by_cases hji : j = i
    · refine ⟨fun h => absurd hji h.2, fun ⟨_, _, hkey⟩ => absurd ?_ hk⟩
      rw [hji, same] at hkey
      exact hkey.symm
    · rw [other j hji, mapped.listMap]
      exact and_iff_left hji

theorem Mapped.alloc (mapped : m.Mapped) (holds : m.Holds l) {flush : Bool} {pageNum : PageNum}
    {m' : BPManager} (hf : IsInt fileDesc) (hp : IsInt pageNum) (fresh : m.find fileDesc pageNum = none)
    (halloc : m.alloc flush fileDesc pageNum = (some i, m')) (pins : Nat) : (m'.store pageNum pins i).Mapped := by
  rcases alloc_cases holds flush fileDesc pageNum with ⟨j, hj, hfree, heq⟩ | ⟨-, -, heq⟩
    | ⟨j, victim, ⟨-, -, heq⟩ | heq⟩
  · cases heq.symm.trans halloc
    refine mapped.place hj rfl (store_assign_frames (fun k hk => set_ne hk) ?_ fileDesc pageNum pins) rfl ?_ hf hp fresh
    · exact congrArg LRUFrame.allocated (set_same _ _ _)
    · -- The frame held no page.
      refine fun k k' => ⟨fun h => ⟨h, ?_⟩, And.left⟩
      rintro rfl
      rw [((mapped.listMap k k').mp h).2.1] at hfree
      cases hfree
  · cases heq.symm.trans halloc
  · cases heq.symm.trans halloc
  · cases heq.symm.trans halloc
    have hi := victim.lt holds
    have taken := victim.taken i hi
    exact mapped.place hi rfl (store_assign_frames (fun _ _ => rfl) taken fileDesc pageNum pins) rfl
      (mapped.without hi taken) hf hp fresh

end BPManager

namespace BPRun
open BPManager

/-- The list is in the order of the last touches, and every allocated frame has been touched. -/
structure LruOk (size : Nat) (s : BPRun) : Prop where
  sized : s.manager.size = size
  order : ∃ l, s.manager.Holds l ∧ Ordered s.history l
  touched : ∀ i < size, (s.manager.frames i).allocated = true → i ∈ s.history
  range : ∀ k i, s.manager.listMap k = some i → i < size

variable {size : Nat} {s : BPRun} {i : Nat} {m : BPManager} {fileDesc : Int} {pageNum : PageNum}

theorem LruOk.touch (ok : LruOk size s) (hi : i < size) (hsize : m.size = s.manager.size)
    (hlinks : m.links = (s.manager.lruUpdate i).links)
    (halloc : ∀ j, j ≠ i → (m.frames j).allocated = (s.manager.frames j).allocated)
    (hmap : ∀ k j, m.listMap k = some j → j = i ∨ s.manager.listMap k = some j) : LruOk size ⟨m, i :: s.history⟩ where
  sized := hsize.trans ok.sized
  order := by
    obtain ⟨l, holds, ordered⟩ := ok.order
    have updated := holds.lruUpdate (ok.sized.symm ▸ hi)
    exact ⟨_, ⟨hlinks ▸ updated.rep, hsize ▸ updated.all⟩, ordered.touch holds.nodup i⟩
  touched j hj h := by
    by_cases hji : j = i
    · exact hji ▸ mem_cons_self
    · exact mem_cons_of_mem i (ok.touched j hj ((halloc j hji).symm.trans h))
  range k j h := by
    rcases hmap k j h with rfl | h
    · exact hi
    · exact ok.range k j h

theorem start_ok (size : Nat) (raw : Nat → BPManager.LRUFrame) (links : Ring (Option Nat)) :
    LruOk size (start size raw links) where
  sized := rfl
  order := ⟨_, create_holds size raw links, ordered_nil _⟩
  touched i hi h := by
    have free : ((BPManager.create size raw links).frames i).allocated = false := by
      unfold BPManager.create
      dsimp only
      rw [if_pos hi]
    cases free.symm.trans h
  range _ _ h := nomatch h

theorem step_alloc_some {flush : Bool} (h : s.manager.alloc flush fileDesc pageNum = (some i, m)) (pins : Nat) :
    s.step (.alloc flush fileDesc pageNum pins) = ⟨m.store pageNum pins i, i :: s.history⟩ := by
  unfold step
  dsimp only
  rw [h]

theorem step_alloc_none {flush : Bool} (h : s.manager.alloc flush fileDesc pageNum = (none, m)) (pins : Nat) :
    s.step (.alloc flush fileDesc pageNum pins) = ⟨m, s.history⟩ := by
  unfold step
  dsimp only
  rw [h]

theorem step_get :
    (s.manager.find fileDesc pageNum = none ∧ s.step (.get fileDesc pageNum) = s) ∨
      ∃ i, s.manager.find fileDesc pageNum = some i ∧ s.step (.get fileDesc pageNum) =
        ⟨s.manager.lruUpdate i, i :: s.history⟩ := by
  unfold step BPManager.get
  dsimp only
  cases s.manager.find fileDesc pageNum with
  | none => exact .inl ⟨rfl, rfl⟩
  | some i => exact .inr ⟨i, rfl, rfl⟩

theorem setMap_eq_some {k k' j : Nat} {v : Option Nat} (h : (m.setMap k v).listMap k' = some j) :
    v = some j ∨ m.listMap k' = some j := by
  unfold setMap at h
  dsimp only at h
  by_cases hk : k' = k
  · rw [hk, update_self] at h
    exact .inl h
  · rw [update_of_ne hk] at h
    exact .inr h

theorem assign_eq_some {k j : Nat} (h : (m.assign fileDesc pageNum i).listMap k = some j) :
    j = i ∨ m.listMap k = some j :=
  (setMap_eq_some h).imp (fun h => (Option.some.inj h).symm) id

theorem LruOk.alloc (ok : LruOk size s) (flush : Bool) (fileDesc : Int) (pageNum : PageNum) (pins : Nat) :
    LruOk size (s.step (.alloc flush fileDesc pageNum pins)) := by
  obtain ⟨l, holds, ordered⟩ := ok.order
  rcases alloc_cases holds flush fileDesc pageNum with ⟨i, hi, -, heq⟩ | ⟨-, -, heq⟩ | ⟨i, victim, ⟨-, -, heq⟩ | heq⟩
  · rw [step_alloc_some heq]
    refine ok.touch (ok.sized ▸ hi) rfl rfl (fun j hj => ?_) fun k j h => assign_eq_some h
    unfold store assign modFrame setMap BPManager.lruUpdate
    dsimp only
    rw [set_ne hj, set_ne hj, set_ne hj]
  · rw [step_alloc_none heq]
    exact ok
  · -- The flush has failed: the page of the victim is no longer found, and nothing else has changed.
    rw [step_alloc_none heq]
    refine ⟨ok.sized, ⟨l, ⟨holds.rep, holds.all⟩, ordered⟩, ok.touched, fun k j h => ?_⟩
    rcases setMap_eq_some h with h | h
    · cases h
    · exact ok.range k j h
  · rw [step_alloc_some heq]
    refine ok.touch (ok.sized ▸ victim.lt holds) rfl rfl (fun j hj => ?_) fun k j h => ?_
    · unfold store assign modFrame setMap BPManager.lruUpdate
      dsimp only
      rw [set_ne hj, set_ne hj]
    · refine (assign_eq_some h).imp_right fun h => (setMap_eq_some h).resolve_left fun h => ?_
      cases h

theorem LruOk.modFrame (ok : LruOk size s) (i : Nat) {f : BPManager.LRUFrame → BPManager.LRUFrame}
    (keeps : ∀ g, (f g).allocated = g.allocated) :
    LruOk size { s with manager := s.manager.modFrame i f } where
  sized := ok.sized
  order := by
    obtain ⟨l, holds, ordered⟩ := ok.order
    exact ⟨l, ⟨holds.rep, holds.all⟩, ordered⟩
  touched j hj h := by
    refine ok.touched j hj (Eq.trans ?_ h)
    unfold BPManager.modFrame
    dsimp only
    by_cases hji : j = i
    · rw [hji, set_same, keeps]
    · rw [set_ne hji]
  range := ok.range

theorem LruOk.step (ok : LruOk size s) (a : BPAct) : LruOk size (s.step a) := by
  cases a with
  | alloc flush fileDesc pageNum pins => exact ok.alloc flush fileDesc pageNum pins
  | get fileDesc pageNum =>
    rcases step_get (s := s) with ⟨-, heq⟩ | ⟨i, hfind, heq⟩
    · rw [heq]
      exact ok
    · rw [heq]
      exact ok.touch (ok.range _ i hfind) rfl rfl (fun _ _ => rfl) fun _ _ h => .inr h
  | setPins i pins => exact ok.modFrame i fun _ => rfl
  | setDirty i dirty => exact ok.modFrame i fun _ => rfl

theorem mapped_step (ok : LruOk size s) (mapped : s.manager.Mapped) {a : BPAct} (legal : s.Legal a)
    (flushes : a.Flushes) : (s.step a).manager.Mapped := by
  cases a with
  | alloc flush fileDesc pageNum pins =>
    obtain ⟨hf, hp, fresh⟩ := legal
    obtain ⟨l, holds, -⟩ := ok.order
    cases halloc : s.manager.alloc flush fileDesc pageNum with
    | mk r m =>
      cases r with
      | some i =>
        rw [step_alloc_some halloc]
        exact mapped.alloc holds hf hp fresh halloc pins
      | none =>
        rw [step_alloc_none halloc]
        rcases alloc_cases holds flush fileDesc pageNum with ⟨i, hi, -, heq⟩ | ⟨-, -, heq⟩
          | ⟨i, victim, ⟨-, hflush, heq⟩ | heq⟩
        · cases heq.symm.trans halloc
        · cases heq.symm.trans halloc
          exact mapped
        · cases hflush.symm.trans flushes
        · cases heq.symm.trans halloc
  | get fileDesc pageNum =>
    rcases step_get (s := s) with ⟨-, heq⟩ | ⟨i, hfind, heq⟩
    · rw [heq]
      exact mapped
    · rw [heq]
      exact ⟨mapped.ints, mapped.listMap⟩
  | setPins i pins => exact mapped.modFrame (f := fun f => { f with pinCount := pins }) i fun _ => ⟨rfl, rfl, rfl⟩
  | setDirty i dirty => exact mapped.modFrame (f := fun f => { f with dirty := dirty }) i fun _ => ⟨rfl, rfl, rfl⟩

/-- An `alloc` with all frames in use takes the least recently touched frame without pins, and fails only if there is
    none. Then `get` finds the new page, no longer the old page of the frame, and the page of every other frame. -/
structure Replaces (s : BPRun) (fileDesc : Int) (pageNum : PageNum) : Prop where
  fails : (s.manager.alloc true fileDesc pageNum).1 = none ↔ ∀ i < s.manager.size, (s.manager.frames i).pinCount ≠ 0
  takes : ∀ i, (s.manager.alloc true fileDesc pageNum).1 = some i →
    i < s.manager.size ∧ (s.manager.frames i).pinCount = 0 ∧
      ∀ j < s.manager.size, (s.manager.frames j).pinCount = 0 → j ≠ i → s.history.idxOf j < s.history.idxOf i
  forgets : ∀ i, (s.manager.alloc true fileDesc pageNum).1 = some i →
    (s.manager.alloc true fileDesc pageNum).2.get (s.manager.frames i).fileDesc (s.manager.frames i).pageNum = none
  finds : ∀ i, (s.manager.alloc true fileDesc pageNum).1 = some i →
    ((s.manager.alloc true fileDesc pageNum).2.get fileDesc pageNum).map Prod.fst = some i
  keeps : ∀ i, (s.manager.alloc true fileDesc pageNum).1 = some i → ∀ j < s.manager.size, j ≠ i →
    ((s.manager.alloc true fileDesc pageNum).2.get (s.manager.frames j).fileDesc (s.manager.frames j).pageNum).map
      Prod.fst = some j

theorem find_frame (mapped : m.Mapped) (hi : i < m.size) (halloc : (m.frames i).allocated = true) :
    m.find (m.frames i).fileDesc (m.frames i).pageNum = some i := (mapped.listMap _ i).mpr ⟨hi, halloc, rfl⟩

theorem LruOk.replaces (ok : LruOk size s) (mapped : s.manager.Mapped) (fresh : s.manager.find fileDesc pageNum = none)
    (full : ∀ i < s.manager.size, (s.manager.frames i).allocated = true) : s.Replaces fileDesc pageNum := by
  obtain ⟨l, holds, ordered⟩ := ok.order
  rcases alloc_cases holds true fileDesc pageNum with ⟨i, hi, hfree, -⟩ | ⟨-, pinned, heq⟩
    | ⟨i, victim, ⟨-, hflush, -⟩ | heq⟩
  · cases (full i hi).symm.trans hfree
  · refine ⟨?_, ?_, ?_, ?_, ?_⟩ <;> rw [heq]
    · exact iff_of_true rfl pinned
    · exact fun _ h => nomatch h
    · exact fun _ h => nomatch h
    · exact fun _ h => nomatch h
    · exact fun _ h => nomatch h
  · cases hflush
  have hi := victim.lt holds
  have found := find_frame mapped hi (full i hi)
  refine ⟨?_, ?_, ?_, ?_, ?_⟩ <;> rw [heq]
  · exact ⟨fun h => (nomatch h), fun pinned => absurd victim.unpinned (pinned i hi)⟩
  · rintro _ ⟨⟩
    refine ⟨hi, victim.unpinned, fun j hj hpin hne => ?_⟩
    -- Every frame has been touched, so that the order is strict.
    have htouched := ok.touched i (ok.sized ▸ hi) (full i hi)
    rcases ordered.find?_reverse victim.found j (holds.mem.mpr hj) (decide_eq_true hpin) hne with h | ⟨-, h⟩
    · exact h
    · exact absurd htouched h
  · rintro _ ⟨⟩
    have hne : key (s.manager.frames i).fileDesc (s.manager.frames i).pageNum ≠ key fileDesc pageNum := by
      intro h
      have hfind : s.manager.listMap (key fileDesc pageNum) = some i := h ▸ found
      cases fresh.symm.trans hfind
    have gone : BPManager.find (s.manager.frames i).fileDesc (s.manager.frames i).pageNum
        ((s.manager.setMap (key (s.manager.frames i).fileDesc (s.manager.frames i).pageNum) none).assign fileDesc
          pageNum i) = none := (update_of_ne hne _ _).trans (update_self _ _ _)
    unfold BPManager.get
    rw [gone]
    rfl
  · rintro _ ⟨⟩
    have new : BPManager.find fileDesc pageNum
        ((s.manager.setMap (key (s.manager.frames i).fileDesc (s.manager.frames i).pageNum) none).assign fileDesc
          pageNum i) = some i := update_self _ _ _
    unfold BPManager.get
    rw [new]
    rfl
  · rintro _ ⟨⟩ j hj hother
    have hfind := find_frame mapped hj (full j hj)
    have hne : key (s.manager.frames j).fileDesc (s.manager.frames j).pageNum ≠ key fileDesc pageNum := by
      intro h
      have hfind' : s.manager.listMap (key fileDesc pageNum) = some j := h ▸ hfind
      cases fresh.symm.trans hfind'
    have hne' : key (s.manager.frames j).fileDesc (s.manager.frames j).pageNum ≠
        key (s.manager.frames i).fileDesc (s.manager.frames i).pageNum := by
      intro h
      have hfind' : s.manager.listMap (key (s.manager.frames i).fileDesc (s.manager.frames i).pageNum) = some j :=
        h ▸ hfind
      exact hother (Option.some.inj (hfind'.symm.trans found))
    have still : BPManager.find (s.manager.frames j).fileDesc (s.manager.frames j).pageNum
        ((s.manager.setMap (key (s.manager.frames i).fileDesc (s.manager.frames i).pageNum) none).assign fileDesc
          pageNum i) = some j := ((update_of_ne hne _ _).trans (update_of_ne hne' _ _)).trans hfind
    unfold BPManager.get
    rw [still]
    rfl

/-- In every run the links hold all frames, the most recently touched one first. If flushes succeed, the page of every
    allocated frame is found, and an `alloc` of a new page with every frame in use takes the least recently touched
    frame without pins, fails only if there is none, and only the page it replaces is no longer found. -/
theorem lru_replacement {size : Nat} {raw : Nat → BPManager.LRUFrame} {links : Ring (Option Nat)} {acts : List BPAct}
    (legal : Meets step Legal (start size raw links) acts) :
    (∃ l, (run step (start size raw links) acts).manager.links.Rep none (l.map some) ∧ l.Perm (List.range size) ∧
      Ordered (run step (start size raw links) acts).history l) ∧
    ((∀ a ∈ acts, a.Flushes) →
      (∀ i < size, ((run step (start size raw links) acts).manager.frames i).allocated = true →
        (run step (start size raw links) acts).manager.find ((run step (start size raw links) acts).manager.frames
          i).fileDesc ((run step (start size raw links) acts).manager.frames i).pageNum = some i) ∧
      ∀ fileDesc pageNum, IsInt fileDesc → IsInt pageNum →
      (run step (start size raw links) acts).manager.find fileDesc pageNum = none →
      (∀ i < size, ((run step (start size raw links) acts).manager.frames i).allocated = true) →
      (run step (start size raw links) acts).Replaces fileDesc pageNum) := by
  have ok : LruOk size (run step (start size raw links) acts) :=
    invariant (LruOk size) (fun _ a ok _ => ok.step a) (start_ok size raw links) legal
  obtain ⟨l, holds, ordered⟩ := ok.order
  refine ⟨⟨l, holds.rep, ok.sized ▸ holds.all, ordered⟩, fun flushes => ?_⟩
  have both : LruOk size (run step (start size raw links) acts) ∧
    (run step (start size raw links) acts).manager.Mapped :=
    invariant (fun s => LruOk size s ∧ s.manager.Mapped)
      (fun _ a inv cond => ⟨inv.1.step a, mapped_step inv.1 inv.2 cond.1 cond.2⟩)
      ⟨start_ok size raw links, create_mapped size raw links⟩ (legal.and flushes)
  exact ⟨fun i hi => find_frame both.2 (ok.sized.symm ▸ hi), fun fileDesc pageNum _ _ fresh full =>
    ok.replaces both.2 fresh (ok.sized.symm ▸ full)⟩

def rawFrame : BPManager.LRUFrame := ⟨false, 0, 0, 0, false⟩

def usedTwice : List BPAct := [.alloc true 0 1 0, .get 0 1, .alloc true 0 2 0, .get 0 1]

theorem lru_replacement_usedTwice :
    (run step (start 2 (fun _ => rawFrame) ⟨id, id⟩) usedTwice).Replaces 0 3 ∧
      ((run step (start 2 (fun _ => rawFrame) ⟨id, id⟩) usedTwice).manager.alloc true 0 3).1 = some 1 := by
  refine ⟨((lru_replacement ?_).2 ?_).2 0 3 ?_ ?_ ?_ ?_, ?_⟩
  · decide +kernel
  · decide
  · decide
  · decide
  · decide +kernel
  · decide +kernel
  · decide +kernel

end BPRun

end MiniOb
