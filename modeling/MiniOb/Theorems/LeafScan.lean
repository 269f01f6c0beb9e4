import MiniOb.Index.Scanner
import MiniOb.Lib.PagedCursor
import MiniOb.Theorems.TreeRep

/-! # Scans along the leaf chain

A `BplusTreeScanner` is a cursor over the leaves behind the place where it starts, and pins the leaf that the cursor
holds. -/

namespace MiniOb
open BplusTreeScanner PagedCursor Option Op
open List hiding zip next after
variable {σ : Pages} {order : Nat} {ls : List IndexLeaf}

open Slots BTree

abbrev IndexLeaf := Leaf PageNum Key RID

/-! ### The chain -/

def headPage (ls : List IndexLeaf) : PageNum := (ls.map Leaf.page).headD 0

/-- The pages hold the leaves `ls` in a row; of the first one, the pairs from `i` on. -/
def LeafRun (σ : Pages) (order : Nat) : Nat → List IndexLeaf → Prop
  | _, [] => True
  | i, l :: ls =>
    (0 < l.page ∧ ∃ node, σ.get l.page = some node ∧ node.entryList.drop i = l.entries ∧
      node.next order = headPage ls) ∧ LeafRun σ order 0 ls

theorem Rep.leaf_node {n : Nat} {par : PageNum} {t : IndexTree n} (h : Rep σ par t) {l : IndexLeaf}
    (hl : l ∈ t.leafNodes) : ∃ node, σ.get l.page = some node ∧ node.entryList = l.entries := by
  induction n generalizing par with
  | zero =>
    obtain rfl := mem_singleton.mp hl
    obtain ⟨node, hget, hnode⟩ := h
    exact ⟨node, hget, hnode.entries⟩
  | succ n ih =>
    obtain ⟨c, hc, hlc⟩ := mem_flatMap.mp hl
    exact ih (h.2 c hc) hlc

theorem leafRun_of_linked (positive : ∀ l ∈ ls, 0 < l.page)
    (nodes : ∀ l ∈ ls, ∃ node, σ.get l.page = some node ∧ node.entryList = l.entries)
    (linked : Linked σ order (ls.map Leaf.page) 0) : LeafRun σ order 0 ls := by
  induction ls with
  | nil => trivial
  | cons l ls ih =>
    obtain ⟨⟨node, hget, hnext⟩, htail⟩ := linked
    obtain ⟨node', hget', hentries⟩ := nodes l mem_cons_self
    obtain rfl : node' = node := some.inj (hget'.symm.trans hget)
    refine ⟨⟨positive l mem_cons_self, node', hget, hentries, hnext⟩, ?_⟩
    exact ih (fun l hl => positive l (mem_cons_of_mem _ hl)) (fun l hl => nodes l (mem_cons_of_mem _ hl)) htail

theorem Holds.leafRun {L : Type} [LinearOrder L] {rank : Key → L} {h : BplusTreeHandler} {n : Nat} {t : IndexTree n}
    (ht : Holds rank h t) : LeafRun h.pages h.order 0 t.leafNodes := by
  refine leafRun_of_linked (fun l hl => ht.positive _ (t.leaves_subset_pages ?_)) (fun l hl => ht.rep.leaf_node hl) ?_
  · rw [t.leaves_eq_map]
    exact mem_map_of_mem hl
  · rw [← t.leaves_eq_map]
    exact ht.linked

theorem LeafRun.of_append {ls' : List IndexLeaf} (h : LeafRun σ order 0 (ls ++ ls')) :
    LeafRun σ order 0 ls' := by
  induction ls with
  | nil => exact h
  | cons l ls ih => exact ih h.2

theorem LeafRun.drop {l : IndexLeaf} (h : LeafRun σ order 0 (l :: ls))
    (i : Nat) : LeafRun σ order i (⟨l.page, l.entries.drop i⟩ :: ls) := by
  obtain ⟨⟨hpos, node, hget, hentries, hnext⟩, htail⟩ := h
  exact ⟨⟨hpos, node, hget, congrArg (List.drop i) hentries, hnext⟩, htail⟩

/-! ### Pins -/

section
variable (pins : PageNum → Int)

def pinAll (ps : List PageNum) : PageNum → Int := fun q => pins q + ps.count q

theorem pinAll_nil : pinAll pins [] = pins := by
  funext q
  simp [pinAll]

theorem addPins_pinAll (ps : List PageNum) (p : PageNum) :
    addPins (pinAll pins ps) p 1 = pinAll pins (p :: ps) := by
  funext q
  by_cases hq : q = p
  · subst hq
    simp only [addPins, pinAll, if_pos, count_cons_self, Int.natCast_add, Int.natCast_one]
    exact Int.add_assoc _ _ _
  · simp only [addPins, pinAll, if_neg hq, count_cons_of_ne fun heq => hq heq.symm]

theorem unpin_pinAll (ps : List PageNum) (p : PageNum) :
    addPins (pinAll pins (p :: ps)) p (-1) = pinAll pins ps := by
  rw [← addPins_pinAll, addPins_addPins_neg]

def heldPins (held : Option IndexLeaf) : PageNum → Int := pinAll pins (held.toList.map Leaf.page)

theorem heldPins_none : heldPins pins none = pins := pinAll_nil pins

end

namespace BplusTreeScanner
open PagedCursor

/-! ### One leaf -/

def accepts (header : IndexFileHeader) (s : BplusTreeScanner) (e : Key × RID) : Bool :=
  satisfyCondition header s.compOp s.value s.locals e.1

section
variable {header : IndexFileHeader} {σ : Pages} {s : BplusTreeScanner} {page : PageNum} {node : IndexNode}

structure Reading (σ : Pages) (s : BplusTreeScanner) (page : PageNum) (node : IndexNode) : Prop where
  get : σ.get page = some node
  pinned : s.pinned = some page
  unread : s.read = false
  index : 0 ≤ s.indexInNode

theorem Reading.apply (hs : Reading σ s page node) :
    s.getNextIdxInMemory header σ = if s.nextMatch header node s.indexInNode.toNat < node.keyNum then
        (.ok (node.rids (s.nextMatch header node s.indexInNode.toNat)),
          { s with indexInNode := s.nextMatch header node s.indexInNode.toNat + 1 })
      else (.error .recordNoMoreIdxInMem, { s with indexInNode := 0, read := true }) := by
  have hnot : ¬(s.nextPageNum = -1 ∧ s.indexInNode = -1) := fun h => by
    have hneg := h.2 ▸ hs.index
    exact absurd hneg (by decide)
  unfold getNextIdxInMemory
  simp only [hs.pinned, hs.unread, hs.get, if_neg hnot]

theorem Reading.dropWhile (s : BplusTreeScanner) (node : IndexNode) (i : Nat) :
    (node.entryList.drop i).dropWhile (!s.accepts header ·) = node.entryList.drop (s.nextMatch header node i) :=
  dropWhile_drop_firstN (zip node.keys node.rids) node.keyNum (s.accepts header) i

theorem Reading.found (hs : Reading σ s page node) {e : Key × RID} {todo : List (Key × RID)}
    (h : (node.entryList.drop s.indexInNode.toNat).dropWhile (!s.accepts header ·) = e :: todo) :
    ∃ i : Nat, s.getNextIdxInMemory header σ = (.ok e.2, { s with indexInNode := i + 1 }) ∧
      node.entryList.drop (i + 1) = todo := by
  rw [dropWhile] at h
  have hlen : s.nextMatch header node s.indexInNode.toNat < node.entryList.length := by
    by_contra hge
    rw [drop_eq_nil_of_le (Nat.not_lt.mp hge)] at h
    cases h
  rw [drop_eq_getElem_cons hlen] at h
  obtain ⟨he, htodo⟩ := List.cons.inj h
  have hnum : s.nextMatch header node s.indexInNode.toNat < node.keyNum := by
    rwa [IndexNode.entryList, firstN_length] at hlen
  refine ⟨s.nextMatch header node s.indexInNode.toNat, ?_, htodo⟩
  rw [hs.apply, if_pos hnum, ← he]
  simp only [IndexNode.entryList, firstN, getElem_map, getElem_range, zip]

theorem Reading.exhausted (hs : Reading σ s page node)
    (h : (node.entryList.drop s.indexInNode.toNat).dropWhile (!s.accepts header ·) = []) :
    s.getNextIdxInMemory header σ = (.error .recordNoMoreIdxInMem, { s with indexInNode := 0, read := true }) := by
  rw [dropWhile] at h
  have hle := drop_eq_nil_iff.mp h
  rw [IndexNode.entryList, firstN_length] at hle
  rw [hs.apply, if_neg (Nat.not_lt.mpr hle)]

end

/-! ### Going on to the next leaf -/

section
variable {h : BplusTreeHandler} {s : BplusTreeScanner} {held : Option IndexLeaf} {pins : PageNum → Int}

section
variable (hheld : s.pinned = held.map Leaf.page)
include hheld

theorem findIdxPages_unpinned :
    s.findIdxPages { h with pins := heldPins pins held } =
      (if s.nextPageNum ≤ 0 then pure (.error .recordEof, { s with pinned := none, read := false }) else do
          let header ← fileHeader
          let node ← getThisPage s.nextPageNum
          pure (.ok (), { s with
            pinned := some s.nextPageNum, read := false, nextPageNum := node.next header.order }) :
                Op (Except RC Unit × BplusTreeScanner)) { h with pins := pins } := by
  rw [findIdxPages]
  cases held with
  | none =>
    rw [hheld, heldPins_none]
    rfl
  | some l =>
    have hpins : addPins (heldPins pins (some l)) l.page (-1) = pins :=
      (unpin_pinAll pins [] l.page).trans (pinAll_nil pins)
    rw [hheld, map_some]
    exact congrArg _ (congrArg (fun q => { h with pins := q }) hpins)

theorem findIdxPages_end (hlast : s.nextPageNum ≤ 0) :
    s.findIdxPages { h with pins := heldPins pins held } =
      some (.ok (.error .recordEof, { s with pinned := none, read := false }), { h with pins := pins }) := by
  rw [findIdxPages_unpinned hheld, if_pos hlast]
  rfl

theorem findIdxPages_next {l : IndexLeaf} {node : IndexNode}
    (hnext : s.nextPageNum = l.page) (hpos : 0 < l.page) (hget : h.pages.get l.page = some node) :
    s.findIdxPages { h with pins := heldPins pins held } =
      some (.ok (.ok (), { s with pinned := some l.page, read := false, nextPageNum := node.next h.order }),
        { h with pins := heldPins pins (some l) }) := by
  have hpins : addPins pins l.page 1 = heldPins pins (some l) :=
    (congrArg (addPins · l.page 1) (pinAll_nil pins).symm).trans (addPins_pinAll pins [] l.page)
  rw [findIdxPages_unpinned hheld, if_neg (by rw [hnext]; exact Int.not_le.mpr hpos),
    bind_fileHeader, hnext, bind_ok (getThisPage_pinned hget pins), hpins]
  rfl

end

end

/-! ### `next_entry` -/

/-- The scanner has the leaf that `p` holds pinned, at the entries still to do, and goes on with its rest. -/
structure Stands (h : BplusTreeHandler) (s : BplusTreeScanner) (p : Place IndexLeaf (Key × RID)) : Prop where
  next : ∀ l ls, p.rest = l :: ls → s.nextPageNum = l.page
  last : p.rest = [] → s.nextPageNum ≤ 0
  pinned : s.pinned = p.held.map Leaf.page
  -- Without a leaf, the position is that in the first leaf ahead.
  start : p.held = none → p.todo = [] ∧ LeafRun h.pages h.fileHeader.order s.indexInNode.toNat p.rest ∧
    (p.rest ≠ [] → 0 ≤ s.indexInNode)
  holding : ∀ l, p.held = some l → LeafRun h.pages h.fileHeader.order 0 p.rest ∧
    ((s.read = true ∧ p.todo = [] ∧ s.indexInNode = 0) ∨
      ∃ node, Reading h.pages s l.page node ∧ p.todo = node.entryList.drop s.indexInNode.toNat)

def SameCondition (s s' : BplusTreeScanner) : Prop := s'.compOp = s.compOp ∧ s'.value = s.value ∧ s'.locals = s.locals

theorem SameCondition.accepts_eq {s s' : BplusTreeScanner} (h : SameCondition s s') (header : IndexFileHeader) :
    s'.accepts header = s.accepts header := by
  funext e
  simp only [accepts, h.1, h.2.1, h.2.2]

def answer : Found (Key × RID) → Except RC RID
  | .item e => .ok e.2
  | .gap => .error .recordNoMoreIdxInMem
  | .ended => .error .recordEof

section
variable {h : BplusTreeHandler} {s : BplusTreeScanner} {p : Place IndexLeaf (Key × RID)}

theorem Stands.exhausted (st : Stands h s p) (htodo : p.todo.dropWhile (!s.accepts h.fileHeader ·) = []) :
    ∃ s', s.getNextIdxInMemory h.fileHeader h.pages = (.error .recordNoMoreIdxInMem, s') ∧ SameCondition s s' ∧
      s'.pinned = s.pinned ∧ s'.nextPageNum = s.nextPageNum ∧
      LeafRun h.pages h.order s'.indexInNode.toNat p.rest ∧ (p.rest ≠ [] → 0 ≤ s'.indexInNode) := by
  cases hheld : p.held with
  | none =>
    have hpinned : s.pinned = none := by rw [st.pinned, hheld]; rfl
    refine ⟨s, ?_, ⟨rfl, rfl, rfl⟩, rfl, rfl, (st.start hheld).2⟩
    unfold getNextIdxInMemory
    simp only [hpinned]
  | some l =>
    obtain ⟨hrun, ⟨hread, -, hindex⟩ | ⟨node, hreading, htodo'⟩⟩ := st.holding l hheld
    · have hpinned : s.pinned = some l.page := by rw [st.pinned, hheld]; rfl
      refine ⟨s, ?_, ⟨rfl, rfl, rfl⟩, rfl, rfl, ?_, fun _ => hindex.ge⟩
      · unfold getNextIdxInMemory
        simp only [hpinned, hread]
      · rw [hindex]
        exact hrun
    · rw [htodo'] at htodo
      exact ⟨_, hreading.exhausted htodo, ⟨rfl, rfl, rfl⟩, rfl, rfl, hrun, fun _ => Int.le_refl 0⟩

theorem stands_of_reading {l : IndexLeaf} {rest : List IndexLeaf} {todo : List (Key × RID)}
    (hnext : s.nextPageNum = headPage rest) (hrun : LeafRun h.pages h.order 0 rest) (hpinned : s.pinned = some l.page)
    (hplace : (s.read = true ∧ todo = [] ∧ s.indexInNode = 0) ∨
      ∃ node, Reading h.pages s l.page node ∧ todo = node.entryList.drop s.indexInNode.toNat) :
    Stands h s ⟨some l, todo, rest⟩ where
  next := by
    rintro l' ls rfl
    exact hnext
  last := by
    rintro rfl
    exact hnext.le
  pinned := hpinned
  start hnone := nomatch hnone
  holding := by
    rintro _ ⟨⟩
    exact ⟨hrun, hplace⟩

theorem nextEntry_spec (st : Stands h s p) (pins : PageNum → Int) {found : Found (Key × RID)}
    {p' : Place IndexLeaf (Key × RID)} (hcall : next (s.accepts h.fileHeader) Leaf.entries p = (found, p')) :
    ∃ s', s.nextEntry { h with pins := heldPins pins p.held } =
        some (.ok (answer found, s'), { h with pins := heldPins pins p'.held }) ∧ Stands h s' p' ∧
            SameCondition s s' := by
  unfold next at hcall
  unfold nextEntry
  cases htodo : p.todo.dropWhile (!s.accepts h.fileHeader ·) with
  | cons e todo =>
    -- The pair is in the leaf that the scanner holds.
    rw [htodo] at hcall
    cases hcall
    cases hheld : p.held with
    | none =>
      rw [(st.start hheld).1] at htodo
      cases htodo
    | some l =>
      obtain ⟨hrun, ⟨-, hnil, -⟩ | ⟨node, hreading, htodo'⟩⟩ := st.holding l hheld
      · rw [hnil] at htodo
        cases htodo
      · rw [htodo'] at htodo
        obtain ⟨i, hnext, hdrop⟩ := hreading.found htodo
        rw [hnext]
        refine ⟨_, rfl, ⟨st.next, st.last, hreading.pinned, fun hnone => (nomatch hnone), ?_⟩, rfl, rfl, rfl⟩
        rintro _ ⟨⟩
        refine ⟨hrun, .inr ⟨node, ⟨hreading.get, hreading.pinned, hreading.unread, Int.natCast_nonneg (i + 1)⟩, ?_⟩⟩
        exact hdrop.symm
  | nil =>
    rw [htodo] at hcall
    obtain ⟨s₁, hnone, hsame, hpinned, hpage, hrun, hindex⟩ := st.exhausted htodo
    have hheld : s₁.pinned = p.held.map Leaf.page := hpinned.trans st.pinned
    rw [hnone]
    dsimp only
    cases hrest : p.rest with
    | nil =>
      rw [hrest] at hcall
      cases hcall
      rw [findIdxPages_end hheld (hpage.trans_le (st.last hrest))]
      refine ⟨{ s₁ with pinned := none, read := false }, ?_, ⟨fun l ls hl => (nomatch hl), fun _ => ?_, rfl,
        fun _ => ⟨rfl, trivial, fun hne => absurd rfl hne⟩, fun l hl => (nomatch hl)⟩, hsame⟩
      · rw [heldPins_none]
        rfl
      · exact hpage.trans_le (st.last hrest)
    | cons c rest =>
      rw [hrest] at hcall hrun hindex
      obtain ⟨⟨hpos, node, hget, hentries, hnext⟩, hrun⟩ := hrun
      rw [findIdxPages_next hheld (hpage.trans (st.next c rest hrest)) hpos hget]
      dsimp only at hcall ⊢
      -- The leaf that is pinned now is read from the position on.
      have hreading : Reading h.pages { s₁ with pinned := some c.page, read := false, nextPageNum := node.next h.order }
          c.page node := ⟨hget, rfl, rfl, hindex (cons_ne_nil c rest)⟩
      have haccepts : accepts h.fileHeader
          { s₁ with pinned := some c.page, read := false, nextPageNum := node.next h.order } = s.accepts h.fileHeader :=
        SameCondition.accepts_eq hsame _
      cases hc : c.entries.dropWhile (!s.accepts h.fileHeader ·) with
      | cons e todo =>
        rw [hc] at hcall
        cases hcall
        rw [← haccepts, ← hentries] at hc
        obtain ⟨i, hfound, hdrop⟩ := hreading.found hc
        rw [hfound]
        refine ⟨_, rfl, stands_of_reading hnext hrun rfl
          (.inr ⟨node, ⟨hget, rfl, rfl, Int.natCast_nonneg (i + 1)⟩, ?_⟩), hsame⟩
        exact hdrop.symm
      | nil =>
        rw [hc] at hcall
        cases hcall
        rw [← haccepts, ← hentries] at hc
        rw [hreading.exhausted hc]
        exact ⟨_, rfl, stands_of_reading hnext hrun rfl (.inl ⟨rfl, rfl, rfl⟩), hsame⟩

theorem callNext_spec (pins : PageNum → Int) {k : Nat} :
    ∀ {s : BplusTreeScanner} {p : Place IndexLeaf (Key × RID)}, Stands h s p →
    ∃ s', s.callNext k { h with pins := heldPins pins p.held } = some (.ok s',
      { h with pins := heldPins pins (after (s.accepts h.fileHeader) Leaf.entries k p).held }) := by
  induction k with
  | zero => exact fun {s p} _ => ⟨s, rfl⟩
  | succ k ih =>
    intro s p st
    rw [after, Function.iterate_succ_apply]
    generalize hnext : next (s.accepts h.fileHeader) Leaf.entries p = r
    obtain ⟨found, p'⟩ := r
    obtain ⟨s₁, hcall, st₁, hsame⟩ := nextEntry_spec st pins hnext
    have haccepts := hsame.accepts_eq h.fileHeader
    obtain ⟨s', hrest⟩ := ih st₁
    rw [haccepts] at hrest
    exact ⟨s', (bind_ok hcall).trans hrest⟩

def endCode (ended : Bool) : RC := if ended then .recordEof else .recordNoMoreIdxInMem

theorem entries_spec (pins : PageNum → Int) {n : Nat} :
    ∀ {s : BplusTreeScanner} {p : Place IndexLeaf (Key × RID)}, Stands h s p →
    match Cursor.drain (step (s.accepts h.fileHeader) Leaf.entries) n p with
    | none => s.entries n { h with pins := heldPins pins p.held } = none
    | some (es, ended) => ∃ pins', s.entries n { h with pins := heldPins pins p.held } =
        some (.ok (es.map Prod.snd, endCode ended), { h with pins := pins' }) := by
  induction n with
  | zero => exact fun {s p} _ => rfl
  | succ n ih =>
    intro s p st
    rw [Cursor.drain, step, entries]
    generalize hnext : next (s.accepts h.fileHeader) Leaf.entries p = r
    obtain ⟨found, p'⟩ := r
    obtain ⟨s₁, hcall, st₁, hsame⟩ := nextEntry_spec st pins hnext
    have haccepts := hsame.accepts_eq h.fileHeader
    rw [bind_ok hcall]
    cases found with
    | gap => exact ⟨_, rfl⟩
    | ended => exact ⟨_, rfl⟩
    | item e =>
      have hrest := ih st₁
      rw [haccepts] at hrest
      dsimp only [answer]
      cases hdrain : Cursor.drain (step (s.accepts h.fileHeader) Leaf.entries) n p' with
      | none =>
        rw [hdrain] at hrest
        rw [Op.bind_apply, hrest]
        rfl
      | some out =>
        rw [hdrain] at hrest
        obtain ⟨pins', hrest⟩ := hrest
        exact ⟨pins', bind_ok hrest⟩

end

end BplusTreeScanner

/-! ### Where a scan starts -/

section
variable {h : BplusTreeHandler} {pins : PageNum → Int} {n fuel : Nat} {compOp : CompOp} {key : Bytes} {l : IndexLeaf}
  {A : List IndexLeaf}

theorem firstLeafLoop_spec {par : PageNum} {t : IndexTree n} {node : IndexNode} (hfuel : n < fuel)
    (hrep : Rep h.pages par t) (hget : h.pages.get t.page = some node) :
    ∃ leaf, find (fun _ => true) t = some leaf ∧
      firstLeafLoop fuel t.page node { h with pins := addPins h.pins t.page 1 } = some (.ok leaf.page, h) := by
  induction n generalizing fuel par node with
  | zero =>
    obtain ⟨fuel, rfl⟩ := Nat.exists_eq_add_of_lt hfuel
    obtain ⟨node', hget', hnode⟩ := hrep
    obtain rfl : node' = node := some.inj (hget'.symm.trans hget)
    refine ⟨t, rfl, ?_⟩
    rw [firstLeafLoop, if_pos hnode.isLeaf, bind_ok unpinPage_apply]
    simp [Tree.page]
  | succ n ih =>
    obtain ⟨fuel, rfl⟩ := Nat.exists_eq_add_of_lt hfuel
    obtain ⟨page, keys, children, rfl⟩ := t.eq_branch
    obtain ⟨⟨node', hget', hnode⟩, hchildren⟩ := rep_branch.mp hrep
    obtain rfl : node' = node := some.inj (hget'.symm.trans hget)
    have hhead : (children.map Tree.page)[0]? = some (node'.rids 0).pageNum := by
      rw [← hnode.children, IndexNode.childList, firstN_getElem?, if_pos (Nat.succ_pos _)]
    rw [getElem?_map] at hhead
    obtain ⟨c, hc, hcpage⟩ := map_eq_some_iff.mp hhead
    have hcrep : Rep h.pages page c := hchildren c (mem_of_getElem? hc)
    obtain ⟨cnode, hcget⟩ := isSome_iff_exists.mp (hcrep.get_isSome _ c.page_mem_pages)
    have hless : n < n + 1 + fuel := by omega
    obtain ⟨leaf, hfind, hrun⟩ := ih hless hcrep hcget
    refine ⟨leaf, ?_, ?_⟩
    · have hidx : keys.findIdx (fun _ => true) = 0 := by cases keys <;> simp [findIdx_cons]
      show (children[keys.findIdx (fun _ => true)]?).bind (find _) = some leaf
      rw [hidx, hc]
      exact hfind
    · rw [firstLeafLoop, if_neg (by simp [hnode.isLeaf]), bind_ok unpinPage_apply]
      simp only [← hcpage, Tree.page_branch, addPins_addPins_neg]
      rw [bind_getThisPage hcget]
      exact hrun

theorem getFirstLeafPage_spec {t : IndexTree n} (hroot : h.fileHeader.rootPage = t.page)
    (hrep : Rep h.pages (-1) t) (hfuel : n < fuel) :
    ∃ leaf, find (fun _ => true) t = some leaf ∧ getFirstLeafPage fuel h = some (.ok leaf.page, h) := by
  obtain ⟨node, hget⟩ := isSome_iff_exists.mp (hrep.get_isSome _ t.page_mem_pages)
  obtain ⟨leaf, hfind, hrun⟩ := firstLeafLoop_spec hfuel hrep hget
  refine ⟨leaf, hfind, ?_⟩
  rw [getFirstLeafPage, bind_fileHeader, hroot, bind_getThisPage hget]
  exact hrun

def starts (header : IndexFileHeader) (compOp : CompOp) (key : Bytes) (e : Key × RID) : Bool :=
  compOp.startsAt (compareKey header (e.1.bytes header) key)

theorem pinAll_pinAll (pins : PageNum → Int) (ps qs : List PageNum) :
    pinAll (pinAll pins ps) qs = pinAll pins (ps ++ qs) := by
  funext q
  simp only [pinAll, count_append, Int.natCast_add, Int.add_assoc]

theorem firstSatisfiedLoop_cons {ls : List IndexLeaf} (hrun : LeafRun h.pages h.order 0 (l :: ls))
    (last : Option PageNum) : firstSatisfiedLoop compOp key (fuel + 1) l.page last { h with pins := pins } =
      if l.entries.findIdx (starts h.fileHeader compOp key) < l.entries.length then
        some (.ok (l.page, l.entries.findIdx (starts h.fileHeader compOp key)), { h with pins := pins })
      else firstSatisfiedLoop compOp key fuel (headPage ls) (some l.page) { h with pins := pinAll pins [l.page] } := by
  obtain ⟨⟨hpos, node, hget, hentries, hnext⟩, -⟩ := hrun
  have hlen : node.keyNum = l.entries.length := by
    rw [← hentries, drop_zero, IndexNode.entryList, firstN_length]
  have hidx : firstIdx node.keyNum (fun i => compOp.startsAt
    (compareKey h.fileHeader ((node.keys i).bytes h.fileHeader) key)) =
      l.entries.findIdx (starts h.fileHeader compOp key) := by
    rw [← hentries, drop_zero, IndexNode.entryList, ← firstIdx_eq_findIdx]
    rfl
  have hpin : addPins pins l.page 1 = pinAll pins [l.page] :=
    (congrArg (addPins · l.page 1) (pinAll_nil pins).symm).trans (addPins_pinAll pins [] l.page)
  rw [firstSatisfiedLoop, if_pos hpos, bind_fileHeader, bind_ok (getThisPage_pinned hget pins), hidx,
    hlen, hnext, hpin]
  split
  · rw [bind_ok unpinPage_apply, ← hpin, addPins_addPins_neg]
    rfl
  · rfl

theorem firstSatisfiedLoop_passed {rest : List IndexLeaf} :
    ∀ (pins : PageNum → Int) (last : Option PageNum), LeafRun h.pages h.order 0 (A ++ rest) →
    (∀ a ∈ A, ∀ e ∈ a.entries, starts h.fileHeader compOp key e = false) →
    ∃ last', firstSatisfiedLoop compOp key (fuel + A.length) (headPage (A ++ rest)) last { h with pins := pins } =
      firstSatisfiedLoop compOp key fuel (headPage rest) last' { h with pins := pinAll pins (A.map Leaf.page) } := by
  induction A with
  | nil =>
    intro pins last _ _
    refine ⟨last, ?_⟩
    rw [map_nil, pinAll_nil]
    rfl
  | cons a A ih =>
    intro pins last hrun hA
    have hidx : a.entries.findIdx (starts h.fileHeader compOp key) = a.entries.length :=
      findIdx_eq_length.mpr (hA a mem_cons_self)
    obtain ⟨last', hloop⟩ := ih (pinAll pins [a.page]) (some a.page) hrun.2 fun b hb => hA b (mem_cons_of_mem _ hb)
    rw [pinAll_pinAll] at hloop
    refine ⟨last', (firstSatisfiedLoop_cons hrun last).trans ?_⟩
    rw [if_neg (by rw [hidx]; exact lt_irrefl _)]
    exact hloop

theorem firstSatisfiedLoop_found {B : List IndexLeaf}
    (hl : ∃ e ∈ l.entries, starts h.fileHeader compOp key e = true) (pins : PageNum → Int) (last : Option PageNum)
    (hfuel : A.length < fuel) (hrun : LeafRun h.pages h.order 0 (A ++ l :: B))
    (hA : ∀ a ∈ A, ∀ e ∈ a.entries, starts h.fileHeader compOp key e = false) :
    firstSatisfiedLoop compOp key fuel (headPage (A ++ l :: B)) last { h with pins := pins } =
      some (.ok (l.page, l.entries.findIdx (starts h.fileHeader compOp key)),
        { h with pins := pinAll pins (A.map Leaf.page) }) := by
  obtain ⟨n, rfl⟩ : ∃ n, fuel = n + 1 + A.length := ⟨fuel - A.length - 1, by omega⟩
  obtain ⟨last', hpassed⟩ := firstSatisfiedLoop_passed pins last hrun hA
  refine hpassed.trans ((firstSatisfiedLoop_cons hrun.of_append last').trans ?_)
  rw [if_pos (findIdx_lt_length_of_exists hl)]

theorem firstSatisfiedLoop_none
    (hl : ∀ e ∈ l.entries, starts h.fileHeader compOp key e = false) (pins : PageNum → Int) (last : Option PageNum)
    (hfuel : A.length + 1 < fuel) (hrun : LeafRun h.pages h.order 0 (A ++ [l]))
    (hA : ∀ a ∈ A, ∀ e ∈ a.entries, starts h.fileHeader compOp key e = false) :
    firstSatisfiedLoop compOp key fuel (headPage (A ++ [l])) last { h with pins := pins } =
      some (.error .recordEof, { h with pins := pinAll pins (A.map Leaf.page) }) := by
  obtain ⟨n, rfl⟩ : ∃ n, fuel = n + 1 + 1 + A.length := ⟨fuel - A.length - 2, by omega⟩
  obtain ⟨last', hpassed⟩ := firstSatisfiedLoop_passed pins last hrun hA
  refine hpassed.trans ((firstSatisfiedLoop_cons hrun.of_append last').trans ?_)
  rw [if_neg (by rw [findIdx_eq_length.mpr hl]; exact lt_irrefl _)]
  have hunpin := (unpin_pinAll (pinAll pins (A.map Leaf.page)) [] l.page).trans (pinAll_nil _)
  exact congrArg (fun pins => some (Except.error RC.recordEof, { h with pins := pins })) hunpin

/-! ### Opening a scan -/

def CompOp.FromFirst (compOp : CompOp) : Prop := compOp = .lessThan ∨ compOp = .lessEqual ∨ compOp = .notEqual

instance (compOp : CompOp) : Decidable compOp.FromFirst := inferInstanceAs (Decidable (_ ∨ _ ∨ _))

section
variable (header : IndexFileHeader)

def reached (key : Bytes) {n : Nat} (t : IndexTree n) : List IndexLeaf :=
  (find (before header ⟨key, ⟨-1, -1⟩⟩) t).elim [] fun leaf => t.leafNodes.dropWhile fun l => l.page != leaf.page

def Passed (compOp : CompOp) (key : Bytes) (l : IndexLeaf) : Bool :=
  l.entries.all fun e => !starts header compOp key e

/-- What a scan has before it: the leaves from the first entry on at which it starts. -/
def ahead (compOp : CompOp) (key : Bytes) {n : Nat} (t : IndexTree n) : List IndexLeaf :=
  if compOp.FromFirst then t.leafNodes
  else match (reached header key t).dropWhile (Passed header compOp key) with
    | [] => []
    | l :: ls => ⟨l.page, l.entries.drop (l.entries.findIdx (starts header compOp key))⟩ :: ls

/-- The leaves that `find_first_index_satisfied` leaves pinned: those that it has passed, without the last one of the
    index. -/
def leftPinned (compOp : CompOp) (key : Bytes) {n : Nat} (t : IndexTree n) : List IndexLeaf :=
  if compOp.FromFirst then []
  else match (reached header key t).dropWhile (Passed header compOp key) with
    | [] => (reached header key t).dropLast
    | _ :: _ => (reached header key t).takeWhile (Passed header compOp key)

end

theorem find_mem_leafNodes {after : Key → Bool} {t : IndexTree n} {leaf : IndexLeaf} (h : find after t = some leaf) :
    leaf ∈ t.leafNodes := by
  induction n with
  | zero =>
    cases h
    exact mem_singleton_self _
  | succ n ih =>
    obtain ⟨c, hc, hfind⟩ := bind_eq_some_iff.mp h
    exact mem_flatMap.mpr ⟨c, mem_of_getElem? hc, ih hfind⟩

theorem dropWhile_page {leaf : IndexLeaf} {B : List IndexLeaf} (nodup : ((A ++ leaf :: B).map Leaf.page).Nodup) :
    (A ++ leaf :: B).dropWhile (fun l => l.page != leaf.page) = leaf :: B := by
  have hA : ∀ a ∈ A, (a.page != leaf.page) = true := by
    intro a ha
    rw [map_append, nodup_append] at nodup
    exact bne_iff_ne.mpr (nodup.2.2 _ (mem_map_of_mem ha) _ (mem_map_of_mem mem_cons_self))
  rw [dropWhile_append_of_pos hA, dropWhile_cons_of_neg]
  simp

theorem passed_iff {header : IndexFileHeader} :
    Passed header compOp key l = true ↔ ∀ e ∈ l.entries, starts header compOp key e = false := by
  simp [Passed]

theorem exists_starts {header : IndexFileHeader} (h : Passed header compOp key l = false) :
    ∃ e ∈ l.entries, starts header compOp key e = true := by
  simpa [Passed] using h

section
variable {L : Type} [LinearOrder L] {rank : Key → L} {n : Nat} {t : IndexTree n} {fuel : Nat}

section
variable (ht : Holds rank h t)
include ht

theorem Holds.nodup_leaves : (t.leafNodes.map Leaf.page).Nodup := by
  rw [← t.leaves_eq_map]
  exact t.leaves_sublist_pages.nodup ht.nodup

theorem findFirst_fromFirst {compOp : CompOp} (hfirst : compOp.FromFirst) (key : Bytes) (hfuel : n < fuel) :
    ∃ leaf rest, t.leafNodes = leaf :: rest ∧ findFirstIndexSatisfied fuel compOp key h =
      some (.ok (leaf.page, 0), h) := by
  have htest : compOp = .lessThan ∨ compOp = .lessEqual ∨ compOp = .notEqual := hfirst
  obtain ⟨leaf, hfind, hpage⟩ := getFirstLeafPage_spec ht.root ht.rep hfuel
  obtain ⟨leaf', rest, hfind', hleaves⟩ := ht.wf.find_first
  obtain rfl : leaf = leaf' := some.inj (hfind.symm.trans hfind')
  refine ⟨leaf, rest, hleaves, ?_⟩
  rw [findFirstIndexSatisfied, if_pos htest]
  exact bind_ok hpage

theorem Holds.reached_eq {key : Bytes} {leaf : IndexLeaf} {A B : List IndexLeaf}
    (hfind : find (before h.fileHeader ⟨key, ⟨-1, -1⟩⟩) t = some leaf) (hleaves : t.leafNodes = A ++ leaf :: B) :
    reached h.fileHeader key t = leaf :: B := by
  have hnodup := ht.nodup_leaves
  rw [hleaves] at hnodup
  rw [reached, hfind, elim_some, hleaves]
  exact dropWhile_page hnodup

theorem Holds.reached_run (key : Bytes) (hfuel : n < fuel) :
    ∃ A leaf B, t.leafNodes = A ++ leaf :: B ∧ reached h.fileHeader key t = leaf :: B ∧
      LeafRun h.pages h.order 0 (leaf :: B) ∧ findLeaf fuel ⟨key, ⟨-1, -1⟩⟩ h = some (.ok leaf.page, h) := by
  obtain ⟨leaf, hfind, hpage⟩ := @findLeaf_spec h ⟨key, ⟨-1, -1⟩⟩ n fuel t ht.root ht.rep hfuel
  obtain ⟨A, B, hleaves⟩ := append_of_mem (find_mem_leafNodes hfind)
  have hrun := ht.leafRun
  rw [hleaves] at hrun
  exact ⟨A, leaf, B, hleaves, ht.reached_eq hfind hleaves, hrun.of_append, hpage⟩

theorem findFirst_spec (compOp : CompOp) (key : Bytes) (hfuel : n + t.leafNodes.length + 1 < fuel) :
    ∃ r, findFirstIndexSatisfied fuel compOp key h =
        some (r, { h with pins := pinAll h.pins ((leftPinned h.fileHeader compOp key t).map Leaf.page) }) ∧
      ((r = .error .recordEof ∧ ahead h.fileHeader compOp key t = []) ∨
        ∃ (l : IndexLeaf) (i : Nat) (ls : List IndexLeaf), r = .ok (l.page, i) ∧
          ahead h.fileHeader compOp key t = ⟨l.page, l.entries.drop i⟩ :: ls ∧
          LeafRun h.pages h.order 0 (l :: ls)) := by
  have hn : n < fuel := by omega
  unfold ahead leftPinned
  by_cases hfirst : compOp.FromFirst
  · obtain ⟨leaf, rest, hleaves, hfind⟩ := findFirst_fromFirst ht hfirst key hn
    have hrun := ht.leafRun
    rw [if_pos hfirst, if_pos hfirst, map_nil, pinAll_nil]
    rw [hleaves] at hrun ⊢
    exact ⟨_, hfind, .inr ⟨leaf, 0, rest, rfl, rfl, hrun⟩⟩
  · have htest : ¬(compOp = .lessThan ∨ compOp = .lessEqual ∨ compOp = .notEqual) := hfirst
    obtain ⟨A, leaf, B, hleaves, hreached, hrun, hpage⟩ := ht.reached_run key hn
    have hlen : (leaf :: B).length + n + 1 < fuel := by
      rw [hleaves, length_append] at hfuel
      omega
    have hcall : findFirstIndexSatisfied fuel compOp key h = firstSatisfiedLoop compOp key fuel leaf.page none h := by
      rw [findFirstIndexSatisfied, if_neg htest]
      exact bind_ok hpage
    rw [if_neg hfirst, if_neg hfirst, hreached, hcall]
    have hsplit : (leaf :: B).takeWhile (Passed h.fileHeader compOp key) ++
        (leaf :: B).dropWhile (Passed h.fileHeader compOp key) = leaf :: B := takeWhile_append_dropWhile
    have htake : ∀ a ∈ (leaf :: B).takeWhile (Passed h.fileHeader compOp key), ∀ e ∈ a.entries,
        starts h.fileHeader compOp key e = false := fun a ha => passed_iff.mp (mem_takeWhile_imp ha)
    have hhead := head?_dropWhile_not (Passed h.fileHeader compOp key) (leaf :: B)
    have hhere : leaf.page = headPage (leaf :: B) := rfl
    have hne : leaf :: B ≠ [] := cons_ne_nil leaf B
    rw [hhere]
    generalize leaf :: B = reach at hsplit htake hhead hlen hrun hne ⊢
    cases hdrop : reach.dropWhile (Passed h.fileHeader compOp key) with
    | nil =>
      -- Every leaf is passed.
      rw [hdrop, append_nil] at hsplit
      rw [hsplit] at htake
      obtain ⟨C, l, rfl⟩ := (eq_nil_or_concat' reach).resolve_left hne
      rw [length_append, length_singleton] at hlen
      refine ⟨_, (firstSatisfiedLoop_none (fun e he => ?_) h.pins none (by omega) hrun fun a ha => ?_).trans ?_,
        .inl ⟨rfl, rfl⟩⟩
      · exact htake l (mem_append_right _ (mem_singleton_self l)) e he
      · exact htake a (mem_append_left _ ha)
      · rw [dropLast_concat]
    | cons l ls =>
      rw [hdrop] at hsplit hhead
      have hless : (reach.takeWhile (Passed h.fileHeader compOp key)).length < fuel := by
        rw [← hsplit, length_append] at hlen
        omega
      rw [← hsplit] at hrun
      have hloop := firstSatisfiedLoop_found (exists_starts hhead) h.pins none hless hrun htake
      rw [hsplit] at hloop
      exact ⟨_, hloop, .inr ⟨l, _, ls, rfl, rfl, hrun.of_append⟩⟩

def scanTest (header : IndexFileHeader) (compOp : CompOp) (key : Bytes) (locals : Key → DateLocals) (e : Key × RID) :
    Bool :=
  satisfyCondition header compOp key locals e.1

theorem openScan_spec (locals : Key → DateLocals) (compOp : CompOp) (value : Option Bytes)
    (hfuel : n + t.leafNodes.length + 1 < fuel) :
    let key := valueCopy h.fileHeader value
    ∃ s, openScan fuel locals compOp value h =
        some (.ok s, { h with pins := pinAll h.pins ((leftPinned h.fileHeader compOp key t).map Leaf.page) }) ∧
      Stands h s ⟨none, [], ahead h.fileHeader compOp key t⟩ ∧
      s.accepts h.fileHeader = scanTest h.fileHeader compOp key locals := by
  intro key
  obtain ⟨r, hfind, ⟨rfl, hnil⟩ | ⟨l, i, ls, rfl, hcons, hrun⟩⟩ := findFirst_spec ht compOp key hfuel
  · refine ⟨⟨compOp, key, locals, -1, -1, none, false⟩, ?_, ?_, rfl⟩
    · rw [openScan, bind_fileHeader, openAt, hfind]
    · rw [hnil]
      exact ⟨fun l ls hl => (nomatch hl), fun _ => (by decide : (-1 : Int) ≤ 0), rfl,
        fun _ => ⟨rfl, trivial, fun hne => absurd rfl hne⟩, fun l hl => (nomatch hl)⟩
  · refine ⟨⟨compOp, key, locals, l.page, i, none, false⟩, ?_, ?_, rfl⟩
    · rw [openScan, bind_fileHeader, openAt, hfind]
    · rw [hcons]
      refine ⟨?_, fun hl => (nomatch hl), rfl, fun _ => ⟨rfl, hrun.drop i, fun _ => Int.natCast_nonneg i⟩,
        fun l hl => (nomatch hl)⟩
      rintro _ _ ⟨⟩
      rfl

end

end

end

end MiniOb
