import MiniOb.Theorems.DeleteNodes

/-! # The runs of `delete_entry_internal`

One equation between runs for each way that the calls below `delete_entry_internal` can go. -/

namespace MiniOb
open Slots BTree Op
variable {h : BplusTreeHandler} {page : PageNum} {node : IndexNode} {pkey : Key}

theorem deleteEntryFromNode_run {d : Nat} (hget : h.pages.get page = some node)
    (hd : firstIdx node.keyNum (fun i => decide (cmpKey h.fileHeader pkey (node.keys i) = 0)) = d)
    (hlt : d < node.keyNum) :
    deleteEntryFromNode page pkey h = some (.ok (), { h with pages := h.pages.set page (node.removeAt d) }) := by
  rw [deleteEntryFromNode, bind_fileHeader, bind_getThisPage hget]
  simp only [hd, if_neg (not_le.mpr hlt)]
  rw [bind_ok putNode_apply, unpinPage_apply]
  simp

theorem firstIdx_key {ks₁ ks₂ : List Key} {k : Key} (hkeys : node.keyList = ks₁ ++ k :: ks₂)
    (h₁ : ∀ k' ∈ ks₁, cmpKey h.fileHeader pkey k' ≠ 0) (hk : cmpKey h.fileHeader pkey k = 0) :
    firstIdx node.keyNum (fun i => decide (cmpKey h.fileHeader pkey (node.keys i) = 0)) = ks₁.length ∧
      ks₁.length < node.keyNum :=
  firstIdx_of_split (p := fun k' => decide (cmpKey h.fileHeader pkey k' = 0)) hkeys
    (fun k' hk' => decide_eq_false (h₁ k' hk')) (decide_eq_true hk)

theorem LeafNode.keyList_eq {par : PageNum} {es : List (Key × RID)} (hnode : LeafNode node par es) :
    node.keyList = es.map Prod.fst := by
  rw [← hnode.entries, IndexNode.entryList, firstN_map]
  rfl

theorem deleteEntryFromNode_absent (hget : h.pages.get page = some node)
    (habsent : ∀ k ∈ node.keyList, cmpKey h.fileHeader pkey k ≠ 0) :
    deleteEntryFromNode page pkey h = some (.error .recordInvalidKey, { h with pins := addPins h.pins page 1 }) := by
  have hd : firstIdx node.keyNum (fun i => decide (cmpKey h.fileHeader pkey (node.keys i) = 0)) = node.keyNum := by
    refine firstIdx_eq (le_refl _) (fun hlt => absurd hlt (lt_irrefl _)) fun j hj => decide_eq_false ?_
    exact habsent _ (mem_firstN.mpr ⟨j, hj, rfl⟩)
  rw [deleteEntryFromNode, bind_fileHeader, bind_getThisPage hget]
  simp only [hd, if_pos (le_refl _)]
  exact fail_apply _ _

/-- `coalesce_node` on the pages `l` and `r` leaves the pages `σ`. Then it gives `r` back and goes on to delete `s` from
    the parent `p`, whatever that does; if `r` is refused it stops there, with the parent pinned. -/
def Coalesces (h : BplusTreeHandler) (l r p : PageNum) (s : Key) (σ : Pages) : Prop :=
  ∀ dei : PageNum → Key → Op Unit, coalesceNode dei l r h =
    if h.Free r then dei p s { h with pages := σ.erase r }
    else some (.error .bufferpoolPagePinned, { h with pages := σ, pins := addPins h.pins p 1 })

theorem giveBack_run {l r p : PageNum} {right : IndexNode} {σ : Pages} {s : Key} {dei : PageNum → Key → Op Unit}
    (hr : σ.get r = some right) (hrp : r ≠ p) :
    (do disposePage r; unpinPage p; dei p s : Op Unit) { h with
      pages := σ
      pins := addPins (addPins (addPins (addPins (addPins h.pins l 1) r 1) p 1) l (-1)) r (-1) } =
    if h.Free r then dei p s { h with pages := σ.erase r }
    else some (.error .bufferpoolPagePinned, { h with pages := σ, pins := addPins h.pins p 1 }) := by
  have hpins : addPins (addPins (addPins (addPins (addPins h.pins l 1) r 1) p 1) l (-1)) r (-1) =
      addPins h.pins p 1 := by
    rw [addPins_comm _ p l, addPins_comm _ p r, addPins_two]
  have hfree : ({ h with pages := σ, pins := addPins h.pins p 1 } : BplusTreeHandler).Free r ↔ h.Free r := by
    simp only [BplusTreeHandler.Free, addPins, if_neg hrp]
  rw [hpins]
  by_cases free : h.Free r
  · rw [if_pos free]
    refine (bind_ok ((disposePage_of_get (by exact hr)).trans (if_pos (hfree.mpr free)))).trans ?_
    rw [bind_ok unpinPage_apply]
    simp only [addPins_addPins_neg]
  · rw [if_neg free]
    exact bind_error ((disposePage_of_get (by exact hr)).trans (if_neg (hfree.not.mpr free)))

section
variable {l r p : PageNum} {left right parent : IndexNode} {x : Redistributed}
  (hl : h.pages.get l = some left) (hr : h.pages.get r = some right) (hp : h.pages.get p = some parent)
  (hpar : left.parent = p)
include hl hr hp hpar

theorem redistributeNodes_run (hx : redistribute h.order l r left right parent (parent.sepPos l) = (x, none)) :
    redistributeNodes l r h =
      some (.ok (), { h with pages := ((h.pages.set l x.left).set r x.right).set p x.parent }) := by
  rw [redistributeNodes, bind_fileHeader, bind_getThisPage hl]
  rw [bind_ok (getThisPage_pinned hr _), hpar]
  rw [bind_ok (getThisPage_pinned hp _), hx]
  simp only
  rw [bind_ok putNode_apply, bind_ok putNode_apply, bind_ok putNode_apply, bind_ok unpinPage_apply,
    bind_ok unpinPage_apply, unpinPage_apply]
  simp only [addPins_three]

theorem redistributeNodes_run_moved {c np : PageNum} {cnode : IndexNode}
    (hx : redistribute h.order l r left right parent (parent.sepPos l) = (x, some (c, np)))
    (hc : (((h.pages.set l x.left).set r x.right).set p x.parent).get c = some cnode) :
    redistributeNodes l r h = some (.ok (), { h with
      pages := (((h.pages.set l x.left).set r x.right).set p x.parent).set c (cnode.withParent np) }) := by
  rw [redistributeNodes, bind_fileHeader, bind_getThisPage hl]
  rw [bind_ok (getThisPage_pinned hr _), hpar]
  rw [bind_ok (getThisPage_pinned hp _), hx]
  simp only
  rw [bind_ok putNode_apply, bind_ok putNode_apply, bind_ok putNode_apply]
  refine (bind_ok (setParent_of_get (by exact hc))).trans ?_
  rw [bind_ok unpinPage_apply, bind_ok unpinPage_apply, unpinPage_apply]
  simp only [addPins_three]
  rfl

theorem coalesceNode_run_leaf (hleaf : left.isLeaf = true) (hlr : r ≠ l) (hrp : r ≠ p) :
    Coalesces h l r p (parent.keys (parent.sepPos l))
      (h.pages.set l (left.merge h.order (parent.keys (parent.sepPos l)) right)) := by
  intro dei
  rw [coalesceNode, bind_fileHeader, bind_getThisPage hl]
  rw [bind_ok (getThisPage_pinned hr _), hpar]
  rw [bind_ok (getThisPage_pinned hp _)]
  simp only [hleaf, if_true]
  rw [bind_ok putNode_apply, bind_ok unpinPage_apply, bind_ok unpinPage_apply]
  exact giveBack_run (h := h) ((Pages.get_set_ne hlr).trans hr) hrp

theorem coalesceNode_run_intern {C : List PageNum} (hintern : left.isLeaf = false)
    (hlr : r ≠ l) (hrp : r ≠ p) (hrC : r ∉ C)
    (hC : firstN (fun i => ((left.merge h.order (parent.keys (parent.sepPos l)) right).rids
      (left.keyNum + 1 + i)).pageNum) (right.keyNum + 1) = C) (hsome : ∀ q ∈ C, ((h.pages.set l
      (left.merge h.order (parent.keys (parent.sepPos l)) right)).get q).isSome) :
    ∃ σ', Coalesces h l r p (parent.keys (parent.sepPos l)) σ' ∧
      ∀ q, σ'.get q = if q ∈ C then
        ((h.pages.set l (left.merge h.order (parent.keys (parent.sepPos l)) right)).get q).map (IndexNode.withParent l)
        else (h.pages.set l (left.merge h.order (parent.keys (parent.sepPos l)) right)).get q := by
  generalize hm : left.merge h.order (parent.keys (parent.sepPos l)) right = merged at hC hsome ⊢
  let h' : BplusTreeHandler := { h with
    pages := h.pages.set l merged
    pins := addPins (addPins (addPins h.pins l 1) r 1) p 1 }
  obtain ⟨σ', hrun, hσ'⟩ := @setParents_run l C h' hsome
  have hr' : σ'.get r = some right := by
    rw [hσ', if_neg hrC]
    exact (Pages.get_set_ne hlr).trans hr
  refine ⟨σ', fun dei => ?_, hσ'⟩
  rw [coalesceNode, bind_fileHeader, bind_getThisPage hl]
  rw [bind_ok (getThisPage_pinned hr _), hpar]
  rw [bind_ok (getThisPage_pinned hp _)]
  simp only [hintern, hm, hC, Bool.false_eq_true, if_false]
  rw [bind_ok putNode_apply]
  refine (bind_ok hrun).trans ?_
  rw [bind_ok unpinPage_apply, bind_ok unpinPage_apply]
  exact giveBack_run (h := h) hr' hrp

end

section
variable {dei : PageNum → Key → Op Unit} (hget : h.pages.get page = some node)
include hget

theorem rebalance_root (hroot : node.parent = -1) (hstay : ¬(node.keyNum = 0 ∧ node.isLeaf = false)) :
    rebalance dei page h = some (.ok (), h) := by
  rw [rebalance, bind_fileHeader, bind_getThisPage hget, if_pos hroot, collapseRoot,
    if_neg hstay, unpinPage_apply]
  simp

theorem rebalance_collapse {c : PageNum} {cnode : IndexNode} (hroot : node.parent = -1)
    (hempty : node.keyNum = 0 ∧ node.isLeaf = false) (hc : (node.rids 0).pageNum = c)
    (hcget : h.pages.get c = some cnode) (hne : page ≠ c) (free : h.Free page) :
    rebalance dei page h = some (.ok (), { h with
      pages := (h.pages.set c (cnode.withParent (-1))).erase page, fileHeader :=
  { h.fileHeader with rootPage := c } }) := by
  rw [rebalance, bind_fileHeader, bind_getThisPage hget, if_pos hroot, collapseRoot,
    if_pos hempty, hc]
  refine (bind_ok (setParent_of_get (by exact hcget))).trans ?_
  rw [bind_ok setRootPage_apply, bind_ok unpinPage_apply]
  refine (disposePage_of_get ((Pages.get_set_ne hne).trans hget)).trans ?_
  simp only [addPins_addPins_neg]
  exact if_pos free

theorem rebalance_enough (hroot : node.parent ≠ -1) (hkeys : minKey h.order node.isLeaf ≤ node.keyNum) :
    rebalance dei page h = some (.ok (), h) := by
  rw [rebalance, bind_fileHeader, bind_getThisPage hget, if_neg hroot, if_pos hkeys,
    unpinPage_apply]
  simp

variable {parent siblingNode : IndexNode} {sibling l r : PageNum} (hroot : node.parent ≠ -1)
  (hshort : ¬minKey h.order node.isLeaf ≤ node.keyNum) (hparent : h.pages.get node.parent = some parent)
  (hsibling : h.pages.get sibling = some siblingNode)
  (hplace : parent.deleteIndex page = 0 ∧ sibling = (parent.rids 1).pageNum ∧ l = page ∧ r = sibling ∨
    parent.deleteIndex page ≠ 0 ∧ sibling = (parent.rids (parent.deleteIndex page - 1)).pageNum ∧
      l = sibling ∧ r = page)
include hroot hshort hparent hsibling hplace

theorem rebalance_sibling :
    rebalance dei page h = if minKey h.order node.isLeaf < siblingNode.keyNum then redistributeNodes l r h
      else coalesceNode dei l r h := by
  rw [rebalance, bind_fileHeader, bind_getThisPage hget, if_neg hroot, if_neg hshort,
    bind_ok (getThisPage_pinned hparent _)]
  rcases hplace with ⟨h₀, rfl, rfl, rfl⟩ | ⟨h₀, rfl, rfl, rfl⟩
  · simp only [h₀, if_true]
    rw [bind_ok (getThisPage_pinned hsibling _), bind_ok unpinPage_apply, bind_ok unpinPage_apply,
      bind_ok unpinPage_apply]
    simp only [addPins_three]
    split <;> rfl
  · simp only [h₀, if_false]
    rw [bind_ok (getThisPage_pinned hsibling _), bind_ok unpinPage_apply, bind_ok unpinPage_apply,
      bind_ok unpinPage_apply]
    simp only [addPins_three]
    split <;> rfl

end

end MiniOb
