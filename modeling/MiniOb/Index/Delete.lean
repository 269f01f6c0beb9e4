import MiniOb.Index.Handler

/-! # Deleting from the B+ tree

`delete_entry` with the functions it calls. `delete_entry_internal` and `coalesce_node` call each other up the
tree; the second takes the first as an argument, and the fuel counts the levels. -/

namespace MiniOb
open Slots

def minKey (order : Nat) (isLeaf : Bool) : Nat := if isLeaf then order / 2 else (order + 1) / 2 - 1

/-- The key at `deleteIndex` taken out, with its pair (leaf) or the child to its right (internal node). -/
def IndexNode.removeAt (node : IndexNode) (deleteIndex : Nat) : IndexNode := { node with
  keys := shiftDown node.keys deleteIndex (node.keyNum - 1 - deleteIndex)
  rids := if node.isLeaf then shiftDown node.rids deleteIndex (node.keyNum - 1 - deleteIndex)
    else shiftDown node.rids (deleteIndex + 1) (node.keyNum - (deleteIndex + 1))
  keyNum := node.keyNum - 1 }

def deleteEntryFromNode (nodePage : PageNum) (pkey : Key) : Op Unit := do
  let header ← Op.fileHeader
  let node ← getThisPage nodePage
  let deleteIndex := firstIdx node.keyNum fun i => decide (cmpKey header pkey (node.keys i) = 0)
  if node.keyNum ≤ deleteIndex then
    -- The page stays pinned.
    Op.fail .recordInvalidKey
  else
    putNode nodePage (node.removeAt deleteIndex)
    unpinPage nodePage

/-- The `for` loop over the keys of a parent that looks for the child `leafPage`; it does not look at the last
    child. -/
def IndexNode.sepPos (parent : IndexNode) (leafPage : PageNum) : Nat :=
  firstIdx parent.keyNum fun k => decide ((parent.rids k).pageNum = leafPage)

/-- The node that `coalesce_node` leaves in the left page; `sep` is the key between the two in the parent. -/
def IndexNode.merge (order : Nat) (left : IndexNode) (sep : Key) (right : IndexNode) : IndexNode :=
  if left.isLeaf then { left with
    keys := copy left.keys left.keyNum right.keys 0 right.keyNum
    rids := set (copy left.rids left.keyNum right.rids 0 right.keyNum) (order - 1) (right.rids (order - 1))
    keyNum := left.keyNum + right.keyNum }
  else
    let start := left.keyNum + 1
    { left with
      keys := copy (set left.keys left.keyNum sep) start right.keys 0 right.keyNum
      rids := set (copy left.rids start right.rids 0 right.keyNum) (start + right.keyNum) (right.rids right.keyNum)
      keyNum := start + right.keyNum }

/-- `coalesce_node`. The children that `right` had get `leafPage` as their parent. -/
def coalesceNode (deleteEntryInternal : PageNum → Key → Op Unit) (leafPage rightPage : PageNum) : Op Unit := do
  let header ← Op.fileHeader
  let left ← getThisPage leafPage
  let right ← getThisPage rightPage
  let parentPage := left.parent
  let parent ← getThisPage parentPage
  let k := parent.sepPos leafPage
  let merged := left.merge header.order (parent.keys k) right
  putNode leafPage merged
  if left.isLeaf then pure ()
  else setParents leafPage (firstN (fun i => (merged.rids (left.keyNum + 1 + i)).pageNum) (right.keyNum + 1))
  unpinPage leafPage
  unpinPage rightPage
  disposePage rightPage
  unpinPage parentPage
  deleteEntryInternal parentPage (parent.keys k)

/-! ### Redistribution

The four ways of `redistribute_nodes`, each as the new left, right and parent node; `k` is the position of the
separator in the parent. -/

structure Redistributed where
  left : IndexNode
  right : IndexNode
  parent : IndexNode

def leafFromRight (left right parent : IndexNode) (k : Nat) : Redistributed :=
  let right' : IndexNode := { right with
    keys := shiftDown right.keys 0 (right.keyNum - 1)
    rids := shiftDown right.rids 0 (right.keyNum - 1)
    keyNum := right.keyNum - 1 }
  { left := { left with
      keys := set left.keys left.keyNum (right.keys 0)
      rids := set left.rids left.keyNum (right.rids 0)
      keyNum := left.keyNum + 1 }
    right := right'
    parent := { parent with keys := set parent.keys k (right'.keys 0) } }

/-- A leaf takes the last key of its left sibling. `rids[0]` is not written: it keeps the RID it had. -/
def leafFromLeft (left right parent : IndexNode) (k : Nat) : Redistributed :=
  let right' : IndexNode := { right with
    keys := set (shiftUp right.keys 0 right.keyNum) 0 (left.keys (left.keyNum - 1))
    rids := shiftUp right.rids 0 right.keyNum
    keyNum := right.keyNum + 1 }
  { left := { left with keyNum := left.keyNum - 1 }
    right := right'
    parent := { parent with keys := set parent.keys k (right'.keys 0) } }

/-- An internal node takes the first child of its right sibling. The loop that closes the gap moves
    `key_num - 1` children of the `key_num` that remain. -/
def internFromRight (left right parent : IndexNode) (k : Nat) : Redistributed where
  left := { left with
    keys := set left.keys left.keyNum (parent.keys k)
    rids := set left.rids (left.keyNum + 1) (right.rids 0)
    keyNum := left.keyNum + 1 }
  right := { right with
    keys := shiftDown right.keys 0 (right.keyNum - 1)
    rids := shiftDown right.rids 0 (right.keyNum - 1)
    keyNum := right.keyNum - 1 }
  parent := { parent with keys := set parent.keys k (right.keys 0) }

/-- An internal node takes the last child of its left sibling. The loop that makes room moves `key_num` of the
    `key_num + 1` children. -/
def internFromLeft (left right parent : IndexNode) (k : Nat) : Redistributed where
  left := { left with keyNum := left.keyNum - 1 }
  right := { right with
    keys := set (shiftUp right.keys 0 right.keyNum) 0 (parent.keys k)
    rids := set (shiftUp right.rids 0 right.keyNum) 0 (left.rids left.keyNum)
    keyNum := right.keyNum + 1 }
  parent := { parent with keys := set parent.keys k (left.keys (left.keyNum - 1)) }

/-- The nodes after `redistribute_nodes`, and the child that changes parent with its new parent. -/
def redistribute (order : Nat) (leafPage rightPage : PageNum) (left right parent : IndexNode) (k : Nat) :
    Redistributed × Option (PageNum × PageNum) :=
  if left.isLeaf then
    if left.keyNum < minKey order true then (leafFromRight left right parent k, none)
    else (leafFromLeft left right parent k, none)
  else
    if left.keyNum < minKey order false then
      let r := internFromRight left right parent k
      (r, some ((r.left.rids r.left.keyNum).pageNum, leafPage))
    else
      let r := internFromLeft left right parent k
      (r, some ((r.right.rids 0).pageNum, rightPage))

def redistributeNodes (leafPage rightPage : PageNum) : Op Unit := do
  let header ← Op.fileHeader
  let left ← getThisPage leafPage
  let right ← getThisPage rightPage
  let parentPage := left.parent
  let parent ← getThisPage parentPage
  let (r, moved) := redistribute header.order leafPage rightPage left right parent (parent.sepPos leafPage)
  putNode leafPage r.left
  putNode rightPage r.right
  putNode parentPage r.parent
  match moved with
  | none => pure ()
  | some (child, newParent) => setParent child newParent
  unpinPage leafPage
  unpinPage rightPage
  unpinPage parentPage

/-! ### Rebalancing -/

/-- The root after a deletion: an internal root without keys gives way to its only child. -/
def collapseRoot (pageNum : PageNum) (node : IndexNode) : Op Unit := do
  if node.keyNum = 0 ∧ node.isLeaf = false then
    setParent (node.rids 0).pageNum (-1)
    setRootPage (node.rids 0).pageNum
    unpinPage pageNum
    disposePage pageNum
  else
    unpinPage pageNum

/-- The index of `pageNum` among the children of its parent: the `while` loop of `delete_entry_internal`. -/
def IndexNode.deleteIndex (parent : IndexNode) (pageNum : PageNum) : Nat :=
  firstIdx (parent.keyNum + 1) fun i => decide ((parent.rids i).pageNum = pageNum)

/-- `delete_entry_internal` once `delete_entry_from_node` has succeeded. -/
def rebalance (deleteEntryInternal : PageNum → Key → Op Unit) (pageNum : PageNum) : Op Unit := do
  let header ← Op.fileHeader
  let node ← getThisPage pageNum
  if node.parent = -1 then
    collapseRoot pageNum node
  else if minKey header.order node.isLeaf ≤ node.keyNum then
    unpinPage pageNum
  else
    let parent ← getThisPage node.parent
    let deleteIndex := parent.deleteIndex pageNum
    -- The sibling is the right one for the first child and the left one otherwise.
    let sibling := if deleteIndex = 0 then (parent.rids 1).pageNum else (parent.rids (deleteIndex - 1)).pageNum
    let leafPage := if deleteIndex = 0 then pageNum else sibling
    let rightPage := if deleteIndex = 0 then sibling else pageNum
    let siblingNode ← getThisPage sibling
    unpinPage pageNum
    unpinPage node.parent
    unpinPage sibling
    if minKey header.order node.isLeaf < siblingNode.keyNum then
      redistributeNodes leafPage rightPage
    else
      coalesceNode deleteEntryInternal leafPage rightPage

def deleteEntryInternal : Nat → PageNum → Key → Op Unit
  | 0, _, _ => Op.diverge
  | fuel + 1, pageNum, pkey => do
    deleteEntryFromNode pageNum pkey
    rebalance (deleteEntryInternal fuel) pageNum

def deleteEntry (fuel : Nat) (data : Bytes) (rid : RID) : Op Unit := do
  let header ← Op.fileHeader
  let leafPage ← findLeaf fuel (header.keyOf data rid)
  deleteEntryInternal fuel leafPage (header.keyOf data rid)

end MiniOb
