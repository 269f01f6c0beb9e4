import MiniOb.Index.Handler

/-! # Inserting into the B+ tree

`BplusTreeHandler::create` and `insert_entry` with the functions it calls. `insert_into_parent` and
`insert_intern_node_after_split` call each other up the tree; the second takes the first as an argument, and
the fuel counts the levels. -/

namespace MiniOb
open Slots

/-! ### The nodes that an insertion writes -/

def IndexNode.insertPair (node : IndexNode) (insertPos : Nat) (pkey : Key) (rid : RID) : IndexNode := { node with
  keys := set (shiftUp node.keys insertPos node.keyNum) insertPos pkey
  rids := set (shiftUp node.rids insertPos node.keyNum) insertPos rid
  keyNum := node.keyNum + 1 }

def IndexNode.insertChild (node : IndexNode) (insertPos : Nat) (pkey : Key) (rightPage : PageNum) : IndexNode :=
  { node with
    rids := set (shiftUp node.rids (insertPos + 1) (node.keyNum + 1)) (insertPos + 1) ⟨rightPage, bpInvalidPageNum⟩
    keys := set (shiftUp node.keys insertPos node.keyNum) insertPos pkey
    keyNum := node.keyNum + 1 }

structure SplitNodes where
  left : IndexNode
  right : IndexNode
  newKey : Key

/-- The split of `insert_into_leaf_after_split`; `page` is what the new page held. The temporaries come from
    `malloc`; every slot of them that is read has been written. -/
def splitLeaf (order : Nat) (leaf page : IndexNode) (newPage : PageNum) (insertPos : Nat) (pkey : Key) (rid : RID) :
    SplitNodes :=
  let tempKeys := set (spread (fun _ => pkey) leaf.keys insertPos leaf.keyNum) insertPos pkey
  let tempPointers := set (spread (fun _ => rid) leaf.rids insertPos leaf.keyNum) insertPos rid
  let split := order / 2
  let leafRids := copy leaf.rids 0 tempPointers 0 split
  let newKeys := copy page.keys 0 tempKeys split (order - split)
  { left := { leaf with
      keys := copy leaf.keys 0 tempKeys 0 split
      rids := set leafRids (order - 1) ⟨newPage, -1⟩
      keyNum := split }
    right := {
      isLeaf := true
      keyNum := order - split
      parent := leaf.parent
      keys := newKeys
      rids := set (copy page.rids 0 tempPointers split (order - split)) (order - 1) (leafRids (order - 1)) }
    newKey := newKeys 0 }

/-- The split of `insert_intern_node_after_split`, with the temporaries as in `splitLeaf`. The key in the middle
    goes to the parent only. -/
def splitIntern (order : Nat) (interNode page : IndexNode) (insertPos : Nat) (pkey : Key) (rightPage : PageNum) :
    SplitNodes :=
  let tempPointers := set (spread (fun _ => ⟨rightPage, -1⟩) interNode.rids (insertPos + 1) (interNode.keyNum + 1))
    (insertPos + 1) ⟨rightPage, -1⟩
  let tempKeys := set (spread (fun _ => pkey) interNode.keys insertPos interNode.keyNum) insertPos pkey
  let split := (order + 1) / 2
  { left := { interNode with
      keys := copy interNode.keys 0 tempKeys 0 (split - 1)
      rids := copy interNode.rids 0 tempPointers 0 split
      keyNum := split - 1 }
    right := {
      isLeaf := false
      keyNum := order - split
      parent := interNode.parent
      keys := copy page.keys 0 tempKeys split (order - split)
      rids := copy page.rids 0 tempPointers split (order - split + 1) }
    newKey := tempKeys (split - 1) }

/-- The root that `insert_into_new_root` writes; `page` is what the new page held. -/
def newRoot (page : IndexNode) (leftPage : PageNum) (pkey : Key) (rightPage : PageNum) : IndexNode where
  isLeaf := false
  keyNum := 1
  parent := -1
  keys := set page.keys 0 pkey
  rids := set (set page.rids 0 ⟨leftPage, -1⟩) 1 ⟨rightPage, -1⟩

/-! ### The functions of the handler -/

def insertIntoLeaf (leafPage : PageNum) (pkey : Key) (rid : RID) : Op Unit := do
  let header ← Op.fileHeader
  let node ← getThisPage leafPage
  let insertPos := firstIdx node.keyNum fun i => decide (cmpKey header pkey (node.keys i) ≤ 0)
  if insertPos < node.keyNum ∧ cmpKey header pkey (node.keys insertPos) = 0 then
    -- The leaf stays pinned.
    Op.fail .recordDuplicateKey
  else
    putNode leafPage (node.insertPair insertPos pkey rid)
    unpinPage leafPage

def insertIntoNewRoot (leftPage : PageNum) (pkey : Key) (rightPage : PageNum) : Op Unit := do
  let (rootPage, page) ← allocatePage
  putNode rootPage (newRoot page leftPage pkey rightPage)
  unpinPage rootPage
  setParent leftPage rootPage
  setParent rightPage rootPage
  setRootPage rootPage

/-- The index of the child `leftPage`: the `while` loop of the two functions that insert into a parent. -/
def IndexNode.childPos (node : IndexNode) (leftPage : PageNum) : Nat :=
  firstIdx (node.keyNum + 1) fun i => decide ((node.rids i).pageNum = leftPage)

def insertInternNode (parentPage leftPage rightPage : PageNum) (pkey : Key) : Op Unit := do
  let node ← getThisPage parentPage
  putNode parentPage (node.insertChild (node.childPos leftPage) pkey rightPage)
  unpinPage parentPage

def insertInternNodeAfterSplit (insertIntoParent : PageNum → PageNum → Key → PageNum → Op Unit)
    (interPage leftPage rightPage : PageNum) (pkey : Key) : Op Unit := do
  let header ← Op.fileHeader
  let interNode ← getThisPage interPage
  let (newPage, page) ← allocatePage
  let r := splitIntern header.order interNode page (interNode.childPos leftPage) pkey rightPage
  putNode interPage r.left
  putNode newPage r.right
  setParents newPage r.right.childList
  unpinPage interPage
  unpinPage newPage
  insertIntoParent interNode.parent interPage r.newKey newPage

def insertIntoParent : Nat → PageNum → PageNum → Key → PageNum → Op Unit
  | 0, _, _, _, _ => Op.diverge
  | fuel + 1, parentPage, leftPage, pkey, rightPage => do
    if parentPage = -1 then
      insertIntoNewRoot leftPage pkey rightPage
    else
      let header ← Op.fileHeader
      let node ← getThisPage parentPage
      unpinPage parentPage
      if node.keyNum < header.order - 1 then
        insertInternNode parentPage leftPage rightPage pkey
      else
        insertInternNodeAfterSplit (insertIntoParent fuel) parentPage leftPage rightPage pkey

def insertIntoLeafAfterSplit (fuel : Nat) (leafPage : PageNum) (pkey : Key) (rid : RID) : Op Unit := do
  let header ← Op.fileHeader
  let leaf ← getThisPage leafPage
  let (newPage, page) ← allocatePage
  let insertPos := firstIdx leaf.keyNum fun i => decide (cmpKey header pkey (leaf.keys i) < 0)
  let r := splitLeaf header.order leaf page newPage insertPos pkey rid
  putNode leafPage r.left
  unpinPage leafPage
  putNode newPage r.right
  unpinPage newPage
  insertIntoParent fuel leaf.parent leafPage r.newKey newPage

/-- The rest of `insert_entry` once `find_leaf` has found the leaf. A failure of
    `insert_into_leaf_after_split` is not reported. -/
def insertIntoFoundLeaf (fuel : Nat) (leafPage : PageNum) (key : Key) (rid : RID) : Op Unit := do
  let header ← Op.fileHeader
  let leaf ← getThisPage leafPage
  unpinPage leafPage
  if leaf.keyNum < header.order - 1 then
    insertIntoLeaf leafPage key rid
  else
    Op.ignoreRC (insertIntoLeafAfterSplit fuel leafPage key rid)

def insertEntry (fuel : Nat) (pkey : Bytes) (rid : RID) : Op Unit := fun h =>
  if h.opened = false then some (.error .recordClosed, h)
  else (do
    let header ← Op.fileHeader
    let leafPage ← findLeaf fuel (header.keyOf pkey rid)
    insertIntoFoundLeaf fuel leafPage (header.keyOf pkey rid) rid : Op Unit) h

/-! ### Creating the tree -/

/-- `sizeof(IndexFileHeader)`, `sizeof(IndexNode)` and `sizeof(RID)`. -/
def sizeofIndexFileHeader : Nat := 184

def sizeofIndexNode : Nat := 32

def sizeofRID : Nat := 8

def orderOf (attrWholeLength : Nat) : Nat :=
  (bpPageDataSize - sizeofIndexFileHeader - sizeofIndexNode) / (attrWholeLength + 2 * sizeofRID)

def Pages.empty : Pages where
  get _ := none
  count := 1
  get_of_count_le _ _ := rfl

def IndexNode.zeroed : IndexNode where
  isLeaf := false
  keyNum := 0
  parent := 0
  keys _ := ⟨[], ⟨0, 0⟩⟩
  rids _ := ⟨0, 0⟩

/-- `create`: the first page of a new file is page 1 and is all zeros. -/
def create (attrs : List IndexAttr) (alloc : Allocator) : BplusTreeHandler where
  opened := true
  fileHeader := {
    attrs
    rootPage := 1
    order := orderOf (attrs.map (·.length)).sum }
  pages := Pages.empty.set 1 { IndexNode.zeroed with isLeaf := true, keyNum := 0, parent := -1 }
  pins _ := 0
  alloc

/-! ### Closing and opening the file -/

/-- A handler and its file. `stored` is the header in the first bytes of page 1: `create` writes it there, and the
    nodes that the handler writes into page 1 start behind it. -/
structure IndexFile where
  handler : BplusTreeHandler
  stored : IndexFileHeader

namespace IndexFile

def created (attrs : List IndexAttr) (alloc : Allocator) : IndexFile where
  handler := create attrs alloc
  stored := (create attrs alloc).fileHeader

/-- `BplusTreeHandler::close`: the pages are flushed and leave the buffer pool. -/
def close (f : IndexFile) : IndexFile := { f with handler := { f.handler with opened := false, pins := fun _ => 0 } }

/-- `BplusTreeHandler::open`: the header is read from page 1. -/
def reopen (f : IndexFile) : Except RC Unit × IndexFile :=
  if f.handler.opened then (.error .recordOpenned, f)
  else match f.handler.pages.get 1 with
    | none => (.error .bufferpoolInvalidPageNum, f)
    | some _ => (.ok (), { f with handler := { f.handler with opened := true, fileHeader := f.stored } })

end IndexFile

end MiniOb
