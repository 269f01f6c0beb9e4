import MiniOb.Index.Key
import MiniOb.Lib.Slots

/-! # The B+ tree handler and its page store

The state of a `BplusTreeHandler`: its header and the pages of its file, each holding an `IndexNode`. The buffer pool is
taken as a correct page store, whose `allocate_page` hands out a page that is not in use. Pins are counted, page by
page; the one call that they make fail is `dispose_page`. The functions of the handler are actions on that state (`Op`),
which keep what they have written when they fail. Loops that follow pages carry fuel; to run out of it is an outcome of
its own. -/

namespace MiniOb
open Slots

/-- `IndexNode`. The arrays have `order` slots; slots past those in use keep what they held. -/
structure IndexNode where
  isLeaf : Bool
  keyNum : Nat
  parent : PageNum
  keys : Nat → Key
  rids : Nat → RID

namespace IndexNode

def keyList (n : IndexNode) : List Key := firstN n.keys n.keyNum

def entryList (n : IndexNode) : List (Key × RID) := firstN (zip n.keys n.rids) n.keyNum

def childList (n : IndexNode) : List PageNum := firstN (fun i => (n.rids i).pageNum) (n.keyNum + 1)

/-- The page after a leaf in the leaf chain, kept in the last slot of `rids`. -/
def next (order : Nat) (n : IndexNode) : PageNum := (n.rids (order - 1)).pageNum

end IndexNode

/-- The pages of an index file; pages from `count` on do not exist. -/
structure Pages where
  get : PageNum → Option IndexNode
  count : PageNum
  get_of_count_le : ∀ p, count ≤ p → get p = none

namespace Pages

def set (s : Pages) (p : PageNum) (n : IndexNode) : Pages where
  get q := if q = p then some n else s.get q
  count := max s.count (p + 1)
  get_of_count_le q hq := by
    have hp : p + 1 ≤ q := (le_max_right _ _).trans hq
    rw [if_neg (Int.lt_of_add_one_le hp).ne']
    exact s.get_of_count_le q ((le_max_left _ _).trans hq)

def erase (s : Pages) (p : PageNum) : Pages where
  get q := if q = p then none else s.get q
  count := s.count
  get_of_count_le q hq := by
    by_cases h : q = p
    · rw [if_pos h]
    · rw [if_neg h]
      exact s.get_of_count_le q hq

@[simp] theorem get_set (s : Pages) (p q : PageNum) (n : IndexNode) :
    (s.set p n).get q = if q = p then some n else s.get q := rfl

@[simp] theorem get_erase (s : Pages) (p q : PageNum) : (s.erase p).get q = if q = p then none else s.get q := rfl

theorem get_set_same {s : Pages} {p : PageNum} {n : IndexNode} : (s.set p n).get p = some n := by simp

theorem get_set_ne {s : Pages} {p q : PageNum} {n : IndexNode} (h : q ≠ p) : (s.set p n).get q = s.get q := by
  simp [h]

end Pages

/-- What `allocate_page` does in a page store: the page it hands out and the bytes it finds there. -/
abbrev Allocator := Pages → PageNum × IndexNode

/-- The allocator hands out a page that is not in use; page 0 is the file header. -/
def Allocator.Fresh (alloc : Allocator) : Prop := ∀ s, s.get (alloc s).1 = none ∧ 0 < (alloc s).1

/-- `BplusTreeHandler`. `opened` is `disk_buffer_pool_ != nullptr`. The buffer pool refuses to dispose of a page that is
    pinned; with `refusesPinned := false` the handler works on a page store that knows no pins. -/
structure BplusTreeHandler where
  opened : Bool
  fileHeader : IndexFileHeader
  pages : Pages
  pins : PageNum → Int
  alloc : Allocator
  refusesPinned : Bool := true

abbrev BplusTreeHandler.order (h : BplusTreeHandler) : Nat := h.fileHeader.order

/-- `dispose_page` does not refuse the page. -/
def BplusTreeHandler.Free (h : BplusTreeHandler) (p : PageNum) : Prop := h.refusesPinned = true → h.pins p = 0

instance (h : BplusTreeHandler) (p : PageNum) : Decidable (h.Free p) := inferInstanceAs (Decidable (_ → _))

abbrev BplusTreeHandler.keyOf (h : BplusTreeHandler) : Bytes → RID → Key := h.fileHeader.keyOf

/-- An action of the handler: out of fuel, or a return value or error code with the state it leaves. -/
def Op (α : Type) := BplusTreeHandler → Option (Except RC α × BplusTreeHandler)

namespace Op
variable {α β : Type} {h h' : BplusTreeHandler}

instance : Monad Op where
  pure a := fun h => some (.ok a, h)
  bind x f := fun h =>
    match x h with
    | none => none
    | some (.error rc, h') => some (.error rc, h')
    | some (.ok a, h') => f a h'

def diverge : Op α := fun _ => none

/-- `return rc;` for a code other than `SUCCESS`. -/
def fail (rc : RC) : Op α := fun h => some (.error rc, h)

/-- `rc = x; return SUCCESS;`: the return code of `x` is dropped. -/
def ignoreRC (x : Op Unit) : Op Unit := fun h => (x h).map fun r => (.ok (), r.2)

def fileHeader : Op IndexFileHeader := fun h => some (.ok h.fileHeader, h)

@[simp] theorem pure_apply (a : α) (h : BplusTreeHandler) : (pure a : Op α) h = some (.ok a, h) := rfl

theorem bind_apply (x : Op α) (f : α → Op β) (h : BplusTreeHandler) :
    (x >>= f) h = match x h with
      | none => none
      | some (.error rc, h') => some (.error rc, h')
      | some (.ok a, h') => f a h' := rfl

theorem bind_ok {x : Op α} {f : α → Op β} {a : α} (hx : x h = some (.ok a, h')) :
    (x >>= f) h = f a h' := by
  rw [bind_apply, hx]

theorem bind_error {x : Op α} {f : α → Op β} {rc : RC}
    (hx : x h = some (.error rc, h')) : (x >>= f) h = some (.error rc, h') := by
  rw [bind_apply, hx]

@[simp] theorem fileHeader_apply (h : BplusTreeHandler) : fileHeader h = some (.ok h.fileHeader, h) := rfl

theorem bind_fileHeader {f : IndexFileHeader → Op β} : (fileHeader >>= f) h = f h.fileHeader h := rfl

theorem ignoreRC_congr {x y : Op Unit} (hxy : x h = y h') : ignoreRC x h = ignoreRC y h' :=
  congrArg (Option.map fun r : Except RC Unit × BplusTreeHandler => (Except.ok (), r.2)) hxy

theorem ignoreRC_ok {x : Op Unit} (hx : x h = some (.ok (), h')) :
    ignoreRC x h = some (.ok (), h') := by
  rw [ignoreRC, hx]
  rfl

@[simp] theorem fail_apply (rc : RC) (h : BplusTreeHandler) : (fail rc : Op α) h = some (.error rc, h) := rfl

end Op

/-! ### The calls on the buffer pool -/

def addPins (pins : PageNum → Int) (p : PageNum) (d : Int) : PageNum → Int :=
  fun q => if q = p then pins q + d else pins q

/-- `get_this_page`, with the node that `get_index_node` finds in the page. -/
def getThisPage (p : PageNum) : Op IndexNode := fun h =>
  match h.pages.get p with
  | none => some (.error .bufferpoolInvalidPageNum, h)
  | some n => some (.ok n, { h with pins := addPins h.pins p 1 })

/-- Writing a pinned node in place and `mark_dirty`. -/
def putNode (p : PageNum) (n : IndexNode) : Op Unit := fun h => some (.ok (), { h with pages := h.pages.set p n })

def unpinPage (p : PageNum) : Op Unit := fun h => some (.ok (), { h with pins := addPins h.pins p (-1) })

/-- `allocate_page`: the new page, pinned, and what its bytes look like as a node. -/
def allocatePage : Op (PageNum × IndexNode) := fun h =>
  some (.ok (h.alloc h.pages),
    { h with pages := h.pages.set (h.alloc h.pages).1 (h.alloc h.pages).2,
             pins := addPins h.pins (h.alloc h.pages).1 1 })

def disposePage (p : PageNum) : Op Unit := fun h =>
  match h.pages.get p with
  | none => some (.error .bufferpoolInvalidPageNum, h)
  | some _ =>
    if h.Free p then some (.ok (), { h with pages := h.pages.erase p })
    else some (.error .bufferpoolPagePinned, h)

def setRootPage (p : PageNum) : Op Unit := fun h =>
  some (.ok (), { h with fileHeader := { h.fileHeader with rootPage := p } })

/-- `get_this_page`, `node->parent = parent`, `mark_dirty`, `unpin_page` on the node of page `p`. -/
def setParent (p parent : PageNum) : Op Unit := do
  let node ← getThisPage p
  putNode p { node with parent := parent }
  unpinPage p

def setParents (parent : PageNum) : List PageNum → Op Unit
  | [] => pure ()
  | p :: ps => do
    setParent p parent
    setParents parent ps

section
variable {h : BplusTreeHandler} {p : PageNum} {n : IndexNode}

theorem getThisPage_of_get (hp : h.pages.get p = some n) :
    getThisPage p h = some (.ok n, { h with pins := addPins h.pins p 1 }) := by
  simp [getThisPage, hp]

theorem bind_getThisPage {α : Type} {f : IndexNode → Op α} (hp : h.pages.get p = some n) :
    (getThisPage p >>= f) h = f n { h with pins := addPins h.pins p 1 } := Op.bind_ok (getThisPage_of_get hp)

theorem getThisPage_pinned (hp : h.pages.get p = some n) (pins : PageNum → Int) :
    getThisPage p { h with pins := pins } = some (.ok n, { h with pins := addPins pins p 1 }) := by
  simp [getThisPage, hp]

@[simp] theorem putNode_apply : putNode p n h = some (.ok (), { h with pages := h.pages.set p n }) := rfl

@[simp] theorem unpinPage_apply : unpinPage p h = some (.ok (), { h with pins := addPins h.pins p (-1) }) := rfl

@[simp] theorem setRootPage_apply :
    setRootPage p h = some (.ok (), { h with fileHeader := { h.fileHeader with rootPage := p } }) := rfl

theorem disposePage_of_get (hp : h.pages.get p = some n) :
    disposePage p h = if h.Free p then some (.ok (), { h with pages := h.pages.erase p })
      else some (.error .bufferpoolPagePinned, h) := by
  simp [disposePage, hp]

@[simp] theorem addPins_addPins_neg (pins : PageNum → Int) (p : PageNum) :
    addPins (addPins pins p 1) p (-1) = pins := by
  funext q
  by_cases hq : q = p
  · simp only [addPins, if_pos hq]
    exact Int.add_neg_cancel_right _ _
  · simp only [addPins, if_neg hq]

theorem addPins_comm (pins : PageNum → Int) (p q : PageNum) (d e : Int) :
    addPins (addPins pins p d) q e = addPins (addPins pins q e) p d := by
  funext r
  by_cases hp : r = p
  · by_cases hq : r = q
    · simp only [addPins, if_pos hp, if_pos hq]
      exact Int.add_right_comm _ _ _
    · simp only [addPins, if_pos hp, if_neg hq]
  · by_cases hq : r = q
    · simp only [addPins, if_neg hp, if_pos hq]
    · simp only [addPins, if_neg hp, if_neg hq]

theorem addPins_two (pins : PageNum → Int) (p q : PageNum) :
    addPins (addPins (addPins (addPins pins p 1) q 1) p (-1)) q (-1) = pins := by
  rw [addPins_comm _ q p, addPins_addPins_neg, addPins_addPins_neg]

theorem addPins_three (pins : PageNum → Int) (p q r : PageNum) :
    addPins (addPins (addPins (addPins (addPins (addPins pins p 1) q 1) r 1) p (-1)) q (-1)) r (-1) = pins := by
  rw [addPins_comm _ r p, addPins_comm _ r q, addPins_two, addPins_addPins_neg]

theorem allocatePage_apply (h : BplusTreeHandler) :
    allocatePage h = some (.ok (h.alloc h.pages), { h with
      pages := h.pages.set (h.alloc h.pages).1 (h.alloc h.pages).2, pins := addPins h.pins (h.alloc h.pages).1 1 }) :=
  rfl

theorem setParent_of_get {parent : PageNum} (hp : h.pages.get p = some n) :
    setParent p parent h = some (.ok (), { h with pages := h.pages.set p { n with parent := parent } }) := by
  rw [setParent, Op.bind_ok (getThisPage_of_get hp), Op.bind_ok putNode_apply, unpinPage_apply]
  simp

end

/-! ### Finding a leaf -/

def findLeafLoop (pkey : Key) : Nat → PageNum → IndexNode → Op PageNum
  | 0, _, _ => Op.diverge
  | fuel + 1, page, node => do
    if node.isLeaf then
      unpinPage page
      pure page
    else
      let header ← Op.fileHeader
      let i := firstIdx node.keyNum fun i => decide (cmpKey header pkey (node.keys i) < 0)
      unpinPage page
      let child ← getThisPage (node.rids i).pageNum
      findLeafLoop pkey fuel (node.rids i).pageNum child

def findLeaf (fuel : Nat) (pkey : Key) : Op PageNum := do
  let header ← Op.fileHeader
  let root ← getThisPage header.rootPage
  findLeafLoop pkey fuel header.rootPage root

/-- `get_entry`. Neither way out unpins the leaf. -/
def getEntry (fuel : Nat) (pkey : Bytes) (rid : RID) : Op RID := do
  let header ← Op.fileHeader
  let leafPage ← findLeaf fuel (header.keyOf pkey rid)
  let leaf ← getThisPage leafPage
  let i := firstIdx leaf.keyNum fun i => decide (cmpKey header (header.keyOf pkey rid) (leaf.keys i) = 0)
  if i < leaf.keyNum then pure (leaf.rids i) else Op.fail .recordInvalidKey

end MiniOb
