import MiniOb.Index.Handler

/-! # Scanning the B+ tree

`find_first_index_satisfied`, `get_first_leaf_page` and `BplusTreeScanner`. A scanner keeps one leaf pinned and
reads it where it lies in the buffer pool, so a change of that leaf between two calls is seen by the next one. -/

namespace MiniOb
open Slots

/-! ### The first entry -/

def firstLeafLoop : Nat → PageNum → IndexNode → Op PageNum
  | 0, _, _ => Op.diverge
  | fuel + 1, page, node => do
    if node.isLeaf then
      unpinPage page
      pure page
    else
      unpinPage page
      let child ← getThisPage (node.rids 0).pageNum
      firstLeafLoop fuel (node.rids 0).pageNum child

def getFirstLeafPage (fuel : Nat) : Op PageNum := do
  let header ← Op.fileHeader
  let root ← getThisPage header.rootPage
  firstLeafLoop fuel header.rootPage root

/-- The test of the inner loop of `find_first_index_satisfied`; `tmp` is the result of `CompareKey`. Of the
    operators that get there, only three are looked for. -/
def CompOp.startsAt (compOp : CompOp) (tmp : Int) : Bool :=
  match compOp with
  | .equalTo | .greatEqual => 0 ≤ tmp
  | .greatThan => 0 < tmp
  | _ => false

/-- The loop of `find_first_index_satisfied` along the leaf chain. Every page it leaves stays pinned except the
    last one, which is `last`. -/
def firstSatisfiedLoop (compOp : CompOp) (key : Bytes) : Nat → PageNum → Option PageNum → Op (PageNum × Nat)
  | 0, _, _ => Op.diverge
  | fuel + 1, next, last => do
    if 0 < next then
      let header ← Op.fileHeader
      let node ← getThisPage next
      let i := firstIdx node.keyNum fun i => compOp.startsAt (compareKey header ((node.keys i).bytes header) key)
      if i < node.keyNum then
        unpinPage next
        pure (next, i)
      else
        firstSatisfiedLoop compOp key fuel (node.next header.order) (some next)
    else
      match last with
      | some page => unpinPage page
      | none => pure ()
      Op.fail .recordEof

/-- `find_first_index_satisfied`: the leaf and the position in it where a scan starts. -/
def findFirstIndexSatisfied (fuel : Nat) (compOp : CompOp) (key : Bytes) : Op (PageNum × Nat) := do
  if compOp = .lessThan ∨ compOp = .lessEqual ∨ compOp = .notEqual then
    let page ← getFirstLeafPage fuel
    pure (page, 0)
  else
    let leafPage ← findLeaf fuel ⟨key, ⟨-1, -1⟩⟩
    firstSatisfiedLoop compOp key fuel leafPage none

/-! ### The condition -/

/-- What the locals `d1`, `d2` of `satisfy_condition` hold: they are not initialised and change only at a DATE
    attribute. -/
abbrev DateLocals := Nat × Nat

/-- The six tests on a pair of numbers; an operator that `satisfy_condition` does not know only logs. -/
def CompOp.test (compOp : CompOp) (lt eq : Bool) : Bool :=
  match compOp with
  | .equalTo => eq
  | .lessThan => lt
  | .greatThan => !lt && !eq
  | .lessEqual => lt || eq
  | .greatEqual => !lt
  | .notEqual => !eq
  | .noOp | .isOp | .isNotOp | .condIn | .notIn => false

/-- The tests on floats: equality has a tolerance, the others have none. -/
def CompOp.testFloat (compOp : CompOp) (f1 f2 : Single.Value) : Bool :=
  match compOp with
  | .equalTo => floatCompare f1 f2 = 0
  | .lessThan => Single.less f1 f2
  | .greatThan => Single.less f2 f1
  | .lessEqual => Single.lessEq f1 f2
  | .greatEqual => Single.lessEq f2 f1
  | .notEqual => floatCompare f1 f2 ≠ 0
  | .noOp | .isOp | .isNotOp | .condIn | .notIn => false

/-- The flag that one round of the loop of `satisfy_condition` computes. For CHARS the case `EQUAL_TO` has no
    `break`, so the comparison of the two dates replaces the result of `strncmp`. -/
def satisfyAttr (compOp : CompOp) (a : IndexAttr) (d : DateLocals) (pkey value : Bytes) : Bool :=
  match a.type with
  | .ints => compOp.test (readInt pkey < readInt value) (readInt pkey = readInt value)
  | .floats => compOp.testFloat (readFloat pkey) (readFloat value)
  | .chars =>
    if compOp = .equalTo then d.1 = d.2
    else compOp.test (strncmp pkey value a.length < 0) (strncmp pkey value a.length = 0)
  | .date => compOp.test (readUInt pkey < readUInt value) (readUInt pkey = readUInt value)
  | .undefined | .texts | .nulls => false

/-- The loop of `satisfy_condition`: the first attribute whose flag is set decides. -/
def satisfyAttrs (compOp : CompOp) : List IndexAttr → DateLocals → Bytes → Bytes → Bool
  | [], _, _, _ => false
  | a :: attrs, d, pkey, value =>
    let d := if a.type = .date then (readUInt pkey, readUInt value) else d
    satisfyAttr compOp a d pkey value
      || satisfyAttrs compOp attrs d (pkey.drop a.length) (value.drop a.length)

/-- `satisfy_condition`; `locals` is what `d1` and `d2` hold when the function is entered with this key. -/
def satisfyCondition (header : IndexFileHeader) (compOp : CompOp) (value : Bytes) (locals : Key → DateLocals)
    (pkey : Key) : Bool :=
  if compOp = .noOp then true else satisfyAttrs compOp header.attrs (locals pkey) (pkey.bytes header) value

/-! ### The scanner -/

/-- `BplusTreeScanner` once it is open. `num_fixed_pages_` is 1, so `pinned_page_count_` is 0 or 1 and `pinned` is
    the page of `page_handles_[0]`, if any; `read` is `next_index_of_page_handle_ > 0`. -/
structure BplusTreeScanner where
  compOp : CompOp
  value : Bytes
  locals : Key → DateLocals
  nextPageNum : PageNum
  indexInNode : Int
  pinned : Option PageNum
  read : Bool

namespace BplusTreeScanner

/-- The copy of `value` that `open` makes; a null `value` counts as zeros. -/
def valueCopy (header : IndexFileHeader) : Option Bytes → Bytes
  | none => List.replicate header.attrWholeLength 0
  | some value => value.take header.attrWholeLength

def openAt (fuel : Nat) (locals : Key → DateLocals) (compOp : CompOp) (value : Bytes) : Op BplusTreeScanner := fun h =>
  match findFirstIndexSatisfied fuel compOp value h with
  | none => none
  | some (.ok (page, i), h') => some (.ok ⟨compOp, value, locals, page, i, none, false⟩, h')
  | some (.error .recordEof, h') => some (.ok ⟨compOp, value, locals, -1, -1, none, false⟩, h')
  | some (.error rc, h') => some (.error rc, h')

def openScan (fuel : Nat) (locals : Key → DateLocals) (compOp : CompOp) (value : Option Bytes) :
    Op BplusTreeScanner := do
  let header ← Op.fileHeader
  openAt fuel locals compOp (valueCopy header value)

def nextMatch (header : IndexFileHeader) (s : BplusTreeScanner) (node : IndexNode) (i : Nat) : Nat :=
  firstIdx node.keyNum fun j => decide (i ≤ j) && satisfyCondition header s.compOp s.value s.locals (node.keys j)

/-- `get_next_idx_in_memory` on the pages of the index. A pinned page that is no longer in the file reads as an
    empty node. -/
def getNextIdxInMemory (header : IndexFileHeader) (pages : Pages) (s : BplusTreeScanner) :
    Except RC RID × BplusTreeScanner :=
  match s.pinned, s.read with
  | none, _ | _, true => (.error .recordNoMoreIdxInMem, s)
  | some page, false =>
    if s.nextPageNum = -1 ∧ s.indexInNode = -1 then (.error .recordEof, s)
    else match pages.get page with
      | none => (.error .recordNoMoreIdxInMem, { s with indexInNode := 0, read := true })
      | some node =>
        let i := s.nextMatch header node s.indexInNode.toNat
        if i < node.keyNum then (.ok (node.rids i), { s with indexInNode := i + 1 })
        else (.error .recordNoMoreIdxInMem, { s with indexInNode := 0, read := true })

def findIdxPages (s : BplusTreeScanner) : Op (Except RC Unit × BplusTreeScanner) := do
  match s.pinned with
  | some page => unpinPage page
  | none => pure ()
  if s.nextPageNum ≤ 0 then
    pure (.error .recordEof, { s with pinned := none, read := false })
  else
    let header ← Op.fileHeader
    let node ← getThisPage s.nextPageNum
    pure (.ok (), { s with
      pinned := some s.nextPageNum
      read := false
      nextPageNum := node.next header.order })

/-- `next_entry`. Only one more page is looked at: a leaf without a match ends the call with
    `RECORD_NO_MORE_IDX_IN_MEM`. -/
def nextEntry (s : BplusTreeScanner) : Op (Except RC RID × BplusTreeScanner) := fun h =>
  match s.getNextIdxInMemory h.fileHeader h.pages with
  | (.error .recordNoMoreIdxInMem, s') =>
    match s'.findIdxPages h with
    | none => none
    | some (.error rc, h') => some (.ok (.error rc, { s' with pinned := none, read := false }), h')
    | some (.ok (.error rc, s''), h') => some (.ok (.error rc, s''), h')
    | some (.ok (.ok (), s''), h') => some (.ok (s''.getNextIdxInMemory h'.fileHeader h'.pages), h')
  | r => some (.ok r, h)

/-- The entries that repeated calls of `next_entry` deliver, and the code of the call that ends them. -/
def entries : Nat → BplusTreeScanner → Op (List RID × RC)
  | 0, _ => Op.diverge
  | fuel + 1, s => do
    let (r, s') ← s.nextEntry
    match r with
    | .error rc => pure ([], rc)
    | .ok rid =>
      let (rids, rc) ← entries fuel s'
      pure (rid :: rids, rc)

def scan (fuel : Nat) (locals : Key → DateLocals) (compOp : CompOp) (value : Option Bytes) : Op (List RID × RC) := do
  let s ← openScan fuel locals compOp value
  s.entries fuel

def callNext : Nat → BplusTreeScanner → Op BplusTreeScanner
  | 0, s => pure s
  | k + 1, s => do
    let r ← s.nextEntry
    callNext k r.2

/-- The whole life of a scanner: `open`, `k` calls of `next_entry`, and `close`, which only frees the value. -/
def life (fuel : Nat) (locals : Key → DateLocals) (compOp : CompOp) (value : Option Bytes) (k : Nat) : Op Unit := do
  let s ← openScan fuel locals compOp value
  let _ ← s.callNext k
  pure ()

end BplusTreeScanner

end MiniOb
