import MiniOb.Storage.BufferPool

/-! # Calls on the header of a file

What `allocate_page`, `dispose_page` and `check_page_num` do to the header page of one file, with the bytes of the
bitmap that they index. The index is `page_num / 8` in C, which rounds towards zero; neither `page_num` nor `page_count`
is compared with the bounds of the bitmap. -/

namespace MiniOb
open Slots

/-- The bytes of the bitmap: `BP_PAGE_DATA_SIZE - BP_FILE_SUB_HDR_SIZE`. -/
def bitmapBytes : Int := (4096 - 4) - 8

def byteIndex (pageNum : PageNum) : Int := Int.tdiv pageNum 8

inductive HeaderAct
  /-- `allocate_page`; `block` says whether there is a frame for a page behind the last one. -/
  | allocate (block : Bool)
  /-- `dispose_page`; `pinned` says whether the page is pinned. For a negative number the shift by a negative number
      decides what the test finds and what it leaves of the byte. -/
  | dispose (pageNum : PageNum) (pinned : Bool) (shifted : Option UInt8)
  /-- `check_page_num`, on behalf of `get_this_page`. -/
  | check (pageNum : PageNum)

namespace Page

def freeSlot (h : Page) : Option Nat :=
  let i := firstIdx h.pageCount.toNat fun i => !h.bit i
  if h.allocatedPages < h.pageCount ∧ i < h.pageCount.toNat then some i else none

/-- The bytes that the loop of `allocate_page` reads, up to the free page or to the end. -/
def scanBytes (h : Page) : List Int :=
  let i := firstIdx h.pageCount.toNat fun i => !h.bit i
  if h.allocatedPages < h.pageCount then (List.range (min (i + 1) h.pageCount.toNat)).map fun j : Nat => byteIndex j
    else []

def checkBytes (pageNum : PageNum) (h : Page) : List Int := if h.pageCount ≤ pageNum then [] else [byteIndex pageNum]

/-- The answer of `check_page_num`, in front of `dispose_page`. -/
def passes (pageNum : PageNum) (shifted : Option UInt8) (h : Page) : Bool :=
  decide (pageNum < h.pageCount) && if 0 ≤ pageNum then h.bit pageNum.toNat else shifted.isSome

def bytes (h : Page) : HeaderAct → List Int
  | .allocate block => h.scanBytes ++ match h.freeSlot with
    -- The bit is set, and `get_this_page` tests it.
    | some n => [byteIndex n, byteIndex n]
    | none => if block then [byteIndex h.pageCount] else []
  | .dispose pageNum pinned shifted =>
    h.checkBytes pageNum ++ if h.passes pageNum shifted && !pinned then [byteIndex pageNum] else []
  | .check pageNum => h.checkBytes pageNum

def call (h : Page) : HeaderAct → Page
  | .allocate block => match h.freeSlot with
    | some n => h.takeFree n
    | none => if block then h.extend else h
  | .dispose pageNum pinned shifted =>
    if h.passes pageNum shifted && !pinned then
      if 0 ≤ pageNum then h.giveUp pageNum.toNat
      else
        let q := h.setAllocatedPages (h.allocatedPages - 1)
        { q with data := set q.data (8 + byteIndex pageNum).toNat (shifted.getD 0) }
    else h
  | .check _ => h

end Page

end MiniOb
