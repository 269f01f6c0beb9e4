import MiniOb.Storage.BufferPool

/-! # The record file

`RecordPageHandler`, `RecordFileHandler` and `RecordFileScanner`, with the `Bitmap` they use. A page of records starts
with a `PageHeader` of five integers; a bitmap of its slots follows, then the slots. The buffer pool is taken as a
correct page store: a page keeps what was last written into its 4092 bytes, and bytes written behind them are not part
of it. -/

namespace MiniOb
open Slots

/-! ### The layout of a page -/

def align8 (size : Nat) : Nat := size / 8 * 8 + if size % 8 = 0 then 0 else 8

def pageFixSize : Nat := 20

/-- `(int)((page_size - page_fix_size() - 1) / (record_size + 0.125))`. The quotient has a denominator below `2^16`, so
    the rounding of the double does not change its integer part. -/
def pageRecordCapacity (pageSize recordSize : Nat) : Nat := 8 * (pageSize - pageFixSize - 1) / (8 * recordSize + 1)

def pageBitmapSize (recordCapacity : Nat) : Nat := recordCapacity / 8 + if recordCapacity % 8 = 0 then 0 else 1

def pageHeaderSize (recordCapacity : Nat) : Nat := align8 (pageFixSize + pageBitmapSize recordCapacity)

namespace PageData

def recordNum (d : PageData) : Int := d.int 0

def recordCapacity (d : PageData) : Int := d.int 4

def recordRealSize (d : PageData) : Int := d.int 8

def recordSize (d : PageData) : Int := d.int 12

def firstRecordOffset (d : PageData) : Int := d.int 16

def recordOffset (d : PageData) (slot : Nat) : Nat := d.firstRecordOffset.toNat + slot * d.recordSize.toNat

def readBytes (d : PageData) (off len : Nat) : Bytes := firstN (fun k => d (off + k)) len

/-- `memcpy(data + off, bytes, n)`, for the bytes that lie in the page. -/
def writeBytes (d : PageData) (off : Nat) (bytes : Bytes) : PageData := fun i =>
  if off ≤ i ∧ i < off + bytes.length ∧ i < bpPageDataSize then bytes.getD (i - off) 0 else d i

/-! ### The bitmap -/

def getBit (d : PageData) (index : Nat) : Bool := (d (pageFixSize + index / 8)).toNat.testBit (index % 8)

def setBit (d : PageData) (index : Nat) : PageData :=
  set d (pageFixSize + index / 8) (d (pageFixSize + index / 8) ||| (1 <<< UInt8.ofNat (index % 8)))

def clearBit (d : PageData) (index : Nat) : PageData :=
  set d (pageFixSize + index / 8) (d (pageFixSize + index / 8) &&& ~~~(1 <<< UInt8.ofNat (index % 8)))

/-- `find_first_zero` and `find_first_setted`: the first bit of the byte from `start` on that is `want`. -/
def findFirst (want : Bool) (byte : UInt8) (start : Nat) : Option Nat :=
  (List.range 8).find? fun i => decide (start ≤ i) && byte.toNat.testBit i == want

/-- The loop of `next_unsetted_bit` and `next_setted_bit` over `n` bytes. A byte without any bit to find is skipped
    before `start_in_byte` is put back to 0. -/
def nextBitLoop (want : Bool) (d : PageData) : Nat → Nat → Nat → Option Nat
  | 0, _, _ => none
  | n + 1, iter, startInByte =>
    if d (pageFixSize + iter) = (if want then 0 else 255) then nextBitLoop want d n (iter + 1) startInByte
    else match findFirst want (d (pageFixSize + iter)) startInByte with
      | some i => some (iter * 8 + i)
      | none => nextBitLoop want d n (iter + 1) 0

def nextBitReads (want : Bool) (d : PageData) : Nat → Nat → Nat → List Nat
  | 0, _, _ => []
  | n + 1, iter, startInByte =>
    iter :: if d (pageFixSize + iter) = (if want then 0 else 255) then nextBitReads want d n (iter + 1) startInByte
    else match findFirst want (d (pageFixSize + iter)) startInByte with
      | some _ => []
      | none => nextBitReads want d n (iter + 1) 0

/-- The two searches of `Bitmap`; they look at one byte more than the bitmap has. -/
def nextBit (want : Bool) (d : PageData) (size start : Nat) : Option Nat :=
  (nextBitLoop want d (pageBitmapSize size + 1 - start / 8) (start / 8) (start % 8)).filter fun i => i < size

def nextUnsettedBit : PageData → Nat → Nat → Option Nat := nextBit false

def nextSettedBit : PageData → Nat → Nat → Option Nat := nextBit true

/-! ### `RecordPageHandler` -/

def initEmptyPage (d : PageData) (recordSize : Nat) : PageData :=
  let capacity := pageRecordCapacity bpPageDataSize (align8 recordSize)
  let d := d.setInt 0 0
  let d := d.setInt 4 capacity
  let d := d.setInt 8 recordSize
  let d := d.setInt 12 (align8 recordSize)
  let d := d.setInt 16 (pageHeaderSize capacity)
  d.writeBytes pageFixSize (List.replicate (pageBitmapSize capacity) 0)

def isFull (d : PageData) : Bool := d.recordCapacity ≤ d.recordNum

/-- `insert_record`: the slot and the page after it. `len = 0` stands for the size of the page's records. A page whose
    counter is right has a free slot here; for another one the source goes on with the slot -1. -/
def insertRecord (d : PageData) (data : Bytes) (len : Nat) : Except RC (Nat × PageData) :=
  if d.recordNum = d.recordCapacity then .error .recordNomem
  else match d.nextUnsettedBit d.recordCapacity.toNat 0 with
    | none => .error .recordNomem
    | some index =>
      let d' := (d.setBit index).setInt 0 (d.recordNum + 1)
      .ok (index, d'.writeBytes (d'.recordOffset index) (data.take (if len = 0 then d.recordRealSize.toNat else len)))

/-- The checks of `update_record`, `delete_record` and `get_record`; `outside` is the code for a slot behind the last
    one. For a negative slot the source shifts by a negative amount. -/
def checkSlot (d : PageData) (slot : SlotNum) (outside : RC) : Except RC Unit :=
  if d.recordCapacity ≤ slot then .error outside
  else if d.getBit slot.toNat = false then .error .recordRecordNotExist
  else .ok ()

def updateRecord (d : PageData) (slot : SlotNum) (data : Bytes) : Except RC PageData := do
  d.checkSlot slot .invalidArgument
  pure (d.writeBytes (d.recordOffset slot.toNat) (data.take d.recordRealSize.toNat))

/-- `delete_record`, up to the disposal of an empty page. -/
def deleteRecord (d : PageData) (slot : SlotNum) : Except RC PageData := do
  d.checkSlot slot .invalidArgument
  pure ((d.clearBit slot.toNat).setInt 0 (d.recordNum - 1))

/-- `get_record`: the bytes that `rec->data` points to. -/
def getRecord (d : PageData) (slot : SlotNum) : Except RC Bytes := do
  d.checkSlot slot .recordInvalidrid
  pure (d.readBytes (d.recordOffset slot.toNat) d.recordRealSize.toNat)

end PageData

/-! ### The pages of a file -/

/-- The pages of a record file; pages from `count` on do not exist. Page 0 holds the file header. -/
structure RecordPages where
  get : PageNum → Option PageData
  count : PageNum
  get_of_count_le : ∀ p, count ≤ p → get p = none

namespace RecordPages

def set (s : RecordPages) (p : PageNum) (d : PageData) : RecordPages where
  get q := if q = p then some d else s.get q
  count := max s.count (p + 1)
  get_of_count_le q hq := by
    have hp : p + 1 ≤ q := (le_max_right _ _).trans hq
    rw [if_neg (Int.lt_of_add_one_le hp).ne']
    exact s.get_of_count_le q ((le_max_left _ _).trans hq)

def erase (s : RecordPages) (p : PageNum) : RecordPages where
  get q := if q = p then none else s.get q
  count := s.count
  get_of_count_le q hq := by
    by_cases h : q = p
    · rw [if_pos h]
    · rw [if_neg h]
      exact s.get_of_count_le q hq

end RecordPages

/-- What `allocate_page` does: the page it hands out and the bytes it finds there. -/
abbrev PageAllocator := RecordPages → PageNum × PageData

/-- `record_page_handler_` of the file handler. `page` is the page that `page_header_` points into, if any, and `held`
    is `disk_buffer_pool_ != nullptr`: `deinit` unpins the page and keeps the pointers. -/
structure PageCursor where
  page : Option PageNum
  held : Bool
  deriving DecidableEq, Repr

structure RecordFile where
  pages : RecordPages
  cursor : PageCursor
  alloc : PageAllocator

/-! ### `RecordFileHandler` -/

namespace RecordFile

/-- A file that `create_file` has made, with its handler; `header` is what page 0 holds. -/
def created (header : PageData) (alloc : PageAllocator) : RecordFile where
  pages := {
    get p := if p = 0 then some header else none
    count := 1
    get_of_count_le _ hp := if_neg (Int.lt_of_lt_of_le Int.one_pos hp).ne' }
  cursor := ⟨none, false⟩
  alloc

def fixedSize : Nat := bpPageDataSize - pageFixSize - 16

def cursorFull (pages : RecordPages) (c : PageCursor) : Bool := ((c.page.bind pages.get).map PageData.isFull).getD true

/-- `init` of the cursor at another page, after `deinit`. If the page is not in use the cursor keeps its pointers. -/
def moveCursor (pages : RecordPages) (c : PageCursor) (p : PageNum) : PageCursor :=
  if c.page = some p then c
  else if (pages.get p).isSome then ⟨some p, true⟩ else { c with held := false }

/-- The search for a page with a free slot: the `for` loop, with `n` rounds left. The step grows from round to round. -/
def probe (pages : RecordPages) : Nat → Nat → PageNum → PageCursor → PageCursor × Bool
  | 0, _, _, c => (c, false)
  | n + 1, i, current, c =>
    let current := (current + i) % pages.count
    if current = 0 then probe pages n (i + 1) current c
    else
      let c := moveCursor pages c current
      if cursorFull pages c then probe pages n (i + 1) current c else (c, true)

/-- The cursor with which the search starts: a new handler tries page 1. -/
def startCursor (f : RecordFile) : Except RC PageCursor :=
  if f.cursor.page = none ∧ 2 ≤ f.pages.count then
    if (f.pages.get 1).isSome then .ok ⟨some 1, true⟩ else .error .bufferpoolInvalidPageNum
  else .ok f.cursor

def insertAtCursor (f : RecordFile) (data : Bytes) (len : Nat) : Except RC RID × RecordFile :=
  match f.cursor.page with
  | none => (.error .recordClosed, f)
  | some p => match f.pages.get p with
    | none => (.error .recordClosed, f)
    | some d => match d.insertRecord data len with
      | .error rc => (.error rc, f)
      | .ok (slot, d') => (.ok ⟨p, slot⟩, { f with pages := f.pages.set p d' })

def allocateEmpty (f : RecordFile) (recordSize : Nat) : RecordFile :=
  let (p, d) := f.alloc f.pages
  { f with pages := f.pages.set p (d.initEmptyPage recordSize), cursor := ⟨some p, true⟩ }

/-- One round of `insert_record`: a page is found or made, and the chunk goes into it. -/
def insertChunk (f : RecordFile) (recordSize : Nat) (data : Bytes) (len : Nat) : Except RC RID × RecordFile :=
  match f.startCursor with
  | .error rc => (.error rc, f)
  | .ok c =>
    let (c, found) := probe f.pages f.pages.count.toNat 0 (c.page.getD 0) c
    let f := { f with cursor := c }
    if found then f.insertAtCursor data len else (f.allocateEmpty recordSize).insertAtCursor data len

/-- The `while` loop of `insert_record`, with `n` chunks left; the chunks after the first one start four bytes early. -/
def insertChunks (data : Bytes) : Nat → Nat → RID → RecordFile → Except RC RID × RecordFile
  | 0, _, rid, f => (.ok rid, f)
  | n + 1, cur, _, f =>
    let recordSize := if fixedSize < data.length then fixedSize else data.length - cur
    let r := if cur = 0 then f.insertChunk recordSize data 0
      else f.insertChunk recordSize (data.drop (cur - 4)) (data.length - cur + 4)
    match r with
    | (.ok rid, f) => insertChunks data n (cur + fixedSize) rid f
    | (.error rc, f) => (.error rc, f)

/-- `insert_record`; the RID is that of the last chunk. -/
def insertRecord (f : RecordFile) (data : Bytes) : Except RC RID × RecordFile :=
  insertChunks data ((data.length + (fixedSize - 1)) / fixedSize) 0 ⟨0, 0⟩ f

/-- `update_record`. The test of `init`'s result compares where it should assign, so a page that is not in use ends the
    call with `SUCCESS`. -/
def updateRecord (f : RecordFile) (rid : RID) (data : Bytes) : Except RC Unit × RecordFile :=
  match f.pages.get rid.pageNum with
  | none => (.ok (), f)
  | some d => match d.updateRecord rid.slotNum data with
    | .error rc => (.error rc, f)
    | .ok d' => (.ok (), { f with pages := f.pages.set rid.pageNum d' })

/-- `dispose_page`, which refuses the page that the insertions keep pinned. -/
def disposePage (f : RecordFile) (p : PageNum) : RecordFile :=
  if f.cursor = ⟨some p, true⟩ then f else { f with pages := f.pages.erase p }

/-- `delete_record`, with the test of `update_record`. -/
def deleteRecord (f : RecordFile) (rid : RID) : Except RC Unit × RecordFile :=
  match f.pages.get rid.pageNum with
  | none => (.ok (), f)
  | some d => match d.deleteRecord rid.slotNum with
    | .error rc => (.error rc, f)
    | .ok d' =>
      let f := { f with pages := f.pages.set rid.pageNum d' }
      (.ok (), if d'.recordNum = 0 then f.disposePage rid.pageNum else f)

/-- `get_record`, with the test of `update_record`: then `rec` keeps what it held, here nothing. -/
def getRecord (f : RecordFile) (rid : RID) : Except RC (Option Bytes) :=
  match f.pages.get rid.pageNum with
  | none => .ok none
  | some d => (d.getRecord rid.slotNum).map some

def recreate (f : RecordFile) : RecordFile := { f with cursor := ⟨none, false⟩ }

end RecordFile

/-! ### `RecordFileScanner` -/

/-- `RecordPageHandler::get_next_record`: the next slot in use behind `slot`. -/
def PageData.nextRecord (d : PageData) (slot : SlotNum) : Option Nat :=
  if d.recordCapacity - 1 ≤ slot then none else d.nextSettedBit d.recordCapacity.toNat (slot + 1).toNat

/-- The rounds of `get_next_record` that stay in one page: slots that the filter rejects are passed over. -/
def PageData.nextAccepted (d : PageData) (accept : Nat → Bool) : Nat → SlotNum → Option Nat
  | 0, _ => none
  | n + 1, slot => match d.nextRecord slot with
    | none => none
    | some i => if accept i then some i else d.nextAccepted accept n i

namespace RecordPages

/-- The loop of `get_next_record` over `n` pages from `page` on; `ret` is the code of the round before. The code of the
    last page is also that of the scan: it is not `RECORD_EOF` if that page is not in use. -/
def nextFrom (s : RecordPages) (accept : RID → Bool) : Nat → PageNum → SlotNum → RC → Except RC RID
  | 0, _, _, ret => .error ret
  | n + 1, page, slot, _ => match s.get page with
    | none => s.nextFrom accept n (page + 1) (-1) .bufferpoolInvalidPageNum
    | some d => match d.nextAccepted (fun i => accept ⟨page, i⟩) (d.recordCapacity.toNat + 1) slot with
      | none => s.nextFrom accept n (page + 1) (-1) .recordEof
      | some i => .ok ⟨page, i⟩

/-- `RecordFileScanner::get_next_record`. The page that the scanner keeps pinned is the one of `rid`, so that reading it
    again is reading the page store. -/
def getNextRecord (s : RecordPages) (accept : RID → Bool) (rid : RID) : Except RC RID :=
  if s.count = 1 then .error .recordEof
  else s.nextFrom accept (s.count - rid.pageNum).toNat rid.pageNum rid.slotNum .success

/-- The records that repeated calls deliver after `rid`, and the code of the call that ends them; `none` is running out
    of fuel. -/
def recordsAfter (s : RecordPages) (accept : RID → Bool) : Nat → RID → Option (List RID × RC)
  | 0, _ => none
  | fuel + 1, rid => match s.getNextRecord accept rid with
    | .error rc => some ([], rc)
    | .ok next => (s.recordsAfter accept fuel next).map fun r => (next :: r.1, r.2)

def scanFile (s : RecordPages) (accept : RID → Bool) (fuel : Nat) : Option (List RID × RC) :=
  s.recordsAfter accept fuel ⟨1, -1⟩

end RecordPages

end MiniOb
