import MiniOb.Lib.Slots
import MiniOb.Types

/-! # The buffer pool

`BPManager` and `DiskBufferPool`. Frames are named by their index in the array, the LRU list is a list of such indices,
and `list_map` is keyed by the descriptor and the page number, which the 64-bit key of the source keeps apart from 0 on.
The files and descriptors of the system are part of the state; what its calls do is an argument (`Io`). -/

namespace MiniOb
open Slots

/-! ### Pages -/

/-- The bytes of a page behind its number. -/
abbrev PageData := Nat → UInt8

def PageData.int (d : PageData) (off : Nat) : Int := readInt [d off, d (off + 1), d (off + 2), d (off + 3)]

def PageData.setInt (d : PageData) (off : Nat) (v : Int) : PageData := fun i =>
  if i < off ∨ off + 4 ≤ i then d i else UInt8.ofNat ((v % 4294967296).toNat / 256 ^ (i - off))

structure Page where
  pageNum : PageNum
  data : PageData

def Page.zero (pageNum : PageNum) : Page := ⟨pageNum, fun _ => 0⟩

/-- How many pages the bitmap of a file's header has room for: the bytes of the page's data behind the
    `BPFileSubHeader`, eight to a byte. -/
def bitmapPages : Nat := 8 * (4096 - 4 - 8)

namespace Page

/-! The first page of a file starts with a `BPFileSubHeader`: `page_count`, `allocated_pages`, and then the bitmap. -/

def pageCount (p : Page) : Int := p.data.int 0

def allocatedPages (p : Page) : Int := p.data.int 4

def bit (p : Page) (n : Nat) : Bool := (p.data (8 + n / 8)).toNat.testBit (n % 8)

def setPageCount (v : Int) (p : Page) : Page := { p with data := p.data.setInt 0 v }

def setAllocatedPages (v : Int) (p : Page) : Page := { p with data := p.data.setInt 4 v }

def setBit (n : Nat) (p : Page) : Page :=
  { p with data := set p.data (8 + n / 8) (p.data (8 + n / 8) ||| (1 <<< UInt8.ofNat (n % 8))) }

def clearBit (n : Nat) (p : Page) : Page :=
  { p with data := set p.data (8 + n / 8) (p.data (8 + n / 8) &&& ~~~(1 <<< UInt8.ofNat (n % 8))) }

def takeFree (n : Nat) (p : Page) : Page := (p.setAllocatedPages (p.allocatedPages + 1)).setBit n

def extend (p : Page) : Page :=
  let q := p.setAllocatedPages (p.allocatedPages + 1)
  (q.setPageCount (q.pageCount + 1)).setBit p.pageCount.toNat

def giveUp (n : Nat) (p : Page) : Page := (p.setAllocatedPages (p.allocatedPages - 1)).clearBit n

end Page

/-! ### The state -/

structure Frame where
  dirty : Bool
  /-- An `unsigned int`. -/
  pinCount : Nat
  fileDesc : Nat
  page : Page

structure LRUFrame where
  frame : Frame
  allocated : Bool

/-- `BPFileHandle`; its pointers into the header page are reached through `hdrFrame`. -/
structure BPFileHandle where
  fileName : String
  fileDesc : Nat
  hdrFrame : Nat
  deriving DecidableEq, Repr

structure DiskBufferPool where
  size : Nat
  frames : Nat → LRUFrame
  frameList : List Nat
  listMap : Nat × PageNum → Option Nat
  openList : Nat → Option BPFileHandle
  files : String → PageNum → Page
  fds : Nat → Option String

def maxOpenFile : Nat := 1024

/-- What the system calls do: the descriptor from `open`, and whether each call succeeds. A failed write leaves the page
    with other bytes on disk, a failed read leaves some page in the frame. -/
structure Io where
  openFd : Option Nat
  read : Bool
  short : Page
  evictWrite : Bool
  forceWrite : Nat → Bool
  extendWrite : Bool
  disposeWrite : Bool
  torn : PageData
  close : Bool

namespace DiskBufferPool

def modFrame (i : Nat) (f : Frame → Frame) (s : DiskBufferPool) : DiskBufferPool :=
  { s with frames := set s.frames i { s.frames i with frame := f (s.frames i).frame } }

def setAllocated (i : Nat) (b : Bool) (s : DiskBufferPool) : DiskBufferPool :=
  { s with frames := set s.frames i { s.frames i with allocated := b } }

def frame (s : DiskBufferPool) (i : Nat) : Frame := (s.frames i).frame

def pin (i : Nat) (s : DiskBufferPool) : DiskBufferPool :=
  s.modFrame i fun f => { f with pinCount := (f.pinCount + 1) % 4294967296 }

def unpin (i : Nat) (s : DiskBufferPool) : DiskBufferPool :=
  s.modFrame i fun f => { f with pinCount := (f.pinCount + 4294967295) % 4294967296 }

def setPins (i n : Nat) (s : DiskBufferPool) : DiskBufferPool := s.modFrame i fun f => { f with pinCount := n }

def setDirty (i : Nat) (b : Bool) (s : DiskBufferPool) : DiskBufferPool := s.modFrame i fun f => { f with dirty := b }

def setPage (i : Nat) (p : Page) (s : DiskBufferPool) : DiskBufferPool := s.modFrame i fun f => { f with page := p }

def setMap (k : Nat × PageNum) (v : Option Nat) (s : DiskBufferPool) : DiskBufferPool :=
  { s with listMap := fun k' => if k' = k then v else s.listMap k' }

def lruUpdate (i : Nat) (s : DiskBufferPool) : DiskBufferPool := { s with frameList := i :: s.frameList.erase i }

/-- A page of a file on disk, at the place that its own number gives. -/
def writeFile (name : String) (p : Page) (s : DiskBufferPool) : DiskBufferPool :=
  { s with files := fun n q => if n = name ∧ q = p.pageNum then p else s.files n q }

def flushBlock (ok : Bool) (torn : PageData) (i : Nat) (s : DiskBufferPool) : RC × DiskBufferPool :=
  match s.fds (s.frame i).fileDesc with
  | none => (.ioerrWrite, s)
  | some name =>
    if ok then (.success, (s.writeFile name (s.frame i).page).setDirty i false)
    else (.ioerrWrite, s.writeFile name { (s.frame i).page with data := torn })

def loadPage (io : Io) (pageNum : PageNum) (fileDesc i : Nat) (s : DiskBufferPool) : RC × DiskBufferPool :=
  match s.fds fileDesc with
  | none => (.ioerrRead, s)
  | some name =>
    if io.read then (.success, s.setPage i (s.files name pageNum))
    else (.ioerrRead, s.setPage i io.short)

/-! ### `BPManager` -/

def findUnallocated (s : DiskBufferPool) : Option Nat :=
  let i := firstIdx s.size fun i => !(s.frames i).allocated
  if i < s.size then some i else none

def evict (io : Io) (s : DiskBufferPool) : Option Nat × DiskBufferPool :=
  match s.frameList.reverse.find? fun i => decide ((s.frame i).pinCount = 0) with
  | none => (none, s)
  | some i =>
    let s₁ := s.setMap ((s.frame i).fileDesc, (s.frame i).page.pageNum) none
    if (s.frame i).dirty then
      match s₁.flushBlock io.evictWrite io.torn i with
      | (.success, s₂) => (some i, s₂)
      | (_, s₂) => (none, s₂)
    else (some i, s₁)

def assign (fileDesc : Nat) (pageNum : PageNum) (i : Nat) (s : DiskBufferPool) : DiskBufferPool :=
  -- The page number is left to the read that follows.
  ((s.modFrame i fun f => { f with dirty := false, fileDesc := fileDesc }).setMap (fileDesc, pageNum)
    (some i)).lruUpdate i

def alloc (io : Io) (fileDesc : Nat) (pageNum : PageNum) (s : DiskBufferPool) : Option Nat × DiskBufferPool :=
  match s.findUnallocated with
  | some i => (some i, (s.setAllocated i true).assign fileDesc pageNum i)
  | none =>
    match s.evict io with
    | (none, s₁) => (none, s₁)
    | (some i, s₁) => (some i, s₁.assign fileDesc pageNum i)

def get (fileDesc : Nat) (pageNum : PageNum) (s : DiskBufferPool) : Option (Nat × DiskBufferPool) :=
  (s.listMap (fileDesc, pageNum)).map fun i => (i, s.lruUpdate i)

def disposeBlock (io : Io) (i : Nat) (s : DiskBufferPool) : RC × DiskBufferPool :=
  if (s.frame i).pinCount ≠ 0 then (.lockedUnlock, s)
  else if (s.frame i).dirty then
    match s.flushBlock io.disposeWrite io.torn i with
    | (.success, s₁) => (.success, (s₁.setDirty i false).setAllocated i false)
    | (rc, s₁) => (rc, s₁)
  else (.success, (s.setDirty i false).setAllocated i false)

/-- `BPManager::dispose_page`. The entry in `list_map` stays. -/
def disposeCached (fileDesc : Nat) (pageNum : PageNum) (s : DiskBufferPool) : RC × DiskBufferPool :=
  match s.listMap (fileDesc, pageNum) with
  | none => (.success, s)
  | some i => if (s.frame i).pinCount ≠ 0 then (.bufferpoolPagePinned, s) else (.success, s.setAllocated i false)

def forceFrom (io : Io) (fileDesc : Nat) : List Nat → DiskBufferPool → RC × DiskBufferPool
  | [], s => (.success, s)
  | i :: is, s =>
    if !(s.frames i).allocated || decide ((s.frame i).fileDesc ≠ fileDesc) then forceFrom io fileDesc is s
    else if (s.frame i).dirty then
      match s.flushBlock (io.forceWrite i) io.torn i with
      | (.success, s₁) => forceFrom io fileDesc is (s₁.setAllocated i false)
      | (rc, s₁) => (rc, s₁)
    else forceFrom io fileDesc is (s.setAllocated i false)

/-- `force_all_pages`. It looks at no pin count. -/
def forceAllPages (io : Io) (fileDesc : Nat) (s : DiskBufferPool) : RC × DiskBufferPool :=
  forceFrom io fileDesc (List.range s.size) s

/-! ### `DiskBufferPool` -/

def checkFileId (fileId : Nat) (s : DiskBufferPool) : Option BPFileHandle :=
  if fileId < maxOpenFile then s.openList fileId else none

def header (s : DiskBufferPool) (file : BPFileHandle) : Page := (s.frame file.hdrFrame).page

/-- `check_page_num`, for page numbers from 0 on; a negative one indexes before the bitmap. -/
def checkPageNum (pageNum : PageNum) (file : BPFileHandle) (s : DiskBufferPool) : Bool :=
  decide (pageNum < (s.header file).pageCount) && (s.header file).bit pageNum.toNat

def createdHeader : Page := (((Page.zero 0).setAllocatedPages 1).setPageCount 1).setBit 0

/-- `create_file`; `failure` is what its system calls run into. It leaves nothing behind that can be read back then. -/
def createFile (failure : Option RC) (name : String) (s : DiskBufferPool) : RC × DiskBufferPool :=
  match failure with
  | some rc => (rc, s)
  | none => (.success, s.writeFile name createdHeader)

def openSlot (s : DiskBufferPool) : Nat := firstIdx maxOpenFile fun i => (s.openList i).isNone

def openFile (io : Io) (name : String) (s : DiskBufferPool) : Except RC Nat × DiskBufferPool :=
  let i := firstIdx maxOpenFile fun i => (s.openList i).any fun f => decide (f.fileName = name)
  if i < maxOpenFile then (.ok i, s)
  else if s.openSlot = maxOpenFile then (.error .bufferpoolOpenTooManyFiles, s)
  else match io.openFd with
    | none => (.error .ioerrAccess, s)
    | some fd =>
      let setFd (v : Option String) (s : DiskBufferPool) := { s with fds := set s.fds fd v }
      match (setFd (some name) s).alloc io fd 0 with
      | (none, s₁) => (.error .genericError, setFd none s₁)
      | (some j, s₁) =>
        match (((s₁.setDirty j false).modFrame j fun f => { f with fileDesc := fd }).setPins j 1).loadPage
          io 0 fd j with
        | (.success, s₂) => (.ok s.openSlot, { s₂ with openList := set s₂.openList s.openSlot (some ⟨name, fd, j⟩) })
        | (rc, s₂) => (.error rc, setFd none ((s₂.setPins j 0).disposeBlock io j).2)

def closeFile (io : Io) (fileId : Nat) (s : DiskBufferPool) : Except RC Unit × DiskBufferPool :=
  match s.checkFileId fileId with
  | none => (.error .bufferpoolIllegalFileId, s)
  | some file =>
    match (s.unpin file.hdrFrame).forceAllPages io file.fileDesc with
    | (.success, s₁) =>
      if io.close then
        (.ok (), { s₁ with fds := set s₁.fds file.fileDesc none, openList := set s₁.openList fileId none })
      else (.error .ioerrClose, s₁)
    | (rc, s₁) => (.error rc, s₁.pin file.hdrFrame)

def getThisPage (io : Io) (fileId : Nat) (pageNum : PageNum) (s : DiskBufferPool) : Except RC Nat × DiskBufferPool :=
  match s.checkFileId fileId with
  | none => (.error .bufferpoolIllegalFileId, s)
  | some file =>
    if !s.checkPageNum pageNum file then (.error .bufferpoolInvalidPageNum, s)
    else match s.get file.fileDesc pageNum with
      | some (i, s₁) => (.ok i, s₁.pin i)
      | none =>
        match s.alloc io file.fileDesc pageNum with
        | (none, s₁) => (.error .genericError, s₁)
        | (some i, s₁) =>
          match (s₁.setPins i 1).loadPage io pageNum file.fileDesc i with
          | (.success, s₂) => (.ok i, s₂)
          | (rc, s₂) => (.error rc, ((s₂.setPins i 0).disposeBlock io i).2)

def freePage (file : BPFileHandle) (s : DiskBufferPool) : Option Nat :=
  let h := s.header file
  let i := firstIdx h.pageCount.toNat fun i => !h.bit i
  if h.allocatedPages < h.pageCount ∧ i < h.pageCount.toNat then some i else none

def allocatePage (io : Io) (fileId : Nat) (s : DiskBufferPool) : Except RC Nat × DiskBufferPool :=
  match s.checkFileId fileId with
  | none => (.error .bufferpoolIllegalFileId, s)
  | some file =>
    match s.freePage file with
    -- The header is not marked dirty here.
    | some p => (s.setPage file.hdrFrame ((s.header file).takeFree p)).getThisPage io fileId p
    | none =>
      match s.alloc io file.fileDesc (s.header file).pageCount with
      | (none, s₁) => (.error .genericError, s₁)
      | (some i, s₁) =>
        let s₂ := (s₁.setPage file.hdrFrame (s₁.header file).extend).setDirty file.hdrFrame true
        let s₃ := (s₂.setPins i 1).setPage i (Page.zero 0)
        let s₄ := s₃.modFrame i fun f => { f with page := { f.page with pageNum := (s₃.header file).pageCount - 1 } }
        match s₄.flushBlock io.extendWrite io.torn i with
        | (.success, s₅) => (.ok i, s₅)
        | (rc, s₅) => (.error rc, s₅)

def disposePage (fileId : Nat) (pageNum : PageNum) (s : DiskBufferPool) : Except RC Unit × DiskBufferPool :=
  match s.checkFileId fileId with
  | none => (.error .bufferpoolIllegalFileId, s)
  | some file =>
    if !s.checkPageNum pageNum file then (.error .bufferpoolInvalidPageNum, s)
    else match s.disposeCached file.fileDesc pageNum with
      | (.success, s₁) =>
        (.ok (), (s₁.setDirty file.hdrFrame true).setPage file.hdrFrame ((s₁.header file).giveUp pageNum.toNat))
      | (rc, s₁) => (.error rc, s₁)

def flushAllPages (io : Io) (fileId : Nat) (s : DiskBufferPool) : RC × DiskBufferPool :=
  match s.checkFileId fileId with
  | none => (.bufferpoolIllegalFileId, s)
  | some file => s.forceAllPages io file.fileDesc

end DiskBufferPool

/-! ### Clients

The pool with the page handles that its clients have obtained. `file` and `page` record what a handle was asked for,
`changed` that its page has been written and not marked dirty since; `last` is the bytes last written to each page, by
a client or by the pool itself. -/

structure PageHandle where
  isOpen : Bool
  frame : Nat
  file : String
  page : PageNum
  changed : Bool

structure PoolSystem where
  pool : DiskBufferPool
  handles : List PageHandle
  last : String → PageNum → Page

inductive PoolAct
  | createFile (failure : Option RC) (name : String)
  | openFile (io : Io) (name : String)
  | closeFile (io : Io) (fileId : Nat)
  | getThisPage (io : Io) (fileId : Nat) (pageNum : PageNum)
  | allocatePage (io : Io) (fileId : Nat)
  | write (handle : Nat) (data : PageData)
  | markDirty (handle : Nat)
  | unpinPage (handle : Nat)
  | disposePage (fileId : Nat) (pageNum : PageNum)
  | flushAllPages (io : Io) (fileId : Nat)

namespace PoolSystem
open DiskBufferPool

def record (name : String) (pageNum : PageNum) (p : Page) (s : PoolSystem) : PoolSystem :=
  { s with last := fun n q => if n = name ∧ q = pageNum then p else s.last n q }

def obtain (name : String) (pageNum : PageNum) (r : Except RC Nat × DiskBufferPool) (s : PoolSystem) : PoolSystem :=
  match r with
  | (.ok i, pool) => { s with pool := pool, handles := s.handles ++ [⟨true, i, name, pageNum, false⟩] }
  | (.error _, pool) => { s with pool := pool }

def step (s : PoolSystem) : PoolAct → PoolSystem
  | .createFile failure name =>
    let s' := { s with pool := (s.pool.createFile failure name).2 }
    if failure.isNone then s'.record name 0 createdHeader else s'
  | .openFile io name => { s with pool := (s.pool.openFile io name).2 }
  | .closeFile io fileId => { s with pool := (s.pool.closeFile io fileId).2 }
  | .getThisPage io fileId pageNum =>
    match s.pool.checkFileId fileId with
    | none => s
    | some file => s.obtain file.fileName pageNum (s.pool.getThisPage io fileId pageNum)
  | .allocatePage io fileId =>
    match s.pool.checkFileId fileId with
    | none => s
    | some file =>
      match s.pool.freePage file with
      | some p =>
        (s.record file.fileName 0 ((s.last file.fileName 0).takeFree p)).obtain file.fileName p
          (s.pool.allocatePage io fileId)
      | none =>
        let n := (s.pool.header file).pageCount
        let s' := if (s.pool.alloc io file.fileDesc n).1.isSome then
          (s.record file.fileName 0 (s.last file.fileName 0).extend).record file.fileName n (Page.zero n) else s
        s'.obtain file.fileName n (s.pool.allocatePage io fileId)
  | .write k data =>
    match s.handles[k]? with
    | none => s
    | some h =>
      { s with
        pool := s.pool.modFrame h.frame fun f => { f with page := { f.page with data := data } }
        handles := s.handles.set k { h with changed := true } }.record h.file h.page ⟨h.page, data⟩
  | .markDirty k =>
    match s.handles[k]? with
    | none => s
    | some h => { s with pool := s.pool.setDirty h.frame true, handles := s.handles.set k { h with changed := false } }
  | .unpinPage k =>
    match s.handles[k]? with
    | none => s
    | some h => { s with pool := s.pool.unpin h.frame, handles := s.handles.set k { h with isOpen := false } }
  | .disposePage fileId pageNum =>
    match s.pool.checkFileId fileId, s.pool.disposePage fileId pageNum with
    | some file, (.ok _, pool) =>
      -- The data is deleted: what is left of the page is on disk.
      ({ s with pool := pool }.record file.fileName pageNum (s.pool.files file.fileName pageNum)).record file.fileName 0
        ((s.last file.fileName 0).giveUp pageNum.toNat)
    | _, (_, pool) => { s with pool := pool }
  | .flushAllPages io fileId => { s with pool := (s.pool.flushAllPages io fileId).2 }

/-- The pool when it is created: nothing is open, and the storage of the frames is as it comes. -/
def init (size : Nat) (raw : Nat → Frame) (files : String → PageNum → Page) : PoolSystem where
  pool := {
    size := size
    frames i := ⟨raw i, false⟩
    frameList := List.range size
    listMap _ := none
    openList _ := none
    files := files
    fds _ := none }
  handles := []
  last := files

end PoolSystem

end MiniOb
