import MiniOb.Storage.RecordManager
import MiniOb.Storage.Trx

/-! # Records of more than one chunk

`Table::insert_record`, `delete_record`, `scan_record` and the commit of a transaction, for a table without indexes
whose records are longer than a page. `insert_record` of the record file cuts a record into chunks and returns the RID
of the last one; `scan_record` puts as many visible chunks together as a record has. -/

namespace MiniOb
open Slots

def Pointed.copy (dst : Pointed) (off : Nat) (src : Pointed) (len : Nat) : Pointed := fun i =>
  if off ≤ i ∧ i < off + len then src (i - off) else dst i

def Pointed.mark (data : Pointed) : Nat := readUInt (firstN data 4)

def markBytes (mark : Nat) : Bytes := (List.range 4).map fun k => UInt8.ofNat (mark / 256 ^ k)

/-- `set_record_trx_id` on a record of a table; the mark is its first field. -/
def setMark (data : Bytes) (mark : Nat) : Bytes := markBytes mark ++ data.drop 4

/-! ### `Table::scan_record` -/

/-- The number of chunks of a record: `per_size` and `times`. -/
def perSize (recordSize : Nat) : Nat := (recordSize + 4055) / 4056

/-- The locals of the loop of `scan_record`, with the global `first` and the table's `rollback_rids`. -/
structure Assembly where
  data : Pointed
  offset : Nat
  first : Nat
  recordCount : Nat
  rollbackRids : List RID

namespace Assembly

def connect (a : Assembly) (chunk : Pointed) (len : Nat) : Assembly := { a with
  data := if a.first = 0 then a.data.copy 0 chunk len else a.data.copy a.offset (fun i => chunk (i + 4)) len
  first := a.first + 1 }

/-- What the loop does with a visible chunk, up to the test whether the record is complete. -/
def push (recordSize : Nat) (a : Assembly) (rid : RID) (chunk : Pointed) : Assembly :=
  let a := { a with recordCount := a.recordCount + 1, rollbackRids := a.rollbackRids ++ [rid] }
  let a := a.connect chunk (if recordSize - a.offset > 4056 then 4056 else recordSize - a.offset)
  { a with offset := a.offset + 4056 }

def renew (a : Assembly) : Assembly := { a with data := fun _ => 0, offset := 0, first := 0, rollbackRids := [] }

/-- The loop of `scan_record` over the chunks of the file. `read` is the record reader with its context: it gets the
    assembled record and `rollback_rids`, and says whether the scan goes on. -/
def scan {σ : Type} (recordSize : Nat) (visible : Pointed → Bool) (read : σ → Bytes → List RID → σ × Bool) :
    List (RID × Pointed) → Assembly → σ → Assembly × σ
  | [], a, s => (a, s)
  | (rid, chunk) :: chunks, a, s =>
    if visible chunk then
      let a := a.push recordSize rid chunk
      if a.recordCount % perSize recordSize = 0 then
        let (s, goOn) := read s (firstN a.data recordSize) a.rollbackRids
        if goOn then scan recordSize visible read chunks a.renew s else (a.renew, s)
      else scan recordSize visible read chunks a s
    else scan recordSize visible read chunks a s

end Assembly

/-! ### The table -/

/-- A table of large records with the transaction of one session. `first` is the global variable of `table.cpp`. -/
structure LargeTable where
  recordSize : Nat
  file : RecordFile
  trx : Trx
  lastId : Nat
  first : Nat
  rollbackRids : List RID

namespace LargeTable

def pointed (t : LargeTable) (rid : RID) : Pointed := fun i =>
  match t.file.pages.get rid.pageNum with
  | none => 0
  | some d => d (d.recordOffset rid.slotNum.toNat + i)

/-- `Table::scan_record`, with the visibility of the transaction `reader`; `none` stands for no transaction. -/
def scanRecord {σ : Type} (t : LargeTable) (fuel : Nat) (reader : Option Nat) (read : σ → Bytes → List RID → σ × Bool)
    (s : σ) : Option (LargeTable × σ) :=
  (t.file.pages.scanFile (fun _ => true) fuel).map fun r =>
    let visible (chunk : Pointed) := reader.elim true fun id => Trx.isVisible id chunk.mark
    let (a, s) := Assembly.scan t.recordSize visible read (r.1.map fun rid => (rid, t.pointed rid))
      ⟨fun _ => 0, 0, t.first, 0, t.rollbackRids⟩ s
    ({ t with first := a.first, rollbackRids := a.rollbackRids }, s)

/-- `scan_record` without a filter: the records that the reader gets. -/
def delivered (t : LargeTable) (fuel : Nat) (reader : Option Nat) : Option (List Bytes) :=
  (t.scanRecord fuel reader (fun out record _ => (out ++ [record], true)) []).map Prod.snd

def insertRecord (t : LargeTable) (data : Bytes) : LargeTable :=
  match t.file.insertRecord (setMark data (Trx.mark t.trx.trxId false)) with
  | (.error _, file) => { t with file }
  | (.ok rid, file) =>
    if (t.trx.findOperation rid).isSome then { t with file := (file.deleteRecord rid).2 }
    else
      let (trx, lastId) := t.trx.startIfNotStarted t.lastId
      { t with file, trx := trx.insertOperation .insert rid, lastId }

/-- `Table::delete_record` with a filter. The mark of a deletion goes into the assembled copy. -/
def deleteRecord (t : LargeTable) (fuel : Nat) (filter : Bytes → Bool) : Option LargeTable :=
  let read (s : Trx × Nat) (record : Bytes) (rids : List RID) : (Trx × Nat) × Bool :=
    if filter record then
      let (trx, lastId) := s.1.startIfNotStarted s.2
      match trx.deleteRids rids with
      | (.ok _, trx) => ((trx, lastId), true)
      | (.error _, trx) => ((trx, lastId), false)
    else (s, true)
  (t.scanRecord fuel (some t.trx.trxId) read (t.trx, t.lastId)).map fun r =>
    { r.1 with trx := r.2.1, lastId := r.2.2 }

def commitOperation (file : RecordFile) (o : Operation) : RecordFile :=
  match o.type with
  | .insert | .update => match file.pages.get o.rid.pageNum with
    | none => file
    | some d => match d.checkSlot o.rid.slotNum .recordInvalidrid with
      | .error _ => file
      | .ok () =>
        { file with pages := file.pages.set o.rid.pageNum (d.setInt (d.recordOffset o.rid.slotNum.toNat) 0) }
  | .delete => match file.getRecord o.rid with
    | .error _ => file
    | .ok _ => (file.deleteRecord o.rid).2

def commit (t : LargeTable) (order : List Operation → List Operation) : LargeTable :=
  { t with file := (order t.trx.operations).foldl commitOperation t.file, trx := ⟨0, []⟩ }

inductive Statement
  | insert (data : Bytes)
  | delete (filter : Bytes → Bool)

/-- A statement; a scan that runs out of fuel leaves the table alone. -/
def exec (fuel : Nat) (t : LargeTable) : Statement → LargeTable
  | .insert data => t.insertRecord data
  | .delete filter => (t.deleteRecord fuel filter).getD t

structure Transaction where
  statements : List Statement
  fuel : Nat
  order : List Operation → List Operation

def step (t : LargeTable) (a : Transaction) : LargeTable := (a.statements.foldl (exec a.fuel) t).commit a.order

def created (recordSize : Nat) (header : PageData) (alloc : PageAllocator) (lastId : Nat) : LargeTable where
  recordSize
  file := RecordFile.created header alloc
  trx := ⟨0, []⟩
  lastId
  first := 0
  rollbackRids := []

end LargeTable

end MiniOb
