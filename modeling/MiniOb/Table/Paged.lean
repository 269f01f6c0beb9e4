import MiniOb.Table.Table

/-! # A table in the buffer pool

The records of a table in the frames and on disk, page by page. A call of the record manager marks the page it changes
dirty; `set_record_trx_id` writes the mark through a pointer into the frame, and nothing marks the page. A page that is
evicted is written if it is dirty, and read again when it is needed. The page of the last insertion is pinned by the
handler that insertions go on with (`record_page_handler_`), and not evicted. -/

namespace MiniOb

inductive RecordAct
  | insert (slot : FreeSlot) (data : Bytes)
  | update (rid : RID) (new : Bytes)
  | delete (rid : RID)
  | commitOperation (o : Operation)
  | rollbackOperation (o : Operation)
  /-- `operations_.clear()` and `trx_id_ = 0`. -/
  | finish

namespace TrxTable

def recordStep (w : TrxTable) : RecordAct → TrxTable
  | .insert slot data => (w.insertRecord slot data).2
  | .update rid new => match w.table.records rid with
    | none => w
    | some r => (w.updateRecord rid r.data new).2
  | .delete rid => (w.deleteRecord rid).2
  | .commitOperation o => { w with table := w.table.commitOperation o }
  | .rollbackOperation o => { w with table := w.table.rollbackOperation o }
  | .finish => { w with trx := ⟨0, []⟩ }

def dirtied (w : TrxTable) : RecordAct → Option PageNum
  | .insert slot _ => match slot.pick w.table.records with
    | .error _ => none
    | .ok rid => some rid.pageNum
  | .update rid new => match w.table.records rid with
    | none => none
    | some r => match w.table.deleteEntryOfIndexes r.data rid false with
      | (.success, table) => match table.insertEntryOfIndexes new rid with
        | (.success, _) => some rid.pageNum
        | _ => none
      | _ => none
  | .commitOperation ⟨.delete, rid⟩ => (w.table.records rid).map fun _ => rid.pageNum
  | .rollbackOperation ⟨.insert, rid⟩ => match w.table.rollbackInsert rid with
    | (.success, _) => some rid.pageNum
    | _ => none
  | _ => none

def marked (w : TrxTable) : RecordAct → Option (RID × Nat)
  | .delete rid => match (w.trx.startIfNotStarted w.lastId).1.deleteRids [rid] with
    | (.ok true, trx) => some (rid, Trx.mark trx.trxId true)
    | _ => none
  | .commitOperation ⟨.insert, rid⟩ | .commitOperation ⟨.update, rid⟩ | .rollbackOperation ⟨.delete, rid⟩ =>
    some (rid, 0)
  | _ => none

end TrxTable

structure PagedTable where
  work : TrxTable
  disk : RID → Option Record
  dirty : PageNum → Bool
  /-- The page that `record_page_handler_` stands at. -/
  cursor : Option PageNum

namespace PagedTable

def records (s : PagedTable) : RID → Option Record := s.work.table.records

/-- The page is written if it is dirty, and what is in memory of it is then what is on disk. -/
def reload (s : PagedTable) (p : PageNum) : PagedTable :=
  let disk := if s.dirty p then fun rid => if rid.pageNum = p then s.records rid else s.disk rid else s.disk
  let records := fun rid => if rid.pageNum = p then disk rid else s.records rid
  { s with
    work := { s.work with table := { s.work.table with records } }, disk, dirty := Function.update s.dirty p false }

def evict (s : PagedTable) (p : PageNum) : PagedTable := if s.cursor = some p then s else s.reload p

inductive Act
  | record (a : RecordAct)
  | evict (p : PageNum)

def step (s : PagedTable) : Act → PagedTable
  | .record a => { s with
      work := s.work.recordStep a
      dirty := match s.work.dirtied a with
        | none => s.dirty
        | some p => Function.update s.dirty p true
      cursor := match a with
        | .insert _ _ => (s.work.dirtied a).or s.cursor
        | _ => s.cursor }
  | .evict p => s.evict p

end PagedTable

end MiniOb
