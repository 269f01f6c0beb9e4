import MiniOb.Table.LargeRecord
import MiniOb.Table.Table

/-! # Updates of records of more than one chunk

`RecordUpdater` on a record that `scan_record` has put together from the chunks at `rollback_rids`. -/

namespace MiniOb
open Slots

/-- The loop of `split_record`; `total` is what is left of the record's size. The source counts `total` down and leaves
    `offset` at 0, so every chunk is copied from the beginning of the record. -/
def splitLoop (record : Bytes) (rids : List RID) (total count : Nat) : List (RID × Bytes) :=
  if total = 0 then []
  else
    let offset := 0
    let len := if total - offset > 4056 then 4056 else total - offset
    (rids.getD count ⟨0, 0⟩, (record.drop offset).take len ++ List.replicate (4056 - len) 0) ::
      splitLoop record rids (total - 4056) (count + 1)
termination_by total
decreasing_by omega

def splitRecord (record : Bytes) (rids : List RID) : List (RID × Bytes) := splitLoop record rids record.length 0

/-- `RecordUpdater::make_record` on one chunk: as many bytes as the whole record has are copied, from the chunk and what
    lies behind it in memory, and the literal goes to the offset of its field. -/
def updateChunk (recordSize offset : Nat) (literal behind chunk : Bytes) : Bytes :=
  writeAt ((chunk ++ behind).take recordSize) offset literal

namespace RecordFile

def writeChunks : List (RID × Bytes) → RecordFile → Except RC Unit × RecordFile
  | [], f => (.ok (), f)
  | (rid, data) :: chunks, f => match f.updateRecord rid data with
    | (.ok (), f) => writeChunks chunks f
    | (.error rc, f) => (.error rc, f)

end RecordFile

namespace LargeTable

/-- What `scan_record` puts together from the chunks at these RIDs, from a new buffer on. -/
def assembly (t : LargeTable) (rids : List RID) : Assembly :=
  rids.foldl (fun (a : Assembly) rid => a.push t.recordSize rid (t.pointed rid)) ⟨fun _ => 0, 0, 0, 0, []⟩

def assemble (t : LargeTable) (rids : List RID) : Bytes := firstN (t.assembly rids).data t.recordSize

def rewrite (t : LargeTable) (rids : List RID) : LargeTable :=
  { t with file := (RecordFile.writeChunks (splitRecord (t.assemble rids) rids) t.file).2 }

def updateLarge (t : LargeTable) (rids : List RID) (offset : Nat) (literal behind : Bytes) : LargeTable :=
  { t with
    file := (RecordFile.writeChunks ((splitRecord (t.assemble rids) rids).map fun c =>
      (c.1, updateChunk t.recordSize offset literal behind c.2)) t.file).2 }

end LargeTable

end MiniOb
