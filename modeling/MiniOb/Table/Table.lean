import MiniOb.Index.Key
import MiniOb.Lib.Slots
import MiniOb.Query.TupleValue
import MiniOb.Storage.Trx

/-! # Tables

`Table` with its records, its regular and its unique indexes and the transaction that works on it, for records of one
chunk. The record file is the map of its live records and an index is the set of its entries. The slot that an insertion
gets (`FreeSlot`) and the RIDs that a scan meets (`Scan`) are part of a call. -/

namespace MiniOb
open Slots

/-! ### Fields and values -/

/-- `FieldMeta`. Offsets are counted from behind the system field; the length of a nullable field includes the four
    bytes of its null flag. -/
structure FieldMeta where
  type : AttrType
  offset : Nat
  len : Nat
  nullable : Bool
  deriving DecidableEq, Repr

/-- A parsed `Value`. `date` is what `validate_data_format` and `to_raw_data` make of its text, if that is a date. -/
structure Value where
  type : AttrType
  data : Pointed
  date : Option Bytes

def writeAt (data : Bytes) (off : Nat) (bytes : Bytes) : Bytes :=
  data.take off ++ bytes ++ data.drop (off + bytes.length)

/-- `strcmp` of the bytes of a record and a C string; the bytes behind the record count as zeros. -/
def strcmp (s : Bytes) (t : Pointed) : Int := strncmp s (firstN t (s.length + 1)) (s.length + 1)

/-- `value_validation`: a date is rewritten in place. -/
def Value.validate (v : Value) : Except RC Value :=
  match v.type with
  | .date => match v.date with
    | none => .error .invalidArgument
    | some raw => .ok { v with data := fun i => if i < 4 then raw.getD i 0 else v.data i }
  | _ => .ok v

namespace FieldMeta

def bytes (f : FieldMeta) (data : Bytes) : Bytes := (data.drop f.offset).take f.len

/-- `type_match`: whether the type fits, and the value with its type rewritten. -/
def typeMatch (f : FieldMeta) (v : Value) : Bool × Value :=
  if f.type = v.type then (true, v)
  else if f.type = .date ∧ v.type = .chars then (true, { v with type := .date })
  else (false, v)

def checkValue (f : FieldMeta) (v : Value) : Except RC Value :=
  if f.nullable = false ∧ v.type = .nulls then .error .schemaFieldTypeMismatch
  else if (f.typeMatch v).1 = false ∧ (f.nullable = false ∨ v.type ≠ .nulls) then .error .schemaFieldTypeMismatch
  else (f.typeMatch v).2.validate

def write (f : FieldMeta) (data : Bytes) (v : Value) : Bytes :=
  if f.nullable then
    if v.type = .nulls then writeAt data f.offset ([1, 0, 0, 0] ++ List.replicate (f.len - 4) 0)
    else writeAt data f.offset ([0, 0, 0, 0] ++ firstN v.data (f.len - 4))
  else writeAt data f.offset (firstN v.data f.len)

/-- What `RecordUpdater::make_record` copies into the record: it knows nothing of null flags. -/
def overwrite (f : FieldMeta) (data : Bytes) (v : Value) : Bytes := writeAt data f.offset (firstN v.data f.len)

/-- `DefaultConditionFilter::filter` for a condition `field = value` with a value of the field's type or NULL. If the
    flag `refers_outer` of the value happens to be set, the record goes through `subquery_filter`, which reads a
    nullable field at its null flag and compares floats with a tolerance. -/
def equals (f : FieldMeta) (refersOuter : Bool) (v : Value) (data : Bytes) : Bool :=
  let flagged := f.nullable && !refersOuter
  if v.type = .nulls ∨ (flagged = true ∧ readInt (data.drop f.offset) ≠ 0) then false
  else
    let left := data.drop (if flagged then f.offset + 4 else f.offset)
    match f.type with
    | .chars => strcmp left v.data = 0
    | .ints => readInt left = readInt (firstN v.data 4)
    | .floats =>
      if refersOuter then TupleValue.compare (.float (readUInt left)) (.float (readUInt (firstN v.data 4))) = 0
      else Single.sub (readFloat left) (readFloat (firstN v.data 4)) = .finite 0
    | .date => readUInt left = readUInt (firstN v.data 4)
    | .undefined | .texts | .nulls => true

end FieldMeta

/-! ### Indexes -/

/-- A `BplusTreeIndex`, as the set of its entries. -/
structure Index where
  fields : List FieldMeta
  entries : Finset (Bytes × RID)
  deriving DecidableEq

namespace Index

/-- The key of a record: the bytes of the indexed fields, one after the other. -/
def key (i : Index) (data : Bytes) : Bytes := i.fields.flatMap fun f => f.bytes data

def insertEntry (i : Index) (data : Bytes) (rid : RID) : RC × Index :=
  if (i.key data, rid) ∈ i.entries then (.recordDuplicateKey, i)
  else (.success, { i with entries := insert (i.key data, rid) i.entries })

def deleteEntry (i : Index) (data : Bytes) (rid : RID) : RC × Index :=
  if (i.key data, rid) ∈ i.entries then (.success, { i with entries := i.entries.erase (i.key data, rid) })
  else (.recordInvalidKey, i)

def insertEach (data : Bytes) (rid : RID) : List Index → RC × List Index
  | [] => (.success, [])
  | i :: is => match i.insertEntry data rid with
    | (.success, i') => let (rc, is') := insertEach data rid is; (rc, i' :: is')
    | (rc, i') => (rc, i' :: is)

/-- The loop of `delete_entry_of_indexes`; `rc` is the code so far. Against its name, the flag makes the loop go on when
    an entry does not exist. -/
def deleteEach (data : Bytes) (rid : RID) (errorOnNotExists : Bool) : List Index → RC → RC × List Index
  | [], rc => (rc, [])
  | i :: is, _ => match i.deleteEntry data rid with
    | (.success, i') => let (rc, is') := deleteEach data rid errorOnNotExists is .success; (rc, i' :: is')
    | (rc, i') =>
      if rc ≠ .recordInvalidKey ∨ errorOnNotExists = false then (rc, i' :: is)
      else let (rc, is') := deleteEach data rid errorOnNotExists is rc; (rc, i' :: is')

end Index

/-! ### The table -/

/-- What `do_unique_select` finds: the RIDs that its scan meets, and in the `refers_outer` of its literal, which
    `DefaultConditionFilter::init` does not set, what was in memory. -/
structure UniqueSelect where
  rids : List RID
  refersOuter : Bool

def UniqueSelect.nothing : UniqueSelect := ⟨[], false⟩

structure Record where
  mark : Nat
  data : Bytes
  deriving DecidableEq, Repr

/-- `Table`; `fields` are those behind the system field. -/
structure Table where
  fields : List FieldMeta
  records : RID → Option Record
  indexes : List Index
  uniqueIndexes : List Index

namespace Table

def recordSize (t : Table) : Nat := (t.fields.map (·.len)).sum

def setRecord (t : Table) (rid : RID) (r : Option Record) : Table :=
  { t with records := Function.update t.records rid r }

/-- `set_record_trx_id` on a record of the file; there is nothing to mark if the RID is not live. -/
def setMark (t : Table) (rid : RID) (mark : Nat) : Table :=
  { t with records := Function.update t.records rid ((t.records rid).map fun r => { r with mark }) }

/-- `RecordFileHandler::update_record`: the copy has the mark of the record. -/
def setData (t : Table) (rid : RID) (data : Bytes) : Table :=
  { t with records := Function.update t.records rid ((t.records rid).map fun r => { r with data }) }

/-- `insert_entry_of_indexes`. The loop over the unique indexes runs whatever the first one found, and the code is its
    own. -/
def insertEntryOfIndexes (t : Table) (data : Bytes) (rid : RID) : RC × Table :=
  let (rc, indexes) := Index.insertEach data rid t.indexes
  let (rc', uniqueIndexes) := Index.insertEach data rid t.uniqueIndexes
  (if t.uniqueIndexes = [] then rc else rc', { t with indexes, uniqueIndexes })

/-- `delete_entry_of_indexes`. The unique indexes keep their entries. -/
def deleteEntryOfIndexes (t : Table) (data : Bytes) (rid : RID) (errorOnNotExists : Bool) : RC × Table :=
  let (rc, indexes) := Index.deleteEach data rid errorOnNotExists t.indexes .success
  (rc, { t with indexes })

/-- The records that a select without a transaction finds on the RIDs its scan meets: whether there is one with the
    value. -/
def selectHits (t : Table) (f : FieldMeta) (refersOuter : Bool) (v : Value) : List RID → Bool
  | [] => false
  | rid :: rids => match t.records rid with
    | none => false
    | some r => f.equals refersOuter v r.data || t.selectHits f refersOuter v rids

/-- `find_if_exist_unique_record`; `selects` is what the select on a field finds. -/
def findIfExistUniqueRecord (t : Table) (values : List Value) (selects : FieldMeta → UniqueSelect) : Bool :=
  (t.fields.zip values).any fun (f, v) => t.uniqueIndexes.any fun i =>
    decide (i.fields.head? = some f) && t.selectHits f (selects f).refersOuter v (selects f).rids

def makeRecord (t : Table) (values : List Value) (selects : FieldMeta → UniqueSelect) : Except RC Bytes :=
  if values.length ≠ t.fields.length then .error .schemaFieldMissing
  else match (t.fields.zip values).mapM fun (f, v) => f.checkValue v with
    | .error rc => .error rc
    | .ok values =>
      if t.findIfExistUniqueRecord values selects then .error .schemaIndexExist
      else .ok ((t.fields.zip values).foldl (fun data (f, v) => f.write data v) (List.replicate t.recordSize 0))

def rollbackInsert (t : Table) (rid : RID) : RC × Table :=
  match t.records rid with
  | none => (.recordRecordNotExist, t)
  | some r => match t.deleteEntryOfIndexes r.data rid false with
    | (.success, t) => (.success, t.setRecord rid none)
    | (rc, t) => (rc, t)

/-- `commit_insert`, `commit_update` and `commit_delete`. The last one goes on when an index has no entry. -/
def commitOperation (t : Table) (o : Operation) : Table :=
  match o.type with
  | .insert | .update => t.setMark o.rid 0
  | .delete => match t.records o.rid with
    | none => t
    | some r => (t.deleteEntryOfIndexes r.data o.rid false).2.setRecord o.rid none

/-- `Trx::rollback` on one operation. An update is an unknown operation to it. -/
def rollbackOperation (t : Table) (o : Operation) : Table :=
  match o.type with
  | .insert => (t.rollbackInsert o.rid).2
  | .delete => t.setMark o.rid 0
  | .update => t

end Table

/-! ### Statements -/

/-- What `RecordFileHandler::insert_record` does with a file: it returns the RID of a free slot, or fails. -/
structure FreeSlot where
  pick : (RID → Option Record) → Except RC RID
  fresh : ∀ {records rid}, pick records = .ok rid → records rid = none
  fails : ∀ {records rc}, pick records = .error rc → rc ≠ .success

def FreeSlot.at (rid : RID) : FreeSlot where
  pick records := if (records rid).isNone then .ok rid else .error .recordNomem
  fresh {records rid'} h := by
    split at h
    next free =>
      cases h
      exact Option.isNone_iff_eq_none.mp free
    next => cases h
  fails {records rc} h := by
    split at h
    next => cases h
    next =>
      cases h
      exact fun h => nomatch h

/-- The RIDs that a scan meets, in their order, and the code it ends with: `SUCCESS` at the end of an index or of a file
    whose last page is in use. -/
structure Scan where
  rids : List RID
  finish : RC

/-- What an insertion of one row meets: a slot, and what the selects for the unique indexes find. -/
structure RowContext where
  slot : FreeSlot
  selects : FieldMeta → UniqueSelect

/-- A table with the transaction that works on it and the counter behind `next_trx_id`. -/
structure TrxTable where
  table : Table
  trx : Trx
  lastId : Nat

namespace TrxTable

def insertRecord (w : TrxTable) (slot : FreeSlot) (data : Bytes) : Except RC RID × TrxTable :=
  match slot.pick w.table.records with
  | .error rc => (.error rc, w)
  | .ok rid =>
    let table := w.table.setRecord rid (some ⟨Trx.mark w.trx.trxId false, data⟩)
    match w.trx.insertRecord w.lastId rid with
    | (.success, trx, lastId) => match table.insertEntryOfIndexes data rid with
      | (.success, table) => (.ok rid, ⟨table, trx, lastId⟩)
      | (rc, table) => (.error rc, ⟨(table.deleteEntryOfIndexes data rid true).2.setRecord rid none, trx, lastId⟩)
    | (rc, trx, lastId) => (.error rc, ⟨table.setRecord rid none, trx, lastId⟩)

/-- The loop of `Table::insert_record` over the rows from row `i` on, with the RIDs of the rows before. -/
def insertRows (perSize : Nat) (values : List Value) (context : Nat → RowContext) :
    Nat → Nat → List RID → TrxTable → RC × List RID × TrxTable
  | 0, _, rids, w => (.success, rids, w)
  | n + 1, i, rids, w => match w.table.makeRecord ((values.drop (i * perSize)).take perSize) (context i).selects with
    | .error rc => (rc, rids, w)
    | .ok data => match w.insertRecord (context i).slot data with
      | (.error rc, w) => (rc, rids, w)
      | (.ok rid, w) => insertRows perSize values context n (i + 1) (rids ++ [rid]) w

def insert (w : TrxTable) (values : List Value) (context : Nat → RowContext) : RC × TrxTable :=
  let perSize := w.table.fields.length
  if values = [] then (.invalidArgument, w)
  else if values.length % perSize ≠ 0 then (.schemaFieldMissing, w)
  else
    let group := values.length / perSize
    match w.insertRows perSize values context group 0 [] with
    | (.success, _, w) => (.success, w)
    | (rc, rids, w) =>
      (rc, if 1 < group then { w with table := rids.foldl (fun t rid => (t.rollbackInsert rid).2) w.table } else w)

/-- The loop of `scan_record` and of `scan_record_by_index`, with the number of records that the reader has taken. -/
def scanLoop (filter : Bytes → Bool) (reader : TrxTable → RID → Record → RC × TrxTable) (finish : RC) :
    List RID → Nat → TrxTable → RC × Nat × TrxTable
  | [], count, w => (finish, count, w)
  | rid :: rids, count, w => match w.table.records rid with
    | none => (.recordRecordNotExist, count, w)
    | some r =>
      if Trx.isVisible w.trx.trxId r.mark && filter r.data then
        match reader w rid r with
        | (.success, w) => scanLoop filter reader finish rids (count + 1) w
        | (rc, w) => (rc, count, w)
      else scanLoop filter reader finish rids count w

def updateRecord (w : TrxTable) (rid : RID) (old new : Bytes) : RC × TrxTable :=
  match w.table.deleteEntryOfIndexes old rid false with
  | (.success, table) => match table.insertEntryOfIndexes new rid with
    | (.success, table) =>
      let (rc, trx, lastId) := w.trx.updateRecord w.lastId rid
      (rc, ⟨table.setData rid new, trx, lastId⟩)
    | (rc, table) => (rc, { w with table })
  | (rc, table) => (rc, { w with table })

def update (w : TrxTable) (scan : Scan) (filter : Bytes → Bool) (field : Option FieldMeta) (value : Value) :
    RC × Nat × TrxTable :=
  match field with
  | none => (.schemaFieldMissing, 0, w)
  | some f =>
    if (f.typeMatch value).1 = false then (.schemaFieldTypeMismatch, 0, w)
    else match (f.typeMatch value).2.validate with
      | .error rc => (rc, 0, w)
      | .ok value => w.scanLoop filter (fun w rid r => w.updateRecord rid r.data (f.overwrite r.data value))
          scan.finish scan.rids 0

def deleteRecord (w : TrxTable) (rid : RID) : RC × TrxTable :=
  let (trx, lastId) := w.trx.startIfNotStarted w.lastId
  match trx.deleteRids [rid] with
  | (.ok true, trx) => (.success, ⟨w.table.setMark rid (Trx.mark trx.trxId true), trx, lastId⟩)
  | (.ok false, trx) => (.success, ⟨w.table, trx, lastId⟩)
  | (.error rc, trx) => (rc, ⟨w.table, trx, lastId⟩)

def delete (w : TrxTable) (scan : Scan) (filter : Bytes → Bool) : RC × Nat × TrxTable :=
  w.scanLoop filter (fun w rid _ => w.deleteRecord rid) scan.finish scan.rids 0

def commit (w : TrxTable) (order : List Operation → List Operation) : TrxTable :=
  { w with table := (order w.trx.operations).foldl Table.commitOperation w.table, trx := ⟨0, []⟩ }

def rollback (w : TrxTable) (order : List Operation → List Operation) : TrxTable :=
  { w with table := (order w.trx.operations).foldl Table.rollbackOperation w.table, trx := ⟨0, []⟩ }

end TrxTable

end MiniOb
