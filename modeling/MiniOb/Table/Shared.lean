import MiniOb.Query.TupleValue
import MiniOb.Table.Table

/-! # A table with several transactions

The calls that change a table, `create_index` and `create_unique_index` among them, and the system of one table that any
number of transactions work on. -/

namespace MiniOb

/-- The value of a field, as `TupleRecordConverter::add_record` reads it. A string is read up to its terminator, and
    what is read behind the record, for a string without one or a column narrower than its value, is taken to be
    zeros. -/
def FieldMeta.tupleValue (f : FieldMeta) (data : Bytes) : TupleValue :=
  if f.nullable = true ∧ readInt (data.drop f.offset) ≠ 0 then .null
  else
    let value := data.drop (if f.nullable then f.offset + 4 else f.offset)
    match f.type with
    | .ints => .int (readInt value)
    | .floats => .float (readUInt value)
    | .chars => .string (cString value value.length)
    | .date => .date (readUInt value)
    | .undefined | .texts | .nulls => .null

def hasDuplicate : List TupleValue → Bool
  | [] => false
  | v :: vs => vs.any (fun v' => decide (v.compare v' = 0)) || hasDuplicate vs

namespace Table

/-- The scan in which `create_index` fills the new index with the records that its transaction sees. -/
def fillIndex (t : Table) (trxId : Nat) (finish : RC) : List RID → Index → RC × Index
  | [], i => (finish, i)
  | rid :: rids, i => match t.records rid with
    | none => (.recordRecordNotExist, i)
    | some r =>
      if Trx.isVisible trxId r.mark then
        match i.insertEntry r.data rid with
        | (.success, i) => t.fillIndex trxId finish rids i
        | (rc, i) => (rc, i)
      else t.fillIndex trxId finish rids i

def hasIndex (t : Table) (fields : List FieldMeta) : Bool :=
  (t.indexes ++ t.uniqueIndexes).any fun i => decide (i.fields = fields)

def createIndex (t : Table) (trxId : Nat) (fields : List FieldMeta) (scan : Scan) : RC × Table :=
  if fields = [] then (.invalidArgument, t)
  else if t.hasIndex fields then (.schemaIndexExist, t)
  else match t.fillIndex trxId scan.finish scan.rids ⟨fields, ∅⟩ with
    | (.success, i) => (.success, { t with indexes := t.indexes ++ [i] })
    | (rc, _) => (rc, t)

/-- `create_unique_index`. The values are compared first, in a select of the RIDs `selected` without a transaction. -/
def createUniqueIndex (t : Table) (trxId : Nat) (f : FieldMeta) (selected : List RID) (scan : Scan) : RC × Table :=
  if t.hasIndex [f] then (.schemaIndexExist, t)
  else if hasDuplicate (selected.filterMap fun rid => (t.records rid).map fun r => f.tupleValue r.data) then
    (.schemaIndexExist, t)
  else match t.fillIndex trxId scan.finish scan.rids ⟨[f], ∅⟩ with
    | (.success, i) => (.success, { t with uniqueIndexes := t.uniqueIndexes ++ [i] })
    | (rc, _) => (rc, t)

/-- `insert_record` of one row without a transaction, as `load_data` calls it. -/
def loadRow (t : Table) (values : List Value) (context : RowContext) : Table :=
  match t.makeRecord values context.selects with
  | .error _ => t
  | .ok data => match context.slot.pick t.records with
    | .error _ => t
    | .ok rid => match (t.setRecord rid (some ⟨0, data⟩)).insertEntryOfIndexes data rid with
      | (.success, t) => t
      | (_, t) => (t.deleteEntryOfIndexes data rid true).2.setRecord rid none

end Table

/-- A call of a table that may change it, with what the file and the indexes answer. -/
inductive TableCall
  | insert (values : List Value) (context : Nat → RowContext)
  | update (scan : Scan) (filter : Bytes → Bool) (field : Option FieldMeta) (value : Value)
  | delete (scan : Scan) (filter : Bytes → Bool)
  | createIndex (fields : List FieldMeta) (scan : Scan)
  | createUniqueIndex (field : FieldMeta) (selected : List RID) (scan : Scan)

def TrxTable.call (w : TrxTable) : TableCall → RC × TrxTable
  | .insert values context => w.insert values context
  | .update scan filter field value => let (rc, _, w) := w.update scan filter field value; (rc, w)
  | .delete scan filter => let (rc, _, w) := w.delete scan filter; (rc, w)
  | .createIndex fields scan =>
    let (rc, table) := w.table.createIndex w.trx.trxId fields scan
    (rc, { w with table })
  | .createUniqueIndex field selected scan =>
    let (rc, table) := w.table.createUniqueIndex w.trx.trxId field selected scan
    (rc, { w with table })

/-- The order in which `commit` and `rollback` find the operations of a transaction. -/
structure OperationOrder where
  order : List Operation → List Operation
  perm : ∀ operations, (order operations).Perm operations

def OperationOrder.inOrder : OperationOrder := ⟨id, fun _ => .refl _⟩

/-- A table, the transactions that work on it and the counter behind `next_trx_id`. -/
structure SharedTable where
  table : Table
  trxs : Nat → Trx
  lastId : Nat

namespace SharedTable

def view (s : SharedTable) (who : Nat) : TrxTable := ⟨s.table, s.trxs who, s.lastId⟩

def put (s : SharedTable) (who : Nat) (w : TrxTable) : SharedTable :=
  ⟨w.table, Function.update s.trxs who w.trx, w.lastId⟩

inductive Act
  | call (c : TableCall)
  | commit (order : OperationOrder)
  | rollback (order : OperationOrder)

/-- One transaction does something: the code and the table. `commit` and `rollback` go on after an operation that
    fails. -/
def perform (w : TrxTable) : Act → RC × TrxTable
  | .call c => w.call c
  | .commit order => (.success, w.commit order.order)
  | .rollback order => (.success, w.rollback order.order)

def step (s : SharedTable) (move : Nat × Act) : SharedTable := s.put move.1 (perform (s.view move.1) move.2).2

def empty (fields : List FieldMeta) : SharedTable := ⟨⟨fields, fun _ => none, [], []⟩, fun _ => ⟨0, []⟩, 0⟩

end SharedTable

end MiniOb
