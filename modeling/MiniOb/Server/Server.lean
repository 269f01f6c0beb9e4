import MiniOb.Table.Shared

/-! # Sessions and their statements

`Session` with its `Trx`, the statements that `ExecuteStage` and `DefaultStorageStage` carry out for it, and
`Server::close_connection`. Tables and sessions are numbered. -/

namespace MiniOb
open Function

/-- `Session` with its `Trx`: the operations are those on each table. A session that is closed keeps what its
    transaction was when it was deleted. -/
structure Session where
  trxId : Nat
  operations : Nat → List Operation
  multi : Bool
  closed : Bool

structure Server where
  tables : Nat → Table
  sessions : Nat → Session
  lastId : Nat

/-- A statement, with what it meets. A select is carried out apart from the tables; `other` is any other statement that
    changes no table, or whose table does not exist, with its code. -/
inductive Statement
  | call (table : Nat) (c : TableCall)
  | createTable (table : Nat) (fields : List FieldMeta)
  | dropTable (table : Nat) (removed : Bool)
  | loadData (table : Nat) (rows : List (List Value × RowContext))
  | select (allRight : Bool)
  | other (rc : RC)
  | begin
  | commit
  | rollback

/-- What happens at a connection. With a statement comes the order in which a commit or a rollback finds the
    operations. -/
inductive Event
  | statement (s : Statement) (order : Nat → OperationOrder)
  | close

namespace Server

def view (s : Server) (who table : Nat) : TrxTable :=
  ⟨s.tables table, ⟨(s.sessions who).trxId, (s.sessions who).operations table⟩, s.lastId⟩

def put (s : Server) (who table : Nat) (w : TrxTable) : Server where
  tables := update s.tables table w.table
  sessions := update s.sessions who { s.sessions who with
    trxId := w.trx.trxId, operations := update (s.sessions who).operations table w.trx.operations }
  lastId := w.lastId

def commit (s : Server) (who : Nat) (order : Nat → OperationOrder) : Server where
  tables := fun k => ((order k).order ((s.sessions who).operations k)).foldl Table.commitOperation (s.tables k)
  sessions := update s.sessions who { s.sessions who with trxId := 0, operations := fun _ => [] }
  lastId := s.lastId

def rollback (s : Server) (who : Nat) (order : Nat → OperationOrder) : Server where
  tables := fun k => ((order k).order ((s.sessions who).operations k)).foldl Table.rollbackOperation (s.tables k)
  sessions := update s.sessions who { s.sessions who with trxId := 0, operations := fun _ => [] }
  lastId := s.lastId

def setMulti (s : Server) (who : Nat) (multi : Bool) : Server :=
  { s with sessions := update s.sessions who { s.sessions who with multi } }

def setTable (s : Server) (k : Nat) (t : Table) : Server := { s with tables := update s.tables k t }

/-- The end of `DefaultStorageStage::handle_event`: a statement that succeeds outside the multi-operation mode is
    committed, one that fails is not rolled back. -/
def finish (s : Server) (who : Nat) (order : Nat → OperationOrder) (rc : RC) : Server :=
  if rc = .success ∧ (s.sessions who).multi = false then s.commit who order else s

def endTrxIfNeed (s : Server) (who : Nat) (order : Nat → OperationOrder) (allRight : Bool) : Server :=
  if (s.sessions who).multi = false then
    if allRight then s.commit who order else s.rollback who order
  else s

def execute (s : Server) (who : Nat) (order : Nat → OperationOrder) : Statement → Server
  | .call table c =>
    let (rc, w) := (s.view who table).call c
    (s.put who table w).finish who order rc
  | .createTable table fields => (s.setTable table ⟨fields, fun _ => none, [], []⟩).finish who order .success
  | .dropTable table removed =>
    (s.setTable table ⟨[], fun _ => none, [], []⟩).finish who order (if removed then .success else .ioerr)
  | .loadData table rows =>
    (s.setTable table (rows.foldl (fun t row => t.loadRow row.1 row.2) (s.tables table))).finish who order .success
  | .select allRight => s.endTrxIfNeed who order allRight
  | .other rc => s.finish who order rc
  | .begin => s.setMulti who true
  | .commit => (s.commit who order).setMulti who false
  | .rollback => (s.rollback who order).setMulti who false

/-- `close_connection`: the session is deleted, and its `Trx` with it, which does nothing. -/
def closeConnection (s : Server) (who : Nat) : Server :=
  { s with sessions := update s.sessions who { s.sessions who with closed := true } }

def step (s : Server) (event : Nat × Event) : Server :=
  if (s.sessions event.1).closed then s
  else match event.2 with
    | .statement st order => s.execute event.1 order st
    | .close => s.closeConnection event.1

end Server

end MiniOb
