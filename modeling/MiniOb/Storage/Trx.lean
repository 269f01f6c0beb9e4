import MiniOb.Types

/-! # Transactions

The marks and the operations of `trx.cpp`. The first four bytes of a record are its mark: the number of the transaction
that has changed it, 0 if that has committed, and a flag for a deletion that has not. -/

namespace MiniOb

inductive OperationType
  | insert
  | update
  | delete
  deriving DecidableEq, Repr

structure Operation where
  type : OperationType
  rid : RID
  deriving DecidableEq, Repr

/-- A `Trx`, for one table. Operations are hashed and compared by their RID only, so the set has one for each RID; the
    list holds them in the order in which they came in, which is not the order in which `commit` and `rollback` find
    them. -/
structure Trx where
  trxId : Nat
  operations : List Operation

namespace Trx

def mark (trxId : Nat) (deleted : Bool) : Nat := if deleted then trxId % 2 ^ 31 + 2 ^ 31 else trxId % 2 ^ 32

def isVisible (trxId mark : Nat) : Bool :=
  if mark % 2 ^ 31 = 0 ∨ mark % 2 ^ 31 = trxId then decide (mark < 2 ^ 31) else decide (2 ^ 31 ≤ mark)

def findOperation (t : Trx) (rid : RID) : Option Operation := t.operations.find? fun o => decide (o.rid = rid)

/-- `insert_operation`; an operation of the same RID stays. -/
def insertOperation (t : Trx) (type : OperationType) (rid : RID) : Trx :=
  if (t.findOperation rid).isSome then t else { t with operations := t.operations ++ [⟨type, rid⟩] }

def deleteOperation (t : Trx) (rid : RID) : Trx :=
  { t with operations := t.operations.filter fun o => decide (o.rid ≠ rid) }

/-- `start_if_not_started`; `lastId` is the counter behind `next_trx_id`, which does not wrap here. -/
def startIfNotStarted (t : Trx) (lastId : Nat) : Trx × Nat :=
  if t.trxId = 0 then ({ t with trxId := lastId + 1 }, lastId + 1) else (t, lastId)

/-- The loop of `delete_record` over the RIDs of the record, and whether the record is marked at its end. -/
def deleteRids (t : Trx) : List RID → Except RC Bool × Trx
  | [] => (.ok true, t)
  | rid :: rids => match t.findOperation rid with
    | some ⟨.insert, _⟩ => (.ok false, t.deleteOperation rid)
    | some _ => (.error .genericError, t)
    | none => (t.insertOperation .delete rid).deleteRids rids

/-- `Trx::insert_record`. The record is not marked here: `init_trx_info` has done that before the transaction
    started. -/
def insertRecord (t : Trx) (lastId : Nat) (rid : RID) : RC × Trx × Nat :=
  if (t.findOperation rid).isSome then (.genericError, t, lastId)
  else
    let (t, lastId) := t.startIfNotStarted lastId
    (.success, t.insertOperation .insert rid, lastId)

/-- `Trx::update_record`. It marks the record it gets, which is the caller's copy. -/
def updateRecord (t : Trx) (lastId : Nat) (rid : RID) : RC × Trx × Nat :=
  match t.findOperation rid with
  | some ⟨.delete, _⟩ => (.genericError, t, lastId)
  | some _ => (.success, t, lastId)
  | none =>
    let (t, lastId) := t.startIfNotStarted lastId
    (.success, t.insertOperation .update rid, lastId)

end Trx

end MiniOb
