import MiniOb.Storage.Trx

/-! # Transaction numbers in 32 bits

`next_trx_id`, `set_record_trx_id` and `get_record_trx_id` on the words they are made of: an atomic counter that wraps,
and a mark that holds a number and the flag of a deletion. -/

namespace MiniOb

abbrev Word := BitVec 32

def deletedFlagBitMask : Word := 0x80000000#32

def trxIdBitMask : Word := 0x7FFFFFFF#32

def nextTrxId (counter : Word) : Word := counter + 1

def setRecordTrxId (trxId : Word) (deleted : Bool) : Word := if deleted then trxId ||| deletedFlagBitMask else trxId

def getRecordTrxId (mark : Word) : Word × Bool := (mark &&& trxIdBitMask, decide (mark &&& deletedFlagBitMask ≠ 0))

/-- A mark in a record: the transaction that has written it, by the number of its draw from 0, the flag it asked for,
    and the word. -/
structure RecordMark where
  trx : Nat
  deleted : Bool
  word : Word

/-- The counter, the numbers that the transactions have drawn, in order, and their marks in records. -/
structure TrxIds where
  counter : Word
  ids : List Word
  marks : List RecordMark

inductive TrxIdAct
  /-- `start_if_not_started` of a transaction that has no number. -/
  | start
  | write (trx : Nat) (deleted : Bool)
  /-- Commit or rollback: the marks of the transaction are gone. -/
  | settle (trx : Nat)
  deriving DecidableEq

namespace TrxIds

def init : TrxIds := ⟨0, [], []⟩

def step (s : TrxIds) : TrxIdAct → TrxIds
  | .start => { s with counter := nextTrxId s.counter, ids := s.ids ++ [nextTrxId s.counter] }
  | .write trx deleted => match s.ids[trx]? with
    | none => s
    | some trxId => { s with marks := s.marks ++ [⟨trx, deleted, setRecordTrxId trxId deleted⟩] }
  | .settle trx => { s with marks := s.marks.filter fun m => decide (m.trx ≠ trx) }

end TrxIds

end MiniOb
