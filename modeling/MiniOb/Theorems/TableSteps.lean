import MiniOb.Table.Table

/-! # What the calls of a table do

One statement for each call: which of the records, the two families of indexes and the operations of the transaction it
changes, and how. -/

namespace MiniOb
open Trx
variable {o : Operation} {filter : Bytes → Bool}

namespace Trx
variable {t : Trx} {rid : RID} {lastId : Nat}

theorem findOperation_eq_none : t.findOperation rid = none ↔ ∀ o ∈ t.operations, o.rid ≠ rid := by
  rw [findOperation, List.find?_eq_none]
  simp only [decide_eq_true_eq, ne_eq]

theorem findOperation_some (h : t.findOperation rid = some o) : o ∈ t.operations ∧ o.rid = rid := by
  refine ⟨List.mem_of_find?_eq_some h, ?_⟩
  simpa using List.find?_some h

@[simp] theorem startIfNotStarted_operations : (t.startIfNotStarted lastId).1.operations = t.operations := by
  unfold startIfNotStarted
  split
  · rfl
  · rfl

@[simp] theorem startIfNotStarted_findOperation :
    (t.startIfNotStarted lastId).1.findOperation rid = t.findOperation rid := by
  rw [findOperation, startIfNotStarted_operations, findOperation]

theorem startIfNotStarted_ne_zero : (t.startIfNotStarted lastId).1.trxId ≠ 0 := by
  unfold startIfNotStarted
  split
  next => exact Nat.succ_ne_zero _
  next h => exact h

theorem insertOperation_none (h : t.findOperation rid = none) (type : OperationType) :
    t.insertOperation type rid = { t with operations := t.operations ++ [⟨type, rid⟩] } := by
  rw [insertOperation, h]
  rfl

/-- The number of a transaction and the counter after a call: the same, or the next one if it had none. -/
def Advances (t : Trx) (lastId : Nat) (t' : Trx) (lastId' : Nat) : Prop :=
  (t'.trxId = t.trxId ∧ lastId' = lastId) ∨ (t.trxId = 0 ∧ t'.trxId = lastId + 1 ∧ lastId' = lastId + 1)

theorem startIfNotStarted_advances :
    t.Advances lastId (t.startIfNotStarted lastId).1 (t.startIfNotStarted lastId).2 := by
  unfold startIfNotStarted
  split
  next h => exact .inr ⟨h, rfl, rfl⟩
  next => exact .inl ⟨rfl, rfl⟩

/-- A call that puts a new operation into the transaction, starting it if need be. -/
def queue (t : Trx) (lastId : Nat) (type : OperationType) (rid : RID) : Trx :=
  { (t.startIfNotStarted lastId).1 with operations := t.operations ++ [⟨type, rid⟩] }

theorem Advances.refl (t : Trx) (lastId : Nat) : t.Advances lastId t lastId := .inl ⟨rfl, rfl⟩

theorem Advances.trans {t' t'' : Trx} {lastId' lastId'' : Nat} (first : t.Advances lastId t' lastId')
    (second : t'.Advances lastId' t'' lastId'') : t.Advances lastId t'' lastId'' := by
  rcases first with ⟨hid, rfl⟩ | ⟨hzero, hid, rfl⟩
  · rcases second with ⟨hid', rfl⟩ | ⟨hzero', hid', rfl⟩
    · exact .inl ⟨hid'.trans hid, rfl⟩
    · exact .inr ⟨hid.symm.trans hzero', hid', rfl⟩
  · rcases second with ⟨hid', rfl⟩ | ⟨hzero', -, -⟩
    · exact .inr ⟨hzero, hid'.trans hid, rfl⟩
    · rw [hid] at hzero'
      exact absurd hzero' (Nat.succ_ne_zero _)

theorem Advances.started {t' : Trx} {lastId' : Nat} (advances : t.Advances lastId t' lastId') (started : t.trxId ≠ 0) :
    t'.trxId = t.trxId :=
  advances.elim And.left fun h => absurd h.1 started

theorem queue_advances {t : Trx} {lastId : Nat} {type : OperationType} {rid : RID} :
    t.Advances lastId (t.queue lastId type rid) (t.startIfNotStarted lastId).2 := startIfNotStarted_advances

theorem insertRecord_none (h : t.findOperation rid = none) :
    t.insertRecord lastId rid = (.success, t.queue lastId .insert rid, (t.startIfNotStarted lastId).2) := by
  rw [insertRecord, h, if_neg (by simp)]
  dsimp only
  rw [insertOperation_none (by rw [startIfNotStarted_findOperation, h]), startIfNotStarted_operations]
  rfl

theorem insertRecord_some (h : t.findOperation rid ≠ none) :
    t.insertRecord lastId rid = (.genericError, t, lastId) := by
  rw [insertRecord, if_pos (Option.isSome_iff_ne_none.mpr h)]

theorem updateRecord_none (h : t.findOperation rid = none) :
    t.updateRecord lastId rid = (.success, t.queue lastId .update rid, (t.startIfNotStarted lastId).2) := by
  rw [updateRecord, h]
  dsimp only
  rw [insertOperation_none (by rw [startIfNotStarted_findOperation, h]), startIfNotStarted_operations]
  rfl

theorem updateRecord_some (h : t.findOperation rid = some o) (live : o.type ≠ .delete) :
    t.updateRecord lastId rid = (.success, t, lastId) := by
  obtain ⟨type, rid'⟩ := o
  rw [updateRecord, h]
  cases type with
  | insert => rfl
  | update => rfl
  | delete => exact absurd rfl live

theorem updateRecord_deleted (h : t.findOperation rid = some o) (deleted : o.type = .delete) :
    t.updateRecord lastId rid = (.genericError, t, lastId) := by
  obtain ⟨type, rid'⟩ := o
  cases deleted
  rw [updateRecord, h]

theorem updateRecord_steps (t : Trx) (lastId : Nat) (rid : RID) : (t.updateRecord lastId rid).2 = (t, lastId) ∨
    t.findOperation rid = none ∧ (t.updateRecord lastId rid).2 =
    (t.queue lastId .update rid, (t.startIfNotStarted lastId).2) := by
  cases h : t.findOperation rid with
  | none => exact .inr ⟨rfl, by rw [updateRecord_none h]⟩
  | some o =>
    by_cases deleted : o.type = .delete
    · exact .inl (by rw [updateRecord_deleted h deleted])
    · exact .inl (by rw [updateRecord_some h deleted])

theorem updateRecord_advances :
    t.Advances lastId (t.updateRecord lastId rid).2.1 (t.updateRecord lastId rid).2.2 := by
  rcases updateRecord_steps t lastId rid with h | ⟨-, h⟩
  · rw [h]
    exact .refl t lastId
  · rw [h]
    exact startIfNotStarted_advances

end Trx

namespace Table
variable (t : Table) (data : Bytes) (rid : RID)

@[simp] theorem setRecord_records (r : Option Record) : (t.setRecord rid r).records = Function.update t.records rid r :=
  rfl

@[simp] theorem insertEntryOfIndexes_records : (t.insertEntryOfIndexes data rid).2.records = t.records := rfl

@[simp] theorem deleteEntryOfIndexes_records (flag : Bool) :
    (t.deleteEntryOfIndexes data rid flag).2.records = t.records := rfl

@[simp] theorem deleteEntryOfIndexes_uniqueIndexes (flag : Bool) :
    (t.deleteEntryOfIndexes data rid flag).2.uniqueIndexes = t.uniqueIndexes := rfl

theorem setRecord_setRecord_none {t : Table} {rid : RID} (free : t.records rid = none) (r : Option Record) :
    (t.setRecord rid r).setRecord rid none = t := by
  unfold setRecord
  rw [Function.update_idem, ← free, Function.update_eq_self]

end Table

namespace TrxTable
variable {w : TrxTable} {slot : FreeSlot} {data : Bytes} {rid : RID}

def withRecord (w : TrxTable) (rid : RID) (data : Bytes) : Table :=
  w.table.setRecord rid (some ⟨mark w.trx.trxId false, data⟩)

theorem insertRecord_noSlot {rc : RC} (h : slot.pick w.table.records = .error rc) :
    w.insertRecord slot data = (.error rc, w) := by
  rw [insertRecord, h]

theorem insertRecord_pending (h : slot.pick w.table.records = .ok rid) (pending : w.trx.findOperation rid ≠ none) :
    w.insertRecord slot data = (.error .genericError, w) := by
  rw [insertRecord, h]
  dsimp only
  rw [insertRecord_some pending]
  dsimp only
  rw [Table.setRecord_setRecord_none (slot.fresh h)]

theorem insertRecord_free (h : slot.pick w.table.records = .ok rid) (free : w.trx.findOperation rid = none) :
    w.insertRecord slot data = match (w.withRecord rid data).insertEntryOfIndexes data rid with
      | (.success, table) => (.ok rid, ⟨table, w.trx.queue w.lastId .insert rid, (w.trx.startIfNotStarted w.lastId).2⟩)
      | (rc, table) => (.error rc, ⟨(table.deleteEntryOfIndexes data rid true).2.setRecord rid none,
          w.trx.queue w.lastId .insert rid, (w.trx.startIfNotStarted w.lastId).2⟩) := by
  rw [insertRecord, h]
  dsimp only
  rw [insertRecord_none free]
  rfl

/-- What an insertion can do: it fails and changes nothing; or the transaction has it, and it fails with its index
    entries and takes the record back, or it enters the record. -/
theorem insertRecord_cases (w : TrxTable) (slot : FreeSlot) (data : Bytes) :
    (∃ rc, w.insertRecord slot data = (.error rc, w) ∧ rc ≠ .success) ∨
    ∃ rid r table, slot.pick w.table.records = .ok rid ∧ w.trx.findOperation rid = none ∧ w.insertRecord slot data =
        (r, ⟨table, w.trx.queue w.lastId .insert rid, (w.trx.startIfNotStarted w.lastId).2⟩) ∧
      ((∃ rc, r = .error rc ∧ rc ≠ .success ∧ table.records = w.table.records) ∨
        r = .ok rid ∧ (w.withRecord rid data).insertEntryOfIndexes data rid = (.success, table) ∧
          table.records = (w.withRecord rid data).records) := by
  cases h : slot.pick w.table.records with
  | error rc => exact .inl ⟨rc, insertRecord_noSlot h, slot.fails h⟩
  | ok rid =>
    by_cases free : w.trx.findOperation rid = none
    · rw [insertRecord_free h free]
      rcases hins : (w.withRecord rid data).insertEntryOfIndexes data rid with ⟨rc, table⟩
      have hrecords : table.records = (w.withRecord rid data).records := by
        rw [← (w.withRecord rid data).insertEntryOfIndexes_records data rid, hins]
      by_cases hrc : rc = .success
      · subst hrc
        exact .inr ⟨rid, _, table, rfl, free, rfl, .inr ⟨rfl, hins, hrecords⟩⟩
      · refine .inr ⟨rid, .error rc, (table.deleteEntryOfIndexes data rid true).2.setRecord rid none, rfl, free, ?_,
          .inl ⟨rc, rfl, hrc, ?_⟩⟩
        · cases rc <;> first | rfl | exact absurd rfl hrc
        · rw [Table.setRecord_records, Table.deleteEntryOfIndexes_records, hrecords, withRecord,
            Table.setRecord_records, Function.update_idem, ← slot.fresh h, Function.update_eq_self]
    · exact .inl ⟨_, insertRecord_pending h free, by simp⟩

theorem insertRows_invariant {perSize : Nat} {values : List Value} {context : Nat → RowContext}
    (inv : List RID → TrxTable → Prop) (fails : ∀ w rids slot data rc w', inv rids w →
      w.insertRecord slot data = (.error rc, w') → inv rids w')
    (adds : ∀ w rids slot data rid w', inv rids w → w.insertRecord slot data = (.ok rid, w') → inv (rids ++ [rid]) w')
    {n : Nat} : ∀ {i : Nat} {rids : List RID} {w : TrxTable}, inv rids w →
      inv (w.insertRows perSize values context n i rids).2.1 (w.insertRows perSize values context n i rids).2.2 := by
  induction n with
  | zero => exact fun start => start
  | succ n ih =>
    intro i rids w start
    rw [insertRows]
    cases w.table.makeRecord ((values.drop (i * perSize)).take perSize) (context i).selects with
    | error rc => exact start
    | ok data =>
      dsimp only
      cases hins : w.insertRecord (context i).slot data with
      | mk r w' =>
        cases r with
        | error rc => exact fails w rids _ data rc w' start hins
        | ok rid => exact ih (adds w rids _ data rid w' start hins)

theorem insertRows_keeps {perSize : Nat} {values : List Value} {context : Nat → RowContext} (inv : TrxTable → Prop)
    (keep : ∀ w slot data, inv w → inv (w.insertRecord slot data).2) {n i : Nat} {rids : List RID} (start : inv w) :
    inv (w.insertRows perSize values context n i rids).2.2 := by
  refine insertRows_invariant (fun _ => inv) (fun w _ slot data rc w' h run => ?_)
    (fun w _ slot data rid w' h run => ?_) start
  · simpa only [run] using keep w slot data h
  · simpa only [run] using keep w slot data h

/-- The record that the scan of an update or a deletion reads: visible, and accepted by the filter. -/
def Reads (w : TrxTable) (filter : Bytes → Bool) (r : Record) : Prop :=
  isVisible w.trx.trxId r.mark = true ∧ filter r.data = true

instance (w : TrxTable) (filter : Bytes → Bool) (r : Record) : Decidable (w.Reads filter r) :=
  inferInstanceAs (Decidable (_ ∧ _))

theorem reads_iff_test {r : Record} :
    w.Reads filter r ↔ (isVisible w.trx.trxId r.mark && filter r.data) = true := by
  rw [Bool.and_eq_true]
  rfl

/-- No record is marked with the number that the transaction is going to draw. -/
def FreshId (w : TrxTable) : Prop :=
  w.trx.trxId = 0 → ∀ rid r, w.table.records rid = some r → r.mark % 2 ^ 31 ≠ w.lastId + 1

theorem isVisible_start {mark n : Nat} (hn : mark % 2 ^ 31 ≠ n) : isVisible n mark = isVisible 0 mark := by
  unfold isVisible
  by_cases hz : mark % 2 ^ 31 = 0
  · rw [if_pos (.inl hz), if_pos (.inl hz)]
  · rw [if_neg (not_or.mpr ⟨hz, hn⟩), if_neg (not_or.mpr ⟨hz, hz⟩)]

theorem FreshId.isVisible {w' : TrxTable} (fresh : w.FreshId) (advances : w.trx.Advances w.lastId w'.trx w'.lastId)
    {r : Record} (hrec : w.table.records rid = some r) :
    isVisible w'.trx.trxId r.mark = isVisible w.trx.trxId r.mark := by
  rcases advances with ⟨same, -⟩ | ⟨hzero, hstart, -⟩
  · rw [same]
  · rw [hstart, hzero]
    exact isVisible_start (fresh hzero rid r hrec)

theorem FreshId.reads_iff {w' : TrxTable} (fresh : w.FreshId) (advances : w.trx.Advances w.lastId w'.trx w'.lastId)
    {r : Record} (hrec : w.table.records rid = some r) : w'.Reads filter r ↔ w.Reads filter r := by
  unfold Reads
  rw [fresh.isVisible advances hrec]

theorem scanLoop_remaining {reader : TrxTable → RID → Record → RC × TrxTable} {finish : RC}
    (inv : List RID → TrxTable → Prop) (pass : ∀ w rid rids, inv (rid :: rids) w → inv rids w)
    (keep : ∀ w rid rids r, inv (rid :: rids) w → w.table.records rid = some r → w.Reads filter r →
      inv rids (reader w rid r).2) :
    ∀ {rids : List RID} {count : Nat} {w : TrxTable}, inv rids w →
      ∃ left, inv left (w.scanLoop filter reader finish rids count).2.2
  | [], _, _, start => ⟨[], start⟩
  | rid :: rids, count, w, start => by
    rw [scanLoop]
    cases hrec : w.table.records rid with
    | none => exact ⟨rid :: rids, start⟩
    | some r =>
      dsimp only
      split
      next reads =>
        have next := keep w rid rids r start hrec (reads_iff_test.mpr reads)
        cases hread : reader w rid r with
        | mk rc w' =>
          rw [hread] at next
          by_cases hrc : rc = .success
          · subst hrc
            exact scanLoop_remaining inv pass keep next
          · cases rc <;> first | exact ⟨rids, next⟩ | exact absurd rfl hrc
      next => exact scanLoop_remaining inv pass keep (pass w rid rids start)

theorem scanLoop_invariant {reader : TrxTable → RID → Record → RC × TrxTable} {finish : RC} (inv : TrxTable → Prop)
    (keep : ∀ w rid r, inv w → w.table.records rid = some r → w.Reads filter r → inv (reader w rid r).2)
    {rids : List RID} {count : Nat} {w : TrxTable} (start : inv w) :
    inv (w.scanLoop filter reader finish rids count).2.2 :=
  (scanLoop_remaining (fun _ => inv) (fun _ _ _ h => h) (fun w rid _ r => keep w rid r) start).elim fun _ final => final

theorem scanLoop_noHit {reader : TrxTable → RID → Record → RC × TrxTable} {finish : RC} :
    ∀ {rids : List RID} {count : Nat}, (∀ rid ∈ rids, ∀ r, w.table.records rid = some r → ¬w.Reads filter r) →
      (w.scanLoop filter reader finish rids count).2.2 = w
  | [], _, _ => rfl
  | rid :: rids, count, misses => by
    rw [scanLoop]
    cases hrec : w.table.records rid with
    | none => rfl
    | some r =>
      dsimp only
      rw [if_neg (mt reads_iff_test.mpr (misses rid List.mem_cons_self r hrec))]
      exact scanLoop_noHit fun x hx => misses x (List.mem_cons_of_mem rid hx)

/-- What an update can do: it fails with its index entries, before the record changes, or it changes the data of the
    record and the transaction answers. -/
theorem updateRecord_cases (w : TrxTable) (rid : RID) (old new : Bytes) :
    (∃ rc table, w.updateRecord rid old new = (rc, { w with table }) ∧ rc ≠ .success ∧
      table.records = w.table.records) ∨ ∃ table, w.updateRecord rid old new = ((w.trx.updateRecord w.lastId rid).1,
          ⟨table, (w.trx.updateRecord w.lastId rid).2.1, (w.trx.updateRecord w.lastId rid).2.2⟩) ∧
        table.records = Function.update w.table.records rid ((w.table.records rid).map fun r =>
          { r with data := new }) := by
  unfold updateRecord
  cases hdel : w.table.deleteEntryOfIndexes old rid false with
  | mk rc t =>
    have hrecords : t.records = w.table.records := by
      rw [← w.table.deleteEntryOfIndexes_records old rid false, hdel]
    by_cases hrc : rc = .success
    · subst hrc
      dsimp only
      cases hins : t.insertEntryOfIndexes new rid with
      | mk rc' t' =>
        have hrecords' : t'.records = w.table.records := by
          rw [← hrecords, ← t.insertEntryOfIndexes_records new rid, hins]
        by_cases hrc' : rc' = .success
        · subst hrc'
          refine .inr ⟨t'.setData rid new, rfl, ?_⟩
          unfold Table.setData
          dsimp only
          rw [hrecords']
        · refine .inl ⟨rc', t', ?_, hrc', hrecords'⟩
          cases rc' <;> first | rfl | exact absurd rfl hrc'
    · refine .inl ⟨rc, t, ?_, hrc, hrecords⟩
      cases rc <;> first | rfl | exact absurd rfl hrc

theorem updateRecord_success {old new : Bytes} (ok : (w.updateRecord rid old new).1 = .success) :
    (w.updateRecord rid old new).2.table.records =
        Function.update w.table.records rid ((w.table.records rid).map fun r => { r with data := new }) ∧
      w.trx.Advances w.lastId (w.updateRecord rid old new).2.trx (w.updateRecord rid old new).2.lastId := by
  rcases updateRecord_cases w rid old new with ⟨rc, table, heq, hrc, -⟩ | ⟨table, heq, hrecords⟩
  · rw [heq] at ok
    exact absurd ok hrc
  · rw [heq]
    exact ⟨hrecords, updateRecord_advances⟩

/-- An update is turned down with the table as it is, or its scan writes one value into the records that it reads. -/
theorem update_cases (w : TrxTable) (scan : Scan) (filter : Bytes → Bool) (field : Option FieldMeta) (value : Value) :
    (∃ rc, w.update scan filter field value = (rc, 0, w)) ∨ ∃ f v, field = some f ∧ (f.typeMatch value).1 ≠ false ∧
      (f.typeMatch value).2.validate = .ok v ∧ w.update scan filter field value =
        w.scanLoop filter (fun w rid r => w.updateRecord rid r.data (f.overwrite r.data v)) scan.finish
          scan.rids 0 := by
  unfold update
  split
  · exact .inl ⟨_, rfl⟩
  next f =>
    split
    · exact .inl ⟨_, rfl⟩
    next matched =>
      split
      · exact .inl ⟨_, rfl⟩
      next v valid => exact .inr ⟨f, v, rfl, matched, valid, rfl⟩

theorem deleteRecord_none (h : w.trx.findOperation rid = none) :
    w.deleteRecord rid = (.success, ⟨w.table.setMark rid (mark (w.trx.startIfNotStarted w.lastId).1.trxId true),
      w.trx.queue w.lastId .delete rid, (w.trx.startIfNotStarted w.lastId).2⟩) := by
  unfold deleteRecord deleteRids
  dsimp only
  rw [startIfNotStarted_findOperation, h]
  dsimp only
  rw [deleteRids, insertOperation_none (by rw [startIfNotStarted_findOperation, h]), startIfNotStarted_operations]
  rfl

/-- With an operation of the transaction on the record, nothing happens but that an insertion is taken out of it. -/
theorem deleteRecord_some (h : w.trx.findOperation rid = some o) :
    w.deleteRecord rid = (if o.type = .insert then .success else .genericError,
      ⟨w.table, { (w.trx.startIfNotStarted w.lastId).1 with
        operations := w.trx.operations.filter fun o' => decide (o.type = .insert → o'.rid ≠ rid) },
        (w.trx.startIfNotStarted w.lastId).2⟩) := by
  obtain ⟨type, rid'⟩ := o
  have hops : (w.trx.startIfNotStarted w.lastId).1.operations = w.trx.operations := startIfNotStarted_operations
  unfold deleteRecord deleteRids
  dsimp only
  rw [startIfNotStarted_findOperation, h, ← hops]
  cases type <;> simp [deleteOperation, -startIfNotStarted_operations]

end TrxTable

end MiniOb
