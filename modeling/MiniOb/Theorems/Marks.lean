import MiniOb.Theorems.IndexSync

/-! # Marks and operations

An insertion or a deletion leaves an operation with each mark it writes, and commit and rollback clear the marks of the
operations they find. -/

namespace MiniOb
open List Trx Function

def Record.trxId (r : Record) : Nat := r.mark % 2 ^ 31

namespace Trx
variable {t : Trx} {rid : RID} {lastId n : Nat}

theorem mark_number (small : n < 2 ^ 31) (deleted : Bool) : mark n deleted % 2 ^ 31 = n := by
  unfold mark
  cases deleted with
  | true =>
    rw [if_pos rfl, Nat.add_mod_right, Nat.mod_mod]
    exact Nat.mod_eq_of_lt small
  | false =>
    rw [if_neg Bool.false_ne_true, Nat.mod_mod_of_dvd n (by decide)]
    exact Nat.mod_eq_of_lt small

theorem isVisible_deleted (small : n < 2 ^ 31) : isVisible n (mark n true) = false := by
  unfold isVisible
  rw [if_pos (.inr (mark_number small true))]
  exact decide_eq_false (Nat.not_lt.mpr (Nat.le_add_left _ _))

/-- The transaction has an operation for the record other than an update. -/
def Holds (t : Trx) (rid : RID) : Prop := ∃ o ∈ t.operations, o.rid = rid ∧ o.type ≠ .update

theorem Holds.mono {t' : Trx} (holds : t.Holds rid) (grow : ∀ o ∈ t.operations, o ∈ t'.operations) : t'.Holds rid := by
  obtain ⟨o, ho, hrest⟩ := holds
  exact ⟨o, grow o ho, hrest⟩

theorem mem_queue {o : Operation} {type : OperationType} :
    o ∈ (t.queue lastId type rid).operations ↔ o ∈ t.operations ∨ o = ⟨type, rid⟩ := by
  unfold queue
  rw [mem_append, mem_singleton]

theorem updateRecord_operations (t : Trx) (lastId : Nat) (rid : RID) :
    (t.updateRecord lastId rid).2.1.operations = t.operations ∨
      (t.updateRecord lastId rid).2.1.operations = t.operations ++ [⟨.update, rid⟩] := by
  rcases updateRecord_steps t lastId rid with h | ⟨-, h⟩
  · exact .inl (by rw [h])
  · exact .inr (by rw [h]; rfl)

end Trx

namespace TrxTable
variable {w w' : TrxTable} {rid : RID} {r : Record} {foreign : RID → Nat → Prop} {t : Table}

/-- Every number in a mark belongs to the transaction, which then holds the record, or to another one. -/
def Owned (foreign : RID → Nat → Prop) (w : TrxTable) : Prop :=
  ∀ rid r, w.table.records rid = some r → r.trxId ≠ 0 →
    (r.trxId = w.trx.trxId ∧ w.trx.Holds rid) ∨ foreign rid r.trxId

/-- The number of the transaction, or the one it gets when it starts, leaves the bit of the flag free. -/
def InRange (w : TrxTable) : Prop := w.trx.trxId < 2 ^ 31 ∧ (w.trx.trxId = 0 → w.lastId + 1 < 2 ^ 31)

theorem InRange.advances {w w' : TrxTable} (range : w.InRange) (advances : w.trx.Advances w.lastId w'.trx w'.lastId) :
    w'.InRange := by
  rcases advances with ⟨hid, hlast⟩ | ⟨hzero, hid, -⟩
  · rw [InRange, hid, hlast]
    exact range
  · refine ⟨by rw [hid]; exact range.2 hzero, fun h => ?_⟩
    rw [hid] at h
    exact absurd h (Nat.succ_ne_zero _)

structure Kept (foreign : RID → Nat → Prop) (w w' : TrxTable) : Prop where
  owned : w'.Owned foreign
  advances : w.trx.Advances w.lastId w'.trx w'.lastId

section
variable (owned : w.Owned foreign)
include owned

theorem Kept.refl : Kept foreign w w := ⟨owned, .refl _ _⟩

omit owned in
theorem Kept.trans {w'' : TrxTable} (first : Kept foreign w w') (second : Kept foreign w' w'') : Kept foreign w w'' :=
  ⟨second.owned, first.advances.trans second.advances⟩

theorem Owned.transfer (w' : TrxTable) (advances : w.trx.Advances w.lastId w'.trx w'.lastId)
    (grow : ∀ o ∈ w.trx.operations, o ∈ w'.trx.operations) (live : w.table.records rid = some r)
    (marked : r.trxId ≠ 0) : (r.trxId = w'.trx.trxId ∧ w'.trx.Holds rid) ∨ foreign rid r.trxId := by
  rcases owned rid r live marked with ⟨own, holds⟩ | other
  · rw [own] at marked
    exact .inl ⟨own.trans (advances.started marked).symm, holds.mono grow⟩
  · exact .inr other

theorem Owned.of_sub
    (sub : ∀ rid r, t.records rid = some r → w.table.records rid = some r) : Owned foreign { w with table := t } :=
  fun rid r live => owned rid r (sub rid r live)

theorem insertRecord_kept (range : w.InRange) (slot : FreeSlot) (data : Bytes) :
    Kept foreign w (w.insertRecord slot data).2 := by
  rcases insertRecord_cases w slot data with ⟨rc, heq, -⟩ | ⟨rid, result, table, -, -, heq, hrecords⟩
  · rw [heq]
    exact .refl owned
  · rw [heq]
    refine ⟨fun x r live marked => ?_, queue_advances⟩
    have transfer (old : w.table.records x = some r) := owned.transfer ⟨table, w.trx.queue w.lastId .insert rid, _⟩
      queue_advances (fun o ho => mem_queue.mpr (.inl ho)) old marked
    rcases hrecords with ⟨_, -, -, hsame⟩ | ⟨-, -, hnew⟩
    · exact transfer (hsame ▸ live)
    · dsimp only at live
      rw [hnew, withRecord, Table.setRecord_records, update_apply] at live
      split at live
      next hx =>
        cases live
        -- The new record is marked with the number that the transaction has before it starts.
        have hid : Record.trxId ⟨mark w.trx.trxId false, data⟩ = w.trx.trxId := mark_number range.1 false
        rw [hid] at marked ⊢
        exact .inl ⟨(queue_advances.started marked).symm, ⟨.insert, rid⟩, mem_queue.mpr (.inr rfl), hx.symm, by simp⟩
      next => exact transfer live

omit owned in
theorem rollbackInsert_sub (x : RID) (live : (t.rollbackInsert rid).2.records x = some r) : t.records x = some r := by
  unfold Table.rollbackInsert at live
  split at live
  · exact live
  · split at live
    next table hdel =>
      have hrecords : table.records = t.records := by
        rw [← t.deleteEntryOfIndexes_records _ rid false, hdel]
      dsimp only [Table.setRecord] at live
      rw [update_apply, hrecords] at live
      split at live
      next => cases live
      next => exact live
    next rc table _ hdel =>
      rw [← t.deleteEntryOfIndexes_records _ rid false, hdel]
      exact live

omit owned in
theorem rollbackInserts_sub : ∀ {rids : List RID} {t : Table} (x : RID),
    (rids.foldl (fun t rid => (t.rollbackInsert rid).2) t).records x = some r → t.records x = some r
  | [], _, _, live => live
  | _ :: _, _, x, live => rollbackInsert_sub x (rollbackInserts_sub x live)

theorem insert_kept (range : w.InRange) (values : List Value) (context : Nat → RowContext) :
    Kept foreign w (w.insert values context).2 := by
  unfold insert
  dsimp only
  split
  · exact .refl owned
  split
  · exact .refl owned
  · have rows : Kept foreign w
        (w.insertRows w.table.fields.length values context (values.length / w.table.fields.length) 0 []).2.2 :=
      insertRows_keeps (Kept foreign w) (fun w' slot data kept =>
        kept.trans (insertRecord_kept kept.owned (range.advances kept.advances) slot data)) (.refl owned)
    split
    next rids w' hrows =>
      rw [hrows] at rows
      exact rows
    next rc rids w' _ hrows =>
      rw [hrows] at rows
      split
      · exact ⟨rows.owned.of_sub fun x r live => rollbackInserts_sub x live, rows.advances⟩
      · exact rows

theorem updateRecord_kept (old new : Bytes) : Kept foreign w (w.updateRecord rid old new).2 := by
  rcases updateRecord_cases w rid old new with ⟨rc, table, heq, -, hrecords⟩ | ⟨table, heq, hrecords⟩
  · rw [heq]
    exact ⟨owned.of_sub fun x r live => by rw [← hrecords]; exact live, .refl _ _⟩
  · rw [heq]
    have grow : ∀ o ∈ w.trx.operations, o ∈ (w.trx.updateRecord w.lastId rid).2.1.operations := by
      intro o ho
      rcases updateRecord_operations w.trx w.lastId rid with hops | hops
      · rw [hops]
        exact ho
      · rw [hops]
        exact mem_append_left _ ho
    refine ⟨fun x r live marked => ?_, updateRecord_advances⟩
    rw [hrecords, update_apply] at live
    split at live
    next hx =>
      obtain ⟨r', live', rfl⟩ := Option.map_eq_some_iff.mp live
      subst hx
      have transferred := owned.transfer ⟨table, _, _⟩ updateRecord_advances grow live' marked
      exact transferred
    next => exact owned.transfer ⟨table, _, _⟩ updateRecord_advances grow live marked

theorem deleteRecord_kept (range : w.InRange)
    (unmarked : ∀ o ∈ w.trx.operations, o.rid = rid → o.type = .insert → ∀ r, w.table.records rid = some r →
      r.trxId = 0) :
    Kept foreign w (w.deleteRecord rid).2 := by
  cases h : w.trx.findOperation rid with
  | none =>
    rw [deleteRecord_none h]
    refine ⟨fun x r live marked => ?_, queue_advances⟩
    have grow : ∀ o ∈ w.trx.operations, o ∈ (w.trx.queue w.lastId .delete rid).operations :=
      fun o ho => mem_queue.mpr (.inl ho)
    dsimp only [Table.setMark] at live
    rw [update_apply] at live
    split at live
    next hx =>
      obtain ⟨r', -, rfl⟩ := Option.map_eq_some_iff.mp live
      have started : InRange ⟨w.table, (w.trx.startIfNotStarted w.lastId).1, (w.trx.startIfNotStarted w.lastId).2⟩ :=
        range.advances startIfNotStarted_advances
      exact .inl ⟨mark_number started.1 true, ⟨.delete, rid⟩, mem_queue.mpr (.inr rfl), hx.symm, by simp⟩
    next => exact owned.transfer ⟨w.table, _, _⟩ queue_advances grow live marked
  | some o =>
    obtain ⟨ho, horid⟩ := findOperation_some h
    rw [deleteRecord_some h]
    refine ⟨fun x r live marked => ?_, startIfNotStarted_advances⟩
    rcases owned.transfer ⟨w.table, _, _⟩ startIfNotStarted_advances
      (fun o ho => by rw [startIfNotStarted_operations]; exact ho)
      live marked with ⟨own, o', ho', horid', htype⟩ | other
    · rw [startIfNotStarted_operations] at ho'
      refine .inl ⟨own, o', mem_filter.mpr ⟨ho', decide_eq_true fun inserted hx => ?_⟩, horid', htype⟩
      rw [← hx, horid'] at unmarked horid
      exact marked (unmarked o ho horid inserted r live)
    · exact .inr other

theorem update_kept (scan : Scan) (filter : Bytes → Bool) (field : Option FieldMeta) (value : Value) :
    Kept foreign w (w.update scan filter field value).2.2 := by
  rcases update_cases w scan filter field value with ⟨rc, heq⟩ | ⟨f, v, -, -, -, heq⟩ <;> rw [heq]
  · exact .refl owned
  · refine scanLoop_invariant (fun w' => Kept foreign w w') (fun w' rid r kept _ _ => ?_) (.refl owned)
    exact kept.trans (updateRecord_kept kept.owned _ _)

end

/-- No record that the filter accepts has both a mark and a pending insertion of the transaction. -/
def Unmarked (w : TrxTable) (filter : Bytes → Bool) : Prop :=
  ∀ o ∈ w.trx.operations, o.type = .insert → ∀ r, w.table.records o.rid = some r → filter r.data = true → r.trxId = 0

/-- The insertions that are pending in the course of a deletion were so before, and their records have not changed. -/
def InsertsSame (w w' : TrxTable) : Prop :=
  ∀ o ∈ w'.trx.operations, o.type = .insert → o ∈ w.trx.operations ∧ w'.table.records o.rid = w.table.records o.rid

theorem InsertsSame.deleteRecord (same : InsertsSame w w') (rid : RID) : InsertsSame w (w'.deleteRecord rid).2 := by
  cases h : w'.trx.findOperation rid with
  | none =>
    rw [deleteRecord_none h]
    intro o ho inserted
    rcases mem_queue.mp ho with ho | rfl
    · obtain ⟨hmem, hsame⟩ := same o ho inserted
      refine ⟨hmem, ?_⟩
      dsimp only [Table.setMark]
      rw [update_of_ne (findOperation_eq_none.mp h o ho)]
      exact hsame
    · cases inserted
  | some o =>
    rw [deleteRecord_some h]
    exact fun o' ho' => same o' (mem_filter.mp ho').1

theorem delete_kept {filter : Bytes → Bool} (owned : w.Owned foreign) (range : w.InRange) (unmarked : w.Unmarked filter)
    (scan : Scan) : Kept foreign w (w.delete scan filter).2.2 := by
  refine (scanLoop_invariant (fun w' => Kept foreign w w' ∧ InsertsSame w w') ?_
    ⟨.refl owned, fun o ho _ => ⟨ho, rfl⟩⟩).1
  rintro w' rid r ⟨kept, same⟩ live reads
  refine ⟨kept.trans (deleteRecord_kept kept.owned (range.advances kept.advances) ?_), same.deleteRecord rid⟩
  rintro o ho rfl inserted r' live'
  obtain ⟨hmem, hsame⟩ := same o ho inserted
  rw [live] at live'
  cases live'
  exact unmarked o hmem inserted r (hsame ▸ live) reads.2

/-- What a call must meet to keep the marks in hand: only a deletion can lose one. -/
def Accountable (w : TrxTable) : TableCall → Prop
  | .delete _ filter => w.Unmarked filter
  | .insert _ _ | .update _ _ _ _ | .createIndex _ _ | .createUniqueIndex _ _ _ => True

theorem createIndex_records {trxId : Nat} {fields : List FieldMeta} {scan : Scan} :
    (t.createIndex trxId fields scan).2.records = t.records := by
  unfold Table.createIndex
  split
  · rfl
  split
  · rfl
  split
  · rfl
  · rfl

theorem createUniqueIndex_records {trxId : Nat} {f : FieldMeta} {selected : List RID} {scan : Scan} :
    (t.createUniqueIndex trxId f selected scan).2.records = t.records := by
  unfold Table.createUniqueIndex
  split
  · rfl
  split
  · rfl
  split
  · rfl
  · rfl

theorem call_kept {c : TableCall} (owned : w.Owned foreign) (range : w.InRange) (accountable : w.Accountable c) :
    Kept foreign w (w.call c).2 := by
  cases c with
  | insert values context => exact insert_kept owned range values context
  | update scan filter field value => exact update_kept owned scan filter field value
  | delete scan filter => exact delete_kept owned range accountable scan
  | createIndex fields scan =>
    have same : (w.table.createIndex w.trx.trxId fields scan).2.records = w.table.records := createIndex_records
    exact ⟨owned.of_sub fun x r live => same ▸ live, .refl _ _⟩
  | createUniqueIndex f selected scan =>
    have same : (w.table.createUniqueIndex w.trx.trxId f selected scan).2.records = w.table.records :=
      createUniqueIndex_records
    exact ⟨owned.of_sub fun x r live => same ▸ live, .refl _ _⟩

end TrxTable

namespace Table
variable {t : Table} {x : RID} {r : Record} {operations : List Operation}

theorem setMark_cleared {rid : RID} (live : (t.setMark rid 0).records x = some r) (marked : r.trxId ≠ 0) :
    t.records x = some r ∧ rid ≠ x := by
  dsimp only [setMark] at live
  rw [update_apply] at live
  split at live
  next =>
    obtain ⟨r', -, rfl⟩ := Option.map_eq_some_iff.mp live
    exact absurd rfl marked
  next hx => exact ⟨live, fun h => hx h.symm⟩

theorem commit_cleared : ∀ {operations : List Operation} {t : Table},
    (operations.foldl commitOperation t).records x = some r → r.trxId ≠ 0 →
      t.records x = some r ∧ ∀ o ∈ operations, o.rid = x → o.type = .update
  | [], _, live, _ => ⟨live, fun _ ho => absurd ho not_mem_nil⟩
  | o :: operations, t, live, marked => by
    rw [foldl_cons] at live
    obtain ⟨live, rest⟩ := commit_cleared live marked
    have one : t.records x = some r ∧ o.rid ≠ x := by
      obtain ⟨type, rid⟩ := o
      cases type with
      | insert => exact setMark_cleared live marked
      | update => exact setMark_cleared live marked
      | delete =>
        dsimp only [commitOperation] at live
        split at live
        next dead =>
          refine ⟨live, ?_⟩
          rintro rfl
          rw [dead] at live
          cases live
        next =>
          dsimp only [setRecord] at live
          rw [update_apply, deleteEntryOfIndexes_records] at live
          split at live
          next => cases live
          next hx => exact ⟨live, fun h => hx h.symm⟩
    refine ⟨one.1, fun o' ho' horid => ?_⟩
    rcases mem_cons.mp ho' with rfl | ho'
    · exact absurd horid one.2
    · exact rest o' ho' horid

/-- The regular indexes have the entries of the records that the operations insert. -/
def Undoable (t : Table) (operations : List Operation) : Prop :=
  ∀ o ∈ operations, o.type = .insert → ∀ r, t.records o.rid = some r → ∀ i ∈ t.indexes,
    (i.key r.data, o.rid) ∈ i.entries

theorem Undoable.setMark (undoable : t.Undoable operations) (rid : RID) (mark : Nat) :
    (t.setMark rid mark).Undoable operations := by
  intro o ho inserted r live i hi
  have hdata := setMark_data t rid mark o.rid
  rw [live, Option.map_some] at hdata
  obtain ⟨r', live', hdata'⟩ := Option.map_eq_some_iff.mp hdata.symm
  rw [← hdata']
  exact undoable o ho inserted r' live' i hi

theorem Undoable.without (undoable : t.Undoable operations) (rid : RID) (data : Bytes) :
    (t.without rid data).Undoable operations := by
  intro o ho inserted r live i hi
  obtain ⟨j, hj, rfl⟩ := mem_map.mp hi
  dsimp only [Table.without] at live
  rw [update_apply] at live
  split at live
  next => cases live
  next hx =>
    refine Finset.mem_erase.mpr ⟨fun h => hx ?_, undoable o ho inserted r live j hj⟩
    exact congrArg Prod.snd h

theorem Undoable.rollbackOperation {o : Operation} (undoable : t.Undoable (o :: operations)) :
    (t.rollbackOperation o).Undoable operations ∧ ∀ x r, (t.rollbackOperation o).records x = some r → r.trxId ≠ 0 →
      t.records x = some r ∧ (o.rid = x → o.type = .update) := by
  have tail : t.Undoable operations := fun o' ho' => undoable o' (mem_cons_of_mem o ho')
  obtain ⟨type, rid⟩ := o
  cases type with
  | update => exact ⟨tail, fun x r live _ => ⟨live, fun _ => rfl⟩⟩
  | delete =>
    refine ⟨tail.setMark rid 0, fun x r live marked => ?_⟩
    obtain ⟨live, hne⟩ := setMark_cleared live marked
    exact ⟨live, fun h => absurd h hne⟩
  | insert =>
    dsimp only [Table.rollbackOperation, Table.rollbackInsert]
    cases hrec : t.records rid with
    | none =>
      refine ⟨tail, fun x r live _ => ⟨live, ?_⟩⟩
      rintro rfl
      rw [hrec] at live
      cases live
    | some r₀ =>
      dsimp only
      rw [deleteEntryOfIndexes_present (undoable _ mem_cons_self rfl r₀ hrec)]
      refine ⟨tail.without rid r₀.data, fun x r live _ => ?_⟩
      dsimp only [setRecord] at live
      rw [update_apply] at live
      split at live
      next => cases live
      next hx => exact ⟨live, fun h => absurd h.symm hx⟩

theorem rollback_cleared : ∀ {operations : List Operation} {t : Table}, t.Undoable operations →
    (operations.foldl Table.rollbackOperation t).records x = some r → r.trxId ≠ 0 →
      t.records x = some r ∧ ∀ o ∈ operations, o.rid = x → o.type = .update
  | [], _, _, live, _ => ⟨live, fun _ ho => absurd ho not_mem_nil⟩
  | o :: operations, t, undoable, live, marked => by
    obtain ⟨tail, one⟩ := undoable.rollbackOperation
    obtain ⟨live, rest⟩ := rollback_cleared tail live marked
    obtain ⟨live, first⟩ := one x r live marked
    refine ⟨live, fun o' ho' horid => ?_⟩
    rcases mem_cons.mp ho' with rfl | ho'
    · exact first horid
    · exact rest o' ho' horid

theorem Undoable.perm {operations operations' : List Operation} (undoable : t.Undoable operations)
    (perm : operations'.Perm operations) : t.Undoable operations' :=
  fun o ho => undoable o (perm.mem_iff.mp ho)

end Table

end MiniOb
