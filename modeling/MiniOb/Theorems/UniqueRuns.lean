import MiniOb.Theorems.Rollback
import MiniOb.Theorems.Uniqueness
import MiniOb.Theorems.UpdateFormat

/-! # Unique columns over runs

`insert_record` looks for a record with the value before it inserts one, as long as no entry of a deleted record ends
its select; `update_record` looks for nothing. -/

namespace MiniOb
open Slots List SharedTable Function FieldMeta

namespace Table

theorem insertEntryOfIndexes_unique (t : Table) (data : Bytes) (rid : RID)
    (ok : (t.insertEntryOfIndexes data rid).1 = .success) :
    (t.insertEntryOfIndexes data rid).2.uniqueIndexes = t.uniqueIndexes.map fun i => i.add data rid := by
  unfold insertEntryOfIndexes at ok ⊢
  dsimp only at ok ⊢
  by_cases hnil : t.uniqueIndexes = []
  · rw [hnil]
    rfl
  · rw [if_neg hnil] at ok
    rw [Index.insertEach_absent (Index.insertEach_success ok)]

end Table

namespace TrxTable
variable {w w' : TrxTable} {f : FieldMeta} {rid : RID} {data : Bytes}

theorem insertRecord_enters {slot : FreeSlot} (ok : w.insertRecord slot data = (.ok rid, w')) :
    w.table.records rid = none ∧ w'.table.fields = w.table.fields ∧
      w'.table.records = Function.update w.table.records rid (some ⟨Trx.mark w.trx.trxId false, data⟩) ∧
      w'.table.uniqueIndexes = w.table.uniqueIndexes.map fun i => i.add data rid := by
  rcases insertRecord_cases w slot data with
    ⟨rc, heq, -⟩ | ⟨rid, r, table, hpick, -, heq, ⟨rc, rfl, -, -⟩ | ⟨rfl, hins, hrecords⟩⟩
  · cases ok.symm.trans heq
  · cases ok.symm.trans heq
  · cases ok.symm.trans heq
    have hunique := (w.withRecord rid data).insertEntryOfIndexes_unique data rid
    have hfields : ((w.withRecord rid data).insertEntryOfIndexes data rid).2.fields = w.table.fields := rfl
    rw [hins] at hunique hfields
    exact ⟨slot.fresh hpick, hfields, hrecords, hunique rfl⟩

theorem updateRecord_enters {old new : Bytes} (ok : (w.updateRecord rid old new).1 = .success) :
    (w.updateRecord rid old new).2.table.fields = w.table.fields ∧
      (w.updateRecord rid old new).2.table.uniqueIndexes = w.table.uniqueIndexes.map fun i => i.add new rid := by
  unfold updateRecord at ok ⊢
  cases hdel : w.table.deleteEntryOfIndexes old rid false with
  | mk rc t =>
    have hfields : t.fields = w.table.fields := by
      have h : (w.table.deleteEntryOfIndexes old rid false).2.fields = w.table.fields := rfl
      rw [← h, hdel]
    have hindexes : t.uniqueIndexes = w.table.uniqueIndexes := by
      rw [← w.table.deleteEntryOfIndexes_uniqueIndexes old rid false, hdel]
    rw [hdel] at ok
    by_cases hrc : rc = .success
    · subst hrc
      dsimp only at ok ⊢
      have hunique := t.insertEntryOfIndexes_unique new rid
      have hsame : (t.insertEntryOfIndexes new rid).2.fields = t.fields := rfl
      cases hins : t.insertEntryOfIndexes new rid with
      | mk rc t' =>
        rw [hins] at ok hunique hsame
        by_cases hrc' : rc = .success
        · subst hrc'
          exact ⟨hsame.trans hfields, (hunique rfl).trans (by rw [hindexes])⟩
        · exact absurd (by revert ok; cases rc <;> simp) hrc'
    · exact absurd (by revert ok; cases rc <;> simp) hrc

end TrxTable

namespace Table
variable {t t' : Table} {f : FieldMeta} {rid : RID} {r : Record}

/-- No two records show the same value of the column, NULL apart. -/
def UniqueIn (t : Table) (f : FieldMeta) : Prop :=
  ∀ rid rid' r r', rid ≠ rid' → t.records rid = some r → t.records rid' = some r' → f.tupleValue r.data ≠ .null →
    f.tupleValue r.data ≠ f.tupleValue r'.data

/-- The column has a unique index with the entries of all live records; there may be others. -/
structure Watched (t : Table) (f : FieldMeta) : Prop where
  laid : Laid 0 t.fields
  column : f ∈ t.fields
  sized : ∀ rid r, t.records rid = some r → t.recordSize ≤ r.data.length
  indexed : ∃ i ∈ t.uniqueIndexes, i.fields = [f]
  covers : ∀ i ∈ t.uniqueIndexes, i.fields = [f] → ∀ rid r, t.records rid = some r → (i.key r.data, rid) ∈ i.entries

theorem Watched.put (watched : t.Watched f) (fields : t'.fields = t.fields) (sized : t.recordSize ≤ r.data.length)
    (records : t'.records = update t.records rid (some r))
    (unique : t'.uniqueIndexes = t.uniqueIndexes.map fun i => i.add r.data rid) : t'.Watched f where
  laid := fields ▸ watched.laid
  column := fields ▸ watched.column
  sized x s hs := by
    unfold recordSize at sized ⊢
    rw [fields]
    rw [records, update_apply] at hs
    split at hs
    · cases hs
      exact sized
    · exact watched.sized x s hs
  indexed := by
    obtain ⟨i, hi, hfields⟩ := watched.indexed
    exact ⟨i.add r.data rid, by rw [unique]; exact mem_map_of_mem hi, hfields⟩
  covers i hi hfields x s hs := by
    rw [unique] at hi
    obtain ⟨j, hj, rfl⟩ := mem_map.mp hi
    rw [records, update_apply] at hs
    split at hs
    · rename_i hx
      cases hs
      rw [hx]
      exact Finset.mem_insert_self _ _
    · exact Finset.mem_insert_of_mem (watched.covers j hj hfields x s hs)

/-- The records of `t'` are records of `t`, up to their marks, with the same indexes. -/
structure Shrinks (t t' : Table) : Prop where
  fields : t'.fields = t.fields
  unique : t'.uniqueIndexes = t.uniqueIndexes
  records : ∀ rid r', t'.records rid = some r' → ∃ r, t.records rid = some r ∧ r.data = r'.data

theorem Shrinks.refl (t : Table) : t.Shrinks t := ⟨rfl, rfl, fun _ r' h => ⟨r', h, rfl⟩⟩

theorem Shrinks.trans {t'' : Table} (first : t.Shrinks t') (second : t'.Shrinks t'') : t.Shrinks t'' where
  fields := second.fields.trans first.fields
  unique := second.unique.trans first.unique
  records rid r'' h := by
    obtain ⟨r', hr', hdata'⟩ := second.records rid r'' h
    obtain ⟨r, hr, hdata⟩ := first.records rid r' hr'
    exact ⟨r, hr, hdata.trans hdata'⟩

theorem Shrinks.of_data (fields : t'.fields = t.fields) (unique : t'.uniqueIndexes = t.uniqueIndexes)
    (same : ∀ x, (t'.records x).map Record.data = (t.records x).map Record.data) : t.Shrinks t' where
  fields := fields
  unique := unique
  records rid r' h := by
    have hmap := same rid
    rw [h] at hmap
    exact Option.map_eq_some_iff.mp hmap.symm

theorem Shrinks.setMark (t : Table) (rid : RID) (mark : Nat) : t.Shrinks (t.setMark rid mark) :=
  .of_data rfl rfl (setMark_data t rid mark)

theorem Shrinks.commitOperation (t : Table) (o : Operation) : t.Shrinks (t.commitOperation o) := by
  obtain ⟨type, rid⟩ := o
  cases type with
  | insert | update => exact .setMark t rid 0
  | delete =>
    unfold Table.commitOperation
    cases hrec : t.records rid with
    | none => exact .refl t
    | some r =>
      refine ⟨rfl, rfl, fun x r' h => ?_⟩
      simp only [setRecord_records, deleteEntryOfIndexes_records, update_apply] at h
      split at h
      · cases h
      · exact ⟨r', h, rfl⟩

theorem Shrinks.commit : ∀ (operations : List Operation) (t : Table),
    t.Shrinks (operations.foldl Table.commitOperation t)
  | [], t => .refl t
  | o :: operations, t => (Shrinks.commitOperation t o).trans (Shrinks.commit operations _)

theorem UniqueIn.put (unique : t.UniqueIn f) (records : t'.records = update t.records rid (some r))
    (new : ∀ x s, t.records x = some s → f.tupleValue r.data ≠ .null → f.tupleValue s.data ≠ f.tupleValue r.data) :
    t'.UniqueIn f := by
  intro x y s s' hne hs hs' hnull heq
  rw [records, update_apply] at hs hs'
  split at hs
  · rename_i hx
    cases hs
    rw [if_neg (hx ▸ hne.symm)] at hs'
    exact new y s' hs' hnull heq.symm
  · split at hs'
    · cases hs'
      exact new x s hs (heq ▸ hnull) heq
    · exact unique x y s s' hne hs hs' hnull heq

/-- What the select for a value of the column meets in this table. -/
def Selected (t : Table) (f : FieldMeta) (locals : Key → DateLocals) (v : Value) (rids : List RID) : Prop :=
  ∃ live tree, t.FileScan live ∧ (f.nullable = false → ∃ i ∈ t.uniqueIndexes, i.fields = [f] ∧
    f.Indexed i.entries.toList tree) ∧ f.Selects live tree locals v rids

/-- No entry of the unique index that compares equal with the value is left over from a record that is gone. -/
def NoneStale (t : Table) (f : FieldMeta) (v : Value) : Prop :=
  ∀ i ∈ t.uniqueIndexes, i.fields = [f] → ∀ p ∈ i.entries, f.Met v p → t.records p.2 ≠ none

section
variable {locals : Key → DateLocals} (watched : t.Watched f) (type : f.Compared)
  (room : f.nullable = false → f.type ≠ .chars → 4 ≤ f.len)
  (steady : f.nullable = false → f.type = .chars → ∀ k, (locals k).1 = (locals k).2)
include watched type room steady

theorem Watched.finds {v : Value} {select : UniqueSelect} (fresh : f.nullable = false → t.NoneStale f v)
    (read : f.nullable = true → select.refersOuter = false) (selected : t.Selected f locals v select.rids)
    (live : t.records rid = some r) (shown : v.Is (f.tupleValue r.data)) : t.Finds f v select := by
  have hequals : f.equals select.refersOuter v r.data = true := (equals_iff type read v r.data).mpr shown
  obtain ⟨file, tree, hfile, hindex, hselects⟩ := selected
  cases column : f.nullable with
  | true =>
    rw [FieldMeta.Selects, column, if_pos rfl] at hselects
    refine (finds_iff_of_live fun x hx => (hfile.2 x).mp (hselects ▸ hx)).mpr ⟨rid, ?_, r, live, hequals⟩
    rw [hselects]
    exact (hfile.2 rid).mpr (by rw [live]; exact Option.some_ne_none r)
  | false =>
    obtain ⟨i, hi, hfields, indexed⟩ := hindex column
    have hkey : i.key r.data = f.bytes r.data := by simp [Index.key, hfields]
    have hentry : (f.bytes r.data, rid) ∈ i.entries.toList :=
      Finset.mem_toList.mpr (hkey ▸ watched.covers i hi hfields rid r live)
    have hmet : f.Met v (f.bytes r.data, rid) := by
      by_cases chars : f.type = .chars
      · exact met_of_is column chars rid shown
      · have htype : f.type = .ints ∨ f.type = .date := type.imp_right fun h => h.resolve_left chars
        exact (met_iff column htype (room column chars) shown.ne_null.1 r.data rid).mpr shown
    obtain ⟨rids', hselects', hmeets⟩ := indexed.selects column file locals v (steady column)
    obtain ⟨seen, rest, hsplit, hseen⟩ := hmeets _ hentry hmet
    refine ⟨seen, rid, rest, r, (hselects.unique column hselects').trans hsplit, fun x hx => ?_, live, hequals⟩
    obtain ⟨p, hp, rfl, hpmet⟩ := hseen x hx
    exact fresh column i hi hfields p (Finset.mem_toList.mp hp) hpmet

theorem Watched.makeRecord {row : List Value} {selects : FieldMeta → UniqueSelect} {data : Bytes}
    (given : TrxTable.AsGiven f t.fields row)
    (fresh : f.nullable = false → ∀ v, (f, v) ∈ t.fields.zip row → t.NoneStale f (f.stored v))
    (read : f.nullable = true → (selects f).refersOuter = false)
    (selected : ∀ v, (f, v) ∈ t.fields.zip row → t.Selected f locals (f.stored v) (selects f).rids)
    (made : t.makeRecord row selects = .ok data) :
    t.recordSize ≤ data.length ∧
      ∀ x s, t.records x = some s → f.tupleValue data ≠ .null → f.tupleValue s.data ≠ f.tupleValue data := by
  obtain ⟨takes, rfl⟩ := makeRecord_encodes watched.laid made
  have hlength := takes.length_eq
  constructor
  · rw [watched.laid.length_encodeAll (by rw [storedAll, length_zipWith, ← hlength, Nat.min_self])]
    exact le_rfl
  · intro x s hs hnull heq
    obtain ⟨j, hj, hfield⟩ := mem_iff_getElem.mp watched.column
    have hv : (f, row[j]) ∈ t.fields.zip row :=
      mem_iff_getElem.mpr ⟨j, by simp [hj, ← hlength], by rw [getElem_zip, hfield]⟩
    have hshown : (f.stored row[j]).Is (f.tupleValue s.data) := by
      rw [heq]
      exact (given _ hv).resolve_left fun h => hnull h.2
    obtain ⟨i, hi, hfields⟩ := watched.indexed
    have hdup : t.Duplicate row selects := ⟨(f, row[j]), hv, i, hi, by rw [hfields]; rfl,
      watched.finds type room steady (fun column => fresh column _ hv) read (selected _ hv) hs hshown⟩
    obtain ⟨rc, hrc⟩ := makeRecord_error hlength.symm (.inr hdup)
    cases made.symm.trans hrc

end

end Table

namespace TrxTable
variable {w w' : TrxTable} {f : FieldMeta} {filter : Bytes → Bool} {rid : RID} {locals : Nat → Key → DateLocals}
  {scan : Scan}

/-- A statement with what the dates of `satisfy_condition` hold in the select for each row, and the order of its
    commit. -/
structure Statement where
  call : TableCall
  locals : Nat → Key → DateLocals
  order : OperationOrder

def execute (w : TrxTable) (s : Statement) : TrxTable := (w.call s.call).2.commit s.order.order

def rowOf (w : TrxTable) (values : List Value) (j : Nat) : List Value :=
  (values.drop (j * w.table.fields.length)).take w.table.fields.length

def Overwritten (w : TrxTable) (scan : Scan) (filter : Bytes → Bool) (rid : RID) (r : Record) : Prop :=
  rid ∈ scan.rids ∧ w.table.records rid = some r ∧ filter r.data = true

/-- The rows of an insertion up to one of them: the records from before are there, and an entry that is new is that of a
    record. -/
structure Grows (f : FieldMeta) (w w' : TrxTable) : Prop where
  fields : w'.table.fields = w.table.fields
  records : ∀ rid, w.table.records rid ≠ none → w'.table.records rid ≠ none
  entries : ∀ i ∈ w'.table.uniqueIndexes, i.fields = [f] → ∀ p ∈ i.entries,
    (∃ j ∈ w.table.uniqueIndexes, j.fields = [f] ∧ p ∈ j.entries) ∨ w'.table.records p.2 ≠ none

theorem Grows.insertRecord {w'' : TrxTable} {slot : FreeSlot} {data : Bytes} (grows : Grows f w w')
    (ok : w'.insertRecord slot data = (.ok rid, w'')) : Grows f w w'' := by
  obtain ⟨-, hfields, hrecords, hunique⟩ := insertRecord_enters ok
  have hmono : ∀ x, w'.table.records x ≠ none → w''.table.records x ≠ none := by
    intro x hx
    rw [hrecords, update_apply]
    split
    · exact Option.some_ne_none _
    · exact hx
  refine ⟨hfields.trans grows.fields, fun x hx => hmono x (grows.records x hx), fun i hi hi' p hp => ?_⟩
  rw [hunique] at hi
  obtain ⟨j, hj, rfl⟩ := mem_map.mp hi
  rcases Finset.mem_insert.mp hp with rfl | hp
  · refine .inr ?_
    rw [hrecords, update_self]
    exact Option.some_ne_none _
  · exact (grows.entries j hj hi' p hp).imp_right (hmono p.2)

/-- The records in the middle of an update: as they were, or overwritten once. -/
structure Halfway (w : TrxTable) (scan : Scan) (filter : Bytes → Bool) (g : Bytes → Bytes) (w' : TrxTable) : Prop where
  fields : w'.table.fields = w.table.fields
  records : ∀ rid, w'.table.records rid = w.table.records rid ∨
    ∃ r, w.Overwritten scan filter rid r ∧ w'.table.records rid = some { r with data := g r.data }

theorem Halfway.updateRecord {g : Bytes → Bytes} {r : Record} (halfway : Halfway w scan filter g w')
    (idempotent : ∀ rid r, w.table.records rid = some r → g (g r.data) = g r.data) (met : rid ∈ scan.rids)
    (live : w'.table.records rid = some r) (accepted : filter r.data = true)
    (ok : (w'.updateRecord rid r.data (g r.data)).1 = .success) :
    Halfway w scan filter g (w'.updateRecord rid r.data (g r.data)).2 := by
  refine ⟨(updateRecord_enters ok).1.trans halfway.fields, fun x => ?_⟩
  rw [(updateRecord_success ok).1, update_apply]
  split
  · rename_i hx
    subst hx
    right
    rw [live]
    rcases halfway.records x with hsame | ⟨r₀, hread, hnow⟩
    · exact ⟨r, ⟨met, hsame.symm.trans live, accepted⟩, rfl⟩
    · -- The scan has come to the record again: it is overwritten with what it has.
      cases live.symm.trans hnow
      refine ⟨r₀, hread, ?_⟩
      simp only [Option.map_some, idempotent x r₀ hread.2.1]
  · exact halfway.records x

end TrxTable

end MiniOb
