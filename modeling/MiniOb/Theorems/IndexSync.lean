import MiniOb.Lib.Run
import MiniOb.Table.Shared
import MiniOb.Theorems.FailedInsert

/-! # Records and index entries

Regular indexes stay in step with the record file; a unique index keeps the entries of the records that are deleted,
changed or rolled back. -/

namespace MiniOb
open List Function Table TrxTable

/-! ### One index -/

namespace Index
variable {i : Index} {records : RID → Option Record} {rid : RID} {data : Bytes}

/-- The entries of the index are the keys of the records. -/
def Synced (i : Index) (records : RID → Option Record) : Prop :=
  ∀ key rid, (key, rid) ∈ i.entries ↔ ∃ r, records rid = some r ∧ i.key r.data = key

def add (i : Index) (data : Bytes) (rid : RID) : Index := { i with entries := insert (i.key data, rid) i.entries }

def remove (i : Index) (data : Bytes) (rid : RID) : Index := { i with entries := i.entries.erase (i.key data, rid) }

section
variable (synced : i.Synced records)
include synced

theorem Synced.congr {records' : RID → Option Record}
    (same : ∀ rid, (records' rid).map Record.data = (records rid).map Record.data) : i.Synced records' := by
  intro key rid
  have hkeys : ∀ o : Option Record, (∃ r, o = some r ∧ i.key r.data = key) ↔
      (o.map Record.data).map i.key = some key := by
    intro o
    rw [Option.map_map, Option.map_eq_some_iff]
    rfl
  rw [synced key rid, hkeys, hkeys, same]

theorem Synced.not_mem (free : records rid = none) (key : Bytes) : (key, rid) ∉ i.entries := by
  intro hmem
  obtain ⟨r, hrec, -⟩ := (synced key rid).mp hmem
  rw [free] at hrec
  cases hrec

theorem Synced.mem {r : Record} (live : records rid = some r) : (i.key r.data, rid) ∈ i.entries :=
  (synced _ rid).mpr ⟨r, live, rfl⟩

theorem Synced.add (free : records rid = none) (mark : Nat) :
    (i.add data rid).Synced (update records rid (some ⟨mark, data⟩)) := by
  intro key x
  rw [Index.add, Finset.mem_insert, synced key x, Prod.mk.injEq]
  by_cases hx : x = rid
  · subst hx
    rw [update_self, free]
    constructor
    · rintro (⟨hkey, -⟩ | ⟨r, hrec, -⟩)
      · exact ⟨_, rfl, hkey.symm⟩
      · cases hrec
    · rintro ⟨r, hrec, hkey⟩
      cases hrec
      exact .inl ⟨hkey.symm, rfl⟩
  · rw [update_of_ne hx]
    exact ⟨fun h => h.resolve_left fun h => hx h.2, .inr⟩

theorem Synced.remove {r : Record} (live : records rid = some r) :
    (i.remove r.data rid).Synced (update records rid none) := by
  intro key x
  rw [Index.remove, Finset.mem_erase, synced key x, ne_eq, Prod.mk.injEq]
  by_cases hx : x = rid
  · subst hx
    rw [update_self, live]
    constructor
    · rintro ⟨hne, r', hrec, hkey⟩
      cases hrec
      exact absurd ⟨hkey.symm, rfl⟩ hne
    · rintro ⟨r', hrec, -⟩
      cases hrec
  · rw [update_of_ne hx]
    exact ⟨fun h => h.2, fun h => ⟨fun h => hx h.2, h⟩⟩

end

theorem insertEach_absent : ∀ {is : List Index}, (∀ i ∈ is, (i.key data, rid) ∉ i.entries) →
    insertEach data rid is = (.success, is.map fun i => i.add data rid)
  | [], _ => rfl
  | i :: is, absent => by
    have hone : i.insertEntry data rid = (.success, i.add data rid) := if_neg (absent i mem_cons_self)
    rw [insertEach, hone]
    rw [insertEach_absent fun j hj => absent j (mem_cons_of_mem i hj)]
    rfl

theorem deleteEach_present {flag : Bool} : ∀ {is : List Index}, (∀ i ∈ is, (i.key data, rid) ∈ i.entries) →
    deleteEach data rid flag is .success = (.success, is.map fun i => i.remove data rid)
  | [], _ => rfl
  | i :: is, present => by
    have hone : i.deleteEntry data rid = (.success, i.remove data rid) := if_pos (present i mem_cons_self)
    rw [deleteEach, hone]
    rw [deleteEach_present fun j hj => present j (mem_cons_of_mem i hj)]
    rfl

end Index

/-! ### All indexes of a table -/

namespace Table
variable {t : Table} {rid : RID} {data : Bytes}

def RegularSynced (t : Table) : Prop := ∀ i ∈ t.indexes, i.Synced t.records

structure Synced (t : Table) : Prop where
  regular : t.RegularSynced
  unique : ∀ i ∈ t.uniqueIndexes, i.Synced t.records

theorem Synced.congr {t' : Table} (synced : t.Synced) (indexes : t'.indexes = t.indexes)
    (uniqueIndexes : t'.uniqueIndexes = t.uniqueIndexes)
    (same : ∀ rid, (t'.records rid).map Record.data = (t.records rid).map Record.data) : t'.Synced where
  regular i hi := (synced.regular i (indexes ▸ hi)).congr same
  unique i hi := (synced.unique i (uniqueIndexes ▸ hi)).congr same

theorem setMark_data (t : Table) (rid : RID) (mark : Nat) (x : RID) :
    ((t.setMark rid mark).records x).map Record.data = (t.records x).map Record.data := by
  unfold setMark
  dsimp only
  rw [update_apply]
  split
  next h =>
    rw [h, Option.map_map]
    rfl
  next => rfl

theorem Synced.setMark (synced : t.Synced) (mark : Nat) : (t.setMark rid mark).Synced :=
  synced.congr rfl rfl (setMark_data t rid mark)

theorem insertEntryOfIndexes_absent (regular : ∀ i ∈ t.indexes, (i.key data, rid) ∉ i.entries)
    (unique : ∀ i ∈ t.uniqueIndexes, (i.key data, rid) ∉ i.entries) :
    t.insertEntryOfIndexes data rid = (.success, { t with
      indexes := t.indexes.map fun i => i.add data rid, uniqueIndexes :=
  t.uniqueIndexes.map fun i => i.add data rid }) := by
  unfold insertEntryOfIndexes
  rw [Index.insertEach_absent regular, Index.insertEach_absent unique]
  dsimp only
  rw [ite_self]

theorem deleteEntryOfIndexes_present {flag : Bool} (regular : ∀ i ∈ t.indexes, (i.key data, rid) ∈ i.entries) :
    t.deleteEntryOfIndexes data rid flag =
      (.success, { t with indexes := t.indexes.map fun i => i.remove data rid }) := by
  unfold deleteEntryOfIndexes
  rw [Index.deleteEach_present regular]

theorem RegularSynced.absent (synced : t.RegularSynced) (free : t.records rid = none) (data : Bytes) :
    ∀ i ∈ t.indexes, (i.key data, rid) ∉ i.entries := fun i hi => (synced i hi).not_mem free _

theorem RegularSynced.present {r : Record} (synced : t.RegularSynced) (live : t.records rid = some r) :
    ∀ i ∈ t.indexes, (i.key r.data, rid) ∈ i.entries := fun i hi => (synced i hi).mem live

def without (t : Table) (rid : RID) (data : Bytes) : Table :=
  { t with records := update t.records rid none, indexes := t.indexes.map fun i => i.remove data rid }

theorem RegularSynced.without {r : Record} (synced : t.RegularSynced) (live : t.records rid = some r) :
    (t.without rid r.data).RegularSynced := by
  intro i hi
  obtain ⟨j, hj, rfl⟩ := mem_map.mp hi
  exact (synced j hj).remove live

def withEntries (t : Table) (rid : RID) (r : Record) : Table where
  fields := t.fields
  records := update t.records rid (some r)
  indexes := t.indexes.map fun i => i.add r.data rid
  uniqueIndexes := t.uniqueIndexes.map fun i => i.add r.data rid

theorem RegularSynced.withEntries (synced : t.RegularSynced) (free : t.records rid = none) (r : Record) :
    (t.withEntries rid r).RegularSynced := by
  intro i hi
  obtain ⟨j, hj, rfl⟩ := mem_map.mp hi
  exact (synced j hj).add free r.mark

theorem Synced.withEntries (synced : t.Synced) (free : t.records rid = none) (r : Record) :
    (t.withEntries rid r).Synced where
  regular := synced.regular.withEntries free r
  unique i hi := by
    obtain ⟨j, hj, rfl⟩ := mem_map.mp hi
    exact (synced.unique j hj).add free r.mark

end Table

namespace TrxTable
variable {w : TrxTable} {filter : Bytes → Bool} {rid : RID} {r : Record}

/-! ### Insertions -/

theorem insertRecord_absent {slot : FreeSlot} {data : Bytes} (h : slot.pick w.table.records = .ok rid)
    (pending : w.trx.findOperation rid = none) (regular : ∀ i ∈ w.table.indexes, (i.key data, rid) ∉ i.entries)
    (unique : ∀ i ∈ w.table.uniqueIndexes, (i.key data, rid) ∉ i.entries) :
    w.insertRecord slot data = (.ok rid, ⟨w.table.withEntries rid ⟨Trx.mark w.trx.trxId false, data⟩,
      w.trx.queue w.lastId .insert rid, (w.trx.startIfNotStarted w.lastId).2⟩) := by
  rw [insertRecord_free h pending, insertEntryOfIndexes_absent (t := w.withRecord rid data) regular unique]
  rfl

theorem insertRecord_synced (synced : w.table.Synced) (slot : FreeSlot) (data : Bytes) :
    (w.insertRecord slot data).2.table.Synced := by
  cases h : slot.pick w.table.records with
  | error rc =>
    rw [insertRecord_noSlot h]
    exact synced
  | ok rid =>
    by_cases pending : w.trx.findOperation rid = none
    · have free := slot.fresh h
      rw [insertRecord_absent h pending (synced.regular.absent free data) fun i hi =>
        (synced.unique i hi).not_mem free _]
      exact synced.withEntries free _
    · rw [insertRecord_pending h pending]
      exact synced

theorem insert_success {values : List Value} {context : Nat → RowContext}
    (ok : (w.insert values context).1 = .success) :
    (w.insertRows w.table.fields.length values context (values.length / w.table.fields.length) 0 []).1 = .success ∧
    (w.insert values context).2 =
      (w.insertRows w.table.fields.length values context (values.length / w.table.fields.length) 0 []).2.2 := by
  unfold insert at ok ⊢
  dsimp only at ok ⊢
  by_cases hnil : values = []
  · rw [if_pos hnil] at ok
    cases ok
  by_cases hlength : values.length % w.table.fields.length ≠ 0
  · rw [if_neg hnil, if_pos hlength] at ok
    cases ok
  rw [if_neg hnil, if_neg hlength] at ok ⊢
  cases hrows : w.insertRows w.table.fields.length values context (values.length / w.table.fields.length) 0 [] with
  | mk rc rest =>
    obtain ⟨rids, w'⟩ := rest
    rw [hrows] at ok
    by_cases hrc : rc = .success
    · subst hrc
      exact ⟨rfl, rfl⟩
    · exact absurd (by revert ok; cases rc <;> simp) hrc

/-! ### Updates and deletions -/

theorem updateRecord_moves {new : Bytes} (nounique : w.table.uniqueIndexes = [])
    (live : w.table.records rid = some r) (present : ∀ i ∈ w.table.indexes, (i.key r.data, rid) ∈ i.entries)
    (absent : ∀ i ∈ w.table.indexes, (i.key new, rid) ∉ (i.remove r.data rid).entries) :
    w.updateRecord rid r.data new = ((w.trx.updateRecord w.lastId rid).1,
      ⟨(w.table.without rid r.data).withEntries rid ⟨r.mark, new⟩, (w.trx.updateRecord w.lastId rid).2.1,
        (w.trx.updateRecord w.lastId rid).2.2⟩) := by
  have absent' : ∀ i ∈ w.table.indexes.map fun i => i.remove r.data rid, (i.key new, rid) ∉ i.entries := by
    intro i hi
    obtain ⟨j, hj, rfl⟩ := mem_map.mp hi
    exact absent j hj
  unfold updateRecord
  rw [deleteEntryOfIndexes_present present]
  dsimp only
  rw [insertEntryOfIndexes_absent (t := { w.table with indexes := w.table.indexes.map fun i => i.remove r.data rid })
    absent' (by rw [nounique]; exact fun i hi => absurd hi not_mem_nil)]
  dsimp only [setData]
  rw [live]
  simp only [without, withEntries, update_idem]
  rfl

theorem updateRecord_regular {new : Bytes} (synced : w.table.RegularSynced) (nounique : w.table.uniqueIndexes = [])
    (live : w.table.records rid = some r) :
    w.updateRecord rid r.data new = ((w.trx.updateRecord w.lastId rid).1,
      ⟨(w.table.without rid r.data).withEntries rid ⟨r.mark, new⟩, (w.trx.updateRecord w.lastId rid).2.1,
        (w.trx.updateRecord w.lastId rid).2.2⟩) := by
  have free : (w.table.without rid r.data).records rid = none := update_self ..
  refine updateRecord_moves nounique live (synced.present live) fun i hi => ?_
  exact (synced.without live).absent free new _ (mem_map_of_mem hi)

theorem deleteRecord_data (w : TrxTable) (rid x : RID) :
    ((w.deleteRecord rid).2.table.records x).map Record.data = (w.table.records x).map Record.data := by
  unfold deleteRecord
  dsimp only
  split
  · exact setMark_data _ _ _ x
  · rfl
  · rfl

theorem deleteRecord_indexes (w : TrxTable) (rid : RID) :
    (w.deleteRecord rid).2.table.indexes = w.table.indexes ∧
      (w.deleteRecord rid).2.table.uniqueIndexes = w.table.uniqueIndexes := by
  unfold deleteRecord
  dsimp only
  split
  · exact ⟨rfl, rfl⟩
  · exact ⟨rfl, rfl⟩
  · exact ⟨rfl, rfl⟩

theorem updateRecord_synced (synced : w.table.Synced) (nounique : w.table.uniqueIndexes = [])
    (live : w.table.records rid = some r) (new : Bytes) :
    (w.updateRecord rid r.data new).2.table.Synced ∧ (w.updateRecord rid r.data new).2.table.uniqueIndexes = [] := by
  have unique : ((w.table.without rid r.data).withEntries rid ⟨r.mark, new⟩).uniqueIndexes = [] := by
    rw [withEntries, without, nounique]
    rfl
  rw [updateRecord_regular synced.regular nounique live]
  refine ⟨⟨(synced.regular.without live).withEntries (update_self ..) _, ?_⟩, unique⟩
  rw [unique]
  exact fun i hi => absurd hi not_mem_nil

theorem update_synced {scan : Scan} {field : Option FieldMeta} {value : Value} (synced : w.table.Synced)
    (quiet : w.table.uniqueIndexes = [] ∨ ∀ rid ∈ scan.rids, ∀ r, w.table.records rid = some r → ¬w.Reads filter r) :
    (w.update scan filter field value).2.2.table.Synced := by
  rcases update_cases w scan filter field value with ⟨rc, heq⟩ | ⟨f, v, -, -, -, heq⟩ <;> rw [heq]
  · exact synced
  · rcases quiet with nounique | misses
    · refine (scanLoop_invariant (fun w => w.table.Synced ∧ w.table.uniqueIndexes = []) ?_ ⟨synced, nounique⟩).1
      rintro w rid r ⟨synced, nounique⟩ live -
      exact updateRecord_synced synced nounique live _
    · rw [scanLoop_noHit misses]
      exact synced

theorem delete_synced {scan : Scan} (synced : w.table.Synced) : (w.delete scan filter).2.2.table.Synced := by
  refine scanLoop_invariant (fun w => w.table.Synced) (fun w rid r synced _ _ => ?_) synced
  obtain ⟨indexes, uniqueIndexes⟩ := deleteRecord_indexes w rid
  exact synced.congr indexes uniqueIndexes (deleteRecord_data w rid)

end TrxTable

/-! ### Commit and rollback -/

namespace Table
variable {t : Table} {rid : RID} {r : Record} {o : Operation} {operations : List Operation} {trxId : Nat} {scan : Scan}

theorem RegularSynced.commitDelete (synced : t.RegularSynced) (live : t.records rid = some r) :
    t.commitOperation ⟨.delete, rid⟩ = t.without rid r.data := by
  unfold commitOperation
  rw [live]
  dsimp only
  rw [deleteEntryOfIndexes_present (synced.present live)]
  rfl

theorem RegularSynced.rollbackInsert (synced : t.RegularSynced) (live : t.records rid = some r) :
    t.rollbackInsert rid = (.success, t.without rid r.data) := by
  unfold Table.rollbackInsert
  rw [live]
  dsimp only
  rw [deleteEntryOfIndexes_present (synced.present live)]
  rfl

/-- The table has no unique index, or no record goes away: none of the operations of this type has a live one. -/
def Keeps (t : Table) (type : OperationType) (operations : List Operation) : Prop :=
  t.uniqueIndexes = [] ∨ ∀ o ∈ operations, o.type = type → t.records o.rid = none

theorem Keeps.tail {type : OperationType} {t' : Table}
    (keeps : t.Keeps type (o :: operations)) (unique : t'.uniqueIndexes = t.uniqueIndexes)
    (free : ∀ rid, t.records rid = none → t'.records rid = none) : t'.Keeps type operations := by
  rcases keeps with nounique | dead
  · exact .inl (unique.trans nounique)
  · exact .inr fun o' ho' htype => free _ (dead o' (mem_cons_of_mem o ho') htype)

theorem setMark_none {mark : Nat} (x : RID) (free : t.records x = none) : (t.setMark rid mark).records x = none := by
  have hdata := setMark_data t rid mark x
  rw [free, Option.map_none, Option.map_eq_none_iff] at hdata
  exact hdata

theorem without_none {data : Bytes} (x : RID) (free : t.records x = none) : (t.without rid data).records x = none := by
  unfold without
  dsimp only
  rw [update_apply, free, ite_self]

theorem Synced.dropRecord {type : OperationType} (synced : t.Synced)
    (keeps : t.Keeps type (⟨type, rid⟩ :: operations)) (live : t.records rid = some r) :
    (t.without rid r.data).Synced ∧ (t.without rid r.data).Keeps type operations := by
  have nounique : t.uniqueIndexes = [] := by
    refine keeps.resolve_right fun dead => ?_
    cases live.symm.trans (dead _ mem_cons_self rfl)
  refine ⟨⟨synced.regular.without live, fun i hi => ?_⟩, keeps.tail rfl without_none⟩
  rw [without, nounique] at hi
  exact absurd hi not_mem_nil

theorem Synced.commitOperation (synced : t.Synced) (keeps : t.Keeps .delete (o :: operations)) :
    (t.commitOperation o).Synced ∧ (t.commitOperation o).Keeps .delete operations := by
  obtain ⟨type, rid⟩ := o
  cases type with
  | insert => exact ⟨synced.setMark 0, keeps.tail rfl setMark_none⟩
  | update => exact ⟨synced.setMark 0, keeps.tail rfl setMark_none⟩
  | delete =>
    cases hrec : t.records rid with
    | none =>
      have hsame : t.commitOperation ⟨.delete, rid⟩ = t := by
        rw [commitOperation]
        rw [hrec]
      rw [hsame]
      exact ⟨synced, keeps.tail rfl fun _ h => h⟩
    | some r =>
      rw [synced.regular.commitDelete hrec]
      exact synced.dropRecord keeps hrec

theorem Synced.rollbackOperation (synced : t.Synced) (keeps : t.Keeps .insert (o :: operations)) :
    (t.rollbackOperation o).Synced ∧ (t.rollbackOperation o).Keeps .insert operations := by
  obtain ⟨type, rid⟩ := o
  cases type with
  | update => exact ⟨synced, keeps.tail rfl fun _ h => h⟩
  | delete => exact ⟨synced.setMark 0, keeps.tail rfl setMark_none⟩
  | insert =>
    unfold rollbackOperation
    cases hrec : t.records rid with
    | none =>
      rw [rollbackInsert, hrec]
      exact ⟨synced, keeps.tail rfl fun _ h => h⟩
    | some r =>
      rw [synced.regular.rollbackInsert hrec]
      exact synced.dropRecord keeps hrec

theorem Synced.commit : ∀ {operations : List Operation} {t : Table}, t.Synced → t.Keeps .delete operations →
    (operations.foldl Table.commitOperation t).Synced
  | [], _, synced, _ => synced
  | _ :: _, _, synced, keeps => by
    obtain ⟨synced, keeps⟩ := synced.commitOperation keeps
    rw [foldl_cons]
    exact Synced.commit synced keeps

theorem Synced.rollback : ∀ {operations : List Operation} {t : Table}, t.Synced → t.Keeps .insert operations →
    (operations.foldl Table.rollbackOperation t).Synced
  | [], _, synced, _ => synced
  | _ :: _, _, synced, keeps => by
    obtain ⟨synced, keeps⟩ := synced.rollbackOperation keeps
    rw [foldl_cons]
    exact Synced.rollback synced keeps

theorem Keeps.perm {type : OperationType} {operations operations' : List Operation} (keeps : t.Keeps type operations)
    (perm : operations'.Perm operations) : t.Keeps type operations' :=
  keeps.imp_right fun dead o ho => dead o (perm.mem_iff.mp ho)

/-! ### New indexes -/

def FileScan (t : Table) (rids : List RID) : Prop := rids.Nodup ∧ ∀ rid, rid ∈ rids ↔ t.records rid ≠ none

def AllVisible (t : Table) (trxId : Nat) : Prop := ∀ rid r, t.records rid = some r → Trx.isVisible trxId r.mark = true

theorem fillIndex_entries {trxId : Nat} {finish : RC} (visible : t.AllVisible trxId) :
    ∀ {rids : List RID} {i : Index}, (t.fillIndex trxId finish rids i).1 = .success →
      (t.fillIndex trxId finish rids i).2.fields = i.fields ∧
        ∀ key rid, (key, rid) ∈ (t.fillIndex trxId finish rids i).2.entries ↔
          (key, rid) ∈ i.entries ∨ rid ∈ rids ∧ ∃ r, t.records rid = some r ∧ i.key r.data = key
  | [], i, _ => ⟨rfl, fun _ _ => ⟨.inl, fun h => h.resolve_right fun h => absurd h.1 not_mem_nil⟩⟩
  | rid :: rids, i, ok => by
    rw [fillIndex] at ok ⊢
    cases hrec : t.records rid with
    | none =>
      rw [hrec] at ok
      cases ok
    | some r =>
      rw [hrec] at ok
      dsimp only at ok ⊢
      rw [if_pos (visible rid r hrec)] at ok ⊢
      by_cases absent : (i.key r.data, rid) ∈ i.entries
      · rw [Index.insertEntry, if_pos absent] at ok
        cases ok
      · have hone : i.insertEntry r.data rid = (.success, i.add r.data rid) := if_neg absent
        rw [hone] at ok ⊢
        obtain ⟨hfields, hentries⟩ := fillIndex_entries visible ok
        refine ⟨hfields, fun key x => ?_⟩
        rw [hentries, Index.add, Finset.mem_insert, Prod.mk.injEq, mem_cons]
        constructor
        · rintro ((⟨rfl, rfl⟩ | hold) | ⟨hx, hr⟩)
          · exact .inr ⟨.inl rfl, r, hrec, rfl⟩
          · exact .inl hold
          · exact .inr ⟨.inr hx, hr⟩
        · rintro (hold | ⟨rfl | hx, hr⟩)
          · exact .inl (.inr hold)
          · obtain ⟨r', hrec', hkey⟩ := hr
            rw [hrec] at hrec'
            cases hrec'
            exact .inl (.inl ⟨hkey.symm, rfl⟩)
          · exact .inr ⟨hx, hr⟩

theorem fillIndex_synced (fields : List FieldMeta) (visible : t.AllVisible trxId)
    (file : t.FileScan scan.rids) (ok : (t.fillIndex trxId scan.finish scan.rids ⟨fields, ∅⟩).1 = .success) :
    (t.fillIndex trxId scan.finish scan.rids ⟨fields, ∅⟩).2.Synced t.records := by
  obtain ⟨hfields, hentries⟩ := fillIndex_entries visible ok
  have hkey : (t.fillIndex trxId scan.finish scan.rids ⟨fields, ∅⟩).2.key = (Index.mk fields ∅).key := by
    unfold Index.key
    rw [hfields]
  intro key rid
  rw [hentries, file.2, hkey]
  constructor
  · rintro (hmem | ⟨-, h⟩)
    · exact absurd hmem (Finset.notMem_empty _)
    · exact h
  · rintro ⟨r, hrec, hkey⟩
    exact .inr ⟨by rw [hrec]; exact Option.some_ne_none r, r, hrec, hkey⟩

theorem createIndex_synced {fields : List FieldMeta} (synced : t.Synced)
    (visible : t.AllVisible trxId) (file : t.FileScan scan.rids) : (t.createIndex trxId fields scan).2.Synced := by
  unfold createIndex
  split
  · exact synced
  split
  · exact synced
  · have fill := fillIndex_synced fields visible file
    cases hfill : t.fillIndex trxId scan.finish scan.rids ⟨fields, ∅⟩ with
    | mk rc i =>
      rw [hfill] at fill
      by_cases hrc : rc = .success
      · subst hrc
        refine ⟨fun j hj => ?_, synced.unique⟩
        rcases mem_append.mp hj with hj | hj
        · exact synced.regular j hj
        · rw [mem_singleton.mp hj]
          exact fill rfl
      · cases rc <;> first | exact synced | exact absurd rfl hrc

theorem createUniqueIndex_synced {f : FieldMeta} {selected : List RID} (synced : t.Synced)
    (visible : t.AllVisible trxId) (file : t.FileScan scan.rids) :
    (t.createUniqueIndex trxId f selected scan).2.Synced := by
  unfold createUniqueIndex
  split
  · exact synced
  split
  · exact synced
  · have fill := fillIndex_synced [f] visible file
    cases hfill : t.fillIndex trxId scan.finish scan.rids ⟨[f], ∅⟩ with
    | mk rc i =>
      rw [hfill] at fill
      by_cases hrc : rc = .success
      · subst hrc
        refine ⟨synced.regular, fun j hj => ?_⟩
        rcases mem_append.mp hj with hj | hj
        · exact synced.unique j hj
        · rw [mem_singleton.mp hj]
          exact fill rfl
      · cases rc <;> first | exact synced | exact absurd rfl hrc

end Table

/-! ### Runs -/

namespace SharedTable

/-- What a step must meet for the indexes to stay in step. With a unique index, no record may go away or be updated; a
    new index is filled by a scan of the file whose records are all visible. -/
def KeepsSynced (w : TrxTable) : Act → Prop
  | .call (.insert _ _) | .call (.delete _ _) => True
  | .call (.update scan filter _ _) =>
    w.table.uniqueIndexes = [] ∨ ∀ rid ∈ scan.rids, ∀ r, w.table.records rid = some r → ¬w.Reads filter r
  | .call (.createIndex _ scan) | .call (.createUniqueIndex _ _ scan) =>
    w.table.AllVisible w.trx.trxId ∧ w.table.FileScan scan.rids
  | .commit _ => w.table.Keeps .delete w.trx.operations
  | .rollback _ => w.table.Keeps .insert w.trx.operations

def SyncedOk (s : SharedTable) (move : Nat × Act) : Prop :=
  (perform (s.view move.1) move.2).1 = .success ∧ KeepsSynced (s.view move.1) move.2

theorem perform_synced {w : TrxTable} {a : Act} (synced : w.table.Synced) (ok : (perform w a).1 = .success)
    (keeps : KeepsSynced w a) : (perform w a).2.table.Synced := by
  cases a with
  | commit order => exact synced.commit (keeps.perm (order.perm _))
  | rollback order => exact synced.rollback (keeps.perm (order.perm _))
  | call c =>
    cases c with
    | insert values context =>
      rw [perform, call, (insert_success ok).2]
      exact insertRows_keeps (fun w => w.table.Synced) (fun _ slot data synced =>
        insertRecord_synced synced slot data) synced
    | update scan filter field value => exact update_synced synced keeps
    | delete scan filter => exact delete_synced synced
    | createIndex fields scan => exact createIndex_synced synced keeps.1 keeps.2
    | createUniqueIndex field selected scan => exact createUniqueIndex_synced synced keeps.1 keeps.2

/-- In every run from an empty table whose steps all succeed and meet the condition, every index has the entries of the
    live records and no others. -/
theorem indexes_in_step {fields : List FieldMeta} {moves : List (Nat × Act)}
    (meets : Run.Meets step SyncedOk (empty fields) moves) :
    (Run.run step (empty fields) moves).table.Synced := by
  refine Run.invariant (fun s => s.table.Synced) (fun s move synced ok => ?_) ?_ meets
  · exact perform_synced synced ok.1 ok.2
  · exact ⟨fun i hi => absurd hi not_mem_nil, fun i hi => absurd hi not_mem_nil⟩

def column : FieldMeta := ⟨.ints, 0, 4, false⟩

/-- An empty table gets a regular index; a row is inserted and committed by one transaction, and deleted by another. -/
def indexedRun : List (Nat × Act) :=
  [(0, .call (.createIndex [column] ⟨[], .success⟩)), (0, .call (.insert [intValue 7] slotByRow)),
    (0, .commit .inOrder), (1, .call (.delete ⟨[⟨1, 0⟩], .success⟩ fun _ => true)), (1, .commit .inOrder)]

theorem indexes_in_step_indexedRun :
    Run.Meets step SyncedOk (empty [column]) indexedRun ∧ (Run.run step (empty [column]) indexedRun).table.Synced := by
  have meets : Run.Meets step SyncedOk (empty [column]) indexedRun := by
    refine ⟨⟨by decide +kernel, ⟨(fun _ _ h => nomatch h), nodup_nil, fun rid => ?_⟩⟩, ⟨by decide +kernel, trivial⟩,
      ⟨by decide +kernel, .inl rfl⟩, ⟨by decide +kernel, trivial⟩, ⟨by decide +kernel, .inl rfl⟩, trivial⟩
    exact ⟨fun h => absurd h not_mem_nil, fun h => absurd rfl h⟩
  exact ⟨meets, indexes_in_step meets⟩

def uniqueRun : List (Nat × Act) :=
  [(0, .call (.createUniqueIndex column [] ⟨[], .success⟩)), (0, .call (.insert [intValue 7] slotByRow)),
    (0, .commit .inOrder), (1, .call (.delete ⟨[⟨1, 0⟩], .success⟩ fun _ => true)), (1, .commit .inOrder)]

/-- Every step succeeds, and the unique index has an entry for a slot that is free. -/
theorem uniqueIndex_keeps_entry :
    Run.Meets step (fun s move => (perform (s.view move.1) move.2).1 = .success) (empty [column]) uniqueRun ∧
      (Run.run step (empty [column]) uniqueRun).table.records ⟨1, 0⟩ = none ∧
      ([7, 0, 0, 0], ⟨1, 0⟩) ∈ ((Run.run step (empty [column]) uniqueRun).table.uniqueIndexes.map (·.entries)).headD ∅ ∧
      ¬(Run.run step (empty [column]) uniqueRun).table.Synced := by
  have free : (Run.run step (empty [column]) uniqueRun).table.records ⟨1, 0⟩ = none := by decide +kernel
  refine ⟨by decide +kernel, free, by decide +kernel, fun synced => ?_⟩
  have hindex : (⟨[column], {([7, 0, 0, 0], ⟨1, 0⟩)}⟩ :
      Index) ∈ (Run.run step (empty [column]) uniqueRun).table.uniqueIndexes := by
    decide +kernel
  exact (synced.unique _ hindex).not_mem free [7, 0, 0, 0] (by decide)

end SharedTable

end MiniOb
