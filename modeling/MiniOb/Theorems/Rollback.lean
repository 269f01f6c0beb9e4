import MiniOb.Theorems.Marks

/-! # Rollback

`Pending` says that insertions and deletions of the transaction are the only changes; then rollback leads back. -/

namespace MiniOb
open List Function Table Trx

/-! ### Entries -/

namespace Index
variable {i i₀ : Index} {rid : RID} {data : Bytes} {new : RID → Option Bytes}

/-- The index `i` has the entries of `i₀` and, besides, those of the records that `new` gives. -/
structure Plus (i₀ : Index) (new : RID → Option Bytes) (i : Index) : Prop where
  fields : i.fields = i₀.fields
  entries : ∀ key rid, (key, rid) ∈ i.entries ↔ (key, rid) ∈ i₀.entries ∨ (new rid).map i₀.key = some key
  fresh : ∀ rid data, new rid = some data → (i₀.key data, rid) ∉ i₀.entries

section
variable (plus : i₀.Plus new i)
include plus

theorem Plus.key_eq : i.key = i₀.key := by
  unfold key
  rw [plus.fields]

omit plus in
theorem Plus.refl (i : Index) : i.Plus (fun _ => none) i where
  fields := rfl
  entries key rid := by simp
  fresh rid data h := nomatch h

theorem Plus.eq (nothing : ∀ rid, new rid = none) : i = i₀ := by
  obtain ⟨fields, entries, -⟩ := plus
  have hentries : i.entries = i₀.entries := by
    ext ⟨key, rid⟩
    rw [entries, nothing, Option.map_none]
    simp
  cases i
  cases i₀
  cases fields
  cases hentries
  rfl

theorem Plus.add {new' : RID → Option Bytes} (absent : (i.key data, rid) ∉ i.entries)
    (free : new rid = none) (self : new' rid = some data) (other : ∀ x, x ≠ rid → new' x = new x) :
    i₀.Plus new' (i.add data rid) where
  fields := plus.fields
  entries key x := by
    rw [Index.add, Finset.mem_insert, plus.entries, Prod.mk.injEq, plus.key_eq]
    by_cases hx : x = rid
    · subst hx
      rw [free, self]
      simp only [Option.map_none, reduceCtorEq, or_false, and_true, Option.map_some, Option.some.injEq]
      exact or_comm.trans (or_congr_right eq_comm)
    · rw [other x hx]
      exact or_iff_right fun h => hx h.2
  fresh x d hd := by
    by_cases hx : x = rid
    · subst hx
      rw [self] at hd
      cases hd
      rw [plus.key_eq, plus.entries, not_or] at absent
      exact absent.1
    · exact plus.fresh x d (other x hx ▸ hd)

theorem Plus.remove {new' : RID → Option Bytes} (here : new rid = some data)
    (self : new' rid = none) (other : ∀ x, x ≠ rid → new' x = new x) : i₀.Plus new' (i.remove data rid) where
  fields := plus.fields
  entries key x := by
    rw [Index.remove, Finset.mem_erase, plus.entries, ne_eq, Prod.mk.injEq, plus.key_eq]
    by_cases hx : x = rid
    · subst hx
      have hfresh := plus.fresh x data here
      rw [here, self, Option.map_some, Option.map_none, Option.some.injEq]
      constructor
      · rintro ⟨hne, hold | rfl⟩
        · exact .inl hold
        · exact absurd ⟨rfl, rfl⟩ hne
      · rintro (hold | h)
        · refine ⟨?_, .inl hold⟩
          rintro ⟨rfl, -⟩
          exact hfresh hold
        · cases h
    · rw [other x hx]
      exact and_iff_right fun h => hx h.2
  fresh x d hd := by
    by_cases hx : x = rid
    · subst hx
      rw [self] at hd
      cases hd
    · exact plus.fresh x d (other x hx ▸ hd)

theorem Plus.mem (here : new rid = some data) :
    (i.key data, rid) ∈ i.entries := by
  rw [plus.entries, here, plus.key_eq]
  exact .inr rfl

end

theorem remove_add (present : (i.key data, rid) ∈ i.entries) : (i.remove data rid).add data rid = i := by
  have hentries : insert (i.key data, rid) (i.entries.erase (i.key data, rid)) = i.entries :=
    Finset.insert_erase present
  cases i
  exact congrArg _ hentries

theorem insertEach_success {is : List Index} (ok : (insertEach data rid is).1 = .success) :
    ∀ i ∈ is, (i.key data, rid) ∉ i.entries := by
  induction is with
  | nil => exact fun i hi => absurd hi not_mem_nil
  | cons j is ih =>
    by_cases present : (j.key data, rid) ∈ j.entries
    · rw [insertEach, insertEntry, if_pos present] at ok
      cases ok
    · rw [insertEach, insertEntry, if_neg present] at ok
      intro i hi
      rcases mem_cons.mp hi with rfl | hi
      · exact present
      · exact ih ok i hi

theorem deleteEach_success {is : List Index} (ok : (deleteEach data rid false is .success).1 = .success) :
    ∀ i ∈ is, (i.key data, rid) ∈ i.entries := by
  induction is with
  | nil => exact fun i hi => absurd hi not_mem_nil
  | cons j is ih =>
    by_cases present : (j.key data, rid) ∈ j.entries
    · rw [deleteEach, deleteEntry, if_pos present] at ok
      intro i hi
      rcases mem_cons.mp hi with rfl | hi
      · exact present
      · exact ih ok i hi
    · rw [deleteEach, deleteEntry, if_neg present] at ok
      cases ok

end Index

/-! ### The table -/

namespace Table
variable {t t₀ : Table} {ops : List Operation} {rid : RID}

def newData (t : Table) (ops : List Operation) (rid : RID) : Option Bytes :=
  if ⟨.insert, rid⟩ ∈ ops then (t.records rid).map Record.data else none

/-- What the operations among `ops` have made of a record. Updates are not to be seen. -/
structure Reverts (ops : List Operation) (rid : RID) (before after : Option Record) : Prop where
  inserted : ⟨.insert, rid⟩ ∈ ops → before = none ∧ after ≠ none
  deleted : ⟨.delete, rid⟩ ∈ ops → ∃ data mark, before = some ⟨0, data⟩ ∧ after = some ⟨mark, data⟩
  other : ⟨.insert, rid⟩ ∉ ops → ⟨.delete, rid⟩ ∉ ops → after = before

/-- The table `t₀` has become `t` by the insertions and deletions among `ops`. -/
structure Pending (t₀ : Table) (ops : List Operation) (t : Table) : Prop where
  fields : t.fields = t₀.fields
  unique : t.uniqueIndexes = t₀.uniqueIndexes
  records : ∀ rid, Reverts ops rid (t₀.records rid) (t.records rid)
  indexes : List.Forall₂ (fun i₀ i => i₀.Plus (t.newData ops) i) t₀.indexes t.indexes

theorem Pending.refl (t : Table) : t.Pending [] t where
  fields := rfl
  unique := rfl
  records _ := ⟨fun h => absurd h not_mem_nil, fun h => absurd h not_mem_nil, fun _ _ => rfl⟩
  indexes := forall₂_same.mpr fun i _ => Index.Plus.refl i

theorem Pending.congr {ops' : List Operation} (pending : t₀.Pending ops t)
    (insert : ∀ rid, ⟨.insert, rid⟩ ∈ ops' ↔ ⟨.insert, rid⟩ ∈ ops)
    (delete : ∀ rid, ⟨.delete, rid⟩ ∈ ops' ↔ ⟨.delete, rid⟩ ∈ ops) : t₀.Pending ops' t where
  fields := pending.fields
  unique := pending.unique
  records rid := by
    obtain ⟨inserted, deleted, other⟩ := pending.records rid
    rw [← insert, ← delete] at other
    exact ⟨fun h => inserted ((insert rid).mp h), fun h => deleted ((delete rid).mp h), other⟩
  indexes := by
    have same : t.newData ops' = t.newData ops := by
      funext rid
      exact if_congr (insert rid) rfl rfl
    rw [same]
    exact pending.indexes

/-- A step that changes one record and the operations on it. -/
theorem Pending.at {ops' : List Operation} {t' : Table} (pending : t₀.Pending ops t) (fields : t'.fields = t.fields)
    (unique : t'.uniqueIndexes = t.uniqueIndexes) (away : ∀ x, x ≠ rid → t'.records x = t.records x)
    (others : ∀ o : Operation, o.rid ≠ rid → (o ∈ ops' ↔ o ∈ ops))
    (here : Reverts ops' rid (t₀.records rid) (t'.records rid))
    (indexes : (∀ x, x ≠ rid → t'.newData ops' x = t.newData ops x) →
      List.Forall₂ (fun i₀ i => i₀.Plus (t'.newData ops') i) t₀.indexes t'.indexes) : t₀.Pending ops' t' where
  fields := fields.trans pending.fields
  unique := unique.trans pending.unique
  records x := by
    by_cases hx : x = rid
    · rw [hx]
      exact here
    · obtain ⟨inserted, deleted, other⟩ := pending.records x
      rw [← away x hx] at inserted deleted other
      rw [← others ⟨_, x⟩ hx, ← others ⟨_, x⟩ hx] at other
      exact ⟨fun h => inserted ((others ⟨_, x⟩ hx).mp h), fun h => deleted ((others ⟨_, x⟩ hx).mp h), other⟩
  indexes := indexes fun x hx => by
    rw [newData, newData, away x hx]
    exact if_congr (others ⟨_, x⟩ hx) rfl rfl

theorem forall₂_imp_mem {is₀ is : List Index} {R S : Index → Index → Prop} {P : Index → Prop}
    (rel : List.Forall₂ R is₀ is) (mem : ∀ i ∈ is, P i) (imp : ∀ i₀ i, P i → R i₀ i → S i₀ i) : List.Forall₂ S is₀ is :=
  (((forall₂_and_left _ _).mpr ⟨mem, rel.flip⟩).imp fun i i₀ h => imp i₀ i h.1 h.2).flip

theorem Pending.present (pending : t₀.Pending ops t) {r : Record} (inserted : ⟨.insert, rid⟩ ∈ ops)
    (live : t.records rid = some r) : ∀ i ∈ t.indexes, (i.key r.data, rid) ∈ i.entries := by
  have here : t.newData ops rid = some r.data := by
    rw [newData, if_pos inserted, live]
    rfl
  have hall := (pending.indexes.imp fun i₀ i plus => And.intro (plus.mem here) trivial).flip
  exact ((forall₂_and_left _ _).mp hall).1

theorem Pending.eq (pending : t₀.Pending [] t) : t = t₀ := by
  obtain ⟨fields, unique, records, indexes⟩ := pending
  have hrecords : t.records = t₀.records := by
    funext rid
    exact (records rid).other not_mem_nil not_mem_nil
  have hindexes : t.indexes = t₀.indexes := by
    refine forall₂_eq_eq_eq ▸ (indexes.imp fun i₀ i plus => ?_).flip
    exact plus.eq fun rid => if_neg not_mem_nil
  cases t
  cases t₀
  cases fields
  cases unique
  cases hrecords
  cases hindexes
  rfl

theorem insertEntryOfIndexes_success {data : Bytes} (nounique : t.uniqueIndexes = [])
    (ok : (t.insertEntryOfIndexes data rid).1 = .success) : ∀ i ∈ t.indexes, (i.key data, rid) ∉ i.entries := by
  unfold insertEntryOfIndexes at ok
  dsimp only at ok
  rw [if_pos nounique] at ok
  exact Index.insertEach_success ok

theorem deleteEntryOfIndexes_success {data : Bytes} (ok : (t.deleteEntryOfIndexes data rid false).1 = .success) :
    ∀ i ∈ t.indexes, (i.key data, rid) ∈ i.entries := Index.deleteEach_success ok

/-! ### Undoing -/

section
variable {o : Operation}

theorem mem_tail_iff {p : Operation} (hp : p.rid ≠ o.rid) : p ∈ o :: ops ↔ p ∈ ops := by
  rw [mem_cons]
  exact or_iff_right fun h => hp (congrArg Operation.rid h)

theorem not_mem_tail {p : Operation} (nodup : ((o :: ops).map Operation.rid).Nodup) (hp : p.rid = o.rid) :
    p ∉ ops := fun hmem =>
  (nodup_cons.mp nodup).1 (hp ▸ mem_map_of_mem hmem)

theorem Pending.tail {t' : Table} (pending : t₀.Pending (o :: ops) t) (nodup : ((o :: ops).map Operation.rid).Nodup)
    (fields : t'.fields = t.fields) (unique : t'.uniqueIndexes = t.uniqueIndexes)
    (here : t'.records o.rid = t₀.records o.rid) (away : ∀ x, x ≠ o.rid → t'.records x = t.records x)
    (indexes : (∀ x, x ≠ o.rid → t'.newData ops x = t.newData (o :: ops) x) →
      List.Forall₂ (fun i₀ i => i₀.Plus (t'.newData ops) i) t₀.indexes t'.indexes) : t₀.Pending ops t' := by
  refine pending.at fields unique away (fun p hp => (mem_tail_iff hp).symm)
    ⟨fun h => ?_, fun h => ?_, fun _ _ => here⟩ indexes
  · exact absurd h (not_mem_tail nodup rfl)
  · exact absurd h (not_mem_tail nodup rfl)

theorem Pending.rollbackOperation (pending : t₀.Pending (o :: ops) t) (nodup : ((o :: ops).map Operation.rid).Nodup) :
    t₀.Pending ops (t.rollbackOperation o) := by
  obtain ⟨type, rid⟩ := o
  cases type with
  | update => exact pending.congr (fun x => by simp) fun x => by simp
  | delete =>
    obtain ⟨data, mark, before, after⟩ := (pending.records rid).deleted mem_cons_self
    have step : t.rollbackOperation ⟨.delete, rid⟩ = t.setMark rid 0 := rfl
    rw [step]
    have here : (t.setMark rid 0).records rid = some ⟨0, data⟩ := by
      rw [setMark, after]
      exact update_self ..
    refine pending.tail nodup rfl rfl (here.trans before.symm) (fun x hx => update_of_ne hx _ _) fun _ => ?_
    -- The data of the records is the same.
    have same : (t.setMark rid 0).newData ops = t.newData (⟨.delete, rid⟩ :: ops) := by
      funext x
      unfold newData
      rw [setMark_data]
      exact if_congr (by simp) rfl rfl
    rw [same]
    exact pending.indexes
  | insert =>
    obtain ⟨before, live⟩ := (pending.records rid).inserted mem_cons_self
    obtain ⟨r, live⟩ := Option.ne_none_iff_exists'.mp live
    have step : t.rollbackOperation ⟨.insert, rid⟩ = t.without rid r.data := by
      rw [rollbackOperation]
      rw [rollbackInsert, live]
      dsimp only
      rw [deleteEntryOfIndexes_present (pending.present mem_cons_self live)]
      rfl
    rw [step]
    refine pending.tail nodup rfl rfl ((update_self ..).trans before.symm) (fun x hx => update_of_ne hx _ _)
      fun rest => ?_
    have here : t.newData (⟨.insert, rid⟩ :: ops) rid = some r.data := by
      rw [newData, if_pos mem_cons_self, live]
      rfl
    have gone : (t.without rid r.data).newData ops rid = none := if_neg (not_mem_tail nodup rfl)
    exact forall₂_map_right_iff.mpr (pending.indexes.imp fun i₀ i plus => plus.remove here gone rest)

theorem Pending.rollback : ∀ {t : Table}, t₀.Pending ops t → (ops.map Operation.rid).Nodup →
    ops.foldl Table.rollbackOperation t = t₀ := by
  induction ops with
  | nil => exact fun pending _ => pending.eq
  | cons o ops ih =>
    intro t pending nodup
    exact ih (pending.rollbackOperation nodup) (nodup_cons.mp nodup).2

end

/-! ### Doing -/

section
variable {data : Bytes} {r : Record}

section
variable (pending : t₀.Pending ops t)
include pending

theorem Pending.of_none (untouched : ∀ o ∈ ops, o.rid ≠ rid) : t.records rid = t₀.records rid :=
  (pending.records rid).other (fun h => untouched _ h rfl) fun h => untouched _ h rfl

omit pending in
theorem mem_append_iff (o : Operation) {o' : Operation} (h : o'.rid ≠ o.rid) : o' ∈ ops ++ [o] ↔ o' ∈ ops := by
  rw [mem_append, mem_singleton]
  exact or_iff_left fun heq => h (congrArg Operation.rid heq)

theorem Pending.insert (untouched : ∀ o ∈ ops, o.rid ≠ rid) (free : t.records rid = none)
    (absent : ∀ i ∈ t.indexes, (i.key r.data, rid) ∉ i.entries) (nounique : t.uniqueIndexes = []) :
    t₀.Pending (ops ++ [⟨.insert, rid⟩]) (t.withEntries rid r) := by
  have here : (t.withEntries rid r).records rid = some r := update_self ..
  have added : ⟨.insert, rid⟩ ∈ ops ++ [⟨.insert, rid⟩] := mem_append_right _ (mem_singleton_self _)
  refine pending.at rfl ?_ (fun x hx => update_of_ne hx _ _) (fun o ho => mem_append_iff ⟨.insert, rid⟩ ho)
    ⟨fun _ => ?_, fun h => ?_, fun h => absurd added h⟩ fun rest => ?_
  · rw [withEntries, nounique]
    rfl
  · rw [here, ← pending.of_none untouched]
    exact ⟨free, Option.some_ne_none r⟩
  · rcases mem_append.mp h with h | h
    · exact absurd rfl (untouched _ h)
    · cases mem_singleton.mp h
  · have before : t.newData ops rid = none := if_neg fun h => untouched _ h rfl
    have self : (t.withEntries rid r).newData (ops ++ [⟨.insert, rid⟩]) rid = some r.data := by
      rw [newData, if_pos added, here]
      rfl
    exact forall₂_map_right_iff.mpr
      (forall₂_imp_mem pending.indexes absent fun i₀ i habsent plus => plus.add habsent before self rest)

theorem Pending.delete (untouched : ∀ o ∈ ops, o.rid ≠ rid) (live : t₀.records rid = some ⟨0, data⟩)
    (mark : Nat) : t₀.Pending (ops ++ [⟨.delete, rid⟩]) (t.setMark rid mark) := by
  have here : (t.setMark rid mark).records rid = some ⟨mark, data⟩ := by
    rw [setMark, pending.of_none untouched, live]
    exact update_self ..
  have insert : ∀ x, ⟨.insert, x⟩ ∈ ops ++ [⟨.delete, rid⟩] ↔ ⟨.insert, x⟩ ∈ ops := by simp
  have added : ⟨.delete, rid⟩ ∈ ops ++ [⟨.delete, rid⟩] := mem_append_right _ (mem_singleton_self _)
  refine pending.at rfl rfl (fun x hx => update_of_ne hx _ _) (fun o ho => mem_append_iff ⟨.delete, rid⟩ ho)
    ⟨fun h => ?_, fun _ => ⟨data, mark, live, here⟩, fun _ h => absurd added h⟩ fun _ => ?_
  · exact absurd rfl (untouched _ ((insert rid).mp h))
  · have same : (t.setMark rid mark).newData (ops ++ [⟨.delete, rid⟩]) = t.newData ops := by
      funext x
      unfold newData
      rw [setMark_data]
      exact if_congr (insert x) rfl rfl
    rw [same]
    exact pending.indexes

theorem Pending.change (inserted : ⟨.insert, rid⟩ ∈ ops) (once : ⟨.delete, rid⟩ ∉ ops)
    (live : t.records rid = some r) (absent : ∀ i ∈ t.indexes, (i.key data, rid) ∉ (i.remove r.data rid).entries)
    (nounique : t.uniqueIndexes = []) : t₀.Pending ops ((t.without rid r.data).withEntries rid ⟨r.mark, data⟩) := by
  set new := (t.without rid r.data).withEntries rid ⟨r.mark, data⟩ with hnew
  have here : new.records rid = some ⟨r.mark, data⟩ := update_self ..
  refine pending.at rfl ?_ (fun x hx => (update_of_ne hx _ _).trans (update_of_ne hx _ _)) (fun _ _ => .rfl)
    ⟨fun h => ?_, fun h => absurd h once, fun h => absurd inserted h⟩ fun rest => ?_
  · rw [hnew, withEntries, Table.without, nounique]
    rfl
  · rw [here]
    exact ⟨((pending.records rid).inserted h).1, Option.some_ne_none _⟩
  · have old : t.newData ops rid = some r.data := by
      rw [newData, if_pos inserted, live]
      rfl
    have self : new.newData ops rid = some data := by
      rw [newData, if_pos inserted, here]
      rfl
    -- Between the two changes the record has no entry.
    have between : ∀ x, x ≠ rid → update (t.newData ops) rid none x = t.newData ops x :=
      fun x hx => update_of_ne hx _ _
    have gone : update (t.newData ops) rid none rid = none := update_self ..
    refine forall₂_map_right_iff.mpr (forall₂_map_right_iff.mpr
      (forall₂_imp_mem pending.indexes absent fun i₀ i habsent plus => ?_))
    refine (plus.remove old gone between).add habsent gone self fun x hx => ?_
    rw [rest x hx, between x hx]

end

theorem without_withEntries (live : t.records rid = some r) (present : ∀ i ∈ t.indexes, (i.key r.data, rid) ∈ i.entries)
    (nounique : t.uniqueIndexes = []) : (t.without rid r.data).withEntries rid r = t := by
  have hrecords : update (update t.records rid none) rid (some r) = t.records := by
    rw [update_idem, ← live, update_eq_self]
  have hindexes : (t.indexes.map fun i => i.remove r.data rid).map (fun i => i.add r.data rid) = t.indexes := by
    rw [map_map]
    refine (map_congr_left fun i hi => ?_).trans (map_id _)
    exact Index.remove_add (present i hi)
  cases t
  simp only [without, withEntries, hrecords, hindexes]
  cases nounique
  rfl

end

end Table

def Table.Committed (t : Table) : Prop := ∀ rid r, t.records rid = some r → r.mark = 0

namespace TrxTable
variable {w w' : TrxTable} {t₀ : Table} {rid : RID} {filter : Bytes → Bool} {slot : FreeSlot} {data new : Bytes}
  {r : Record}

/-! ### Scans that succeed -/

theorem scanLoop_kept {reader : TrxTable → RID → Record → RC × TrxTable} {finish : RC} (inv : TrxTable → Prop)
    {rids : List RID} :
    ∀ {count : Nat} {w : TrxTable}, (∀ w rid r, rid ∈ rids → inv w → w.table.records rid = some r → w.Reads filter r →
        (reader w rid r).1 = .success → inv (reader w rid r).2) →
      inv w → (w.scanLoop filter reader finish rids count).1 = .success →
        inv (w.scanLoop filter reader finish rids count).2.2 := by
  induction rids with
  | nil => exact fun _ start _ => start
  | cons rid rids ih =>
    intro count w keep start ok
    have rest := fun w x r (hx : x ∈ rids) => keep w x r (mem_cons_of_mem rid hx)
    rw [scanLoop] at ok ⊢
    cases hrec : w.table.records rid with
    | none =>
      rw [hrec] at ok
      cases ok
    | some r =>
      rw [hrec] at ok
      dsimp only at ok ⊢
      by_cases reads : w.Reads filter r
      · rw [if_pos (reads_iff_test.mp reads)] at ok ⊢
        have next := keep w rid r mem_cons_self start hrec reads
        cases hread : reader w rid r with
        | mk rc w' =>
          rw [hread] at ok next
          by_cases hrc : rc = .success
          · subst hrc
            exact ih rest (next rfl) ok
          · exact absurd (by revert ok; cases rc <;> simp) hrc
      · rw [if_neg (mt reads_iff_test.mpr reads)] at ok ⊢
        exact ih rest start ok

/-! ### One record -/

/-- Rollback leads from here back to `t₀`. A transaction that has not started has no operations; it inserts only without
    unique indexes. -/
structure LeadsBack (t₀ : Table) (w : TrxTable) : Prop where
  pending : t₀.Pending w.trx.operations w.table
  nodup : (w.trx.operations.map Operation.rid).Nodup
  started : w.trx.trxId = 0 → w.trx.operations = []
  plain : ∀ rid, ⟨.insert, rid⟩ ∈ w.trx.operations → t₀.uniqueIndexes = []

theorem LeadsBack.rollback (back : LeadsBack t₀ w) (order : OperationOrder) : (w.rollback order.order).table = t₀ := by
  have perm := order.perm w.trx.operations
  have pending := back.pending.congr (fun x => perm.mem_iff) fun x => perm.mem_iff
  exact pending.rollback ((perm.map Operation.rid).nodup_iff.mpr back.nodup)

theorem LeadsBack.freshId (back : LeadsBack t₀ w) (committed : t₀.Committed) : w.FreshId := by
  intro hzero rid r live
  have hpending := back.pending
  rw [back.started hzero] at hpending
  rw [hpending.eq] at live
  rw [committed rid r live, Nat.zero_mod]
  exact (Nat.succ_ne_zero w.lastId).symm

theorem nodup_queue (nodup : (w.trx.operations.map Operation.rid).Nodup) (untouched : w.trx.findOperation rid = none)
    (type : OperationType) : ((w.trx.queue w.lastId type rid).operations.map Operation.rid).Nodup := by
  unfold queue
  rw [map_append, nodup_append]
  refine ⟨nodup, nodup_singleton _, ?_⟩
  intro x hx y hy
  obtain ⟨o, ho, rfl⟩ := mem_map.mp hx
  rw [mem_singleton.mp hy]
  exact findOperation_eq_none.mp untouched o ho

theorem LeadsBack.queue {table : Table} {type : OperationType} (back : LeadsBack t₀ w)
    (untouched : w.trx.findOperation rid = none) (pending : t₀.Pending (w.trx.operations ++ [⟨type, rid⟩]) table)
    (plain : type = .insert → t₀.uniqueIndexes = []) :
    LeadsBack t₀ ⟨table, w.trx.queue w.lastId type rid, (w.trx.startIfNotStarted w.lastId).2⟩ where
  pending := pending
  nodup := nodup_queue back.nodup untouched type
  started h := absurd h startIfNotStarted_ne_zero
  plain x hx := by
    rcases mem_queue.mp hx with hx | hx
    · exact back.plain x hx
    · exact plain (congrArg Operation.type hx).symm

theorem insertRecord_ok (nounique : w.table.uniqueIndexes = []) (ok : w.insertRecord slot data = (.ok rid, w')) :
    w.trx.findOperation rid = none ∧ w.table.records rid = none ∧
      (∀ i ∈ w.table.indexes, (i.key data, rid) ∉ i.entries) ∧
      w' = ⟨w.table.withEntries rid ⟨mark w.trx.trxId false, data⟩, w.trx.queue w.lastId .insert rid,
        (w.trx.startIfNotStarted w.lastId).2⟩ := by
  rcases insertRecord_cases w slot data with
    ⟨rc, heq, -⟩ | ⟨rid, r, table, hslot, untouched, heq, ⟨rc, rfl, -, -⟩ | ⟨rfl, hins, -⟩⟩
  · cases ok.symm.trans heq
  · cases ok.symm.trans heq
  · cases ok.symm.trans heq
    have absent : ∀ i ∈ w.table.indexes, (i.key data, rid) ∉ i.entries :=
      insertEntryOfIndexes_success (t := w.withRecord rid data) nounique (by rw [hins])
    have nothing : ∀ i ∈ w.table.uniqueIndexes, (i.key data, rid) ∉ i.entries := by
      rw [nounique]
      exact fun i hi => absurd hi not_mem_nil
    have run := insertRecord_absent hslot untouched absent nothing
    exact ⟨untouched, slot.fresh hslot, absent, (Prod.mk.inj (heq.symm.trans run)).2⟩

theorem insertRecord_error {rc : RC} (failed : w.insertRecord slot data = (.error rc, w')) :
    rc ≠ .success := by
  rcases insertRecord_cases w slot data with
    ⟨rc, heq, hrc⟩ | ⟨rid, r, table, -, -, heq, ⟨rc, rfl, hrc, -⟩ | ⟨rfl, -, -⟩⟩
  · cases failed.symm.trans heq
    exact hrc
  · cases failed.symm.trans heq
    exact hrc
  · cases failed.symm.trans heq

theorem LeadsBack.insertRecord (back : LeadsBack t₀ w) (nounique : w.table.uniqueIndexes = [])
    (ok : w.insertRecord slot data = (.ok rid, w')) : LeadsBack t₀ w' ∧ w'.table.uniqueIndexes = [] := by
  obtain ⟨untouched, free, absent, rfl⟩ := insertRecord_ok nounique ok
  refine ⟨back.queue untouched ?_ fun _ => back.pending.unique ▸ nounique, ?_⟩
  · exact back.pending.insert (findOperation_eq_none.mp untouched) free absent nounique
  · rw [withEntries, nounique]
    rfl

section
variable (nounique : w.table.uniqueIndexes = []) (live : w.table.records rid = some r)
  (ok : (w.updateRecord rid r.data new).1 = .success)
include nounique live ok

theorem updateRecord_ok :
    (∀ i ∈ w.table.indexes, (i.key r.data, rid) ∈ i.entries) ∧
      (∀ i ∈ w.table.indexes, (i.key new, rid) ∉ (i.remove r.data rid).entries) ∧
      (w.updateRecord rid r.data new).2 = ⟨(w.table.without rid r.data).withEntries rid ⟨r.mark, new⟩,
        (w.trx.updateRecord w.lastId rid).2.1, (w.trx.updateRecord w.lastId rid).2.2⟩ := by
  have present : ∀ i ∈ w.table.indexes, (i.key r.data, rid) ∈ i.entries := by
    refine deleteEntryOfIndexes_success ?_
    unfold updateRecord at ok
    generalize w.table.deleteEntryOfIndexes r.data rid false = del at ok ⊢
    obtain ⟨rc, table⟩ := del
    cases rc with
    | success => rfl
    | _ => cases ok
  have absent : ∀ i ∈ w.table.indexes, (i.key new, rid) ∉ (i.remove r.data rid).entries := by
    have hall : ∀ i ∈ w.table.indexes.map fun i => i.remove r.data rid, (i.key new, rid) ∉ i.entries := by
      refine insertEntryOfIndexes_success
        (t := { w.table with indexes := w.table.indexes.map fun i => i.remove r.data rid }) nounique ?_
      unfold updateRecord at ok
      rw [deleteEntryOfIndexes_present present] at ok
      dsimp only at ok
      generalize insertEntryOfIndexes _ new rid = ins at ok ⊢
      obtain ⟨rc, table⟩ := ins
      cases rc with
      | success => rfl
      | _ => cases ok
    exact fun i hi => hall _ (mem_map_of_mem hi)
  exact ⟨present, absent, by rw [updateRecord_moves nounique live present absent]⟩

theorem updateRecord_inserts (x : RID) :
    ⟨.insert, x⟩ ∈ (w.updateRecord rid r.data new).2.trx.operations ↔ ⟨.insert, x⟩ ∈ w.trx.operations := by
  obtain ⟨-, -, run⟩ := updateRecord_ok nounique live ok
  rw [run]
  rcases updateRecord_operations w.trx w.lastId rid with hops | hops
  · rw [hops]
  · rw [hops]
    simp

end

theorem LeadsBack.updateRecord (back : LeadsBack t₀ w) (nounique : w.table.uniqueIndexes = [])
    (live : w.table.records rid = some r) (harmless : ⟨.insert, rid⟩ ∈ w.trx.operations ∨ new = r.data)
    (ok : (w.updateRecord rid r.data new).1 = .success) :
    LeadsBack t₀ (w.updateRecord rid r.data new).2 ∧ (w.updateRecord rid r.data new).2.table.uniqueIndexes = [] := by
  obtain ⟨present, absent, run⟩ := updateRecord_ok nounique live ok
  have unique : ((w.table.without rid r.data).withEntries rid ⟨r.mark, new⟩).uniqueIndexes = [] := by
    rw [withEntries, Table.without, nounique]
    rfl
  rw [run]
  refine ⟨?_, unique⟩
  have pending : t₀.Pending w.trx.operations ((w.table.without rid r.data).withEntries rid ⟨r.mark, new⟩) := by
    rcases harmless with inserted | rfl
    · refine back.pending.change inserted (fun deleted => ?_) live absent nounique
      have heq := inj_on_of_nodup_map back.nodup inserted deleted rfl
      cases heq
    · rw [without_withEntries live present nounique]
      exact back.pending
  rcases updateRecord_steps w.trx w.lastId rid with htrx | ⟨untouched, htrx⟩
  · rw [htrx]
    exact ⟨pending, back.nodup, back.started, back.plain⟩
  · rw [htrx]
    exact back.queue untouched (pending.congr (fun x => by simp) fun x => by simp) fun h => by cases h

theorem LeadsBack.deleteRecord (back : LeadsBack t₀ w) (committed : t₀.Committed)
    (live : w.table.records rid = some r) (foreign : ⟨.insert, rid⟩ ∉ w.trx.operations)
    (ok : (w.deleteRecord rid).1 = .success) : LeadsBack t₀ (w.deleteRecord rid).2 := by
  cases h : w.trx.findOperation rid with
  | some o =>
    obtain ⟨ho, rfl⟩ := findOperation_some h
    rw [deleteRecord_some h] at ok
    split at ok
    next inserted =>
      rw [← inserted] at foreign
      exact absurd ho foreign
    next => cases ok
  | none =>
    have untouched := findOperation_eq_none.mp h
    have before : t₀.records rid = some ⟨0, r.data⟩ := by
      have hsame := back.pending.of_none untouched
      rw [live] at hsame
      rw [← hsame, ← committed rid r hsame.symm]
    rw [deleteRecord_none h]
    exact back.queue h (back.pending.delete untouched before _) fun h => nomatch h

theorem deleteRecord_advances : w.trx.Advances w.lastId (w.deleteRecord rid).2.trx (w.deleteRecord rid).2.lastId := by
  cases h : w.trx.findOperation rid with
  | none =>
    rw [deleteRecord_none h]
    exact queue_advances
  | some o =>
    rw [deleteRecord_some h]
    exact startIfNotStarted_advances

/-! ### Statements -/

theorem LeadsBack.insertRows (perSize : Nat) (values : List Value) (context : Nat → RowContext) {n : Nat} :
    ∀ {i : Nat} {rids : List RID} {w : TrxTable}, LeadsBack t₀ w → w.table.uniqueIndexes = [] →
      (w.insertRows perSize values context n i rids).1 = .success →
        LeadsBack t₀ (w.insertRows perSize values context n i rids).2.2 := by
  induction n with
  | zero => exact fun back _ _ => back
  | succ n ih =>
    intro i rids w back nounique ok
    rw [TrxTable.insertRows] at ok ⊢
    cases hmake : w.table.makeRecord ((values.drop (i * perSize)).take perSize) (context i).selects with
    | error rc =>
      exact back
    | ok data =>
      rw [hmake] at ok
      dsimp only at ok ⊢
      cases hins : w.insertRecord (context i).slot data with
      | mk r w' =>
        rw [hins] at ok
        cases r with
        | error rc =>
          -- The statement has failed.
          exact absurd ok (insertRecord_error hins)
        | ok rid =>
          obtain ⟨back', nounique'⟩ := back.insertRecord nounique hins
          exact ih back' nounique' ok

/-- What a statement must meet for rollback to undo it: an insertion finds no unique index, an update reads only records
    that the transaction has inserted or that it leaves as they are, without unique indexes, and a deletion reads none
    that the transaction has inserted. -/
def Undone (w : TrxTable) : TableCall → Prop
  | .insert _ _ => w.table.uniqueIndexes = []
  | .update scan filter field value => ∀ rid ∈ scan.rids, ∀ r, w.table.records rid = some r → w.Reads filter r →
      w.table.uniqueIndexes = [] ∧ (⟨.insert, rid⟩ ∈ w.trx.operations ∨
        ∀ f v, field = some f → (f.typeMatch value).2.validate = .ok v → f.overwrite r.data v = r.data)
  | .delete scan filter => ∀ rid ∈ scan.rids, ∀ r, w.table.records rid = some r → w.Reads filter r →
      ⟨.insert, rid⟩ ∉ w.trx.operations
  -- No statement of a transaction.
  | .createIndex _ _ | .createUniqueIndex _ _ _ => False

/-- What an update that rollback undoes leaves alone: every record that the transaction has not inserted. -/
structure OthersSame (w w' : TrxTable) : Prop where
  advances : w.trx.Advances w.lastId w'.trx w'.lastId
  grow : ∀ x, ⟨.insert, x⟩ ∈ w.trx.operations → ⟨.insert, x⟩ ∈ w'.trx.operations
  same : ∀ x, ⟨.insert, x⟩ ∉ w'.trx.operations → w'.table.records x = w.table.records x

section
variable (back : LeadsBack t₀ w) (committed : t₀.Committed)
include back committed

theorem LeadsBack.update {scan : Scan} {field : Option FieldMeta} {value : Value}
    (undone : w.Undone (.update scan filter field value))
    (ok : (w.update scan filter field value).1 = .success) : LeadsBack t₀ (w.update scan filter field value).2.2 := by
  rcases update_cases w scan filter field value with ⟨rc, heq⟩ | ⟨f, v, rfl, -, valid, heq⟩ <;> rw [heq] at ok ⊢
  · exact back
  refine (scanLoop_kept (fun w₁ => LeadsBack t₀ w₁ ∧ OthersSame w w₁) ?_
    ⟨back, .refl _ _, fun _ h => h, fun _ _ => rfl⟩ ok).1
  rintro w₁ rid r hrid ⟨back₁, others⟩ live reads success
  have harmless : w₁.table.uniqueIndexes = [] ∧
      (⟨.insert, rid⟩ ∈ w₁.trx.operations ∨ f.overwrite r.data v = r.data) := by
    by_cases inserted : ⟨.insert, rid⟩ ∈ w₁.trx.operations
    · exact ⟨back₁.pending.unique.trans (back₁.plain rid inserted), .inl inserted⟩
    · -- The record is as it was before the statement.
      have live₀ : w.table.records rid = some r := (others.same rid inserted).symm.trans live
      have reads₀ := ((back.freshId committed).reads_iff others.advances live₀).mp reads
      obtain ⟨nounique, own | unchanged⟩ := undone rid hrid r live₀ reads₀
      · exact absurd (others.grow rid own) inserted
      · refine ⟨?_, .inr (unchanged f v rfl valid)⟩
        rw [back₁.pending.unique, ← back.pending.unique]
        exact nounique
  obtain ⟨nounique, harmless⟩ := harmless
  obtain ⟨back₂, -⟩ := back₁.updateRecord nounique live harmless success
  obtain ⟨hrecords, advances⟩ := updateRecord_success success
  have inserts := updateRecord_inserts nounique live success
  refine ⟨back₂, others.advances.trans advances, fun x hx => (inserts x).mpr (others.grow x hx), fun x hx => ?_⟩
  rw [inserts] at hx
  rw [← others.same x hx, hrecords]
  by_cases hx' : x = rid
  · subst hx'
    have same : f.overwrite r.data v = r.data := harmless.resolve_left hx
    rw [update_self, live, Option.map_some, same]
  · exact update_of_ne hx' _ _

theorem LeadsBack.delete {scan : Scan}
    (undone : w.Undone (.delete scan filter)) (ok : (w.delete scan filter).1 = .success) :
    LeadsBack t₀ (w.delete scan filter).2.2 := by
  refine (scanLoop_kept (fun w₁ => LeadsBack t₀ w₁ ∧ InsertsSame w w₁ ∧ w.trx.Advances w.lastId w₁.trx w₁.lastId) ?_
    ⟨back, fun o ho _ => ⟨ho, rfl⟩, .refl _ _⟩ ok).1
  rintro w₁ rid r hrid ⟨back₁, inserts, advances⟩ live reads success
  refine ⟨back₁.deleteRecord committed live (fun inserted => ?_) success, inserts.deleteRecord rid,
    advances.trans deleteRecord_advances⟩
  obtain ⟨own, same⟩ := inserts _ inserted rfl
  have live₀ : w.table.records rid = some r := same.symm.trans live
  exact undone rid hrid r live₀ (((back.freshId committed).reads_iff advances live₀).mp reads) own

theorem LeadsBack.call {c : TableCall} (undone : w.Undone c)
    (ok : (w.call c).1 = .success) : LeadsBack t₀ (w.call c).2 := by
  cases c with
  | insert values context =>
    obtain ⟨rows, heq⟩ := insert_success ok
    rw [TrxTable.call, heq]
    exact back.insertRows _ values context undone rows
  | update scan filter field value => exact back.update committed undone ok
  | delete scan filter => exact back.delete committed undone ok
  | createIndex fields scan => exact undone.elim
  | createUniqueIndex f selected scan => exact undone.elim

end

def committedRow (indexes uniqueIndexes : List Index) : Table :=
  ⟨[SharedTable.column], fun rid => if rid = ⟨1, 0⟩ then some ⟨0, [7, 0, 0, 0]⟩ else none, indexes, uniqueIndexes⟩

theorem committedRow_committed (indexes uniqueIndexes : List Index) :
    (committedRow indexes uniqueIndexes).Committed := by
  intro rid r live
  dsimp only [committedRow] at live
  split at live
  · cases live
    rfl
  · cases live

def insertEight : TableCall := .insert [intValue 8] fun _ => ⟨FreeSlot.at ⟨1, 1⟩, fun _ => .nothing⟩

def updateToNine (rids : List RID) : TableCall :=
  .update ⟨rids, .success⟩ (fun _ => true) (some SharedTable.column) (intValue 9)

def deleteMet (rids : List RID) : TableCall := .delete ⟨rids, .success⟩ fun _ => true

end TrxTable

end MiniOb
