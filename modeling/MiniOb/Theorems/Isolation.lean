import MiniOb.Theorems.Rollback

/-! # Dirty reads

A scan tells a record that the writer has inserted by the number in its mark, so the writer must have its number before
it inserts, and must never mark as deleted what it has inserted. An update writes over the bytes that all see. -/

namespace MiniOb
open List TrxTable Trx Function

/-! ### Marks -/

namespace Trx
variable {n m : Nat}

def Distinct (trx : Trx) : Prop := (trx.operations.map Operation.rid).Nodup

theorem mark_false (small : n < 2 ^ 31) : mark n false = n := by
  exact Nat.mod_eq_of_lt (Nat.lt_trans small (by decide))

theorem mark_true (small : n < 2 ^ 31) : mark n true = n + 2 ^ 31 := by
  unfold mark
  rw [if_pos rfl, Nat.mod_eq_of_lt small]

theorem isVisible_zero : isVisible n 0 = true := rfl

theorem isVisible_mark (small : n < 2 ^ 31) (started : n ≠ 0) (deleted : Bool) :
    isVisible m (mark n deleted) = (decide (n = m) ^^ deleted) := by
  have below : mark n false < 2 ^ 31 := by
    rw [mark_false small]
    exact small
  have above : 2 ^ 31 ≤ mark n true := by
    exact Nat.le_add_left _ _
  unfold isVisible
  rw [mark_number small]
  by_cases own : n = m
  · subst own
    rw [if_pos (.inr rfl)]
    cases deleted with
    | false => rw [decide_eq_true below, decide_eq_true rfl, Bool.xor_false]
    | true => rw [decide_eq_false (Nat.not_lt.mpr above), decide_eq_true rfl, Bool.xor_self]
  · rw [if_neg (not_or.mpr ⟨started, own⟩)]
    cases deleted with
    | false => rw [decide_eq_false (Nat.not_le.mpr below), decide_eq_false own, Bool.xor_false]
    | true => rw [decide_eq_true above, decide_eq_false own, Bool.false_xor]

theorem mark_inj (small : n < 2 ^ 31) (small' : m < 2 ^ 31) {a b : Bool} (same : mark n a = mark m b) :
    n = m ∧ a = b := by
  have number : n = m := by
    rw [← mark_number small a, same, mark_number small' b]
  subst number
  refine ⟨rfl, ?_⟩
  cases a <;> cases b <;> simp only [mark_true small, mark_false small] at same <;> first | rfl | omega

theorem Advances.between {t t' t'' : Trx} {lastId lastId' lastId'' mark : Nat} (first : t.Advances lastId t' lastId')
    (second : t'.Advances lastId' t'' lastId'') (marked : mark = Trx.mark t'.trxId false) :
    mark = Trx.mark t.trxId false ∨ mark = Trx.mark t''.trxId false := by
  rcases first with ⟨same, -⟩ | ⟨-, started, -⟩
  · rw [← same]
    exact .inl marked
  · right
    rw [second.started, marked]
    rw [started]
    exact Nat.succ_ne_zero _

end Trx

/-- The record carries the number of a transaction that has started, without the flag. -/
def Record.InsertedBy (r : Record) (n : Nat) : Prop := n ≠ 0 ∧ r.mark = Trx.mark n false

instance (r : Record) (n : Nat) : Decidable (r.InsertedBy n) := inferInstanceAs (Decidable (_ ∧ _))

namespace TrxTable
variable {w w' w'' : TrxTable} {rid x : RID} {r : Record} {filter : Bytes → Bool} {rids left : List RID}

/-! ### What a statement does to the records -/

/-- What a statement does to the records: it removes none; a mark is what it was or has the number of the transaction,
    before or after it has started, with the flag only if there is an operation for the deletion. -/
structure Stamps (w w' : TrxTable) : Prop where
  advances : w.trx.Advances w.lastId w'.trx w'.lastId
  nodup : (w'.trx.operations.map Operation.rid).Nodup
  deletes : ∀ x, ⟨.delete, x⟩ ∈ w.trx.operations → ⟨.delete, x⟩ ∈ w'.trx.operations
  live : ∀ x r, w.table.records x = some r → ∃ r', w'.table.records x = some r'
  marks : ∀ x r', w'.table.records x = some r' → (∃ r, w.table.records x = some r ∧ r.mark = r'.mark) ∨
    r'.mark = mark w.trx.trxId false ∨ r'.mark = mark w'.trx.trxId false ∨
    (w'.trx.trxId ≠ 0 ∧ r'.mark = mark w'.trx.trxId true ∧ ⟨.delete, x⟩ ∈ w'.trx.operations)

theorem Stamps.refl (nodup : w.trx.Distinct) : Stamps w w where
  advances := .refl _ _
  nodup := nodup
  deletes _ h := h
  live _ r h := ⟨r, h⟩
  marks _ r h := .inl ⟨r, h, rfl⟩

theorem Stamps.trans (first : Stamps w w') (second : Stamps w' w'') : Stamps w w'' where
  advances := first.advances.trans second.advances
  nodup := second.nodup
  deletes x h := second.deletes x (first.deletes x h)
  live x r h := by
    obtain ⟨r', h'⟩ := first.live x r h
    exact second.live x r' h'
  marks x r'' h'' := by
    have undeleted (h : r''.mark = mark w'.trx.trxId false) := first.advances.between second.advances h
    rcases second.marks x r'' h'' with ⟨r', h', hmark⟩ | h | h | h
    · rcases first.marks x r' h' with ⟨r, h, hmark'⟩ | h | h | ⟨started, h, hop⟩
      · exact .inl ⟨r, h, hmark'.trans hmark⟩
      · exact .inr (.inl (hmark ▸ h))
      · exact .inr ((undeleted (hmark ▸ h)).imp id .inl)
      · have same := second.advances.started started
        refine .inr (.inr (.inr ⟨same ▸ started, ?_, second.deletes x hop⟩))
        rw [same, ← hmark, h]
    · exact .inr ((undeleted h).imp id .inl)
    · exact .inr (.inr (.inl h))
    · exact .inr (.inr (.inr h))

theorem insertRecord_records (w : TrxTable) (slot : FreeSlot) (data : Bytes) :
    (w.insertRecord slot data).2.table.records = w.table.records ∧ (∃ rc, (w.insertRecord slot data).1 = .error rc) ∨
      ∃ rid, w.table.records rid = none ∧ (w.insertRecord slot data).1 = .ok rid ∧
        (w.insertRecord slot data).2.table.records =
          Function.update w.table.records rid (some ⟨mark w.trx.trxId false, data⟩) := by
  rcases insertRecord_cases w slot data with
    ⟨rc, heq, -⟩ | ⟨rid, r, table, hpick, -, heq, ⟨rc, rfl, -, hsame⟩ | ⟨rfl, -, hnew⟩⟩
  · rw [heq]
    exact .inl ⟨rfl, rc, rfl⟩
  · rw [heq]
    exact .inl ⟨hsame, rc, rfl⟩
  · rw [heq]
    exact .inr ⟨rid, slot.fresh hpick, rfl, hnew⟩

/-- What the rows of an insertion have done so far: every record is as it was, and none of them is one of the rows; the
    new ones carry the number of the transaction, before or after it has started. -/
structure Adds (w : TrxTable) (rids : List RID) (w' : TrxTable) : Prop where
  advances : w.trx.Advances w.lastId w'.trx w'.lastId
  nodup : (w'.trx.operations.map Operation.rid).Nodup
  grow : ∀ o ∈ w.trx.operations, o ∈ w'.trx.operations
  keeps : ∀ x r, w.table.records x = some r → w'.table.records x = some r ∧ x ∉ rids
  new : ∀ x r, w'.table.records x = some r →
    w.table.records x = some r ∨ r.mark = mark w.trx.trxId false ∨ r.mark = mark w'.trx.trxId false

theorem Adds.refl (nodup : w.trx.Distinct) : Adds w [] w where
  advances := .refl _ _
  nodup := nodup
  grow _ h := h
  keeps _ _ h := ⟨h, not_mem_nil⟩
  new _ _ h := .inl h

theorem Adds.stamps (adds : Adds w rids w') : Stamps w w' where
  advances := adds.advances
  nodup := adds.nodup
  deletes _ h := adds.grow _ h
  live x r h := ⟨r, (adds.keeps x r h).1⟩
  marks x r h := (adds.new x r h).imp (fun h => ⟨r, h, rfl⟩) fun h => h.imp id .inl

theorem insertRecord_grow (nodup : w.trx.Distinct) (slot : FreeSlot) (data : Bytes) :
    w.trx.Advances w.lastId (w.insertRecord slot data).2.trx (w.insertRecord slot data).2.lastId ∧
      (w.insertRecord slot data).2.trx.Distinct ∧
      ∀ o ∈ w.trx.operations, o ∈ (w.insertRecord slot data).2.trx.operations := by
  rcases insertRecord_cases w slot data with ⟨rc, heq, -⟩ | ⟨rid, r, table, -, free, heq, -⟩
  · rw [heq]
    exact ⟨.refl _ _, nodup, fun _ h => h⟩
  · rw [heq]
    exact ⟨queue_advances, nodup_queue nodup free _, fun o ho => mem_queue.mpr (.inl ho)⟩

theorem Adds.insertRecord {rids' : List RID} {slot : FreeSlot} {data : Bytes} {res : Except RC RID}
    (adds : Adds w rids w') (run : w'.insertRecord slot data = (res, w''))
    (hrids : ∀ x ∈ rids', x ∈ rids ∨ res = .ok x) : Adds w rids' w'' := by
  obtain ⟨advances, nodup, grow⟩ := insertRecord_grow adds.nodup slot data
  have hrecords := insertRecord_records w' slot data
  rw [run] at advances nodup grow hrecords
  dsimp only at advances nodup grow hrecords
  have other : ∀ x r, w'.table.records x = some r → w''.table.records x = some r ∧ res ≠ .ok x := by
    intro x r live
    rcases hrecords with ⟨hrecords, rc, hrc⟩ | ⟨rid, free, hrid, hrecords⟩
    · rw [hrecords, hrc]
      exact ⟨live, fun h => nomatch h⟩
    · have hne : x ≠ rid := by
        rintro rfl
        rw [free] at live
        cases live
      rw [hrecords, hrid, update_of_ne hne]
      exact ⟨live, fun h => hne (Except.ok.inj h).symm⟩
  have new : ∀ x r, w''.table.records x = some r → w'.table.records x = some r ∨ r.mark = mark w'.trx.trxId false := by
    intro x r live
    rcases hrecords with ⟨hrecords, -⟩ | ⟨rid, -, -, hrecords⟩
    · exact .inl (hrecords ▸ live)
    · rw [hrecords, update_apply] at live
      split at live
      · cases live
        exact .inr rfl
      · exact .inl live
  refine ⟨adds.advances.trans advances, nodup, fun o ho => grow o (adds.grow o ho), fun x r live => ?_,
    fun x r live => ?_⟩
  · obtain ⟨live', absent⟩ := adds.keeps x r live
    obtain ⟨live'', hres⟩ := other x r live'
    exact ⟨live'', fun hx => (hrids x hx).elim absent hres⟩
  · rcases new x r live with live' | hmark
    · rcases adds.new x r live' with live₀ | hmark | hmark
      · exact .inl live₀
      · exact .inr (.inl hmark)
      · exact .inr (adds.advances.between advances hmark)
    · exact .inr (adds.advances.between advances hmark)

theorem rollbackInsert_other {t : Table} (hx : x ≠ rid) : (t.rollbackInsert rid).2.records x = t.records x := by
  unfold Table.rollbackInsert
  split
  · rfl
  next r₀ _ =>
    have hrecords := t.deleteEntryOfIndexes_records r₀.data rid false
    split
    next table hdel =>
      rw [hdel] at hrecords
      rw [Table.setRecord_records, hrecords, update_of_ne hx]
    next rc table _ hdel =>
      rw [hdel] at hrecords
      exact congrFun hrecords x

theorem rollbackInserts_other : ∀ {t : Table}, x ∉ rids →
    (rids.foldl (fun t rid => (t.rollbackInsert rid).2) t).records x = t.records x := by
  induction rids with
  | nil => exact fun _ => rfl
  | cons rid rids ih =>
    intro t absent
    rw [mem_cons, not_or] at absent
    rw [foldl_cons, ih absent.2, rollbackInsert_other absent.1]

section
variable (nodup : w.trx.Distinct)
include nodup

theorem insert_adds (values : List Value) (context : Nat → RowContext) :
    Adds w [] (w.insert values context).2 := by
  unfold insert
  dsimp only
  split
  · exact .refl nodup
  split
  · exact .refl nodup
  · have rows (n : Nat) : Adds w (w.insertRows w.table.fields.length values context n 0 []).2.1
        (w.insertRows w.table.fields.length values context n 0 []).2.2 := by
      refine insertRows_invariant (Adds w) (fun w' rids slot data rc w'' adds run => ?_)
        (fun w' rids slot data rid w'' adds run => ?_) (.refl nodup)
      · exact adds.insertRecord run fun x hx => .inl hx
      · refine adds.insertRecord run fun x hx => (mem_append.mp hx).imp id fun h => ?_
        rw [mem_singleton.mp h]
    specialize rows (values.length / w.table.fields.length)
    split
    next rids w' hrows =>
      rw [hrows] at rows
      exact { rows with keeps := fun x r live => ⟨(rows.keeps x r live).1, not_mem_nil⟩ }
    next rc rids w' _ hrows =>
      rw [hrows] at rows
      split
      · refine ⟨rows.advances, rows.nodup, rows.grow, fun x r live => ?_, fun x r live => ?_⟩
        · obtain ⟨live', absent⟩ := rows.keeps x r live
          exact ⟨(rollbackInserts_other absent).trans live', not_mem_nil⟩
        · exact rows.new x r (rollbackInserts_sub x live)
      · exact { rows with keeps := fun x r live => ⟨(rows.keeps x r live).1, not_mem_nil⟩ }

theorem updateRecord_stamps (old new : Bytes) :
    Stamps w (w.updateRecord rid old new).2 := by
  have grow : (w.trx.updateRecord w.lastId rid).2.1.Distinct ∧
      ∀ o ∈ w.trx.operations, o ∈ (w.trx.updateRecord w.lastId rid).2.1.operations := by
    cases h : w.trx.findOperation rid with
    | none =>
      rw [updateRecord_none h]
      exact ⟨nodup_queue nodup h _, fun o ho => mem_queue.mpr (.inl ho)⟩
    | some o =>
      by_cases deleted : o.type = .delete
      · rw [updateRecord_deleted h deleted]
        exact ⟨nodup, fun _ h => h⟩
      · rw [updateRecord_some h deleted]
        exact ⟨nodup, fun _ h => h⟩
  rcases updateRecord_cases w rid old new with ⟨rc, table, heq, -, hrecords⟩ | ⟨table, heq, hrecords⟩
  · rw [heq]
    refine ⟨.refl _ _, nodup, fun _ h => h, fun x r live => ⟨r, ?_⟩, fun x r live => .inl ⟨r, ?_, rfl⟩⟩
    · exact (congrFun hrecords x).trans live
    · exact (congrFun hrecords x).symm.trans live
  · rw [heq]
    refine ⟨updateRecord_advances, grow.1, fun x h => grow.2 _ h, fun x r live => ?_, fun x r live => .inl ?_⟩
    · rw [hrecords, update_apply]
      split
      next hx =>
        subst hx
        exact ⟨_, congrArg _ live⟩
      next => exact ⟨r, live⟩
    · rw [hrecords, update_apply] at live
      split at live
      next hx =>
        obtain ⟨r₀, live₀, rfl⟩ := Option.map_eq_some_iff.mp live
        exact ⟨r₀, hx ▸ live₀, rfl⟩
      next => exact ⟨r, live, rfl⟩

theorem deleteRecord_stamps : Stamps w (w.deleteRecord rid).2 := by
  cases h : w.trx.findOperation rid with
  | none =>
    rw [deleteRecord_none h]
    refine ⟨queue_advances, nodup_queue nodup h _, fun x hx => mem_queue.mpr (.inl hx), fun x r live => ?_,
      fun x r live => ?_⟩
    · dsimp only [Table.setMark]
      rw [update_apply]
      split
      next hx =>
        subst hx
        exact ⟨_, congrArg _ live⟩
      next => exact ⟨r, live⟩
    · dsimp only [Table.setMark] at live
      rw [update_apply] at live
      split at live
      next hx =>
        obtain ⟨r₀, -, rfl⟩ := Option.map_eq_some_iff.mp live
        refine .inr (.inr (.inr ⟨startIfNotStarted_ne_zero, rfl, mem_queue.mpr (.inr ?_)⟩))
        rw [hx]
      next => exact .inl ⟨r, live, rfl⟩
  | some o =>
    obtain ⟨ho, horid⟩ := findOperation_some h
    rw [deleteRecord_some h]
    refine ⟨startIfNotStarted_advances, nodup.sublist (filter_sublist.map _), fun x hx => ?_, fun x r live => ⟨r, live⟩,
      fun x r live => .inl ⟨r, live, rfl⟩⟩
    -- An operation that goes away is an insertion, and there is no other one for the record.
    refine mem_filter.mpr ⟨hx, decide_eq_true fun inserted hrid => ?_⟩
    have same := inj_on_of_nodup_map nodup hx ho (hrid.trans horid.symm)
    rw [← same] at inserted
    cases inserted

omit nodup in
theorem updateRecord_other {old new : Bytes} (hx : x ≠ rid) :
    (w.updateRecord rid old new).2.table.records x = w.table.records x := by
  rcases updateRecord_cases w rid old new with ⟨rc, table, heq, -, hrecords⟩ | ⟨table, heq, hrecords⟩
  · rw [heq]
    exact congrFun hrecords x
  · rw [heq]
    rw [hrecords, update_of_ne hx]

omit nodup in
theorem deleteRecord_other (hx : x ≠ rid) : (w.deleteRecord rid).2.table.records x = w.table.records x := by
  cases h : w.trx.findOperation rid with
  | none =>
    rw [deleteRecord_none h]
    exact update_of_ne hx _ _
  | some o => rw [deleteRecord_some h]

theorem scanLoop_stamps {reader : TrxTable → RID → Record → RC × TrxTable} {finish : RC} {count : Nat}
    (one : ∀ {w : TrxTable} {rid : RID} {r : Record}, w.trx.Distinct → Stamps w (reader w rid r).2) :
    Stamps w (w.scanLoop filter reader finish rids count).2.2 :=
  scanLoop_invariant (Stamps w) (fun _ _ _ stamps _ _ => stamps.trans (one stamps.nodup)) (.refl nodup)

theorem Stamps.of_records {t : Table} (same : t.records = w.table.records) :
    Stamps w { w with table := t } := by
  refine ⟨.refl _ _, nodup, fun _ h => h, fun x r live => ⟨r, ?_⟩, fun x r live => .inl ⟨r, ?_, rfl⟩⟩
  · exact (congrFun same x).trans live
  · exact (congrFun same x).symm.trans live

theorem call_stamps (c : TableCall) : Stamps w (w.call c).2 := by
  cases c with
  | insert values context => exact (insert_adds nodup values context).stamps
  | update scan filter field value =>
    dsimp only [call]
    rcases update_cases w scan filter field value with ⟨rc, heq⟩ | ⟨f, v, -, -, -, heq⟩ <;> rw [heq]
    · exact .refl nodup
    · exact scanLoop_stamps nodup fun nodup => updateRecord_stamps nodup _ _
  | delete scan filter => exact scanLoop_stamps nodup fun nodup => deleteRecord_stamps nodup
  | createIndex fields scan => exact .of_records nodup createIndex_records
  | createUniqueIndex f selected scan => exact .of_records nodup createUniqueIndex_records

end

theorem call_unseen (fresh : w.FreshId) (nodup : w.trx.Distinct) (live : w.table.records x = some r)
    (unseen : isVisible w.trx.trxId r.mark = false) (c : TableCall) : (w.call c).2.table.records x = some r := by
  have scans :
      ∀ {reader : TrxTable → RID → Record → RC × TrxTable} {finish : RC} {rids : List RID} {filter : Bytes → Bool},
      (∀ (w : TrxTable) (rid : RID) (r : Record), w.trx.Distinct → Stamps w (reader w rid r).2 ∧
        ∀ x, x ≠ rid → (reader w rid r).2.table.records x = w.table.records x) →
      (w.scanLoop filter reader finish rids 0).2.2.table.records x = some r := by
    intro reader finish rids filter one
    refine (scanLoop_invariant (fun w₁ => Stamps w w₁ ∧ w₁.table.records x = some r) ?_ ⟨.refl nodup, live⟩).2
    rintro w₁ rid r₁ ⟨stamps, same⟩ live₁ reads
    obtain ⟨stamps₁, other⟩ := one w₁ rid r₁ stamps.nodup
    refine ⟨stamps.trans stamps₁, ?_⟩
    by_cases hx : x = rid
    · subst hx
      rw [same] at live₁
      cases live₁
      have seen := reads.1
      rw [fresh.isVisible stamps.advances live, unseen] at seen
      cases seen
    · rw [other x hx]
      exact same
  cases c with
  | insert values context => exact ((insert_adds nodup values context).keeps x r live).1
  | update scan filter field value =>
    dsimp only [call]
    rcases update_cases w scan filter field value with ⟨rc, heq⟩ | ⟨f, v, -, -, -, heq⟩ <;> rw [heq]
    · exact live
    · refine scans fun w₁ rid r₁ nodup₁ => ⟨updateRecord_stamps nodup₁ _ _, fun y hy => ?_⟩
      exact updateRecord_other hy
  | delete scan filter =>
    exact scans fun w₁ rid r₁ nodup₁ => ⟨deleteRecord_stamps nodup₁, fun y hy => deleteRecord_other hy⟩
  | createIndex fields scan => exact (congrFun createIndex_records x).trans live
  | createUniqueIndex f selected scan => exact (congrFun createUniqueIndex_records x).trans live

/-! ### The table besides the insertions of a transaction -/

/-- The data at a RID, unless the transaction has inserted them. -/
def besides (w : TrxTable) (rid : RID) : Option Bytes :=
  match w.table.records rid with
  | none => none
  | some r => if r.InsertedBy w.trx.trxId then none else some r.data

theorem besides_none (free : w.table.records x = none) : w.besides x = none := by
  rw [besides, free]

theorem besides_inserted (live : w.table.records x = some r) (inserted : r.InsertedBy w.trx.trxId) :
    w.besides x = none := by
  rw [besides, live]
  exact if_pos inserted

theorem besides_other (live : w.table.records x = some r) (other : ¬r.InsertedBy w.trx.trxId) :
    w.besides x = some r.data := by
  rw [besides, live]
  exact if_neg other

theorem insertedBy_advances (fresh : w.FreshId) (range : w.InRange)
    (advances : w.trx.Advances w.lastId w'.trx w'.lastId) (live : w.table.records x = some r) :
    r.InsertedBy w'.trx.trxId ↔ r.InsertedBy w.trx.trxId := by
  rcases advances with ⟨same, -⟩ | ⟨hzero, started, -⟩
  · rw [same]
  · refine ⟨fun inserted => ?_, fun inserted => absurd hzero inserted.1⟩
    have hne := fresh hzero x r live
    rw [inserted.2, started, mark_number (range.2 hzero)] at hne
    exact absurd rfl hne

theorem besides_same (fresh : w.FreshId) (range : w.InRange) (advances : w.trx.Advances w.lastId w'.trx w'.lastId)
    (same : w'.table.records x = w.table.records x) : w'.besides x = w.besides x := by
  cases hrec : w.table.records x with
  | none => rw [besides_none hrec, besides_none (same.trans hrec)]
  | some r =>
    have inserted_iff := insertedBy_advances fresh range advances hrec
    by_cases inserted : r.InsertedBy w.trx.trxId
    · rw [besides_inserted hrec inserted, besides_inserted (same.trans hrec) (inserted_iff.mpr inserted)]
    · rw [besides_other hrec inserted, besides_other (same.trans hrec) (mt inserted_iff.mp inserted)]

/-- What a statement of the writer must meet to stay hidden: it inserts only after the transaction has started, changes
    no record of others, and takes a record of its own back only once. -/
def Hides (w : TrxTable) : TableCall → Prop
  | .insert _ _ => w.trx.trxId ≠ 0
  | .update scan filter field value => ∀ rid ∈ scan.rids, ∀ r, w.table.records rid = some r → w.Reads filter r →
      r.InsertedBy w.trx.trxId ∨ ∀ f v, field = some f → (f.typeMatch value).2.validate = .ok v →
        f.overwrite r.data v = r.data
  | .delete scan filter => ∀ rid ∈ scan.rids, ∀ r, w.table.records rid = some r → w.Reads filter r →
      r.InsertedBy w.trx.trxId → ⟨.insert, rid⟩ ∈ w.trx.operations ∧ scan.rids.count rid ≤ 1
  | .createIndex _ _ | .createUniqueIndex _ _ _ => True

theorem insert_besides {values : List Value} {context : Nat → RowContext} (nodup : w.trx.Distinct)
    (started : w.trx.trxId ≠ 0) (x : RID) : (w.insert values context).2.besides x = w.besides x := by
  have adds := insert_adds nodup values context
  have same := adds.advances.started started
  cases hrec : w.table.records x with
  | some r =>
    rw [besides, besides, (adds.keeps x r hrec).1, hrec, same]
  | none =>
    rw [besides_none hrec]
    cases hrec' : (w.insert values context).2.table.records x with
    | none => exact besides_none hrec'
    | some r =>
      refine besides_inserted hrec' ⟨same ▸ started, ?_⟩
      rcases adds.new x r hrec' with live | hmark | hmark
      · rw [hrec] at live
        cases live
      · rw [hmark, same]
      · exact hmark

/-- What an update has done so far: new data in records that the transaction has inserted. -/
structure Overwrites (w w' : TrxTable) : Prop where
  stamps : Stamps w w'
  records : ∀ x, w'.table.records x = w.table.records x ∨
    ∃ r data, w.table.records x = some r ∧ r.InsertedBy w.trx.trxId ∧ w'.table.records x = some { r with data }

theorem Overwrites.besides (overwrites : Overwrites w w') (fresh : w.FreshId) (range : w.InRange) (x : RID) :
    w'.besides x = w.besides x := by
  have advances := overwrites.stamps.advances
  rcases overwrites.records x with same | ⟨r, data, live, inserted, live'⟩
  · exact besides_same fresh range advances same
  · rw [besides_inserted live inserted]
    exact besides_inserted live' ((insertedBy_advances fresh range advances live).mpr inserted)

theorem Overwrites.updateRecord {new : Bytes} (overwrites : Overwrites w w') (live : w'.table.records rid = some r)
    (harmless : w.table.records rid = some r → r.InsertedBy w.trx.trxId ∨ new = r.data) :
    Overwrites w (w'.updateRecord rid r.data new).2 := by
  refine ⟨overwrites.stamps.trans (updateRecord_stamps overwrites.stamps.nodup _ _), fun x => ?_⟩
  by_cases hx : x = rid
  · subst hx
    rcases updateRecord_cases w' x r.data new with ⟨rc, table, heq, -, hrecords⟩ | ⟨table, heq, hrecords⟩
    · rw [heq]
      rw [hrecords]
      exact overwrites.records x
    · rw [heq]
      rw [hrecords, update_self, live, Option.map_some]
      rcases overwrites.records x with same | ⟨r₀, data, live₀, inserted, live'⟩
      · rw [live] at same
        rcases harmless same.symm with inserted | rfl
        · exact .inr ⟨r, new, same.symm, inserted, rfl⟩
        · exact .inl same
      · rw [live] at live'
        cases live'
        exact .inr ⟨r₀, new, live₀, inserted, rfl⟩
  · rw [updateRecord_other hx]
    exact overwrites.records x

theorem update_besides {scan : Scan} {field : Option FieldMeta} {value : Value} (nodup : w.trx.Distinct)
    (fresh : w.FreshId) (range : w.InRange) (hides : w.Hides (.update scan filter field value)) (x : RID) :
    (w.update scan filter field value).2.2.besides x = w.besides x := by
  rcases update_cases w scan filter field value with ⟨rc, heq⟩ | ⟨f, v, rfl, -, valid, heq⟩ <;> rw [heq]
  have loop : ∃ left : List RID, (∀ rid ∈ left, rid ∈ scan.rids) ∧ Overwrites w
      (w.scanLoop filter (fun w rid r => w.updateRecord rid r.data (f.overwrite r.data v)) scan.finish
        scan.rids 0).2.2 := by
    refine scanLoop_remaining (fun left w' => (∀ rid ∈ left, rid ∈ scan.rids) ∧ Overwrites w w')
      (fun w' rid left inv => ?_)
      (fun w' rid left r inv live reads => ?_) ⟨fun _ h => h, .refl nodup, fun _ => .inl rfl⟩
    · exact ⟨fun x hx => inv.1 x (mem_cons_of_mem rid hx), inv.2⟩
    · refine ⟨fun x hx => inv.1 x (mem_cons_of_mem rid hx), inv.2.updateRecord live fun live₀ => ?_⟩
      have reads₀ := (fresh.reads_iff inv.2.stamps.advances live₀).mp reads
      exact (hides rid (inv.1 rid mem_cons_self) r live₀ reads₀).imp id fun same => same f v rfl valid
  obtain ⟨-, -, overwrites⟩ := loop
  exact overwrites.besides fresh range x

/-- What a deletion of the writer has done so far, with the RIDs that it has still to meet. -/
structure Deletes (w : TrxTable) (filter : Bytes → Bool) (left : List RID) (w' : TrxTable) : Prop where
  stamps : Stamps w w'
  records : ∀ x, w'.table.records x = w.table.records x ∨ ∃ r, w.table.records x = some r ∧ ¬r.InsertedBy w.trx.trxId ∧
    w'.trx.trxId ≠ 0 ∧ w'.table.records x = some ⟨mark w'.trx.trxId true, r.data⟩
  pending : ∀ rid ∈ left, ∀ r, w.table.records rid = some r → w.Reads filter r → r.InsertedBy w.trx.trxId →
    ⟨.insert, rid⟩ ∈ w'.trx.operations ∧ left.count rid ≤ 1

theorem Deletes.pass (deletes : Deletes w filter (rid :: left) w') : Deletes w filter left w' := by
  refine { deletes with pending := fun x hx r live reads inserted => ?_ }
  obtain ⟨hop, hcount⟩ := deletes.pending x (mem_cons_of_mem rid hx) r live reads inserted
  exact ⟨hop, Nat.le_trans count_le_count_cons hcount⟩

theorem Deletes.besides (deletes : Deletes w filter left w') (fresh : w.FreshId) (range : w.InRange) (x : RID) :
    w'.besides x = w.besides x := by
  have advances := deletes.stamps.advances
  rcases deletes.records x with same | ⟨r, live, other, started, live'⟩
  · exact besides_same fresh range advances same
  · have small := (range.advances advances).1
    rw [besides_other live other, besides_other live']
    rintro ⟨-, inserted⟩
    dsimp only at inserted
    cases (mark_inj small small inserted).2

theorem Deletes.started {left : List RID} (deletes : Deletes w filter left w')
    (advances : w'.trx.Advances w'.lastId w''.trx w''.lastId) (same : w''.table.records x = w'.table.records x) :
    w''.table.records x = w.table.records x ∨ ∃ r, w.table.records x = some r ∧ ¬r.InsertedBy w.trx.trxId ∧
      w''.trx.trxId ≠ 0 ∧ w''.table.records x = some ⟨mark w''.trx.trxId true, r.data⟩ := by
  rw [same]
  rcases deletes.records x with hsame | ⟨r, live, other, started, live'⟩
  · exact .inl hsame
  · rw [advances.started started]
    exact .inr ⟨r, live, other, started, live'⟩

theorem Deletes.deleteRecord (deletes : Deletes w filter (rid :: left) w') (range : w.InRange) (fresh : w.FreshId)
    (live : w'.table.records rid = some r) (reads : w'.Reads filter r) :
    Deletes w filter left (w'.deleteRecord rid).2 := by
  have one : Stamps w' (w'.deleteRecord rid).2 := deleteRecord_stamps deletes.stamps.nodup
  -- What the record was before the statement.
  have before : w.table.records rid = some r := by
    rcases deletes.records rid with same | ⟨r₀, -, -, -, live'⟩
    · exact same.symm.trans live
    · rw [live] at live'
      cases live'
      have seen := reads.1
      rw [isVisible_deleted (range.advances deletes.stamps.advances).1] at seen
      cases seen
  have reads₀ := (fresh.reads_iff deletes.stamps.advances before).mp reads
  refine ⟨deletes.stamps.trans one, fun x => ?_, fun x hx r₀ live₀ reads' inserted => ?_⟩
  · by_cases hx : x = rid
    · subst hx
      cases h : w'.trx.findOperation x with
      | none =>
        refine .inr ⟨r, before, fun inserted => ?_, ?_⟩
        · obtain ⟨hop, -⟩ := deletes.pending x mem_cons_self r before reads₀ inserted
          exact findOperation_eq_none.mp h _ hop rfl
        · rw [deleteRecord_none h]
          refine ⟨startIfNotStarted_ne_zero, ?_⟩
          dsimp only [Table.setMark]
          rw [update_self, live]
          rfl
      | some o =>
        refine deletes.started one.advances ?_
        rw [deleteRecord_some h]
    · exact deletes.started one.advances (deleteRecord_other hx)
  · obtain ⟨hop, hcount⟩ := deletes.pending x (mem_cons_of_mem rid hx) r₀ live₀ reads' inserted
    have hne : x ≠ rid := by
      rintro rfl
      rw [count_cons_self] at hcount
      have hpos := count_pos_iff.mpr hx
      omega
    refine ⟨?_, Nat.le_trans count_le_count_cons hcount⟩
    cases h : w'.trx.findOperation rid with
    | none =>
      rw [deleteRecord_none h]
      exact mem_queue.mpr (.inl hop)
    | some o =>
      rw [deleteRecord_some h]
      exact mem_filter.mpr ⟨hop, decide_eq_true fun _ => hne⟩

theorem delete_besides {scan : Scan} (nodup : w.trx.Distinct) (fresh : w.FreshId) (range : w.InRange)
    (hides : w.Hides (.delete scan filter)) (x : RID) : (w.delete scan filter).2.2.besides x = w.besides x := by
  obtain ⟨left, deletes⟩ : ∃ left, Deletes w filter left (w.delete scan filter).2.2 := by
    refine scanLoop_remaining (Deletes w filter) (fun _ _ _ deletes => deletes.pass)
      (fun _ _ _ _ deletes live reads => deletes.deleteRecord range fresh live reads) ?_
    exact ⟨.refl nodup, fun _ => .inl rfl, hides⟩
  exact deletes.besides fresh range x

theorem call_besides {c : TableCall} (nodup : w.trx.Distinct) (fresh : w.FreshId) (range : w.InRange)
    (hides : w.Hides c) (x : RID) : (w.call c).2.besides x = w.besides x := by
  cases c with
  | insert values context => exact insert_besides nodup hides x
  | update scan filter field value => exact update_besides nodup fresh range hides x
  | delete scan filter => exact delete_besides nodup fresh range hides x
  | createIndex fields scan => exact besides_same fresh range (.refl _ _) (congrFun createIndex_records x)
  | createUniqueIndex f selected scan =>
    exact besides_same fresh range (.refl _ _) (congrFun createUniqueIndex_records x)

end TrxTable

namespace SharedTable
variable {s : SharedTable} {who : Nat} {members : Nat → Prop}

/-! ### Transactions on one table -/

/-- Every mark is clear or has the number of one of the transactions that work on the table, and no two have the
    same. -/
structure Known (members : Nat → Prop) (s : SharedTable) : Prop where
  nodup : ∀ x, members x → ((s.trxs x).operations.map Operation.rid).Nodup
  bounded : ∀ x, members x → (s.trxs x).trxId ≤ s.lastId
  distinct : ∀ x y, members x → members y → x ≠ y → (s.trxs x).trxId ≠ 0 → (s.trxs x).trxId ≠ (s.trxs y).trxId
  marks : ∀ rid r, s.table.records rid = some r → r.mark = 0 ∨
    ∃ x, members x ∧ (s.trxs x).trxId ≠ 0 ∧ ∃ deleted, r.mark = mark (s.trxs x).trxId deleted
  range : s.lastId < 2 ^ 31

theorem Known.small (known : s.Known members) (member : members who) : (s.trxs who).trxId < 2 ^ 31 :=
  Nat.lt_of_le_of_lt (known.bounded who member) known.range

theorem Known.inRange (known : s.Known members) (member : members who) (more : s.lastId + 1 < 2 ^ 31) :
    (s.view who).InRange :=
  ⟨known.small member, fun _ => more⟩

theorem Known.freshId (known : s.Known members) (who : Nat) : (s.view who).FreshId := by
  intro _ rid r live
  rcases known.marks rid r live with hmark | ⟨x, member, -, deleted, hmark⟩
  · rw [hmark]
    exact (Nat.succ_ne_zero s.lastId).symm
  · rw [hmark, mark_number (known.small member)]
    exact Nat.ne_of_lt (Nat.lt_succ_of_le (known.bounded x member))

theorem step_table : (s.step (who, .call c)).table = ((s.view who).call c).2.table := rfl

theorem step_self : (s.step (who, .call c)).trxs who = ((s.view who).call c).2.trx := update_self ..

theorem step_other (hx : x ≠ who) : (s.step (who, .call c)).trxs x = s.trxs x :=
  update_of_ne hx _ _

theorem step_marks (nodup : (s.trxs who).Distinct) (live : (s.step (who, .call c)).table.records rid = some r) :
    (∃ r₀, s.table.records rid = some r₀ ∧ r₀.mark = r.mark) ∨ r.mark = 0 ∨
      ((s.step (who, .call c)).trxs who).trxId ≠ 0 ∧ ∃ deleted,
        r.mark = mark ((s.step (who, .call c)).trxs who).trxId deleted ∧
        (deleted = true → ⟨.delete, rid⟩ ∈ ((s.step (who, .call c)).trxs who).operations) := by
  have stamps : Stamps (s.view who) ((s.view who).call c).2 := call_stamps nodup c
  rw [step_self]
  rcases stamps.marks rid r live with before | hmark | hmark | ⟨started, hmark, hop⟩
  · exact .inl before
  · by_cases hzero : (s.view who).trx.trxId = 0
    · rw [hzero] at hmark
      exact .inr (.inl hmark)
    · rw [stamps.advances.started hzero]
      exact .inr (.inr ⟨hzero, false, hmark, fun h => nomatch h⟩)
  · by_cases hzero : ((s.view who).call c).2.trx.trxId = 0
    · rw [hzero] at hmark
      exact .inr (.inl hmark)
    · exact .inr (.inr ⟨hzero, false, hmark, fun h => nomatch h⟩)
  · exact .inr (.inr ⟨started, true, hmark, fun _ => hop⟩)

theorem Known.step (known : s.Known members) (member : members who) (more : s.lastId + 1 < 2 ^ 31) (c : TableCall) :
    (s.step (who, .call c)).Known members := by
  have stamps : Stamps (s.view who) ((s.view who).call c).2 := @call_stamps (s.view who) (known.nodup who member) c
  have hlast : (s.step (who, .call c)).lastId = s.lastId ∨ (s.step (who, .call c)).lastId = s.lastId + 1 :=
    stamps.advances.imp And.right fun h => h.2.2
  -- The number of the transaction: the one it had, or a new one.
  have number : (((s.step (who, .call c)).trxs who).trxId = (s.trxs who).trxId) ∨
      ((s.step (who, .call c)).trxs who).trxId = s.lastId + 1 ∧ (s.step (who, .call c)).lastId = s.lastId + 1 := by
    rw [step_self]
    exact stamps.advances.imp And.left fun h => h.2
  have started : (s.trxs who).trxId ≠ 0 → ((s.step (who, .call c)).trxs who).trxId = (s.trxs who).trxId := by
    rw [step_self]
    exact stamps.advances.started
  refine ⟨fun x hx => ?_, fun x hx => ?_, fun x y hx hy hne hid => ?_, fun rid r live => ?_, ?_⟩
  · by_cases hwho : x = who
    · subst hwho
      rw [step_self]
      exact stamps.nodup
    · rw [step_other hwho]
      exact known.nodup x hx
  · have bound := known.bounded x hx
    by_cases hwho : x = who
    · subst hwho
      rcases number with same | ⟨new, last⟩ <;> omega
    · rw [step_other hwho]
      omega
  · have boundx := known.bounded x hx
    have boundy := known.bounded y hy
    by_cases hxw : x = who
    · subst hxw
      rw [step_other hne.symm]
      rcases number with same | ⟨new, -⟩
      · rw [same] at hid ⊢
        exact known.distinct x y hx hy hne hid
      · omega
    · rw [step_other hxw] at hid ⊢
      by_cases hyw : y = who
      · subst hyw
        rcases number with same | ⟨new, -⟩
        · rw [same]
          exact known.distinct x y hx hy hne hid
        · omega
      · rw [step_other hyw]
        exact known.distinct x y hx hy hne hid
  · rcases step_marks (known.nodup who member) live with ⟨r₀, live₀, hmark⟩ | hzero | ⟨hid, deleted, hmark, -⟩
    · rw [← hmark]
      rcases known.marks rid r₀ live₀ with hzero | ⟨x, hx, hid, deleted, hmark₀⟩
      · exact .inl hzero
      · refine .inr ⟨x, hx, ?_⟩
        by_cases hwho : x = who
        · subst hwho
          rw [started hid]
          exact ⟨hid, deleted, hmark₀⟩
        · rw [step_other hwho]
          exact ⟨hid, deleted, hmark₀⟩
    · exact .inl hzero
    · exact .inr ⟨who, member, hid, deleted, hmark⟩
  · omega

variable {writer reader : Nat}

/-! ### A writer and a reader -/

/-- What a scan by the transaction returns for a slot: the bytes of its record, if the record is visible. -/
def sees (s : SharedTable) (who : Nat) (rid : RID) : Option Bytes :=
  match s.table.records rid with
  | none => none
  | some r => if isVisible (s.trxs who).trxId r.mark then some r.data else none

def data (s : SharedTable) (rid : RID) : Option Bytes := (s.table.records rid).map (·.data)

/-- What a transaction that may see `own` may see after a statement of its own: what it has written too. -/
def written (s : SharedTable) (own : RID → Option Bytes) (s' : SharedTable) (rid : RID) : Option Bytes :=
  if s'.data rid = s.data rid then own rid else s'.data rid

/-- A statement of one of the two. Beside the table goes what the reader may see: only its own statements change it. -/
def observe (reader : Nat) (o : SharedTable × (RID → Option Bytes)) (move : Nat × TableCall) :
    SharedTable × (RID → Option Bytes) :=
  let s' := o.1.step (move.1, .call move.2)
  (s', if move.1 = reader then o.1.written o.2 s' else o.2)

/-- The statement is one of the reader, or one of the writer that meets the condition. Numbers have not run out. -/
def Discreet (writer reader : Nat) (o : SharedTable × (RID → Option Bytes)) (move : Nat × TableCall) : Prop :=
  o.1.lastId + 1 < 2 ^ 31 ∧ (move.1 = reader ∨ move.1 = writer ∧ (o.1.view writer).Hides move.2)

/-- What holds between the two: the reader may see what is in the table besides the insertions of the writer, and has an
    operation for every record that it has deleted. -/
structure Isolated (writer reader : Nat) (s : SharedTable) (own : RID → Option Bytes) : Prop where
  known : s.Known fun x => x = writer ∨ x = reader
  deletes : ∀ rid r, s.table.records rid = some r → (s.trxs reader).trxId ≠ 0 →
    r.mark = mark (s.trxs reader).trxId true → ⟨.delete, rid⟩ ∈ (s.trxs reader).operations
  own : ∀ rid, own rid = (s.view writer).besides rid

theorem Known.marked (known : s.Known members) {y : Nat} (hx : members x) (hy : members y)
    (started : (s.trxs x).trxId ≠ 0) {mark : Nat} {a b : Bool} (hmark : mark = Trx.mark (s.trxs x).trxId a)
    (hmark' : mark = Trx.mark (s.trxs y).trxId b) : x = y ∧ a = b := by
  obtain ⟨number, flag⟩ := mark_inj (known.small hx) (known.small hy) (hmark.symm.trans hmark')
  refine ⟨?_, flag⟩
  by_contra hne
  exact known.distinct x y hx hy hne started number

theorem Known.marked_ne_zero (known : s.Known members) (hx : members x) (started : (s.trxs x).trxId ≠ 0)
    {mark : Nat} {a : Bool} (hmark : mark = Trx.mark (s.trxs x).trxId a) : mark ≠ 0 := by
  rintro rfl
  have number := mark_number (known.small hx) a
  rw [← hmark] at number
  exact started number.symm

variable {own : RID → Option Bytes} {c : TableCall} {x : Nat} {rid : RID} {r : Record}

section
variable (isolated : Isolated writer reader s own)
include isolated

theorem Isolated.writes (hne : writer ≠ reader) (more : s.lastId + 1 < 2 ^ 31)
    (hides : (s.view writer).Hides c) : Isolated writer reader (s.step (writer, .call c)) own := by
  have known := isolated.known
  have nodup : (s.view writer).trx.Distinct := known.nodup writer (.inl rfl)
  have known' := known.step (.inl rfl) more c
  have hreader : (s.step (writer, .call c)).trxs reader = s.trxs reader := step_other hne.symm
  refine ⟨known', fun rid r live started hmark => ?_, fun rid => ?_⟩
  · -- The writer does not make marks with the number of the reader.
    rcases step_marks nodup live with ⟨r₀, live₀, same⟩ | hzero | ⟨-, deleted, hmark', -⟩
    · rw [hreader] at started hmark ⊢
      exact isolated.deletes rid r₀ live₀ started (same.trans hmark)
    · exact absurd hzero (known'.marked_ne_zero (.inr rfl) started hmark)
    · exact absurd (known'.marked (.inr rfl) (.inl rfl) started hmark hmark').1.symm hne
  · have same := call_besides nodup (known.freshId writer) (known.inRange (.inl rfl) more) hides rid
    rw [isolated.own rid, ← same]
    dsimp only [besides, view]
    rw [step_self, step_table]
    rfl

theorem Isolated.insertedBy_before (hne : writer ≠ reader)
    (more : s.lastId + 1 < 2 ^ 31) (live : (s.step (reader, .call c)).table.records rid = some r)
    (inserted : r.InsertedBy (s.trxs writer).trxId) :
    ∃ r₀, s.table.records rid = some r₀ ∧ r₀.InsertedBy (s.trxs writer).trxId := by
  have known' := isolated.known.step (.inr rfl) more c
  have hwriter : (s.step (reader, .call c)).trxs writer = s.trxs writer := step_other hne
  obtain ⟨started, hmark⟩ := inserted
  rw [← hwriter] at started hmark
  rcases step_marks (isolated.known.nodup reader (.inr rfl)) live with ⟨r₀, live₀, same⟩ | hzero
    | ⟨-, deleted, hmark', -⟩
  · rw [hwriter] at started hmark
    exact ⟨r₀, live₀, started, same.trans hmark⟩
  · exact absurd hzero (known'.marked_ne_zero (.inl rfl) started hmark)
  · exact absurd (known'.marked (.inl rfl) (.inr rfl) started hmark hmark').1 hne

omit isolated in
theorem Known.unseen {y : Nat} (known : s.Known members) (hx : members x) (hy : members y) (hne : x ≠ y)
    (inserted : r.InsertedBy (s.trxs x).trxId) : isVisible (s.trxs y).trxId r.mark = false := by
  rw [inserted.2, isVisible_mark (known.small hx) inserted.1]
  simp [known.distinct x y hx hy hne inserted.1]

theorem Isolated.unseen (hne : writer ≠ reader)
    (inserted : r.InsertedBy (s.trxs writer).trxId) : Trx.isVisible (s.trxs reader).trxId r.mark = false :=
  isolated.known.unseen (.inl rfl) (.inr rfl) hne inserted

omit isolated in
theorem written_besides {s' : SharedTable} (hown : own rid = (s.view writer).besides rid)
    (before : ∀ r', s'.table.records rid = some r' → r'.InsertedBy (s'.trxs writer).trxId →
      ∃ r, s.table.records rid = some r ∧ r.InsertedBy (s.trxs writer).trxId)
    (stays : ∀ r, s.table.records rid = some r → r.InsertedBy (s.trxs writer).trxId →
      s'.table.records rid = some r ∧ r.InsertedBy (s'.trxs writer).trxId)
    (live : ∀ r, s.table.records rid = some r → ∃ r', s'.table.records rid = some r') :
    s.written own s' rid = (s'.view writer).besides rid := by
  unfold written data
  rw [hown]
  cases hrec : s.table.records rid with
  | none =>
    cases hrec' : s'.table.records rid with
    | none => rw [if_pos rfl, besides_none hrec, besides_none hrec']
    | some r' =>
      have other : ¬r'.InsertedBy (s'.trxs writer).trxId := by
        intro inserted
        obtain ⟨r, live, -⟩ := before r' hrec' inserted
        rw [hrec] at live
        cases live
      rw [if_neg (fun h => nomatch h), besides_other hrec' other]
      rfl
  | some r =>
    by_cases inserted : r.InsertedBy (s.trxs writer).trxId
    · obtain ⟨hrec', inserted'⟩ := stays r hrec inserted
      rw [hrec', if_pos rfl, besides_inserted hrec inserted, besides_inserted hrec' inserted']
    · obtain ⟨r', hrec'⟩ := live r hrec
      have other : ¬r'.InsertedBy (s'.trxs writer).trxId := by
        intro inserted'
        obtain ⟨r₀, live₀, inserted₀⟩ := before r' hrec' inserted'
        rw [hrec] at live₀
        cases live₀
        exact inserted inserted₀
      rw [besides_other hrec inserted, besides_other hrec' other, hrec']
      split
      next same => exact same.symm
      next => rfl

theorem Isolated.reads (hne : writer ≠ reader) (more : s.lastId + 1 < 2 ^ 31) :
    Isolated writer reader (s.step (reader, .call c)) (s.written own (s.step (reader, .call c))) := by
  have known := isolated.known
  have nodup : (s.view reader).trx.Distinct := known.nodup reader (.inr rfl)
  have known' := known.step (.inr rfl) more c
  have hwriter : (s.step (reader, .call c)).trxs writer = s.trxs writer := step_other hne
  have stamps : Stamps (s.view reader) ((s.view reader).call c).2 := call_stamps nodup c
  refine ⟨known', fun rid r live started hmark => ?_, fun rid => ?_⟩
  · rcases step_marks nodup live with ⟨r₀, live₀, same⟩ | hzero | ⟨-, deleted, hmark', hop⟩
    · by_cases hid : (s.trxs reader).trxId = 0
      · -- No mark has the number that the reader has just got.
        rcases known.marks rid r₀ live₀ with hzero | ⟨x, rfl | rfl, hx, deleted, hmark₀⟩
        · exact absurd (same.symm.trans hzero) (known'.marked_ne_zero (.inr rfl) started hmark)
        · rw [← hwriter] at hmark₀
          exact absurd (known'.marked (.inr rfl) (.inl rfl) started hmark (same.symm.trans hmark₀)).1.symm hne
        · exact absurd hid hx
      · rw [step_self] at hmark ⊢
        rw [stamps.advances.started hid] at hmark
        exact stamps.deletes rid (isolated.deletes rid r₀ live₀ hid (same.trans hmark))
    · exact absurd hzero (known'.marked_ne_zero (.inr rfl) started hmark)
    · exact hop (known'.marked (.inr rfl) (.inr rfl) started hmark hmark').2.symm
  · refine written_besides (isolated.own rid) (fun r' live inserted => ?_) (fun r live inserted => ?_) (stamps.live rid)
    · rw [hwriter] at inserted
      exact isolated.insertedBy_before hne more live inserted
    · rw [hwriter]
      exact ⟨call_unseen (known.freshId reader) nodup live (isolated.unseen hne inserted) c, inserted⟩

theorem Isolated.sees (hne : writer ≠ reader) :
    (∀ rid bytes, s.sees reader rid = some bytes → own rid = some bytes) ∧
      ∀ rid bytes, own rid = some bytes → ⟨.delete, rid⟩ ∉ (s.trxs reader).operations →
        s.sees reader rid = some bytes := by
  have known := isolated.known
  refine ⟨fun rid bytes seen => ?_, fun rid bytes may kept => ?_⟩
  · rw [isolated.own rid]
    unfold SharedTable.sees at seen
    split at seen
    next => cases seen
    next r live =>
      split at seen
      next visible =>
        cases seen
        refine besides_other live fun inserted => ?_
        rw [isolated.unseen hne inserted] at visible
        cases visible
      next => cases seen
  · rw [isolated.own rid] at may
    cases hrec : s.table.records rid with
    | none =>
      rw [besides_none hrec] at may
      cases may
    | some r =>
      by_cases inserted : r.InsertedBy (s.trxs writer).trxId
      · rw [besides_inserted hrec inserted] at may
        cases may
      · rw [besides_other hrec inserted] at may
        rw [SharedTable.sees, hrec]
        refine (if_pos ?_).trans may
        rcases known.marks rid r hrec with hzero | ⟨x, rfl | rfl, hid, deleted, hmark⟩
        · rw [hzero]
          exact isVisible_zero
        · have other := known.distinct x reader (.inl rfl) (.inr rfl) hne hid
          rw [hmark, isVisible_mark (known.small (.inl rfl)) hid]
          cases deleted with
          | true => simp [other]
          | false => exact absurd ⟨hid, hmark⟩ inserted
        · rw [hmark, isVisible_mark (known.small (.inr rfl)) hid]
          cases deleted with
          | true => exact absurd (isolated.deletes rid r hrec hid hmark) kept
          | false => simp

end

theorem Known.start (committed : s.table.Committed) (idle : ∀ x, members x → s.trxs x = ⟨0, []⟩)
    (range : s.lastId < 2 ^ 31) : s.Known members := by
  refine ⟨fun x hx => ?_, fun x hx => ?_, fun x y hx _ _ started => ?_, fun rid r live => .inl (committed rid r live),
    range⟩
  · rw [idle x hx]
    exact nodup_nil
  · rw [idle x hx]
    exact Nat.zero_le _
  · rw [idle x hx] at started
    exact absurd rfl started

theorem Isolated.start (committed : s.table.Committed) (idle : ∀ x, x = writer ∨ x = reader → s.trxs x = ⟨0, []⟩)
    (range : s.lastId < 2 ^ 31) : Isolated writer reader s s.data := by
  refine ⟨.start committed idle range, fun rid r _ started => ?_, fun rid => ?_⟩
  · rw [idle reader (.inr rfl)] at started
    exact absurd rfl started
  · cases hrec : s.table.records rid with
    | none =>
      rw [besides_none hrec, data, hrec]
      rfl
    | some r =>
      rw [besides_other hrec, data, hrec]
      · rfl
      · dsimp only [view]
        rw [idle writer (.inl rfl)]
        exact fun inserted => inserted.1 rfl

/-- In every run of the statements of a writer and a reader, from a committed table, in which all statements of the
    writer meet the condition: what the reader sees is committed or its own, and it sees all of that but what it has
    deleted itself. -/
theorem no_dirty_reads {s₀ : SharedTable} {moves : List (Nat × TableCall)} (hne : writer ≠ reader)
    (committed : s₀.table.Committed) (idle : ∀ x, x = writer ∨ x = reader → s₀.trxs x = ⟨0, []⟩)
    (range : s₀.lastId < 2 ^ 31) (meets : Run.Meets (observe reader) (Discreet writer reader) (s₀, s₀.data) moves) :
    let o := Run.run (observe reader) (s₀, s₀.data) moves
    (∀ rid bytes, o.1.sees reader rid = some bytes → o.2 rid = some bytes) ∧
      ∀ rid bytes, o.2 rid = some bytes → ⟨.delete, rid⟩ ∉ (o.1.trxs reader).operations →
          o.1.sees reader rid = some bytes := by
  intro o
  have isolated : Isolated writer reader o.1 o.2 := by
    refine Run.invariant (fun o => Isolated writer reader o.1 o.2) (fun o move isolated ok => ?_) ?_ meets
    · obtain ⟨who, c⟩ := move
      obtain ⟨more, rfl | ⟨rfl, hides⟩⟩ := ok
      · dsimp only [observe]
        rw [if_pos rfl]
        exact isolated.reads hne more
      · dsimp only [observe]
        rw [if_neg hne]
        exact isolated.writes hne more hides
    · exact .start committed idle range
  exact isolated.sees hne

def committedTable : SharedTable := ⟨committedRow [] [], fun _ => ⟨0, []⟩, 0⟩

/-- The writer deletes the committed record, inserts one and updates it; the reader still sees the committed record and
    nothing else. -/
def hiddenRun : List (Nat × TableCall) :=
  [(0, deleteMet [⟨1, 0⟩]), (0, insertEight), (0, updateToNine [⟨1, 1⟩])]

theorem no_dirty_reads_hiddenRun :
    Run.Meets (observe 1) (Discreet 0 1) (committedTable, committedTable.data) hiddenRun ∧
      let o := Run.run (observe 1) (committedTable, committedTable.data) hiddenRun
      (∀ rid bytes, o.1.sees 1 rid = some bytes → o.2 rid = some bytes) ∧
        ∀ rid bytes, o.2 rid = some bytes → ⟨.delete, rid⟩ ∉ (o.1.trxs 1).operations → o.1.sees 1 rid = some bytes := by
  have meets : Run.Meets (observe 1) (Discreet 0 1) (committedTable, committedTable.data) hiddenRun := by
    refine ⟨⟨by decide, .inr ⟨rfl, ?_⟩⟩, ⟨by decide +kernel, .inr ⟨rfl, ?_⟩⟩, ⟨by decide +kernel, .inr ⟨rfl, ?_⟩⟩,
      trivial⟩
    · intro rid _ r _ _ inserted
      exact absurd rfl inserted.1
    · have started : ((committedTable.step (0, .call (deleteMet [⟨1, 0⟩]))).view 0).trx.trxId = 1 := by decide +kernel
      exact started ▸ Nat.one_ne_zero
    · intro rid hrid r live _
      cases mem_singleton.mp hrid
      have here : (Run.run (observe 1) (committedTable, committedTable.data)
          [(0, deleteMet [⟨1, 0⟩]), (0, insertEight)]).1.table.records ⟨1, 1⟩ = some ⟨1, [8, 0, 0, 0]⟩ := by
        decide +kernel
      cases here.symm.trans live
      exact .inl (by decide +kernel)
  exact ⟨meets, no_dirty_reads (by decide) (committedRow_committed _ _) (fun _ _ => rfl) (by decide) meets⟩

/-- What the reader sees of a writer that has not committed: the record that it has inserted first, the new value of the
    committed record, and a record that it has inserted and deleted twice. -/
theorem dirty_reads :
    let after (moves : List (Nat × TableCall)) : SharedTable :=
  (Run.run (observe 1) (committedTable, committedTable.data) moves).1
    (after [(0, insertEight)]).sees 1 ⟨1, 1⟩ = some [8, 0, 0, 0] ∧
      (after [(0, updateToNine [⟨1, 0⟩])]).sees 1 ⟨1, 0⟩ = some [9, 0, 0, 0] ∧
      (after [(0, deleteMet [⟨1, 0⟩]), (0, insertEight)]).sees 1 ⟨1, 1⟩ = none ∧
      (after [(0, deleteMet [⟨1, 0⟩]), (0, insertEight), (0, deleteMet [⟨1, 1⟩]),
        (0, deleteMet [⟨1, 1⟩])]).sees 1 ⟨1, 1⟩ = some [8, 0, 0, 0] := by
  exact ⟨by decide +kernel, by decide +kernel, by decide +kernel, by decide +kernel⟩

/-- Statements of any number of transactions; a transaction that begins draws a number. -/
def calls (s : SharedTable) (move : Nat × TableCall) : SharedTable := s.step (move.1, .call move.2)

theorem Known.untouched {owner : Nat} (known : s.Known fun _ => True) (live : s.table.records rid = some r)
    (inserted : r.InsertedBy (s.trxs owner).trxId) (other : who ≠ owner) (c : TableCall) :
    (s.step (who, .call c)).table.records rid = some r := by
  rw [step_table]
  exact call_unseen (known.freshId who) (known.nodup who trivial) live
    (known.unseen trivial trivial other.symm inserted) c

/-- Any number of transactions on a committed table, in any interleaving: what one of them has inserted, no statement of
    the others changes or removes while it is open. -/
theorem inserted_untouched {owner : Nat} {s₀ : SharedTable} {before after : List (Nat × TableCall)}
    (committed : s₀.table.Committed) (idle : ∀ x, s₀.trxs x = ⟨0, []⟩) (range : s₀.lastId < 2 ^ 31)
    (meets : Run.Meets calls (fun s _ => s.lastId + 1 < 2 ^ 31) s₀ before)
    (later : Run.Meets calls (fun s move => s.lastId + 1 < 2 ^ 31 ∧ move.1 ≠ owner) (Run.run calls s₀ before) after)
    (live : (Run.run calls s₀ before).table.records rid = some r)
    (inserted : r.InsertedBy ((Run.run calls s₀ before).trxs owner).trxId) :
    (Run.run calls s₀ (before ++ after)).table.records rid = some r := by
  have known : (Run.run calls s₀ before).Known fun _ => True :=
    Run.invariant (Known fun _ => True) (fun _ move known more => known.step trivial more move.2)
      (.start committed (fun x _ => idle x) range) meets
  have kept := Run.invariant
    (fun s => s.Known (fun _ => True) ∧ s.table.records rid = some r ∧ r.InsertedBy (s.trxs owner).trxId)
    (fun s move ⟨known, live, inserted⟩ ⟨more, other⟩ => ⟨known.step trivial more move.2,
      known.untouched live inserted other move.2, by rwa [calls, step_other other.symm]⟩)
    ⟨known, live, inserted⟩ later
  rw [Run.run, foldl_append]
  exact kept.2.1

theorem inserted_untouched_delete :
    (Run.run calls committedTable [(0, deleteMet [⟨1, 0⟩]), (0, insertEight), (1, updateToNine [⟨1, 1⟩]),
      (2, deleteMet [⟨1, 1⟩])]).table.records ⟨1, 1⟩ = some ⟨1, [8, 0, 0, 0]⟩ :=
  @inserted_untouched ⟨1, 1⟩ ⟨1, [8, 0, 0, 0]⟩ 0 committedTable [(0, deleteMet [⟨1, 0⟩]), (0, insertEight)]
    [(1, updateToNine [⟨1, 1⟩]), (2, deleteMet [⟨1, 1⟩])] (committedRow_committed _ _) (fun _ => rfl) (by decide)
    (by decide +kernel) (by decide +kernel) (by decide +kernel) (by decide +kernel)

end SharedTable

end MiniOb
