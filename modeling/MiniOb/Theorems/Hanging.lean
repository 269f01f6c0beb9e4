import MiniOb.Server.Server
import MiniOb.Theorems.Marks

/-! # Transactions that are left hanging

A statement that fails is not rolled back, so it must fail before it leaves an operation; and a connection must not be
closed with operations pending. -/

namespace MiniOb
open Function Table Trx TrxTable Run List
variable {values : List Value} {rid : RID} {r : Record} {s' : Server} {t : Table}

namespace TrxTable
variable {w : TrxTable} {filter : Bytes → Bool}

theorem scanLoop_finishes {reader : TrxTable → RID → Record → RC × TrxTable} {finish : RC} (inv : TrxTable → Prop)
    (keep : ∀ w rid r, inv w → w.table.records rid = some r → w.Reads filter r →
      (reader w rid r).1 = .success ∧ inv (reader w rid r).2) :
    ∀ {rids : List RID} {count : Nat} {w : TrxTable}, inv w →
      (∀ w, inv w → ∀ rid ∈ rids, w.table.records rid ≠ none) → (w.scanLoop filter reader finish rids count).1 = finish
  | [], _, _, _, _ => rfl
  | rid :: rids, count, w, start, live => by
    have later : ∀ w, inv w → ∀ x ∈ rids, w.table.records x ≠ none :=
      fun w h x hx => live w h x (mem_cons_of_mem rid hx)
    rw [scanLoop]
    cases hrec : w.table.records rid with
    | none => exact absurd hrec (live w start rid mem_cons_self)
    | some r =>
      dsimp only
      split
      next reads =>
        obtain ⟨hrc, next⟩ := keep w rid r start hrec (reads_iff_test.mpr reads)
        cases hread : reader w rid r with
        | mk rc w' =>
          rw [hread] at hrc next
          cases hrc
          exact scanLoop_finishes inv keep next later
      next => exact scanLoop_finishes inv keep start later

/-! ### Statements that finish -/

/-- Each of the rows from row `i` on gets into the table that the rows before leave: `make_record` accepts it, and it
    gets a slot that the transaction has no operation for and no index an entry. -/
def Fits (perSize : Nat) (values : List Value) (context : Nat → RowContext) : Nat → Nat → TrxTable → Prop
  | 0, _, _ => True
  | n + 1, i, w =>
    ¬w.table.Refuses ((values.drop (i * perSize)).take perSize) (context i).selects ∧
    (∃ rid, (context i).slot.pick w.table.records = .ok rid ∧ (∀ o ∈ w.trx.operations, o.rid ≠ rid) ∧
      ∀ j ∈ w.table.indexes ++ w.table.uniqueIndexes, ∀ key, (key, rid) ∉ j.entries) ∧
    ∀ data, w.table.makeRecord ((values.drop (i * perSize)).take perSize) (context i).selects = .ok data →
      Fits perSize values context n (i + 1) (w.insertRecord (context i).slot data).2

theorem insertRows_fits {perSize : Nat} {context : Nat → RowContext} :
    ∀ {n i : Nat} {rids : List RID} {w : TrxTable}, w.table.fields.length = perSize →
      (i + n) * perSize ≤ values.length →
      Fits perSize values context n i w → (w.insertRows perSize values context n i rids).1 = .success
  | 0, _, _, _, _, _, _ => rfl
  | n + 1, i, rids, w, hfields, hlength, ⟨accepted, ⟨rid, hpick, hpending, absent⟩, rest⟩ => by
    have hrow : ((values.drop (i * perSize)).take perSize).length = w.table.fields.length := by
      have hle : i * perSize + perSize ≤ values.length := by
        refine le_trans ?_ hlength
        rw [← Nat.succ_mul]
        exact Nat.mul_le_mul_right _ (Nat.add_le_add_left (Nat.succ_le_succ (Nat.zero_le n)) i)
      rw [length_take, length_drop, hfields]
      exact Nat.min_eq_left (Nat.le_sub_of_add_le' hle)
    obtain ⟨data, hdata⟩ := makeRecord_ok hrow accepted
    have hins : w.insertRecord (context i).slot data = _ :=
      insertRecord_absent hpick (findOperation_eq_none.mpr hpending)
      (fun j hj => absent j (mem_append_left _ hj) _) (fun j hj => absent j (mem_append_right _ hj) _)
    have hrest := rest data hdata
    rw [insertRows, hdata]
    dsimp only
    rw [hins] at hrest ⊢
    refine insertRows_fits hfields ?_ hrest
    rw [Nat.add_right_comm, Nat.add_assoc]
    exact hlength

def Rejected (field : Option FieldMeta) (value : Value) : Prop :=
  ∀ f, field = some f → (f.typeMatch value).1 = false ∨ ∃ rc, (f.typeMatch value).2.validate = .error rc

/-- What a statement must meet not to fail halfway, with no operation pending before it. -/
def Finishes (w : TrxTable) : TableCall → Prop
  | .insert values context => w.KeptOut values context ∨
      w.Fits w.table.fields.length values context (values.length / w.table.fields.length) 0
  | .update scan filter field value => Rejected field value ∨
      (∀ rid ∈ scan.rids, ∀ r, w.table.records rid = some r → ¬w.Reads filter r) ∨
      (w.table.uniqueIndexes = [] ∧ w.table.RegularSynced ∧ (∀ rid ∈ scan.rids, w.table.records rid ≠ none) ∧
        scan.finish = .success)
  | .delete scan filter => (∀ rid ∈ scan.rids, ∀ r, w.table.records rid = some r → ¬w.Reads filter r) ∨
      ((∀ rid ∈ scan.rids, w.table.records rid ≠ none) ∧ scan.finish = .success)
  | .createIndex _ _ | .createUniqueIndex _ _ _ => True

theorem insert_finishes {context : Nat → RowContext} (idle : w.trx.operations = [])
    (finishes : w.Finishes (.insert values context)) :
    (w.insert values context).1 = .success ∨ (w.insert values context).2.trx.operations = [] := by
  by_cases out : w.KeptOut values context
  · rw [insert_keptOut out]
    exact .inr idle
  · have fits := finishes.resolve_left out
    unfold KeptOut at out
    push Not at out
    obtain ⟨hnil, hlength, -⟩ := out
    have rows : (w.insertRows w.table.fields.length values context (values.length / w.table.fields.length) 0 []).1 =
      .success :=
      insertRows_fits rfl (by rw [Nat.zero_add]; exact Nat.div_mul_le_self _ _) fits
    refine .inl ?_
    unfold insert
    dsimp only
    rw [if_neg hnil, if_neg (not_not.mpr hlength)]
    cases hrows : w.insertRows w.table.fields.length values context (values.length / w.table.fields.length) 0 [] with
    | mk rc rest =>
      rw [hrows] at rows
      cases rows
      rfl

/-- The state of an update outside a transaction: its own operations are updates, and the indexes are in step. -/
structure Updating (rids : List RID) (w : TrxTable) : Prop where
  nounique : w.table.uniqueIndexes = []
  synced : w.table.RegularSynced
  updates : ∀ o ∈ w.trx.operations, o.type = .update
  live : ∀ rid ∈ rids, w.table.records rid ≠ none

theorem Updating.updateRecord {rids : List RID} (updating : Updating rids w) (live : w.table.records rid = some r)
    (new : Bytes) : (w.updateRecord rid r.data new).1 = .success ∧ Updating rids (w.updateRecord rid r.data new).2 := by
  rw [updateRecord_regular updating.synced updating.nounique live]
  have ok : (w.trx.updateRecord w.lastId rid).1 = .success ∧
      ∀ o ∈ (w.trx.updateRecord w.lastId rid).2.1.operations, o.type = .update := by
    cases h : w.trx.findOperation rid with
    | none =>
      rw [updateRecord_none h]
      refine ⟨rfl, fun o ho => ?_⟩
      rcases mem_queue.mp ho with ho | rfl
      · exact updating.updates o ho
      · rfl
    | some o =>
      have htype := updating.updates o (findOperation_some h).1
      rw [updateRecord_some h (by rw [htype]; exact fun h => nomatch h)]
      exact ⟨rfl, updating.updates⟩
  refine ⟨ok.1, ?_, (updating.synced.without live).withEntries (update_self ..) _, ok.2, fun x hx => ?_⟩
  · dsimp only [withEntries, without]
    rw [updating.nounique]
    rfl
  · dsimp only [withEntries, without]
    rw [update_idem, update_apply]
    split
    · exact Option.some_ne_none _
    · exact updating.live x hx

theorem update_finishes {scan : Scan} {field : Option FieldMeta} {value : Value} (idle : w.trx.operations = [])
    (finishes : w.Finishes (.update scan filter field value)) :
    (w.update scan filter field value).1 = .success ∨ (w.update scan filter field value).2.2.trx.operations = [] := by
  rcases update_cases w scan filter field value with ⟨rc, heq⟩ | ⟨f, v, rfl, matched, valid, heq⟩ <;> rw [heq]
  · exact .inr idle
  rcases finishes with rejected | misses | ⟨nounique, synced, live, hfinish⟩
  · rcases rejected f rfl with hno | ⟨rc, hrc⟩
    · exact absurd hno matched
    · rw [hrc] at valid
      cases valid
  · rw [scanLoop_noHit misses]
    exact .inr idle
  · have start : Updating scan.rids w :=
      ⟨nounique, synced, by rw [idle]; exact fun o ho => absurd ho not_mem_nil, live⟩
    refine .inl (Eq.trans ?_ hfinish)
    exact scanLoop_finishes (Updating scan.rids) (fun w rid r updating hrec _ => updating.updateRecord hrec _) start
      fun w updating => updating.live

/-- The state of a deletion outside a transaction: the records of its operations are invisible to it. -/
structure Deleting (rids : List RID) (w : TrxTable) : Prop where
  range : w.InRange
  idle : w.trx.trxId = 0 → w.trx.operations = []
  gone : ∀ o ∈ w.trx.operations, ∀ r, w.table.records o.rid = some r → isVisible w.trx.trxId r.mark = false
  live : ∀ rid ∈ rids, w.table.records rid ≠ none

theorem Deleting.deleteRecord {rids : List RID} (deleting : Deleting rids w)
    (live : w.table.records rid = some r) (visible : isVisible w.trx.trxId r.mark = true) :
    (w.deleteRecord rid).1 = .success ∧ Deleting rids (w.deleteRecord rid).2 := by
  have pending : ∀ o ∈ w.trx.operations, o.rid ≠ rid := by
    rintro o ho rfl
    have hgone := deleting.gone o ho r live
    rw [visible] at hgone
    cases hgone
  rw [deleteRecord_none (findOperation_eq_none.mpr pending)]
  have range : InRange ⟨w.table, (w.trx.startIfNotStarted w.lastId).1, (w.trx.startIfNotStarted w.lastId).2⟩ :=
    deleting.range.advances startIfNotStarted_advances
  refine ⟨rfl, range, fun hzero => absurd hzero startIfNotStarted_ne_zero, fun o ho r' hrec => ?_, fun x hx hnone => ?_⟩
  · dsimp only [Table.setMark] at hrec
    rw [update_apply] at hrec
    split at hrec
    next =>
      obtain ⟨_, -, rfl⟩ := Option.map_eq_some_iff.mp hrec
      exact isVisible_deleted range.1
    next hne =>
      have ho : o ∈ w.trx.operations := by
        rcases mem_queue.mp ho with ho | rfl
        · exact ho
        · exact absurd rfl hne
      have started : w.trx.trxId ≠ 0 := by
        intro hzero
        rw [deleting.idle hzero] at ho
        exact absurd ho not_mem_nil
      have hid : (w.trx.queue w.lastId .delete rid).trxId = w.trx.trxId := queue_advances.started started
      rw [hid]
      exact deleting.gone o ho r' hrec
  · have hsame := setMark_data w.table rid (mark (w.trx.startIfNotStarted w.lastId).1.trxId true) x
    rw [hnone] at hsame
    exact deleting.live x hx (Option.map_eq_none_iff.mp hsame.symm)

theorem delete_finishes {scan : Scan} (idle : w.trx.operations = []) (range : w.InRange)
    (finishes : w.Finishes (.delete scan filter)) :
    (w.delete scan filter).1 = .success ∨ (w.delete scan filter).2.2.trx.operations = [] := by
  unfold delete
  rcases finishes with misses | ⟨live, hfinish⟩
  · rw [scanLoop_noHit misses]
    exact .inr idle
  · have start : Deleting scan.rids w :=
      ⟨range, fun _ => idle, by rw [idle]; exact fun o ho => absurd ho not_mem_nil, live⟩
    refine .inl (Eq.trans ?_ hfinish)
    exact scanLoop_finishes (Deleting scan.rids) (fun w rid r deleting hrec reads => deleting.deleteRecord hrec reads.1)
      start fun w deleting => deleting.live

theorem call_finishes {c : TableCall} (idle : w.trx.operations = []) (range : w.InRange) (finishes : w.Finishes c) :
    (w.call c).1 = .success ∨ (w.call c).2.trx.operations = [] := by
  cases c with
  | insert values context => exact insert_finishes idle finishes
  | update scan filter field value => exact update_finishes idle finishes
  | delete scan filter => exact delete_finishes idle range finishes
  | createIndex fields scan => exact .inr idle
  | createUniqueIndex field selected scan => exact .inr idle

end TrxTable

namespace Server
variable {s : Server} {who k : Nat} {w : TrxTable}

/-! ### Marks and the sessions that hold them -/

def Foreign (s : Server) (who k : Nat) (rid : RID) (n : Nat) : Prop :=
  ∃ other, other ≠ who ∧ (s.sessions other).trxId = n ∧ (Trx.mk n ((s.sessions other).operations k)).Holds rid

/-- Every number in a mark is that of a session that holds the record. The numbers of the sessions have been drawn, and
    no two sessions have the same. -/
structure Accounted (s : Server) : Prop where
  owned : ∀ k rid r, (s.tables k).records rid = some r → r.trxId ≠ 0 →
    ∃ who, (s.sessions who).trxId = r.trxId ∧ (Trx.mk r.trxId ((s.sessions who).operations k)).Holds rid
  small : s.lastId < 2 ^ 31
  drawn : ∀ who, (s.sessions who).trxId ≤ s.lastId
  distinct : ∀ who other, (s.sessions who).trxId = (s.sessions other).trxId → (s.sessions who).trxId ≠ 0 → who = other

section
variable (accounted : s.Accounted)
include accounted

theorem Accounted.view (who k : Nat) : (s.view who k).Owned (s.Foreign who k) := by
  intro rid r live marked
  obtain ⟨owner, hid, holds⟩ := accounted.owned k rid r live marked
  by_cases hwho : owner = who
  · subst hwho
    exact .inl ⟨hid.symm, holds⟩
  · exact .inr ⟨owner, hwho, hid, holds⟩

theorem Accounted.inRange (who k : Nat) (more : s.lastId + 1 < 2 ^ 31) : (s.view who k).InRange :=
  ⟨Nat.lt_of_le_of_lt (accounted.drawn who) accounted.small, fun _ => more⟩

omit accounted in
@[simp] theorem put_session_other {other : Nat} (hne : other ≠ who) :
    (s.put who k w).sessions other = s.sessions other := update_of_ne hne _ _

omit accounted in
@[simp] theorem put_session_self : (s.put who k w).sessions who = { s.sessions who with
    trxId := w.trx.trxId, operations := update (s.sessions who).operations k w.trx.operations } :=
  update_self ..

theorem Accounted.put (more : s.lastId + 1 < 2 ^ 31)
    (kept : Kept (s.Foreign who k) (s.view who k) w) : (s.put who k w).Accounted := by
  have advances : Advances ⟨(s.sessions who).trxId, _⟩ s.lastId w.trx w.lastId := kept.advances
  have hlast : s.lastId ≤ w.lastId ∧ w.lastId ≤ s.lastId + 1 ∧ w.trx.trxId ≤ w.lastId := by
    rcases advances with ⟨hid, hlast⟩ | ⟨-, hid, hlast⟩
    · rw [hid, hlast]
      exact ⟨le_rfl, Nat.le_succ _, accounted.drawn who⟩
    · rw [hid, hlast]
      exact ⟨Nat.le_succ _, le_rfl, le_rfl⟩
  -- A number that somebody else has is not the one that the session has now.
  have apart : ∀ other, other ≠ who → (s.sessions other).trxId = w.trx.trxId → w.trx.trxId = 0 := by
    intro other hne heq
    by_contra hzero
    rcases advances with ⟨hid, -⟩ | ⟨-, hid, -⟩
    · exact hne (accounted.distinct other who (heq.trans hid) (heq ▸ hzero))
    · have := accounted.drawn other
      rw [heq, hid] at this
      exact absurd this (Nat.not_succ_le_self _)
  refine ⟨fun k' rid r live marked => ?_, Nat.lt_of_le_of_lt hlast.2.1 more, fun x => ?_, fun x y heq hne => ?_⟩
  · by_cases hk : k' = k
    · subst hk
      dsimp only [Server.put] at live
      rw [update_self] at live
      rcases kept.owned rid r live marked with ⟨hid, holds⟩ | ⟨other, hne, hid, holds⟩
      · refine ⟨who, by rw [put_session_self, hid], ?_⟩
        rw [put_session_self]
        dsimp only
        rw [update_self]
        exact holds
      · refine ⟨other, by rw [put_session_other hne, hid], ?_⟩
        rw [put_session_other hne]
        exact holds
    · dsimp only [Server.put] at live
      rw [update_of_ne hk] at live
      obtain ⟨owner, hid, holds⟩ := accounted.owned k' rid r live marked
      refine ⟨owner, ?_⟩
      by_cases hwho : owner = who
      · subst hwho
        rw [put_session_self]
        dsimp only
        rw [update_of_ne hk]
        exact ⟨(advances.started (hid ▸ marked)).trans hid, holds⟩
      · rw [put_session_other hwho]
        exact ⟨hid, holds⟩
  · by_cases hx : x = who
    · subst hx
      rw [put_session_self]
      exact hlast.2.2
    · rw [put_session_other hx]
      exact le_trans (accounted.drawn x) hlast.1
  · by_cases hx : x = who
    · subst hx
      by_cases hy : y = x
      · exact hy.symm
      · rw [put_session_self, put_session_other hy] at heq
        rw [put_session_self] at hne
        exact absurd (apart y hy heq.symm) hne
    · rw [put_session_other hx] at heq hne
      by_cases hy : y = who
      · subst hy
        rw [put_session_self] at heq
        exact absurd (heq.trans (apart x hx heq)) hne
      · rw [put_session_other hy] at heq
        exact accounted.distinct x y heq hne

theorem Accounted.ended (self : s'.sessions who = { s.sessions who with trxId := 0, operations := fun _ => [] })
    (others : ∀ other, other ≠ who → s'.sessions other = s.sessions other) (last : s'.lastId = s.lastId)
    (cleared : ∀ k rid r, (s'.tables k).records rid = some r → r.trxId ≠ 0 →
      (s.tables k).records rid = some r ∧ ∀ o ∈ (s.sessions who).operations k, o.rid = rid → o.type = .update) :
    s'.Accounted := by
  have number : ∀ x, (s'.sessions x).trxId ≠ 0 → x ≠ who ∧ s'.sessions x = s.sessions x := by
    intro x hne
    have hx : x ≠ who := by
      rintro rfl
      rw [self] at hne
      exact hne rfl
    exact ⟨hx, others x hx⟩
  refine ⟨fun k rid r live marked => ?_, last ▸ accounted.small, fun x => ?_, fun x y heq hne => ?_⟩
  · obtain ⟨live, updates⟩ := cleared k rid r live marked
    obtain ⟨owner, hid, o, ho, horid, htype⟩ := accounted.owned k rid r live marked
    have hwho : owner ≠ who := by
      rintro rfl
      exact htype (updates o ho horid)
    refine ⟨owner, ?_⟩
    rw [others owner hwho]
    exact ⟨hid, o, ho, horid, htype⟩
  · by_cases hx : (s'.sessions x).trxId = 0
    · rw [hx]
      exact Nat.zero_le _
    · rw [(number x hx).2, last]
      exact accounted.drawn x
  · obtain ⟨-, hx⟩ := number x hne
    obtain ⟨-, hy⟩ := number y (heq ▸ hne)
    rw [hx, hy] at heq
    rw [hx] at hne
    exact accounted.distinct x y heq hne

theorem Accounted.commit (order : Nat → OperationOrder) : (s.commit who order).Accounted := by
  refine accounted.ended (update_self ..) (fun other hne => update_of_ne hne _ _) rfl
    fun k rid r live marked => ?_
  obtain ⟨live, updates⟩ := commit_cleared live marked
  exact ⟨live, fun o ho => updates o (((order k).perm _).mem_iff.mpr ho)⟩

theorem Accounted.rollback (order : Nat → OperationOrder)
    (undoable : ∀ k, (s.tables k).Undoable ((s.sessions who).operations k)) : (s.rollback who order).Accounted := by
  refine accounted.ended (update_self ..) (fun other hne => update_of_ne hne _ _) rfl
    fun k rid r live marked => ?_
  obtain ⟨live, updates⟩ := rollback_cleared ((undoable k).perm ((order k).perm _)) live marked
  exact ⟨live, fun o ho => updates o (((order k).perm _).mem_iff.mpr ho)⟩

theorem Accounted.setTable
    (sub : ∀ rid r, t.records rid = some r → r.trxId ≠ 0 → (s.tables k).records rid = some r) :
    (s.setTable k t).Accounted := by
  refine ⟨fun k' rid r live marked => ?_, accounted.small, accounted.drawn, accounted.distinct⟩
  dsimp only [Server.setTable] at live
  rw [update_apply] at live
  split at live
  next hk =>
    subst hk
    exact accounted.owned k' rid r (sub rid r live marked) marked
  next => exact accounted.owned k' rid r live marked

theorem Accounted.congr (tables : s'.tables = s.tables) (last : s'.lastId = s.lastId)
    (same : ∀ x, (s'.sessions x).trxId = (s.sessions x).trxId ∧
      (s'.sessions x).operations = (s.sessions x).operations) :
    s'.Accounted := by
  refine ⟨fun k rid r live marked => ?_, last ▸ accounted.small, fun x => ?_, fun x y heq hne => ?_⟩
  · rw [tables] at live
    obtain ⟨owner, hid, holds⟩ := accounted.owned k rid r live marked
    refine ⟨owner, (same owner).1.trans hid, ?_⟩
    rw [(same owner).2]
    exact holds
  · rw [(same x).1, last]
    exact accounted.drawn x
  · rw [(same x).1, (same y).1] at heq
    rw [(same x).1] at hne
    exact accounted.distinct x y heq hne

end

end Server

theorem Table.loadRow_sub {context : RowContext}
    (live : (t.loadRow values context).records rid = some r) (marked : r.trxId ≠ 0) : t.records rid = some r := by
  unfold loadRow at live
  split at live
  · exact live
  next data _ =>
    split at live
    · exact live
    next slot _ =>
      have same : ((t.setRecord slot (some ⟨0, data⟩)).insertEntryOfIndexes data slot).2.records rid = some r →
          t.records rid = some r := by
        intro hrid
        rw [insertEntryOfIndexes_records, setRecord_records, update_apply] at hrid
        split at hrid
        next =>
          cases hrid
          exact absurd rfl marked
        next => exact hrid
      split at live
      next table hins => exact same (by rw [hins]; exact live)
      next rc table _ hins =>
        dsimp only [setRecord] at live
        rw [update_apply, deleteEntryOfIndexes_records] at live
        split at live
        next => cases live
        next => exact same (by rw [hins]; exact live)

theorem Table.loadRows_sub (marked : r.trxId ≠ 0) : ∀ {rows : List (List Value × RowContext)} {t : Table},
    (rows.foldl (fun t row => t.loadRow row.1 row.2) t).records rid = some r → t.records rid = some r
  | [], _, live => live
  | _ :: _, _, live => loadRow_sub (loadRows_sub marked live) marked

namespace Server
variable {s : Server} {who k : Nat} {order : Nat → OperationOrder} {x : Nat} {rc : RC} {event : Nat × Event}

/-! ### Steps of a server -/

/-- No session has an operation pending outside the multi-operation mode, or after its end. -/
def Idle (s : Server) : Prop :=
  ∀ who, (s.sessions who).multi = false ∨ (s.sessions who).closed = true → ∀ k, (s.sessions who).operations k = []

/-- What a step must meet: there are numbers left, no mark is lost, a statement outside the multi-operation mode does
    not fail halfway, and nothing is pending when a table is dropped or a connection closed. -/
def StepOk (s : Server) (event : Nat × Event) : Prop :=
  match event.2 with
  | .statement (.call k c) _ => s.lastId + 1 < 2 ^ 31 ∧ (s.view event.1 k).Accountable c ∧
      ((s.sessions event.1).multi = false → (s.view event.1 k).Finishes c)
  | .statement .rollback _ => ∀ k, (s.tables k).Undoable ((s.sessions event.1).operations k)
  | .statement (.dropTable k _) _ => ∀ who, (s.sessions who).operations k = []
  | .statement _ _ => True
  | .close => ∀ k, (s.sessions event.1).operations k = []

structure Orderly (s : Server) : Prop where
  accounted : s.Accounted
  idle : s.Idle

theorem Orderly.of_self (orderly : s.Orderly) (accounted : s'.Accounted)
    (others : ∀ x, x ≠ who → s'.sessions x = s.sessions x) (self : (s'.sessions who).multi = false ∨
      (s'.sessions who).closed = true → ∀ k, (s'.sessions who).operations k = []) :
    s'.Orderly := by
  refine ⟨accounted, fun x h k => ?_⟩
  by_cases hx : x = who
  · subst hx
    exact self h k
  · rw [others x hx] at h ⊢
    exact orderly.idle x h k

@[simp] theorem commit_session_other (hx : x ≠ who) :
    (s.commit who order).sessions x = s.sessions x := update_of_ne hx _ _

@[simp] theorem commit_session_self :
    (s.commit who order).sessions who = { s.sessions who with trxId := 0, operations := fun _ => [] } := update_self ..

@[simp] theorem rollback_session_other (hx : x ≠ who) :
    (s.rollback who order).sessions x = s.sessions x := update_of_ne hx _ _

@[simp] theorem rollback_session_self :
    (s.rollback who order).sessions who = { s.sessions who with trxId := 0, operations := fun _ => [] } :=
  update_self ..

@[simp] theorem setMulti_session_other {multi : Bool} (hx : x ≠ who) :
    (s.setMulti who multi).sessions x = s.sessions x := update_of_ne hx _ _

@[simp] theorem setMulti_session_self {multi : Bool} :
    (s.setMulti who multi).sessions who = { s.sessions who with multi } := update_self ..

theorem finish_session_self :
    ((s.finish who order rc).sessions who).multi = (s.sessions who).multi ∧
      ((s.finish who order rc).sessions who).closed = (s.sessions who).closed := by
  unfold finish
  split
  · rw [commit_session_self]
    exact ⟨rfl, rfl⟩
  · exact ⟨rfl, rfl⟩

theorem Orderly.finish (orderly : s.Orderly) (accounted : s'.Accounted)
    (others : ∀ x, x ≠ who → s'.sessions x = s.sessions x) (notClosed : (s'.sessions who).closed = false)
    (halfway : rc ≠ .success → (s'.sessions who).multi = false → ∀ k, (s'.sessions who).operations k = []) :
    (s'.finish who order rc).Orderly := by
  unfold Server.finish
  split
  · refine orderly.of_self (accounted.commit order) (fun x hx => (commit_session_other hx).trans (others x hx))
      fun _ k => ?_
    rw [commit_session_self]
  next h =>
    refine orderly.of_self accounted others fun mode k => ?_
    rcases mode with single | closed
    · exact halfway (fun hrc => h ⟨hrc, single⟩) single k
    · rw [notClosed] at closed
      cases closed

theorem Accounted.setMulti (accounted : s.Accounted) (multi : Bool) : (s.setMulti who multi).Accounted := by
  refine accounted.congr rfl rfl fun x => ?_
  by_cases hx : x = who
  · subst hx
    rw [setMulti_session_self]
    exact ⟨rfl, rfl⟩
  · rw [setMulti_session_other hx]
    exact ⟨rfl, rfl⟩

theorem undoable_nil : t.Undoable [] := fun _ ho => absurd ho not_mem_nil

theorem Orderly.call {c : TableCall} (orderly : s.Orderly)
    (notClosed : (s.sessions who).closed = false) (more : s.lastId + 1 < 2 ^ 31)
    (accountable : (s.view who k).Accountable c) (finishes : (s.sessions who).multi = false →
      (s.view who k).Finishes c) : (s.execute who order (.call k c)).Orderly := by
  have range := orderly.accounted.inRange who k more
  have kept := call_kept (orderly.accounted.view who k) range accountable
  refine orderly.finish (orderly.accounted.put more kept) (fun x hx => put_session_other hx) ?_ fun hrc single k' => ?_
  · rw [put_session_self]
    exact notClosed
  · rw [put_session_self] at single ⊢
    have nothing := orderly.idle who (.inl single)
    dsimp only
    rw [update_apply]
    split
    · exact (call_finishes (nothing k) range (finishes single)).resolve_left hrc
    · exact nothing k'

theorem Orderly.select {allRight : Bool} (orderly : s.Orderly) :
    (s.execute who order (.select allRight)).Orderly := by
  dsimp only [execute, endTrxIfNeed]
  split
  next single =>
    have nothing := orderly.idle who (.inl single)
    split
    · refine orderly.of_self (orderly.accounted.commit order) (fun x hx => commit_session_other hx) fun _ k => ?_
      rw [commit_session_self]
    · refine orderly.of_self (orderly.accounted.rollback order fun k => ?_) (fun x hx => rollback_session_other hx)
        fun _ k => ?_
      · rw [nothing k]
        exact undoable_nil
      · rw [rollback_session_self]
  next => exact orderly

theorem Orderly.execute {st : Statement} (orderly : s.Orderly)
    (notClosed : (s.sessions who).closed = false) (ok : s.StepOk (who, .statement st order)) :
    (s.execute who order st).Orderly := by
  -- A statement that leaves the session alone has nothing pending outside the mode.
  have nothing : (s.sessions who).multi = false → ∀ k, (s.sessions who).operations k = [] := fun single =>
    orderly.idle who (.inl single)
  cases st with
  | call k c => exact orderly.call notClosed ok.1 ok.2.1 ok.2.2
  | createTable k fields =>
    refine orderly.finish (orderly.accounted.setTable fun _ _ live => ?_) (fun _ _ => rfl) notClosed fun _ => nothing
    cases live
  | dropTable k removed =>
    refine orderly.finish (orderly.accounted.setTable fun _ _ live => ?_) (fun _ _ => rfl) notClosed fun _ => nothing
    cases live
  | loadData k rows =>
    exact orderly.finish (orderly.accounted.setTable fun _ _ live marked => loadRows_sub marked live) (fun _ _ => rfl)
      notClosed fun _ => nothing
  | select allRight => exact orderly.select
  | other rc => exact orderly.finish orderly.accounted (fun _ _ => rfl) notClosed fun _ => nothing
  | begin =>
    refine orderly.of_self (orderly.accounted.setMulti true) (fun x hx => setMulti_session_other hx) fun mode => ?_
    rw [Server.execute, setMulti_session_self] at mode
    rcases mode with single | closed
    · cases single
    · rw [notClosed] at closed
      cases closed
  | commit =>
    refine orderly.of_self ((orderly.accounted.commit order).setMulti false)
      (fun x hx => (setMulti_session_other hx).trans (commit_session_other hx)) fun _ k => ?_
    rw [Server.execute, setMulti_session_self, commit_session_self]
  | rollback =>
    refine orderly.of_self ((orderly.accounted.rollback order ok).setMulti false)
      (fun x hx => (setMulti_session_other hx).trans (rollback_session_other hx)) fun _ k => ?_
    rw [Server.execute, setMulti_session_self, rollback_session_self]

@[simp] theorem close_session_other (hx : x ≠ who) : (s.closeConnection who).sessions x = s.sessions x :=
  update_of_ne hx _ _

@[simp] theorem close_session_self : (s.closeConnection who).sessions who = { s.sessions who with closed := true } :=
  update_self ..

theorem Orderly.close (orderly : s.Orderly) (nothing : ∀ k, (s.sessions who).operations k = []) :
    (s.closeConnection who).Orderly := by
  refine orderly.of_self (orderly.accounted.congr rfl rfl fun x => ?_) (fun x hx => close_session_other hx)
    fun _ k => ?_
  · by_cases hx : x = who
    · subst hx
      rw [close_session_self]
      exact ⟨rfl, rfl⟩
    · rw [close_session_other hx]
      exact ⟨rfl, rfl⟩
  · rw [close_session_self]
    exact nothing k

theorem Orderly.step (orderly : s.Orderly) (ok : s.StepOk event) : (s.step event).Orderly := by
  obtain ⟨who, event⟩ := event
  unfold Server.step
  split
  · exact orderly
  next notClosed =>
    cases event with
    | statement st order => exact orderly.execute (Bool.eq_false_iff.mpr notClosed) ok
    | close => exact orderly.close ok

/-- The steps after which nothing may hang: an INSERT, UPDATE or DELETE outside the multi-operation mode, and the
    closing of the connection. -/
def Ends (s : Server) (event : Nat × Event) : Prop :=
  (s.sessions event.1).closed = false ∧
    match event.2 with
    | .statement (.call _ (.insert _ _)) _ | .statement (.call _ (.update _ _ _ _)) _ | .statement
        (.call _ (.delete _ _)) _ =>
      (s.sessions event.1).multi = false
    | .close => True
    | .statement _ _ => False

theorem Ends.mode (ends : s.Ends event) :
    ((s.step event).sessions event.1).multi = false ∨ ((s.step event).sessions event.1).closed = true := by
  obtain ⟨who, event⟩ := event
  obtain ⟨notClosed, ends⟩ := ends
  unfold Server.step
  rw [if_neg (Bool.eq_false_iff.mp notClosed)]
  cases event with
  | close =>
    rw [close_session_self]
    exact .inr rfl
  | statement st order =>
    cases st with
    | call k c =>
      have single : (s.sessions who).multi = false := by
        cases c with
        | insert values context => exact ends
        | update scan filter field value => exact ends
        | delete scan filter => exact ends
        | createIndex fields scan => exact absurd ends not_false
        | createUniqueIndex field selected scan => exact absurd ends not_false
      refine .inl (finish_session_self.1.trans ?_)
      rw [put_session_self]
      exact single
    | createTable k fields => exact absurd ends not_false
    | dropTable k removed => exact absurd ends not_false
    | loadData k rows => exact absurd ends not_false
    | other rc => exact absurd ends not_false
    | select allRight => exact absurd ends not_false
    | begin => exact absurd ends not_false
    | commit => exact absurd ends not_false
    | rollback => exact absurd ends not_false

def number (s : Server) (who : Nat) : Nat := if (s.sessions who).trxId = 0 then s.lastId + 1 else (s.sessions who).trxId

structure Fresh (s : Server) : Prop where
  committed : ∀ k rid r, (s.tables k).records rid = some r → r.mark = 0
  sessions : ∀ who, s.sessions who = ⟨0, fun _ => [], false, false⟩
  small : s.lastId < 2 ^ 31

theorem Fresh.orderly (fresh : s.Fresh) : s.Orderly := by
  refine ⟨⟨fun k rid r live marked => ?_, fresh.small, fun who => ?_, fun who other _ hne => ?_⟩, fun who _ k => ?_⟩
  · rw [Record.trxId, fresh.committed k rid r live] at marked
    exact absurd rfl marked
  · rw [fresh.sessions who]
    exact Nat.zero_le _
  · rw [fresh.sessions who] at hne
    exact absurd rfl hne
  · rw [fresh.sessions who]

def inOrder (st : Statement) : Event := .statement st fun _ => .inOrder

end Server

end MiniOb
