import MiniOb.Lib.Run
import MiniOb.Table.Paged
import MiniOb.Theorems.TableSteps

/-! # Marks and evictions

A mark is written without marking its page dirty, so it survives an eviction only on a page that is dirty already. -/

namespace MiniOb
open Run Table Function
variable {t : Table} {rid : RID}

namespace TrxTable
variable {w : TrxTable} {a : RecordAct} {rid : RID} {m : Nat}

theorem marked_delete (w : TrxTable) (rid : RID) :
    w.marked (.delete rid) = if (w.trx.findOperation rid).isNone then
      some (rid, Trx.mark (w.trx.startIfNotStarted w.lastId).1.trxId true) else none := by
  dsimp only [marked]
  unfold Trx.deleteRids
  rw [Trx.startIfNotStarted_findOperation]
  cases hfind : w.trx.findOperation rid with
  | none =>
    dsimp only
    rw [Trx.deleteRids, Trx.insertOperation_none (by rw [Trx.startIfNotStarted_findOperation, hfind])]
    rfl
  | some o =>
    obtain ⟨type, rid'⟩ := o
    cases type <;> rfl

theorem recordStep_marked (h : w.marked a = some (rid, m)) :
    w.dirtied a = none ∧ (w.recordStep a).table.records =
      Function.update w.table.records rid ((w.table.records rid).map fun r => { r with mark := m }) := by
  cases a with
  | insert slot data => cases h
  | update rid' new => cases h
  | finish => cases h
  | delete rid' =>
    refine ⟨rfl, ?_⟩
    rw [marked_delete] at h
    split at h
    · rename_i hfind
      cases h
      rw [recordStep, deleteRecord_none (Option.isNone_iff_eq_none.1 hfind)]
      rfl
    · cases h
  | commitOperation o =>
    obtain ⟨type, rid'⟩ := o
    cases type <;> cases h <;> exact ⟨rfl, rfl⟩
  | rollbackOperation o =>
    obtain ⟨type, rid'⟩ := o
    cases type <;> cases h
    exact ⟨rfl, rfl⟩

theorem insertRecord_elsewhere {slot : FreeSlot} {data : Bytes} {rid' : RID} (h : slot.pick w.table.records = .ok rid')
    (hne : rid ≠ rid') : (w.insertRecord slot data).2.table.records rid = w.table.records rid := by
  rcases insertRecord_cases w slot data with
    ⟨rc, heq, -⟩ | ⟨rid₁, r, table, hpick, -, heq, ⟨rc, -, -, hsame⟩ | ⟨-, -, hnew⟩⟩
  · rw [heq]
  · rw [heq, hsame]
  · cases h.symm.trans hpick
    rw [heq, hnew]
    exact Function.update_of_ne hne _ _

theorem recordStep_unmarked (h : w.marked a = none) (hp : ∀ p, w.dirtied a = some p → rid.pageNum ≠ p) :
    (w.recordStep a).table.records rid = w.table.records rid := by
  -- A record on another page is another record.
  have hne : ∀ {rid' : RID}, w.dirtied a = some rid'.pageNum → rid ≠ rid' := by
    rintro rid' hdirtied rfl
    exact hp _ hdirtied rfl
  cases a with
  | finish => rfl
  | insert slot data =>
    cases hpick : slot.pick w.table.records with
    | error rc => rw [recordStep, insertRecord_noSlot hpick]
    | ok rid' => exact insertRecord_elsewhere hpick (hne (by simp [dirtied, hpick]))
  | update rid' new =>
    dsimp only [recordStep]
    cases hr : w.table.records rid' with
    | none => rfl
    | some r =>
      dsimp only [updateRecord]
      have hdelete := w.table.deleteEntryOfIndexes_records r.data rid' false
      split
      · rename_i table hdel
        have hinsert := table.insertEntryOfIndexes_records new rid'
        rw [hdel] at hdelete
        split
        · rename_i table' hins
          have := @hne rid' (by simp [dirtied, hr, hdel, hins])
          rw [hins] at hinsert
          simp [setData, this, show table'.records = w.table.records from hinsert.trans hdelete]
        · rename_i hins
          rw [hins] at hinsert
          exact congrFun (hinsert.trans hdelete) rid
      · rename_i hdel
        rw [hdel] at hdelete
        exact congrFun hdelete rid
  | delete rid' =>
    rw [marked_delete] at h
    cases hfind : w.trx.findOperation rid' with
    | none => simp [hfind] at h
    | some o => rw [recordStep, deleteRecord_some hfind]
  | commitOperation o =>
    obtain ⟨type, rid'⟩ := o
    cases type with
    | insert => cases h
    | update => cases h
    | delete =>
      dsimp only [recordStep, commitOperation]
      cases hr : w.table.records rid' with
      | none => rfl
      | some r =>
        have := @hne rid' (by simp [dirtied, hr])
        simp [this]
  | rollbackOperation o =>
    obtain ⟨type, rid'⟩ := o
    cases type with
    | delete => cases h
    | update => rfl
    | insert =>
      cases hr : w.table.records rid' with
      | none => simp [recordStep, rollbackOperation, rollbackInsert, hr]
      | some r =>
        have hdelete := w.table.deleteEntryOfIndexes_records r.data rid' false
        rcases hdel : w.table.deleteEntryOfIndexes r.data rid' false with ⟨rc, table⟩
        rw [hdel] at hdelete
        by_cases hrc : rc = .success
        · subst hrc
          have := @hne rid' (by simp [dirtied, rollbackInsert, hr, hdel])
          simp [recordStep, rollbackOperation, rollbackInsert, hr, hdel, this, show table.records = _ from hdelete]
        · simp [recordStep, rollbackOperation, rollbackInsert, hr, hdel, show table.records = _ from hdelete]

end TrxTable

def Table.MarkFree (t : Table) (rid : RID) : Prop := ∀ r, t.records rid = some r → r.mark = 0

theorem Table.MarkFree.setMark (h : t.MarkFree rid) (rid' : RID) : (t.setMark rid' 0).MarkFree rid := by
  intro r hr
  by_cases hrid : rid = rid'
  · subst hrid
    simp only [Table.setMark, update_self, Option.map_eq_some_iff] at hr
    obtain ⟨_, -, rfl⟩ := hr
    rfl
  · exact h r (by simpa [Table.setMark, hrid] using hr)

theorem Table.markFree_setMark (t : Table) (rid : RID) : (t.setMark rid 0).MarkFree rid := by
  intro r hr
  simp only [setMark, update_self, Option.map_eq_some_iff] at hr
  obtain ⟨_, -, rfl⟩ := hr
  rfl

theorem Table.MarkFree.setRecord_none {t' : Table} (h : t.MarkFree rid) (ht : t'.records = t.records) (rid' : RID) :
    (t'.setRecord rid' none).MarkFree rid := by
  intro r hr
  by_cases hrid : rid = rid'
  · simp [hrid] at hr
  · exact h r (by simpa [hrid, ht] using hr)

theorem Table.MarkFree.commitOperation (h : t.MarkFree rid) (o : Operation) :
    (t.commitOperation o).MarkFree rid := by
  obtain ⟨type, rid'⟩ := o
  cases type with
  | insert => exact h.setMark rid'
  | update => exact h.setMark rid'
  | delete =>
    dsimp only [Table.commitOperation]
    split
    · exact h
    · exact h.setRecord_none (deleteEntryOfIndexes_records ..) rid'

theorem Table.markFree_commitOperation (t : Table) (o : Operation) : (t.commitOperation o).MarkFree o.rid := by
  obtain ⟨type, rid⟩ := o
  cases type with
  | insert => exact t.markFree_setMark rid
  | update => exact t.markFree_setMark rid
  | delete =>
    dsimp only [commitOperation]
    split
    · rename_i hnone
      intro r hr
      cases hnone.symm.trans hr
    · intro r hr
      simp at hr

theorem Table.MarkFree.rollbackOperation (h : t.MarkFree rid) (o : Operation) :
    (t.rollbackOperation o).MarkFree rid := by
  obtain ⟨type, rid'⟩ := o
  cases type with
  | delete => exact h.setMark rid'
  | update => exact h
  | insert =>
    dsimp only [Table.rollbackOperation, Table.rollbackInsert]
    split
    · exact h
    · rename_i r' _
      have hdelete := t.deleteEntryOfIndexes_records r'.data rid' false
      split
      · rename_i hdel
        rw [hdel] at hdelete
        exact h.setRecord_none hdelete rid'
      · rename_i hdel
        rw [hdel] at hdelete
        intro r hr
        exact h r (hdelete ▸ hr)

namespace TrxTable

theorem run_markFree {f : Operation → RecordAct} {rid : RID} {o : Operation}
    (makes : ∀ w : TrxTable, (w.recordStep (f o)).table.MarkFree rid)
    (keeps : ∀ (w : TrxTable) (o : Operation), w.table.MarkFree rid → (w.recordStep (f o)).table.MarkFree rid) :
    ∀ {operations : List Operation} (w : TrxTable), o ∈ operations ∨ w.table.MarkFree rid →
      (run recordStep w (operations.map f ++ [.finish])).table.MarkFree rid
  | [], _, h => h.resolve_left (by simp)
  | o' :: operations, w, h => by
    refine @run_markFree f rid o makes keeps operations (w.recordStep (f o')) ?_
    rcases h with h | h
    · rcases List.mem_cons.1 h with rfl | h
      · exact .inr (makes w)
      · exact .inl h
    · exact .inr (keeps w o' h)

theorem committed_markFree (w : TrxTable) {operations : List Operation} {o : Operation} (ho : o ∈ operations) :
    (run recordStep w (operations.map .commitOperation ++ [.finish])).table.MarkFree o.rid :=
  @run_markFree .commitOperation _ o (fun w => w.table.markFree_commitOperation o) (fun _ o' h => h.commitOperation o')
    _ w (.inl ho)

theorem rolledBack_markFree (w : TrxTable) {operations : List Operation} {o : Operation} (ho : o ∈ operations)
    (hdelete : o.type = .delete) :
    (run recordStep w (operations.map .rollbackOperation ++ [.finish])).table.MarkFree o.rid := by
  refine @run_markFree .rollbackOperation _ o (fun w => ?_) (fun _ o' h => h.rollbackOperation o') _ w (.inl ho)
  obtain ⟨type, rid⟩ := o
  cases hdelete
  exact w.table.markFree_setMark rid

end TrxTable

namespace PagedTable
variable {s : PagedTable} {a : RecordAct}

/-- Nothing is lost with a page, once nobody pins it. -/
def Durable (s : PagedTable) : Prop := ∀ p, (s.reload p).records = s.records

theorem durable_iff : s.Durable ↔ ∀ rid : RID, s.dirty rid.pageNum = false → s.disk rid = s.records rid := by
  constructor
  · intro h rid hclean
    have := congrFun (h rid.pageNum) rid
    simpa [reload, records, hclean] using this
  · intro h p
    funext rid
    by_cases hp : rid.pageNum = p
    · subst hp
      cases hd : s.dirty rid.pageNum with
      | true => simp [reload, records, hd]
      | false => simpa [reload, records, hd] using h rid hd
    · simp [reload, records, hp]

theorem Durable.reload (h : s.Durable) (p : PageNum) : (s.reload p).Durable := by
  have hsame := h p
  rw [durable_iff] at h ⊢
  intro rid hclean
  rw [hsame]
  by_cases hp : rid.pageNum = p
  · subst hp
    cases hd : s.dirty rid.pageNum with
    | true => simp [PagedTable.reload, hd]
    | false => simpa [PagedTable.reload, hd] using h rid hd
  · have hclean' : s.dirty rid.pageNum = false := by simpa [PagedTable.reload, hp] using hclean
    rw [← h rid hclean']
    unfold PagedTable.reload
    split <;> simp [hp]

theorem Durable.evict (h : s.Durable) (p : PageNum) : (s.evict p).Durable ∧ (s.evict p).work = s.work := by
  unfold PagedTable.evict
  split
  · exact ⟨h, rfl⟩
  · exact ⟨h.reload p, congrArg (fun r => { s.work with table := { s.work.table with records := r } }) (h p)⟩

/-- A mark is written to a page that is dirty, or it is the one that the record has. -/
def MarkOk (s : PagedTable) : Act → Prop
  | .record a => ∀ rid m, s.work.marked a = some (rid, m) → s.dirty rid.pageNum = true ∨ ∀ r, s.records rid = some r →
      r.mark = m
  | .evict _ => True

theorem clean_of_step {p : PageNum} (h : (s.step (.record a)).dirty p = false) :
    s.dirty p = false ∧ ∀ q, s.work.dirtied a = some q → p ≠ q := by
  dsimp only [step] at h
  cases hd : s.work.dirtied a with
  | none =>
    rw [hd] at h
    exact ⟨h, fun q hq => nomatch hq⟩
  | some q =>
    rw [hd] at h
    have hne : p ≠ q := by
      rintro rfl
      simp at h
    exact ⟨by simpa [hne] using h, fun q' hq => Option.some.inj hq ▸ hne⟩

theorem Durable.unmarked (h : s.Durable) (hm : s.work.marked a = none) : (s.step (.record a)).Durable := by
  rw [durable_iff] at h ⊢
  intro rid hclean
  obtain ⟨hclean, hpage⟩ := clean_of_step hclean
  exact (h rid hclean).trans (TrxTable.recordStep_unmarked hm hpage).symm

theorem Durable.marked_iff (h : s.Durable) {rid : RID} {m : Nat} (hm : s.work.marked a = some (rid, m)) :
    (s.step (.record a)).Durable ↔ s.dirty rid.pageNum = true ∨ ∀ r, s.records rid = some r → r.mark = m := by
  obtain ⟨hdirtied, hrecords⟩ := TrxTable.recordStep_marked hm
  have hdirty : (s.step (.record a)).dirty = s.dirty := by simp [step, hdirtied]
  have hafter : ∀ rid', (s.step (.record a)).records rid' =
      update s.records rid ((s.records rid).map fun r => { r with mark := m }) rid' := congrFun hrecords
  rw [durable_iff] at h ⊢
  rw [hdirty]
  constructor
  · intro hafterwards
    rw [or_iff_not_imp_left, Bool.not_eq_true]
    intro hclean r hr
    -- The page is clean before and after it, so that the record on disk has either mark.
    have hsame := (h rid hclean).symm.trans (hafterwards rid hclean)
    rw [hafter, update_self, hr] at hsame
    exact congrArg Record.mark (Option.some.inj hsame)
  · intro hok rid' hclean
    rw [hafter]
    show s.disk rid' = _
    rw [h rid' hclean]
    by_cases hrid : rid' = rid
    · subst hrid
      rw [update_self]
      have hmark := hok.resolve_left (by simp [hclean])
      cases hr : s.records rid' with
      | none => rfl
      | some r =>
        rw [← hmark r hr]
        rfl
    · rw [update_of_ne hrid]

theorem Durable.step_iff (h : s.Durable) (a : Act) : (s.step a).Durable ↔ s.MarkOk a := by
  cases a with
  | evict p => exact iff_of_true (h.evict p).1 trivial
  | record a =>
    cases hm : s.work.marked a with
    | none => exact iff_of_true (h.unmarked hm) fun rid m h => nomatch hm.symm.trans h
    | some mark =>
      obtain ⟨rid, m⟩ := mark
      rw [h.marked_iff hm]
      refine ⟨fun hok rid' m' h' => ?_, fun hok => hok rid m hm⟩
      cases hm.symm.trans h'
      exact hok

def inMemory (w : TrxTable) : Act → TrxTable
  | .record a => w.recordStep a
  | .evict _ => w

theorem Durable.run (h : s.Durable) {as : List Act} (hok : Meets step MarkOk s as) :
    (run step s as).Durable ∧ (run step s as).work = run inMemory s.work as := by
  have keep : ∀ (s : PagedTable) w a, s.Durable ∧ s.work = w → s.MarkOk a → (s.step a).Durable ∧
      (s.step a).work = inMemory w a := by
    rintro s w a ⟨hs, rfl⟩ ha
    refine ⟨(hs.step_iff a).2 ha, ?_⟩
    cases a with
    | record a => rfl
    | evict p => exact (hs.evict p).2
  exact simulation (fun s w => s.Durable ∧ s.work = w) keep ⟨h, rfl⟩ hok

theorem meets_evict (s : PagedTable) (ps : List PageNum) : Meets step MarkOk s (ps.map .evict) := by
  induction ps generalizing s with
  | nil => trivial
  | cons p ps ih => exact ⟨trivial, ih _⟩

def recordActs (as : List Act) : List RecordAct := as.filterMap fun
  | .record a => some a
  | .evict _ => none

theorem run_inMemory (w : TrxTable) (as : List Act) :
    run inMemory w as = run TrxTable.recordStep w (recordActs as) := by
  induction as generalizing w with
  | nil => rfl
  | cons a as ih =>
    cases a with
    | record a => exact ih (w.recordStep a)
    | evict p => exact ih w

/-- The pages may be evicted after each act of a run exactly if each mark is written to a dirty page or is there
    already. Then what commits, or rolls deletions back, leaves their records unmarked, whatever is evicted
    afterwards. -/
theorem marks_survive (h : s.Durable) (as : List Act) :
    (Meets step (fun s a => (s.step a).Durable) s as ↔ Meets step MarkOk s as) ∧
    (Meets step MarkOk s as → ∀ before ending, as = before ++ ending → ∀ operations : List Operation,
      ∀ pages : List PageNum, (recordActs ending = operations.map .commitOperation ++ [.finish] →
        ∀ o ∈ operations, (run step s (as ++ pages.map .evict)).work.table.MarkFree o.rid) ∧
      (recordActs ending = operations.map .rollbackOperation ++ [.finish] →
        ∀ o ∈ operations, o.type = .delete → (run step s (as ++ pages.map .evict)).work.table.MarkFree o.rid)) := by
  refine ⟨meets_iff Durable (fun s a hs hok => (hs.step_iff a).2 hok) (fun s a hs => hs.step_iff a) h, ?_⟩
  rintro hok before ending rfl operations pages
  obtain ⟨hdurable, hwork⟩ := h.run hok
  have hafter : (run step s (before ++ ending ++ pages.map .evict)).work =
      run TrxTable.recordStep (run inMemory s.work before) (recordActs ending) := by
    have hrun : run step s (before ++ ending ++ pages.map .evict) = run step (run step s (before ++ ending))
      (pages.map .evict) :=
      List.foldl_append
    have hpages := (hdurable.run (meets_evict _ pages)).2
    rw [hrun, hpages, hwork, run_inMemory _ (pages.map .evict)]
    have hnone : recordActs (pages.map .evict) = [] := by simp [recordActs]
    rw [hnone]
    show run inMemory s.work (before ++ ending) = _
    rw [← run_inMemory]
    exact List.foldl_append
  rw [hafter]
  constructor
  · intro hending o ho
    rw [hending]
    exact TrxTable.committed_markFree _ ho
  · intro hending o ho hdelete
    rw [hending]
    exact TrxTable.rolledBack_markFree _ ho hdelete

/-- An empty table of which nothing is in memory yet, and a transaction that has not started. -/
def empty : PagedTable := ⟨⟨⟨[], fun _ => none, [], []⟩, ⟨0, []⟩, 0⟩, fun _ => none, fun _ => false, none⟩

theorem marks_survive_dirty :
    (run step empty [.record (.insert (.at ⟨1, 0⟩) []), .record (.insert (.at ⟨1, 1⟩) []),
      .record (.insert (.at ⟨2, 0⟩) []), .record (.commitOperation ⟨.insert, ⟨1, 0⟩⟩),
      .record (.commitOperation ⟨.insert, ⟨1, 1⟩⟩), .record (.commitOperation ⟨.insert, ⟨2, 0⟩⟩), .record .finish,
      .evict 1]).work.table.MarkFree ⟨1, 1⟩ := by
  have start : empty.Durable := durable_iff.2 fun _ _ => rfl
  refine ((marks_survive start [.record (.insert (.at ⟨1, 0⟩) []), .record (.insert (.at ⟨1, 1⟩) []),
    .record (.insert (.at ⟨2, 0⟩) []), .record (.commitOperation ⟨.insert, ⟨1, 0⟩⟩),
    .record (.commitOperation ⟨.insert, ⟨1, 1⟩⟩), .record (.commitOperation ⟨.insert, ⟨2, 0⟩⟩), .record .finish]).2 ?_
    [.record (.insert (.at ⟨1, 0⟩) []), .record (.insert (.at ⟨1, 1⟩) []), .record (.insert (.at ⟨2, 0⟩) [])] _ rfl
    [⟨.insert, ⟨1, 0⟩⟩, ⟨.insert, ⟨1, 1⟩⟩, ⟨.insert, ⟨2, 0⟩⟩] [1]).1 rfl ⟨.insert, ⟨1, 1⟩⟩ (by simp)
  refine ⟨(fun _ _ h => nomatch h), (fun _ _ h => nomatch h), (fun _ _ h => nomatch h), (fun rid m h => .inl ?_),
    (fun rid m h => .inl ?_), (fun rid m h => .inl ?_), (fun _ _ h => nomatch h), trivial⟩ <;> cases h <;>
      decide +kernel

/-- The third row goes to another page, and the first page is evicted before the commit: what commits the second row is
    lost with the next eviction, and the row has the number of its transaction for ever. -/
theorem mark_lost :
    (run step empty [.record (.insert (.at ⟨1, 0⟩) []), .record (.insert (.at ⟨1, 1⟩) []),
      .record (.insert (.at ⟨2, 0⟩) []), .evict 1, .record (.commitOperation ⟨.insert, ⟨1, 0⟩⟩),
      .record (.commitOperation ⟨.insert, ⟨1, 1⟩⟩), .record (.commitOperation ⟨.insert, ⟨2, 0⟩⟩), .record .finish,
      .evict 1]).records ⟨1, 1⟩ = some ⟨1, []⟩ := by
  decide +kernel

end PagedTable

end MiniOb
