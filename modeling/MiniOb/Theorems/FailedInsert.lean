import MiniOb.Theorems.TableSteps

/-! # Insertions that fail

A row that has got into the table leaves an operation with the transaction, which `rollback_insert` does not take
back. -/

namespace MiniOb
open Slots List

/-- A value that the field takes: NULL if it is nullable, or a value of its type; the text for a date has to be one. -/
def FieldMeta.Takes (f : FieldMeta) (v : Value) : Prop :=
  (f.nullable = true ∧ v.type = .nulls) ∨
    (v.type ≠ .nulls ∧ (f.type = v.type ∨ (f.type = .date ∧ v.type = .chars)) ∧ (f.type = .date → v.date ≠ none))

def FieldMeta.stored (f : FieldMeta) (v : Value) : Value :=
  if f.type = .date ∧ v.type ≠ .nulls then
    { v with type := .date, data := fun i => if i < 4 then (v.date.getD []).getD i 0 else v.data i }
  else v

theorem Value.validate_other {v : Value} (type : v.type ≠ .date) : v.validate = .ok v := by
  unfold Value.validate
  split
  next isDate => exact absurd isDate type
  next => rfl

namespace FieldMeta
variable {f : FieldMeta} {v : Value}

theorem typeMatch_null (isNull : v.type = .nulls) : (f.typeMatch v).2 = v := by
  unfold typeMatch
  split
  · rfl
  · rw [if_neg (by rw [isNull]; simp)]

theorem typeMatch_date (isDate : f.type = .date) (type : f.type = v.type ∨ (f.type = .date ∧ v.type = .chars)) :
    f.typeMatch v = (true, { v with type := .date }) := by
  unfold typeMatch
  by_cases same : f.type = v.type
  · rw [if_pos same, ← isDate, same]
  · rw [if_neg same, if_pos (type.resolve_left same)]

theorem checkValue_takes (takes : f.Takes v) : f.checkValue v = .ok (f.stored v) := by
  unfold checkValue stored
  rcases takes with ⟨nullable, isNull⟩ | ⟨notNull, type, date⟩
  · rw [if_neg (by simp [nullable]), if_neg (by simp [nullable, isNull]), typeMatch_null isNull,
      if_neg (by simp [isNull]), Value.validate_other (by simp [isNull])]
  · rw [if_neg (fun h => notNull h.2)]
    by_cases isDate : f.type = .date
    · obtain ⟨raw, hraw⟩ := Option.ne_none_iff_exists'.mp (date isDate)
      rw [typeMatch_date isDate type, if_neg (by simp), if_pos ⟨isDate, notNull⟩]
      simp [Value.validate, hraw]
    · have same : f.type = v.type := type.resolve_right fun h => isDate h.1
      have matched : f.typeMatch v = (true, v) := if_pos same
      rw [matched, if_neg (by simp), if_neg (fun h => isDate h.1)]
      exact Value.validate_other (same ▸ isDate)

theorem checkValue_refused (refused : ¬f.Takes v) : ∃ rc, f.checkValue v = .error rc := by
  unfold checkValue
  split
  · exact ⟨_, rfl⟩
  · next notNull =>
    split
    · exact ⟨_, rfl⟩
    · next matched =>
      -- Only a text that is no date is left.
      by_cases isNull : v.type = .nulls
      · have nullable : f.nullable = true := by
          cases hn : f.nullable with
          | true => rfl
          | false => exact absurd ⟨hn, isNull⟩ notNull
        exact absurd (.inl ⟨nullable, isNull⟩) refused
      · have fits : (f.typeMatch v).1 = true := by
          cases hm : (f.typeMatch v).1 with
          | true => rfl
          | false => exact absurd ⟨hm, .inr isNull⟩ matched
        have type : f.type = v.type ∨ (f.type = .date ∧ v.type = .chars) := by
          unfold typeMatch at fits
          split at fits
          next same => exact .inl same
          next =>
            split at fits
            next date => exact .inr date
            next => cases fits
        have noDate : f.type = .date ∧ v.date = none := by
          by_contra hc
          exact refused (.inr ⟨isNull, type, fun isDate noDate => hc ⟨isDate, noDate⟩⟩)
        refine ⟨.invalidArgument, ?_⟩
        rw [typeMatch_date noDate.1 type]
        simp [Value.validate, noDate.2]

theorem mapM_checkValue_ok : ∀ {l : List (FieldMeta × Value)}, (∀ p ∈ l, p.1.Takes p.2) →
    l.mapM (fun p => p.1.checkValue p.2) = .ok (l.map fun p => p.1.stored p.2)
  | [], _ => rfl
  | p :: l, takes => by
    rw [mapM_cons, checkValue_takes (takes p mem_cons_self),
      mapM_checkValue_ok fun q hq => takes q (mem_cons_of_mem p hq)]
    rfl

theorem mapM_checkValue_error : ∀ {l : List (FieldMeta × Value)}, (∃ p ∈ l, ¬p.1.Takes p.2) →
    ∃ rc, l.mapM (fun p => p.1.checkValue p.2) = .error rc
  | [], ⟨_, hp, _⟩ => absurd hp not_mem_nil
  | q :: l, ⟨p, hp, refused⟩ => by
    rw [mapM_cons]
    by_cases takes : q.1.Takes q.2
    · have later : p ∈ l := by
        rcases mem_cons.mp hp with rfl | hp
        · exact absurd takes refused
        · exact hp
      obtain ⟨rc, herr⟩ := mapM_checkValue_error ⟨p, later, refused⟩
      refine ⟨rc, ?_⟩
      rw [checkValue_takes takes, herr]
      rfl
    · obtain ⟨rc, herr⟩ := checkValue_refused takes
      refine ⟨rc, ?_⟩
      rw [herr]
      rfl

end FieldMeta

namespace Table
variable {t : Table} {row : List Value} {selects : FieldMeta → UniqueSelect}

/-- The select on a field finds a record with the value: there is one among the RIDs that it meets, up to the first that
    is not live. -/
def Finds (t : Table) (f : FieldMeta) (v : Value) (s : UniqueSelect) : Prop :=
  ∃ seen rid rest r, s.rids = seen ++ rid :: rest ∧ (∀ x ∈ seen, t.records x ≠ none) ∧ t.records rid = some r ∧
    f.equals s.refersOuter v r.data = true

theorem selectHits_iff {f : FieldMeta} {refersOuter : Bool} {v : Value} :
    ∀ {rids : List RID}, t.selectHits f refersOuter v rids = true ↔ t.Finds f v ⟨rids, refersOuter⟩
  | [] => by
    constructor
    · intro h
      cases h
    · rintro ⟨seen, rid, rest, r, hsplit, -⟩
      exact absurd hsplit.symm (by simp)
  | rid :: rids => by
    rw [selectHits]
    cases hrec : t.records rid with
    | none =>
      constructor
      · intro h
        cases h
      · rintro ⟨seen, rid', rest, r, hsplit, hlive, hr, -⟩
        cases seen with
        | nil =>
          cases hsplit
          rw [hrec] at hr
          cases hr
        | cons x seen =>
          cases hsplit
          exact absurd hrec (hlive rid mem_cons_self)
    | some r =>
      dsimp only
      rw [Bool.or_eq_true, selectHits_iff]
      constructor
      · rintro (heq | ⟨seen, rid', rest, r', rfl, hlive, hr, heq⟩)
        · exact ⟨[], rid, rids, r, rfl, fun x hx => absurd hx not_mem_nil, hrec, heq⟩
        · refine ⟨rid :: seen, rid', rest, r', rfl, fun x hx => ?_, hr, heq⟩
          rcases mem_cons.mp hx with rfl | hx
          · rw [hrec]
            exact Option.some_ne_none r
          · exact hlive x hx
      · rintro ⟨seen, rid', rest, r', hsplit, hlive, hr, heq⟩
        cases seen with
        | nil =>
          cases hsplit
          rw [hrec] at hr
          cases hr
          exact .inl heq
        | cons x seen =>
          cases hsplit
          exact .inr ⟨seen, rid', rest, r', rfl, fun y hy => hlive y (mem_cons_of_mem _ hy), hr, heq⟩

/-- A value of the row is already there, in the column of a unique index. -/
def Duplicate (t : Table) (row : List Value) (selects : FieldMeta → UniqueSelect) : Prop :=
  ∃ p ∈ t.fields.zip row, ∃ i ∈ t.uniqueIndexes, i.fields.head? = some p.1 ∧
    t.Finds p.1 (p.1.stored p.2) (selects p.1)

/-- `make_record` refuses the row: a field does not take its value, or there is a duplicate. -/
def Refuses (t : Table) (row : List Value) (selects : FieldMeta → UniqueSelect) : Prop :=
  (∃ p ∈ t.fields.zip row, ¬p.1.Takes p.2) ∨ t.Duplicate row selects

theorem zip_map_stored : ∀ (fields : List FieldMeta) (row : List Value),
    fields.zip ((fields.zip row).map fun p => p.1.stored p.2) = (fields.zip row).map fun p => (p.1, p.1.stored p.2)
  | [], _ => rfl
  | _ :: _, [] => rfl
  | f :: fields, v :: row => congrArg ((f, f.stored v) :: ·) (zip_map_stored fields row)

theorem findIfExistUniqueRecord_iff :
    t.findIfExistUniqueRecord ((t.fields.zip row).map fun p => p.1.stored p.2) selects = true ↔
      t.Duplicate row selects := by
  rw [findIfExistUniqueRecord, zip_map_stored, any_map, any_eq_true]
  simp only [Function.comp_apply, any_eq_true, Bool.and_eq_true, decide_eq_true_eq, selectHits_iff]
  rfl

theorem makeRecord_error (hlength : row.length = t.fields.length) (refused : t.Refuses row selects) :
    ∃ rc, t.makeRecord row selects = .error rc := by
  unfold makeRecord
  rw [if_neg (not_not.mpr hlength)]
  by_cases bad : ∃ p ∈ t.fields.zip row, ¬p.1.Takes p.2
  · obtain ⟨rc, herr⟩ := FieldMeta.mapM_checkValue_error bad
    refine ⟨rc, ?_⟩
    rw [herr]
  · have good : ∀ p ∈ t.fields.zip row, p.1.Takes p.2 := fun p hp => not_not.mp fun h => bad ⟨p, hp, h⟩
    rw [FieldMeta.mapM_checkValue_ok good]
    dsimp only
    rw [if_pos (findIfExistUniqueRecord_iff.mpr (refused.resolve_left bad))]
    exact ⟨_, rfl⟩

theorem makeRecord_ok (hlength : row.length = t.fields.length) (accepted : ¬t.Refuses row selects) :
    ∃ data, t.makeRecord row selects = .ok data := by
  unfold makeRecord
  have good : ∀ p ∈ t.fields.zip row, p.1.Takes p.2 := fun p hp => not_not.mp fun h => accepted (.inl ⟨p, hp, h⟩)
  rw [if_neg (not_not.mpr hlength), FieldMeta.mapM_checkValue_ok good]
  dsimp only
  rw [if_neg fun h => accepted (.inr (findIfExistUniqueRecord_iff.mp h))]
  exact ⟨_, rfl⟩

end Table

namespace TrxTable
variable {w : TrxTable} {values : List Value} {context : Nat → RowContext}

/-- The first row stays out of the table: the number of values is wrong, `make_record` refuses the row, or it gets no
    slot or one that the transaction has an operation for. -/
def KeptOut (w : TrxTable) (values : List Value) (context : Nat → RowContext) : Prop :=
  values = [] ∨ values.length % w.table.fields.length ≠ 0 ∨
    w.table.Refuses (values.take w.table.fields.length) (context 0).selects ∨
    (∃ rc, (context 0).slot.pick w.table.records = .error rc) ∨
    ∃ rid, (context 0).slot.pick w.table.records = .ok rid ∧ ∃ o ∈ w.trx.operations, o.rid = rid

theorem length_firstRow (hne : values ≠ []) (hlength : values.length % w.table.fields.length = 0) :
    (values.take w.table.fields.length).length = w.table.fields.length ∧
      ∃ n, values.length / w.table.fields.length = n + 1 := by
  have hpos : 0 < values.length := length_pos_iff.mpr hne
  have hle : w.table.fields.length ≤ values.length := Nat.le_of_dvd hpos (Nat.dvd_of_mod_eq_zero hlength)
  have hfields : 0 < w.table.fields.length := by
    rcases Nat.eq_zero_or_pos w.table.fields.length with hz | hpos'
    · rw [hz, Nat.mod_zero] at hlength
      exact absurd hlength hpos.ne'
    · exact hpos'
  refine ⟨length_take_of_le hle, Nat.exists_eq_succ_of_ne_zero ?_⟩
  exact (Nat.div_pos hle hfields).ne'

theorem insert_keptOut (out : KeptOut w values context) : (w.insert values context).2 = w := by
  unfold insert
  dsimp only
  by_cases hnil : values = []
  · rw [if_pos hnil]
  by_cases hlength : values.length % w.table.fields.length ≠ 0
  · rw [if_neg hnil, if_pos hlength]
  rw [if_neg hnil, if_neg hlength]
  obtain ⟨hrow, n, hn⟩ := length_firstRow hnil (not_not.mp hlength)
  have fails : ∃ rc, w.insertRows w.table.fields.length values context (n + 1) 0 [] = (rc, [], w) := by
    rw [insertRows, Nat.zero_mul, drop_zero]
    by_cases refused : w.table.Refuses (values.take w.table.fields.length) (context 0).selects
    · obtain ⟨rc, hrc⟩ := Table.makeRecord_error hrow refused
      rw [hrc]
      exact ⟨rc, rfl⟩
    · obtain ⟨data, hdata⟩ := Table.makeRecord_ok hrow refused
      rw [hdata]
      rcases ((out.resolve_left hnil).resolve_left hlength).resolve_left refused with ⟨rc, hrc⟩
        | ⟨rid, hrid, o, ho, horid⟩
      · dsimp only
        rw [insertRecord_noSlot hrc]
        exact ⟨rc, rfl⟩
      · have pending : w.trx.findOperation rid ≠ none := fun hnone => Trx.findOperation_eq_none.mp hnone o ho horid
        dsimp only
        rw [insertRecord_pending hrid pending]
        exact ⟨_, rfl⟩
  obtain ⟨rc, hrc⟩ := fails
  rw [hn, hrc]
  cases rc <;> simp

def intValue (n : UInt8) : Value := ⟨.ints, fun i => if i = 0 then n else 0, none⟩

def slotByRow (i : Nat) : RowContext := ⟨FreeSlot.at ⟨1, i⟩, fun _ => .nothing⟩

end TrxTable

end MiniOb
