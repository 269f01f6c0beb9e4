import MiniOb.Table.Ddl

/-! # Schema statements that fail

A statement that is refused before it has created a file leaves the database as it was. Every later failure leaves the
file. -/

namespace MiniOb.Catalog
open Option
variable {files : Files} {name : Bytes} {a : CreateAnswers}

@[simp] theorem Files.write_isSome (files : Files) (name : Bytes) (c : Contents) (n : Bytes) :
    (files.write name c n).isSome = true ↔ n = name ∨ (files n).isSome = true := by
  unfold Files.write
  by_cases h : n = name
  · simp [h]
  · simp [h]

theorem Files.createFile_refused
    (h : (files name).isSome ∨ a.created = false) : files.createFile name a = (.schemaDbExist, files) := if_pos h

theorem Files.createFile_created (h : ¬ ((files name).isSome ∨ a.created = false)) :
    ∃ c, (files.createFile name a).2 = files.write name c := by
  unfold Files.createFile
  rw [if_neg h]
  split
  · exact ⟨_, rfl⟩
  · exact ⟨_, rfl⟩

theorem Files.createFile_keeps {files' : Files} {n : Bytes} {rc : RC}
    (hc : files.createFile name a = (rc, files')) (h : (files n).isSome) : (files' n).isSome := by
  by_cases hr : (files name).isSome ∨ a.created = false
  · rw [createFile_refused hr] at hc
    cases hc
    exact h
  · obtain ⟨c, hfiles⟩ := createFile_created hr
    rw [hc] at hfiles
    obtain rfl : files' = files.write name c := hfiles
    exact (write_isSome ..).2 (.inr h)

namespace Db
variable {db : Db} {name : Bytes} {attributes : List AttrInfo} {a : TableAnswers}

def FileFree (db : Db) (o : OpenTable) (index : Bytes) (a : IndexAnswers) : Prop :=
  db.files (indexDataFile o.tableMeta.name index) = none ∧ a.file.created = true

def Refused (db : Db) : Statement → Prop
  | .createTable name attributes a =>
    (db.openedTables name).isSome ∨ isBlank name = true ∨ attributes = [] ∨ (db.files (tableMetaFile name)).isSome ∨
      a.metaCreated = false
  | .createIndex _ name index attributes _ a =>
    ∀ o ∈ db.openedTables name,
      isBlank index = true ∨ attributes = [] ∨ (o.tableMeta.index index).isSome ∨
        (o.tableMeta.findIndexByFields attributes.reverse).isSome ∨ (∃ n ∈ attributes, o.tableMeta.field n = none) ∨
        ¬ db.FileFree o index a
  | .createUniqueIndex _ name index attributeName selected _ a =>
    ∀ o ∈ db.openedTables name,
      isBlank index = true ∨ isBlank attributeName = true ∨ (o.tableMeta.index index).isSome ∨
        (o.tableMeta.findIndexByFields [attributeName]).isSome ∨
        (∀ f ∈ o.tableMeta.field attributeName, hasDuplicate (selected.filterMap fun rid =>
          (o.table.records rid).map fun r => f.behindSystem.tupleValue r.data) = true) ∨
        ¬ db.FileFree o index a

/-- Nothing of the schema has changed: the set of files, the opened tables with their lists of indexes, and the metadata
    on disk. -/
structure Unchanged (db db' : Db) : Prop where
  files : ∀ n, (db'.files n).isSome = (db.files n).isSome
  opened : db'.openedTables = db.openedTables
  onDisk : ∀ name, db'.files (tableMetaFile name) = db.files (tableMetaFile name)

theorem Unchanged.refl (db : Db) : db.Unchanged db := ⟨fun _ => rfl, rfl, fun _ => rfl⟩

def Grown (db db' : Db) : Prop := ∃ n, db.files n = none ∧ (db'.files n).isSome

theorem Grown.not_unchanged {db' : Db} (h : db.Grown db') : ¬ db.Unchanged db' := by
  obtain ⟨n, hn, hn'⟩ := h
  intro hu
  have := hu.files n
  simp [hn, hn'] at this

/-- How a statement ends: nothing is touched if it is refused, and otherwise a failure leaves a file behind. -/
inductive Ends (db : Db) (result : RC × Db) (refused : Prop) : Prop
  | refused : refused → result.2 = db → Ends db result refused
  | grown : ¬ refused → (result.1 ≠ .success → db.Grown result.2) → Ends db result refused

theorem Ends.congr {result : RC × Db} {p q : Prop} (h : Ends db result p) (hpq : q ↔ p) : Ends db result q :=
  propext hpq ▸ h

theorem createTable_refused
    (h : db.Refused (.createTable name attributes a)) : (db.createTable name attributes a).2 = db := by
  unfold createTable
  split
  · rfl
  · rename_i hopened
    unfold tableCreate
    rcases h with h | h | h | h | h
    · exact absurd h hopened
    · simp [h]
    · by_cases hb : isBlank name = true <;> simp [h, hb]
    · by_cases hb : isBlank name = true <;> by_cases ha : attributes = [] <;> simp [h, hb, ha]
    · by_cases hb : isBlank name = true <;> by_cases ha : attributes = [] <;>
        by_cases hf : (db.files (tableMetaFile name)).isSome = true <;> simp [h, hb, ha, hf]

theorem tableCreate_keeps {files : Files}
    (hname : isBlank name = false) (hattributes : attributes ≠ []) (hfile : files (tableMetaFile name) = none)
    (hcreated : a.metaCreated = true) : ((tableCreate files name attributes a).2 (tableMetaFile name)).isSome := by
  unfold tableCreate
  simp only [hname, hattributes, hfile, hcreated, isSome_none, Bool.false_eq_true, Bool.true_eq_false, if_false]
  split
  · simp
  · split
    · simp
    · split
      · rename_i hdata
        have hkept := Files.createFile_keeps hdata (n := tableMetaFile name) (by simp)
        split <;> exact hkept
      · rename_i hdata
        exact Files.createFile_keeps hdata (by simp)

theorem createTable_grown
    (h : ¬ db.Refused (.createTable name attributes a)) : db.Grown (db.createTable name attributes a).2 := by
  simp only [Refused, not_or, Bool.not_eq_true, isSome_eq_false_iff, isNone_iff_eq_none,
    Bool.not_eq_false] at h
  obtain ⟨hopened, hname, hattributes, hfile, hcreated⟩ := h
  have hkept := tableCreate_keeps hname hattributes hfile hcreated
  refine ⟨tableMetaFile name, hfile, ?_⟩
  rw [createTable, hopened, isSome_none, if_neg Bool.false_ne_true]
  split
  · rename_i hcreate
    rwa [hcreate] at hkept
  · rename_i hcreate
    rwa [hcreate] at hkept

section Install
variable {db : Db} {name : Bytes} {o : OpenTable} {index : IndexMeta} {filled : RC × Index}
  {push : Table → Index → Table} {add : TableMeta → IndexMeta → TableMeta} {a : IndexAnswers}

theorem installIndex_refused (h : ¬ db.FileFree o index.name a) :
    (db.installIndex name o index filled push add a).2 = db := by
  have hrefused : (db.files (indexDataFile o.tableMeta.name index.name)).isSome ∨ a.file.created = false := by
    unfold FileFree at h
    rwa [not_and_or, ← ne_eq, ← isSome_iff_ne_none, Bool.not_eq_true] at h
  rw [installIndex, Files.createFile_refused hrefused]

theorem installIndex_grown (h : db.FileFree o index.name a)
    (hfail : (db.installIndex name o index filled push add a).1 ≠ .success) :
    db.Grown (db.installIndex name o index filled push add a).2 := by
  obtain ⟨hfile, hcreated⟩ := h
  refine ⟨_, hfile, ?_⟩
  obtain ⟨c, hfiles⟩ := @Files.createFile_created db.files (indexDataFile o.tableMeta.name index.name) a.file
    (by simp [hfile, hcreated])
  rcases hc : db.files.createFile (indexDataFile o.tableMeta.name index.name) a.file with ⟨rc, files⟩
  rw [hc] at hfiles
  have hthere : (files (indexDataFile o.tableMeta.name index.name)).isSome := by simp [show files = _ from hfiles]
  unfold installIndex at hfail ⊢
  rw [hc] at hfail ⊢
  -- Nothing behind the creation takes a file away, short of the renaming that ends a success.
  split at hfail
  · rename_i heq
    cases heq
    dsimp only at hfail ⊢
    split_ifs at hfail ⊢
    · exact hthere
    · exact hthere
    · exact hthere
    · exact (Files.write_isSome ..).2 (.inr hthere)
    · exact (Files.write_isSome ..).2 (.inr hthere)
    · exact absurd rfl hfail
  · rename_i heq
    cases heq
    exact hthere

theorem installIndex_ends :
    Ends db (db.installIndex name o index filled push add a) (¬ db.FileFree o index.name a) := by
  by_cases h : db.FileFree o index.name a
  · exact .grown (not_not_intro h) (installIndex_grown h)
  · exact .refused h (installIndex_refused h)

end Install

theorem IndexMeta.init_name {fields : List FieldMeta} (h : isBlank name = false) :
    IndexMeta.init name fields = .ok ⟨name, fields.map FieldMeta.name⟩ := by simp [IndexMeta.init, h]

theorem mapM_field {t : TableMeta} {names : List Bytes} :
    names.mapM t.field = none ↔ ∃ n ∈ names, t.field n = none := by
  induction names with
  | nil => simp
  | cons n names ih => cases hn : t.field n <;> cases hm : names.mapM t.field <;> simp_all

theorem createIndex_ends (db : Db) (trxId : Nat) (name index : Bytes) (attributes : List Bytes) (scan : Scan)
    (a : IndexAnswers) :
    Ends db (db.createIndex trxId name index attributes scan a) (db.Refused
      (.createIndex trxId name index attributes scan a)) := by
  cases ho : db.openedTables name with
  | none => exact .refused (by simp [Refused, ho]) (by simp [createIndex, ho])
  | some o =>
    simp only [createIndex, Refused, ho, mem_some_iff, forall_eq']
    split
    · rename_i h
      exact .refused (h.imp_right .inl) rfl
    · rename_i hargs
      split
      · rename_i h
        exact .refused (.inr (.inr (h.imp_right .inl))) rfl
      · rename_i hexist
        cases hfields : attributes.reverse.mapM o.tableMeta.field with
        | none =>
          obtain ⟨n, hn, hmissing⟩ := mapM_field.1 hfields
          exact .refused (.inr (.inr (.inr (.inr (.inl ⟨n, List.mem_reverse.1 hn, hmissing⟩))))) rfl
        | some fields =>
          have hfound : ¬ ∃ n ∈ attributes, o.tableMeta.field n = none := by
            rintro ⟨n, hn, hmissing⟩
            rw [mapM_field.2 ⟨n, List.mem_reverse.2 hn, hmissing⟩] at hfields
            cases hfields
          rw [not_or] at hargs hexist
          simp only [IndexMeta.init_name (Bool.eq_false_of_not_eq_true hargs.1)]
          refine installIndex_ends.congr ?_
          simp [hargs, hexist, hfound]

theorem createUniqueIndex_ends (db : Db) (trxId : Nat) (name index attributeName : Bytes) (selected : List RID)
    (scan : Scan) (a : IndexAnswers) :
    Ends db (db.createUniqueIndex trxId name index attributeName selected scan a)
      (db.Refused (.createUniqueIndex trxId name index attributeName selected scan a)) := by
  cases ho : db.openedTables name with
  | none => exact .refused (by simp [Refused, ho]) (by simp [createUniqueIndex, ho])
  | some o =>
    simp only [createUniqueIndex, Refused, ho, mem_some_iff, forall_eq']
    split
    · rename_i h
      exact .refused (h.imp_right .inl) rfl
    · rename_i hargs
      split
      · rename_i h
        exact .refused (.inr (.inr (h.imp_right .inl))) rfl
      · rename_i hexist
        cases hf : o.tableMeta.field attributeName with
        | none => exact .refused (.inr (.inr (.inr (.inr (.inl (by simp)))))) rfl
        | some f =>
          simp only [mem_some_iff, forall_eq']
          split
          · rename_i h
            exact .refused (.inr (.inr (.inr (.inr (.inl h))))) rfl
          · rename_i hdup
            rw [not_or] at hargs hexist
            simp only [IndexMeta.init_name (Bool.eq_false_of_not_eq_true hargs.1)]
            refine installIndex_ends.congr ?_
            simp [hargs, hexist, hdup]

theorem exec_ends (db : Db) (statement : Statement) : Ends db (db.exec statement) (db.Refused statement) := by
  cases statement with
  | createTable name attributes a =>
    by_cases h : db.Refused (.createTable name attributes a)
    · exact .refused h (createTable_refused h)
    · exact .grown h fun _ => createTable_grown h
  | createIndex trxId name index attributes scan a => exact createIndex_ends db trxId name index attributes scan a
  | createUniqueIndex trxId name index attributeName selected scan a =>
    exact createUniqueIndex_ends db trxId name index attributeName selected scan a

/-- A statement that fails leaves the database as it was exactly if it is refused before it has created a file. -/
theorem unchanged_iff_refused {db : Db} {statement : Statement} (hfail : (db.exec statement).1 ≠ .success) :
    db.Unchanged (db.exec statement).2 ↔ db.Refused statement := by
  cases exec_ends db statement with
  | refused hrefused hsame =>
    rw [hsame]
    exact iff_of_true (.refl db) hrefused
  | grown hnot hgrown => exact iff_of_false (hgrown hfail).not_unchanged hnot

def createsT (type : AttrType) (length : Nat) : Statement :=
  .createTable [116] [⟨[97], type, length, false⟩] ⟨true, true, ⟨true, .success⟩, .success⟩

def fresh : Db := ⟨fun _ => none, fun _ => none⟩

theorem unchanged_secondCreate : (fresh.exec (createsT .ints 4)).2.Unchanged
    ((fresh.exec (createsT .ints 4)).2.exec (createsT .ints 4)).2 :=
  (unchanged_iff_refused (by decide +kernel)).2 (.inl (by decide +kernel))

/-- `create table t (a char(0))` fails, and `create table t (a int)` after it finds the file of a table that does not
    exist. -/
theorem create_afterFailure :
    (fresh.exec (createsT .chars 0)).1 = .invalidArgument ∧
      ((fresh.exec (createsT .chars 0)).2.exec (createsT .ints 4)).1 = .schemaTableExist ∧
      (fresh.exec (createsT .ints 4)).1 = .success := by
  decide +kernel

end Db

end MiniOb.Catalog
