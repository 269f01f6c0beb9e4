import MiniOb.Lib.Checks
import MiniOb.Query.Planner

/-! # Checked statements

An attribute belongs to a table of the FROM list it stands over, or is marked as an attribute of an outer query. -/

namespace MiniOb
open Catalog (TableMeta)
open Checks List

mutual

/-- An attribute of one of these tables, or an outer attribute; over a single table the name may be missing. In a
    subquery the same holds for the tables of the subquery. -/
def Placed (relations : List Name) : ConditionField → Prop
  | .value _ => True
  | .attr a refersOuter =>
    refersOuter = true ∨ (∃ r ∈ relations, a.relationName = some r) ∨ (relations.length = 1 ∧ a.relationName = none)
  | .subquery q => PlacedSubquery q

def PlacedSubquery : SubqueryOf ConditionField → Prop
  | ⟨_, _, relations, conditions⟩ => relations ≠ [] ∧ PlacedAll relations conditions

def PlacedCondition (relations : List Name) : ConditionOf ConditionField → Prop
  | ⟨left, right, _⟩ => Placed relations left ∧ Placed relations right

def PlacedAll (relations : List Name) : List (ConditionOf ConditionField) → Prop
  | [] => True
  | c :: conditions => PlacedCondition relations c ∧ PlacedAll relations conditions

end

theorem placedAll_iff {relations : List Name} : ∀ {conditions : List Condition},
    PlacedAll relations conditions ↔ ∀ c ∈ conditions, Placed relations c.left ∧ Placed relations c.right
  | [] => by simp [PlacedAll]
  | ⟨left, right, comp⟩ :: conditions => by
    rw [PlacedAll, placedAll_iff, forall_mem_cons, PlacedCondition]

namespace QueryChecker
variable {db : Database} {s : Scope} {relations : List Name} {tables : List TableMeta} {a : RelAttr}

/-- The scope in which the conditions over these tables are checked. -/
structure Scope.For (s : Scope) (relations : List Name) : Prop where
  nonempty : relations ≠ []
  tables : (s.locals.getD s.globals).map TableMeta.name = relations
  single : s.nullable = true → s.locals = none ∧ relations.length = 1

theorem checkFromRelations_ok (h : checkFromRelations db relations = .ok tables) :
    relations ≠ [] ∧ tables.map TableMeta.name = relations := by
  unfold checkFromRelations at h
  split at h
  · cases h
  · rename_i hne
    refine ⟨hne, ?_⟩
    have hnames : List.Forall₂ (fun relation table => table.name = relation) relations tables := by
      refine (mapM_eq_ok.mp h).imp fun relation table hfound => ?_
      split at hfound
      · cases hfound
      · rename_i found hfind
        cases hfound
        exact db.named hfind
    exact forall₂_eq_eq_eq ▸ forall₂_map_left_iff.mpr hnames.flip

theorem findField_table {relation field : Name} {found : Catalog.FieldMeta}
    (h : findField tables relation field = some found) : relation ∈ tables.map TableMeta.name := by
  obtain ⟨table, htable, hfound⟩ := exists_of_findSome?_eq_some h
  split at hfound
  · rename_i hname
    exact mem_map.mpr ⟨table, htable, hname.symm⟩
  · cases hfound

theorem relationIn_iff {relation : Name} :
    relationIn relation tables = true ↔ relation ∈ tables.map TableMeta.name := by
  simp only [relationIn, any_eq_true, decide_eq_true_eq, mem_map]
  exact exists_congr fun table => and_congr_right fun _ => eq_comm

theorem nullableRelattrMatchTable_ok {matched : RelAttr × AttrType}
    (h : s.nullableRelattrMatchTable a = .ok matched) : ∃ table globals, s.globals = table :: globals ∧
      (a.relationName = none ∨ a.relationName = some table.name) ∧
      ((a.attributeName = starName ∧ matched.1 = a) ∨
        ∃ field, table.field a.attributeName = some field ∧
          matched = ({ a with relationName := some table.name }, field.type)) := by
  unfold Scope.nullableRelattrMatchTable at h
  split at h
  · cases h
  · rename_i table globals hglobals
    refine ⟨table, globals, hglobals, ?_⟩
    split at h
    · cases h
    · rename_i hname
      refine ⟨?_, ?_⟩
      · cases hrelation : a.relationName with
        | none => exact .inl rfl
        | some relation =>
          rw [hrelation] at hname
          exact .inr (congrArg some (by simpa using hname))
      · split at h
        · rename_i hstar
          cases h
          exact .inl ⟨hstar, rfl⟩
        · split at h
          · cases h
          · rename_i field hfield
            cases h
            exact .inr ⟨field, hfield, rfl⟩

theorem nonNullableRelattrMatchAnyTable_ok {type : AttrType} (h : s.nonNullableRelattrMatchAnyTable a = .ok type) :
    ∃ relation field, a.relationName = some relation ∧ findField s.globals relation a.attributeName = some field ∧
      field.type = type := by
  unfold Scope.nonNullableRelattrMatchAnyTable at h
  split at h
  · split at h <;> cases h
  · rename_i relation hrelation
    split at h
    · rename_i field hfield
      cases h
      exact ⟨relation, field, hrelation, hfield, rfl⟩
    · cases h

theorem rewriteAttr_mark {locals : List TableMeta} {relation : Name} {refersOuter : Bool}
    (hlocals : s.locals = some locals) (hrelation : (s.rewriteAttr a refersOuter).1.relationName = some relation)
    (hglobal : relation ∈ s.globals.map TableMeta.name) :
    (s.rewriteAttr a refersOuter).2 = (refersOuter || !relationIn relation locals) := by
  have hmark : (s.rewriteAttr a refersOuter).2 = (refersOuter ||
      (!(s.rewriteAttr a refersOuter).1.relationName.any (relationIn · locals) &&
        (s.rewriteAttr a refersOuter).1.relationName.any (relationIn · s.globals))) := by
    simp only [Scope.rewriteAttr, hlocals]
  rw [hmark, hrelation, Option.any_some, Option.any_some, relationIn_iff.mpr hglobal, Bool.and_true]

theorem relattrMatchTable_placed (hs : s.For relations) {refersOuter : Bool} {matched : RelAttr × AttrType}
    (h : s.relattrMatchTable (s.rewriteAttr a refersOuter).1 = .ok matched) :
    Placed relations (.attr matched.1 (s.rewriteAttr a refersOuter).2) := by
  unfold Scope.relattrMatchTable at h
  rw [Placed]
  split at h
  · -- One table at the top level.
    rename_i hnullable
    obtain ⟨hlocals, hone⟩ := hs.single hnullable
    have htables := hs.tables
    obtain ⟨table, globals, hglobals, hrelation, ⟨-, hmatched⟩ | ⟨field, -, rfl⟩⟩ := nullableRelattrMatchTable_ok h
    · rw [hmatched]
      rw [hlocals, Option.getD_none, hglobals] at htables
      rcases hrelation with hnone | hsome
      · exact .inr (.inr ⟨hone, hnone⟩)
      · exact .inr (.inl ⟨table.name, htables ▸ mem_cons_self, hsome⟩)
    · rw [hlocals, Option.getD_none, hglobals] at htables
      exact .inr (.inl ⟨table.name, htables ▸ mem_cons_self, rfl⟩)
  · obtain ⟨type, htype, rfl⟩ := map_eq_ok.mp h
    obtain ⟨relation, field, hrelation, hfield, -⟩ := nonNullableRelattrMatchAnyTable_ok htype
    have hglobal := findField_table hfield
    have htables := hs.tables
    cases hlocals : s.locals with
    | none =>
      rw [hlocals, Option.getD_none] at htables
      exact .inr (.inl ⟨relation, htables ▸ hglobal, hrelation⟩)
    | some locals =>
      rw [hlocals, Option.getD_some] at htables
      by_cases hlocal : relation ∈ relations
      · exact .inr (.inl ⟨relation, hlocal, hrelation⟩)
      · -- The name is not that of a local table, so the attribute has been marked.
        refine .inl ?_
        have hout : relationIn relation locals = false :=
          Bool.eq_false_iff.mpr fun h => hlocal (htables ▸ relationIn_iff.mp h)
        rw [rewriteAttr_mark hlocals hrelation hglobal, hout]
        exact Bool.or_true _

theorem checkWhereFields_eq_mapM {isAgg : Bool} : ∀ conditions : List Condition,
    checkWhereFields db s isAgg conditions = conditions.mapM (checkCondition db s isAgg)
  | [] => rfl
  | c :: conditions => by rw [checkWhereFields, mapM_cons, checkWhereFields_eq_mapM conditions]

theorem checkCondition_ok {isAgg : Bool} {c c' : Condition} (h : checkCondition db s isAgg c = .ok c') :
    checkField db s c.comp true c.left = .ok c'.left ∧ checkField db s c.comp false c.right = .ok c'.right := by
  rw [checkCondition] at h
  obtain ⟨-, -, h⟩ := bind_eq_ok.mp h
  obtain ⟨left, hleft, h⟩ := bind_eq_ok.mp h
  obtain ⟨right, hright, h⟩ := bind_eq_ok.mp h
  split at h
  · cases h
  · cases h
    exact ⟨hleft, hright⟩

theorem checkSubquery_ok {comp : CompOp} {left : Bool} {q q' : Subquery} (h : checkSubquery db s comp left q = .ok q') :
    ∃ locals, checkFromRelations db q.relations = .ok locals ∧ q.relations = q'.relations ∧
      checkWhereFields db ⟨s.globals ++ locals, some locals, false⟩ q'.target.isAgg q.conditions =
        .ok q'.conditions := by
  rw [checkSubquery] at h
  obtain ⟨-, -, h⟩ := bind_eq_ok.mp h
  obtain ⟨locals, hlocals, h⟩ := bind_eq_ok.mp h
  obtain ⟨target, -, h⟩ := bind_eq_ok.mp h
  obtain ⟨-, -, h⟩ := bind_eq_ok.mp h
  obtain ⟨type, -, h⟩ := bind_eq_ok.mp h
  obtain ⟨conditions, hconditions, h⟩ := bind_eq_ok.mp h
  cases h
  exact ⟨locals, hlocals, rfl, hconditions⟩

mutual

theorem checkField_placed (field : ConditionField) {s : Scope} {relations : List Name} {comp : CompOp} {isLeft : Bool}
    {out : ConditionField} (hs : s.For relations) (h : checkField db s comp isLeft field = .ok out) :
    Placed relations out := by
  match field, h with
  | .value v, h =>
    cases h
    trivial
  | .attr a refersOuter, h =>
    obtain ⟨matched, hmatched, rfl⟩ := map_eq_ok.mp h
    exact relattrMatchTable_placed hs hmatched
  | .subquery q, h =>
    obtain ⟨q', hq', rfl⟩ := map_eq_ok.mp h
    exact checkSubquery_placed q hq'
termination_by structural field

theorem checkSubquery_placed (q : SubqueryOf ConditionField) {s : Scope} {comp : CompOp} {isLeft : Bool}
    {out : Subquery} (h : checkSubquery db s comp isLeft q = .ok out) : PlacedSubquery out := by
  match q, h with
  | ⟨target, type, relations, conditions⟩, h =>
    obtain ⟨target', type', relations', conditions'⟩ := out
    obtain ⟨locals, hlocals, rfl, hconditions⟩ := checkSubquery_ok h
    obtain ⟨hne, hnames⟩ := checkFromRelations_ok hlocals
    have hscope : Scope.For ⟨s.globals ++ locals, some locals, false⟩ relations :=
      ⟨hne, hnames, fun h => absurd h Bool.false_ne_true⟩
    exact ⟨hne, checkWhereFields_placed conditions hscope hconditions⟩
termination_by structural q

theorem checkCondition_placed (c : ConditionOf ConditionField) {s : Scope} {relations : List Name} {isAgg : Bool}
    {out : Condition} (hs : s.For relations) (h : checkCondition db s isAgg c = .ok out) :
    PlacedCondition relations out := by
  match c, h with
  | ⟨left, right, comp⟩, h =>
    obtain ⟨left', right', comp'⟩ := out
    obtain ⟨hleft, hright⟩ := checkCondition_ok h
    exact ⟨checkField_placed left hs hleft, checkField_placed right hs hright⟩
termination_by structural c

theorem checkWhereFields_placed (conditions : List (ConditionOf ConditionField)) {s : Scope} {relations : List Name}
    {isAgg : Bool} {out : List Condition} (hs : s.For relations)
    (h : checkWhereFields db s isAgg conditions = .ok out) : PlacedAll relations out := by
  match conditions, h with
  | [], h =>
    cases h
    trivial
  | c :: conditions, h =>
    rw [checkWhereFields] at h
    obtain ⟨c', hc, h⟩ := bind_eq_ok.mp h
    obtain ⟨conditions', hconditions, h⟩ := bind_eq_ok.mp h
    cases h
    exact ⟨checkCondition_placed c hs hc, checkWhereFields_placed conditions hs hconditions⟩
termination_by structural conditions

end

theorem checkFields_ok {q q' : Selects} (h : checkFields db q = .ok q') :
    ∃ tables, checkFromRelations db q.relations = .ok tables ∧ q'.relations = q.relations ∧
      checkWhereFields db ⟨tables, none, q.relations.length ≤ 1⟩ false q.conditions = .ok q'.conditions := by
  rw [checkFields] at h
  obtain ⟨tables, htables, h⟩ := bind_eq_ok.mp h
  obtain ⟨conditions, hconditions, h⟩ := bind_eq_ok.mp h
  obtain ⟨-, -, h⟩ := bind_eq_ok.mp h
  obtain ⟨-, -, h⟩ := bind_eq_ok.mp h
  obtain ⟨-, -, h⟩ := bind_eq_ok.mp h
  cases h
  exact ⟨tables, htables, rfl, hconditions⟩

end QueryChecker

end MiniOb
