import MiniOb.Query.Select
import MiniOb.Table.Catalog

/-! # The checks on a SELECT

`QueryChecker`, which also completes the statement: it fills in the names of tables, marks the attributes that belong to
a table of an outer query, and sets the types of the results of subqueries. -/

namespace MiniOb
open Catalog (TableMeta)

structure Database where
  findTable : Name → Option TableMeta
  named : ∀ {name table}, findTable name = some table → table.name = name

/-- A check fails with a code, or reads through a pointer that points nowhere. -/
inductive Fault
  | rc (code : RC)
  | crash
  deriving DecidableEq, Repr

def starName : Name := [42]

def CompOp.isIn (op : CompOp) : Bool := op = .condIn || op = .notIn

def SubqueryTarget.isAgg : SubqueryTarget → Bool
  | .agg _ => true
  | .attribute _ => false

def AggDesc.checkOperandType (desc : AggDesc) : Except Fault Unit :=
  if desc.operand = .star ∧ desc.aggType ≠ .count then .error (.rc .invalidArgument) else .ok ()

def AggDesc.checkFieldType (desc : AggDesc) (type : AttrType) : Except Fault Unit :=
  if desc.aggType = .avg ∧ (type = .chars ∨ type = .date) then .error (.rc .invalidArgument) else .ok ()

namespace QueryChecker

/-- `global_tables_`, the tables of the subquery that is checked if there is one, and the function that matches
    attributes. -/
structure Scope where
  globals : List TableMeta
  locals : Option (List TableMeta)
  nullable : Bool

def relationIn (relation : Name) (tables : List TableMeta) : Bool :=
  tables.any fun table => decide (relation = table.name)

def findField (tables : List TableMeta) (relation field : Name) : Option Catalog.FieldMeta :=
  tables.findSome? fun table => if relation = table.name then table.field field else none

namespace Scope

def nonNullableRelattrMatchAnyTable (s : Scope) (attr : RelAttr) : Except Fault AttrType :=
  match attr.relationName with
  | none => if s.locals.isSome then .error .crash else .error (.rc .schemaTableNameIllegal)
  | some relation => match findField s.globals relation attr.attributeName with
    | some field => .ok field.type
    | none => .error (.rc .schemaFieldNotExist)

/-- `nullable_relattr_match_table`, with the attribute as it is afterwards if `augment` is set, and its type. An
    attribute called `*` has no type. -/
def nullableRelattrMatchTable (s : Scope) (attr : RelAttr) : Except Fault (RelAttr × AttrType) :=
  match s.globals with
  | [] => .error .crash
  | table :: _ =>
    if attr.relationName.any fun relation => decide (relation ≠ table.name) then .error (.rc .schemaTableNameIllegal)
    else if attr.attributeName = starName then .ok (attr, .undefined)
    else match table.field attr.attributeName with
      | none => .error (.rc .schemaFieldNotExist)
      | some field => .ok ({ attr with relationName := some table.name }, field.type)

def relattrMatchTable (s : Scope) (attr : RelAttr) : Except Fault (RelAttr × AttrType) :=
  if s.nullable then s.nullableRelattrMatchTable attr else (s.nonNullableRelattrMatchAnyTable attr).map fun type =>
    (attr, type)

/-- An attribute in a condition of a subquery as `check_and_rewrite_subquery_where_fields_identifier` and
    `check_mark_condition_field_refers_outer` leave it. -/
def rewriteAttr (s : Scope) (attr : RelAttr) (refersOuter : Bool) : RelAttr × Bool :=
  match s.locals with
  | none => (attr, refersOuter)
  | some locals =>
    let relation := match attr.relationName, locals with
      | none, [table] => some table.name
      | relation, _ => relation
    ({ attr with relationName := relation },
      refersOuter || (!relation.any (relationIn · locals) && relation.any (relationIn · s.globals)))

def refersAny (tables : List TableMeta) : ConditionField → Bool
  | .attr attr _ => attr.relationName.any (relationIn · tables)
  | _ => false

/-- `check_subquery_condition_makes_sense`, for the tables of the subquery. -/
def makesSense (locals : List TableMeta) (c : Condition) : Bool :=
  (!c.left.isAttr && !c.right.isAttr) || refersAny locals c.left || refersAny locals c.right

end Scope

def checkFromRelations (db : Database) (relations : List Name) : Except Fault (List TableMeta) :=
  if relations = [] then .error (.rc .sqlSyntax)
  else relations.mapM fun relation => match db.findTable relation with
    | none => .error (.rc .schemaTableNotExist)
    | some table => .ok table

/-- `check_subquery_position` and `check_subquery_result_type`. -/
def checkSubqueryPlace (target : SubqueryTarget) (comp : CompOp) (left : Bool) : Except Fault Unit :=
  if comp.isIn && left then .error (.rc .sqlSyntax)
  else if target.isAgg = comp.isIn then .error (.rc .sqlSyntax)
  else .ok ()

/-- `subquery_select_attr_nullable_relattr_match_table`, with the attribute as it is afterwards and its type. -/
def subquerySelectAttrMatchTable (locals : List TableMeta) (attr : RelAttr) (augment : Bool) :
    Except Fault (RelAttr × AttrType) :=
  match attr.relationName with
  | none =>
    if attr.attributeName = starName then if augment then .ok (attr, .undefined) else .error (.rc .sqlSyntax)
    else match locals with
      | [] => .error .crash
      | [table] => match table.field attr.attributeName with
        | none => .error (.rc .schemaFieldNotExist)
        | some field => .ok ({ attr with relationName := some table.name }, field.type)
      | _ => .error (.rc .schemaTableNameIllegal)
  | some relation => match findField locals relation attr.attributeName with
    | none => .error (.rc .schemaFieldNotExist)
    | some field => .ok (attr, field.type)

def checkSubquerySelectAttribute (locals : List TableMeta) : SubqueryTarget → Except Fault SubqueryTarget
  | .attribute attr => (subquerySelectAttrMatchTable locals attr false).map fun (attr, _) => .attribute attr
  | .agg desc => do
    desc.checkOperandType
    match desc.operand with
    | .field attr =>
      let (attr, type) ← subquerySelectAttrMatchTable locals attr true
      desc.checkFieldType type
      return .agg { desc with operand := .field attr }
    | _ => return .agg desc

def columnType (db : Database) (attr : RelAttr) : Except Fault AttrType :=
  match attr.relationName.bind db.findTable with
  | none => .error .crash
  | some table => match table.field attr.attributeName with
    | none => .error .crash
    | some field => .ok field.type

/-- The type that `check_mark_subquery_lazy_and_get_result_type` sets, with `AggregatorManager::result_type`. -/
def resultType (db : Database) : SubqueryTarget → Except Fault AttrType
  | .attribute attr => columnType db attr
  | .agg desc => match desc.aggType, desc.operand with
    | .count, _ => .ok .ints
    | .avg, _ => .ok .floats
    | _, .field attr => columnType db attr
    | _, _ => .error .crash

def isUnqualified : ConditionField → Bool
  | .attr attr _ => attr.relationName.isNone
  | _ => false

/-- The errors of `check_and_rewrite_subquery_where_fields_identifier`. -/
def checkIdentifiers (locals : List TableMeta) (conditions : List Condition) : Except Fault Unit :=
  if locals.length ≠ 1 ∧ conditions.any fun c => isUnqualified c.left || isUnqualified c.right then
    .error (.rc .schemaTableNameIllegal)
  else .ok ()

def checkIn (c : Condition) : Except Fault Unit :=
  if c.comp.isIn && !(c.left.isAttr && c.right.isSubquery) then .error (.rc .sqlSyntax) else .ok ()

mutual

def checkField (db : Database) (s : Scope) (comp : CompOp) (left : Bool) : ConditionField → Except Fault ConditionField
  | .value v => .ok (.value v)
  | .attr attr refersOuter =>
    (s.relattrMatchTable (s.rewriteAttr attr refersOuter).1).map fun matched =>
      .attr matched.1 (s.rewriteAttr attr refersOuter).2
  | .subquery q => (checkSubquery db s comp left q).map .subquery

def checkSubquery (db : Database) (s : Scope) (comp : CompOp) (left : Bool) :
    SubqueryOf ConditionField → Except Fault Subquery
  | ⟨target, _, relations, conditions⟩ => do
    checkSubqueryPlace target comp left
    let locals ← checkFromRelations db relations
    let target ← checkSubquerySelectAttribute locals target
    checkIdentifiers locals conditions
    let type ← resultType db target
    let conditions ← checkWhereFields db ⟨s.globals ++ locals, some locals, false⟩ target.isAgg conditions
    return ⟨target, type, relations, conditions⟩

def checkCondition (db : Database) (s : Scope) (isAgg : Bool) : ConditionOf ConditionField → Except Fault Condition
  | ⟨left, right, comp⟩ => do
    checkIn ⟨left, right, comp⟩
    let left ← checkField db s comp true left
    let right ← checkField db s comp false right
    if s.locals.any fun locals => !isAgg && !Scope.makesSense locals ⟨left, right, comp⟩ then .error (.rc .sqlSyntax)
    else return ⟨left, right, comp⟩

def checkWhereFields (db : Database) (s : Scope) (isAgg : Bool) :
    List (ConditionOf ConditionField) → Except Fault (List Condition)
  | [] => .ok []
  | c :: conditions => do
    let c ← checkCondition db s isAgg c
    let conditions ← checkWhereFields db s isAgg conditions
    return c :: conditions

end

def findGroupByField (attributes : List RelAttr) (field : RelAttr) : Bool :=
  attributes.any fun attr => decide (field.attributeName = attr.attributeName) &&
    (field.relationName.isNone || attr.relationName.isNone || decide (field.relationName = attr.relationName))

def checkGroupByFields (s : Scope) (q : Selects) : Except Fault Unit :=
  if q.groupBy = [] then .ok ()
  else if q.aggs = [] then .error (.rc .genericError)
  else q.groupBy.forM fun attr => do
    let _ ← s.relattrMatchTable attr
    if findGroupByField q.attributes attr then .ok () else .error (.rc .schemaFieldNotExist)

def checkAttributeListFields (s : Scope) : List RelAttr → Except Fault Unit
  | [] => .ok ()
  | attr :: attributes =>
    if attr = ⟨none, starName⟩ then .ok ()
    else do
      let _ ← s.relattrMatchTable attr
      checkAttributeListFields s attributes

def checkAggregationListFields (s : Scope) (aggs : List AggDesc) : Except Fault Unit :=
  aggs.forM fun desc => do
    desc.checkOperandType
    match desc.operand with
    | .field attr =>
      let (_, type) ← s.relattrMatchTable attr
      desc.checkFieldType type
    | _ => .ok ()

def checkFields (db : Database) (q : Selects) : Except Fault Selects := do
  let tables ← checkFromRelations db q.relations
  let s : Scope := ⟨tables, none, q.relations.length ≤ 1⟩
  let conditions ← checkWhereFields db s false q.conditions
  checkGroupByFields s q
  checkAttributeListFields s q.attributes
  checkAggregationListFields s q.aggs
  return { q with conditions }

/-! ### The members of the checker

`check_subquery` sets `global_tables_`, `local_tables_` and `relattr_match_table_`, and sets them back on each way
out. -/

def Scope.tables (s : Scope) : List TableMeta := s.locals.getD s.globals

def Scope.pushTable (s : Scope) (table : TableMeta) : Scope :=
  match s.locals with
  | none => { s with globals := s.globals ++ [table] }
  | some locals => { s with locals := some (locals ++ [table]) }

def popLocalTables (saved : Option (List TableMeta)) (s : Scope) : Scope := { s with locals := saved }

/-- `pop_match_func_and_global_table`, which calls `pop_back` as often as a table was pushed. -/
def popMatchFuncAndGlobalTable (pushed : Nat) (saved : Bool) (s : Scope) : Scope :=
  { s with globals := s.globals.take (s.globals.length - pushed), nullable := saved }

/-- A member function of the checker; the members keep their values when it fails. -/
abbrev Member := EStateM Fault Scope

namespace Member

def kept {α : Type} (result : Except Fault α) (s : Scope) : EStateM.Result Fault Scope α :=
  match result with
  | .ok a => .ok a s
  | .error e => .error e s

def reads {α : Type} (f : Scope → Except Fault α) : Member α := fun s => kept (f s) s

def orPop {α : Type} (x : Member α) (pop : Scope → Scope) : Member α := fun s =>
  match x s with
  | .ok a s => .ok a s
  | .error e s => .error e (pop s)

def pushTables (db : Database) : List Name → Member Unit
  | [] => pure ()
  | relation :: relations => match db.findTable relation with
    | none => throw (.rc .schemaTableNotExist)
    | some table => do
      modify (·.pushTable table)
      pushTables db relations

def checkFromRelationsAndInitTables (db : Database) (relations : List Name) : Member Unit :=
  if relations = [] then throw (.rc .sqlSyntax) else pushTables db relations

/-- The attributes are rewritten and marked before the conditions are checked, over the tables at that time. -/
def checkSubqueryWhereFields (db : Database) (target : SubqueryTarget) (conditions : List Condition)
    (checkWhere : Scope → Member (List Condition)) : Member (AttrType × List Condition) := do
  let s ← get
  let pop := popMatchFuncAndGlobalTable s.tables.length s.nullable
  set { s with globals := s.globals ++ s.tables, nullable := false }
  orPop (reads fun s => checkIdentifiers s.tables conditions) pop
  let type ← orPop (reads fun _ => resultType db target) pop
  let conditions ← orPop (do checkWhere (← get)) pop
  modify pop
  return (type, conditions)

mutual

def checkField (db : Database) (marked : Scope) (comp : CompOp) (left : Bool) : ConditionField → Member ConditionField
  | .value v => pure (.value v)
  | .attr attr refersOuter => reads fun s =>
    (s.relattrMatchTable (marked.rewriteAttr attr refersOuter).1).map fun matched =>
      .attr matched.1 (marked.rewriteAttr attr refersOuter).2
  | .subquery q => do
    let q ← checkSubquery db comp left q
    return .subquery q

def checkSubquery (db : Database) (comp : CompOp) (left : Bool) : SubqueryOf ConditionField → Member Subquery
  | ⟨target, _, relations, conditions⟩ => do
    reads fun _ => checkSubqueryPlace target comp left
    let pop := popLocalTables (← get).locals
    modify fun s => { s with locals := some [] }
    orPop (checkFromRelationsAndInitTables db relations) pop
    let target ← orPop (reads fun s => checkSubquerySelectAttribute s.tables target) pop
    let (type, conditions) ← orPop (checkSubqueryWhereFields db target conditions fun marked =>
      checkWhereFields db marked target.isAgg conditions) pop
    modify pop
    return ⟨target, type, relations, conditions⟩

def checkCondition (db : Database) (marked : Scope) (isAgg : Bool) : ConditionOf ConditionField → Member Condition
  | ⟨left, right, comp⟩ => do
    reads fun _ => checkIn ⟨left, right, comp⟩
    let left ← checkField db marked comp true left
    let right ← checkField db marked comp false right
    reads fun s =>
      if s.locals.any fun locals => !isAgg && !Scope.makesSense locals ⟨left, right, comp⟩ then .error (.rc .sqlSyntax)
      else return ⟨left, right, comp⟩

def checkWhereFields (db : Database) (marked : Scope) (isAgg : Bool) :
    List (ConditionOf ConditionField) → Member (List Condition)
  | [] => pure []
  | c :: conditions => do
    let c ← checkCondition db marked isAgg c
    let conditions ← checkWhereFields db marked isAgg conditions
    return c :: conditions

end

def checkFields (db : Database) (q : Selects) : Member Selects := do
  checkFromRelationsAndInitTables db q.relations
  let conditions ← checkWhereFields db (← get) false q.conditions
  reads fun s => checkGroupByFields s q
  reads fun s => checkAttributeListFields s q.attributes
  reads fun s => checkAggregationListFields s q.aggs
  return { q with conditions }

end Member

end QueryChecker

end MiniOb
