import MiniOb.Query.Checker
import MiniOb.Query.ConditionFilter

/-! # Nodes for the tables of a SELECT

`SingleRelationSelectExeNodeCreator`, `create_multiple_selector`, `subquery2selects` and the records of a node as
tuples. -/

namespace MiniOb
open Catalog (TableMeta)

/-! ### Schemas -/

def TupleSchema.addIfNotExists (schema : TupleSchema) (field : TupleField) : TupleSchema :=
  if (schema.indexOfField field.column).isSome then schema else schema ++ [field]

def TupleSchema.fromTable (schema : TupleSchema) (table : TableMeta) : TupleSchema :=
  schema ++ (table.fields.filter Catalog.FieldMeta.visible).map fun field => ⟨field.type, ⟨table.name, field.name⟩⟩

def schemaAddField (table : TableMeta) (schema : TupleSchema) (field : Name) : Except RC TupleSchema :=
  match table.field field with
  | none => .error .schemaFieldMissing
  | some found => .ok (schema.addIfNotExists ⟨found.type, ⟨table.name, found.name⟩⟩)

def RelAttr.refersTable (attr : RelAttr) (table : Name) : Bool :=
  attr.relationName.all fun relation => decide (relation = table)

def schemaFromAttributes (table : TableMeta) : List RelAttr → TupleSchema → Except RC TupleSchema
  | [], schema => .ok schema
  | attr :: attributes, schema =>
    if attr.refersTable table.name then
      if attr.attributeName = starName then .ok (schema.fromTable table)
      else (schemaAddField table schema attr.attributeName).bind (schemaFromAttributes table attributes)
    else schemaFromAttributes table attributes schema

/-- The loops of `aggregation_list_extend_tuple_schema` and `group_by_extend_tuple_schema` over the attributes. -/
def extendTupleSchema (table : TableMeta) (schema : TupleSchema) (attributes : List RelAttr) : Except RC TupleSchema :=
  (attributes.filter (RelAttr.refersTable · table.name)).foldlM
    (fun schema attr => schemaAddField table schema attr.attributeName) schema

def AggDesc.attr? (desc : AggDesc) : Option RelAttr :=
  match desc.operand with
  | .field attr => some attr
  | _ => none

def ConditionField.refersTable (table : Name) : ConditionField → Bool
  | .attr a _ => a.refersTable table
  | _ => false

def conditionFilterWillExtendTupleSchema (table : TableMeta) (conditions : List Condition) : Bool :=
  conditions.any fun c => c.left.refersTable table.name || c.right.refersTable table.name

/-- `force_extend_tuple_schema`: the first field behind the system field. -/
def forceExtendTupleSchema (table : TableMeta) (schema : TupleSchema) : Except RC TupleSchema :=
  match table.fields[1]? with
  | none => .error .schemaFieldNotExist
  | some field => schemaAddField table schema field.name

def schemaFromAggregations (table : TableMeta) (q : Selects) : Except RC TupleSchema := do
  let schema ← extendTupleSchema table [] (q.aggs.filterMap AggDesc.attr?)
  let schema ← extendTupleSchema table schema q.groupBy
  if schema ≠ [] then return schema
  if conditionFilterWillExtendTupleSchema table q.conditions then return schema
  forceExtendTupleSchema table schema

def createTupleSchema (table : TableMeta) (q : Selects) : Except RC TupleSchema :=
  if q.aggs = [] then schemaFromAttributes table q.attributes.reverse [] else schemaFromAggregations table q

/-! ### Conditions -/

def matchTable (relationNum : Nat) (attr : RelAttr) (table : Name) : Bool :=
  match attr.relationName with
  | some relation => relation = table
  | none => relationNum = 1

def matchOrOuter (relationNum : Nat) (table : Name) : ConditionField → Bool
  | .attr attr refersOuter => matchTable relationNum attr table || refersOuter
  | _ => false

def conditionRefersSingleTable (relationNum : Nat) (c : Condition) (table : Name) : Bool :=
  (!c.left.isAttr && !c.right.isAttr) ||
    (c.left.isAttr && !c.right.isAttr && matchOrOuter relationNum table c.left) ||
    (!c.left.isAttr && c.right.isAttr && matchOrOuter relationNum table c.right) ||
    (c.left.isAttr && c.right.isAttr && matchOrOuter relationNum table c.left && matchOrOuter relationNum table c.right)

/-- `condition_refers_multiple_tables`. It reads the names of both tables. -/
def conditionRefersMultipleTables (c : Condition) : Bool :=
  match c.left, c.right with
  | .attr left _, .attr right _ => left.relationName ≠ right.relationName
  | _, _ => false

/-- One half of `condition_filter_extend_tuple_schema`: the column is added by the node of its own table. -/
def extendByField (table : TableMeta) (schema : TupleSchema) : ConditionField → Except RC TupleSchema
  | .attr attr _ =>
    if (schema.indexOfField ⟨attr.relationName.getD [], attr.attributeName⟩).isNone &&
      attr.relationName = some table.name then
      schemaAddField table schema attr.attributeName
    else .ok schema
  | _ => .ok schema

def conditionFilterExtendTupleSchema (table : TableMeta) (schema : TupleSchema) (c : Condition) :
    Except RC TupleSchema := do
  let schema ← extendByField table schema c.left
  extendByField table schema c.right

/-- What the nodes of a statement are made with: the time zone, the open tables, and what uninitialised memory holds
    when the filter for a table and a condition is made. -/
structure Planning where
  zone : TimeZone
  db : Database
  memory : Name → Condition → Unset × Unset

def Planning.outer (p : Planning) (name : Name) : TableMeta := (p.db.findTable name).getD ⟨name, [], [], [], 0⟩

/-- The loop of `create_condition_filters`: the filters, the schema, and the conditions as `init` leaves them. -/
def createConditionFilters (p : Planning) (relationNum : Nat) (table : TableMeta) :
    List Condition → TupleSchema → Except RC (List DefaultConditionFilter × TupleSchema × List Condition)
  | [], schema => .ok ([], schema, [])
  | c :: conditions, schema =>
    if conditionRefersSingleTable relationNum c table.name then
      match DefaultConditionFilter.init p.zone p.outer table (p.memory table.name c) c with
      | (.error rc, _) => .error rc
      | (.ok filter, c) => (createConditionFilters p relationNum table conditions schema).map
          fun (filters, schema, conditions) =>
        (filter :: filters, schema, c :: conditions)
    else if conditionRefersMultipleTables c then
      (conditionFilterExtendTupleSchema table schema c).bind fun schema =>
        (createConditionFilters p relationNum table conditions schema).map fun (filters, schema, conditions) =>
          (filters, schema, c :: conditions)
    else (createConditionFilters p relationNum table conditions schema).map fun (filters, schema, conditions) =>
      (filters, schema, c :: conditions)

structure SelectExeNode where
  table : TableMeta
  schema : TupleSchema
  filters : List DefaultConditionFilter

namespace NodeCreator

def createSelectionExecutor (p : Planning) (q : Selects) (name : Name) : Except RC (SelectExeNode × List Condition) :=
  match p.db.findTable name with
  | none => .error .schemaTableNotExist
  | some table => do
    let schema ← createTupleSchema table q
    let (filters, schema, conditions) ← createConditionFilters p q.relations.length table q.conditions schema
    return (⟨table, schema, filters⟩, conditions)

def createNodes (p : Planning) : List Name → Selects → Except RC (List SelectExeNode)
  | [], _ => .ok []
  | name :: names, q => do
    let (node, conditions) ← createSelectionExecutor p q name
    let nodes ← createNodes p names { q with conditions }
    return node :: nodes

def create (p : Planning) (q : Selects) : Except RC (List SelectExeNode) := createNodes p q.relations q

end NodeCreator

/-- The condition as `join_tables` reads it, if `create_multiple_selector` takes it. It reads the names of both
    tables. -/
def multipleCondition (c : Condition) : Option JoinCondition :=
  match c.left, c.right with
  | .attr ⟨some left, leftField⟩ false, .attr ⟨some right, rightField⟩ false =>
    if left ≠ right then some ⟨⟨left, leftField⟩, ⟨right, rightField⟩, c.comp⟩ else none
  | _, _ => none

def createMultipleSelector (q : Selects) : List JoinCondition := q.conditions.filterMap multipleCondition

def subquery2selects (q : Subquery) : Selects where
  attributes := match q.target with
    | .attribute attr => [attr]
    | .agg _ => []
  aggs := match q.target with
    | .attribute _ => []
    | .agg desc => [desc]
  relations := q.relations
  conditions := q.conditions
  groupBy := []
  orders := []

end MiniOb
