import MiniOb.Lib.Sorting
import MiniOb.Query.Select

/-! # ORDER BY

`TupleSet::sort_by_orders` of `tuple.cpp`. -/

namespace MiniOb

/-- `compare`, with the indexes of `orders_` and whether each is `ORDER_DESC`. -/
def lessBy : List (Nat × Bool) → Tuple → Tuple → Bool
  | [], _, _ => false
  | (index, descending) :: orders, t1, t2 =>
    let comp := (t1.at index).compare (t2.at index)
    let comp := if descending then wrapInt (-comp) else comp
    if comp < 0 then true
    else if 0 < comp then false
    else lessBy orders t1 t2

def TupleSchema.orderIndex (schema : TupleSchema) (attr : RelAttr) : Option Nat :=
  match attr.relationName with
  | none => schema.indexOfName attr.attributeName
  | some table => schema.indexOfField ⟨table, attr.attributeName⟩

/-- `orders_`. Every column is in the schema. -/
def TupleSchema.orderIndexes (schema : TupleSchema) (orders : List Order) : List (Nat × Bool) :=
  orders.map fun o => ((schema.orderIndex o.attr).getD 0, o.descending)

/-- `sort_by_orders`: the tuples that `std::sort` may leave. -/
def TupleSet.SortByOrders (set : TupleSet) (orders : List Order) (result : List Tuple) : Prop :=
  if orders = [] then result = set.tuples
  else Sorting.Sorts (fun t1 t2 => lessBy (set.schema.orderIndexes orders) t1 t2 = true) set.tuples result

end MiniOb
