import MiniOb.Query.Tuple

/-! # SELECT statements

The parsed statement of `parse_defs.h`. The arrays of the source are lists in the order of the arrays, which the grammar
fills from the last item of the text to the first. -/

namespace MiniOb

structure RelAttr where
  relationName : Option Name
  attributeName : Name
  deriving DecidableEq, Repr

/-- The `Value` of a condition, with the bytes of its memory. What lies behind them, the terminator of a text among it,
    reads as zeros. -/
structure Literal where
  type : AttrType
  data : Bytes
  deriving DecidableEq, Repr

inductive AggType
  | max
  | min
  | count
  | avg
  deriving DecidableEq, Repr

inductive AggOperand
  | field (attr : RelAttr)
  | star
  | number (n : Int)
  deriving DecidableEq, Repr

structure AggDesc where
  aggType : AggType
  operand : AggOperand
  deriving DecidableEq, Repr

/-- What a subquery selects: `attribute`, or `agg` if `is_agg` is set. -/
inductive SubqueryTarget
  | attribute (attr : RelAttr)
  | agg (agg : AggDesc)
  deriving DecidableEq, Repr

/-- `Condition`, over its operands. -/
structure ConditionOf (Field : Type) where
  left : Field
  right : Field
  comp : CompOp

/-- `Subquery`, over the operands of its conditions. -/
structure SubqueryOf (Field : Type) where
  target : SubqueryTarget
  resultType : AttrType
  relations : List Name
  conditions : List (ConditionOf Field)

inductive ConditionField
  | value (value : Literal)
  | attr (attr : RelAttr) (refersOuter : Bool)
  | subquery (subquery : SubqueryOf ConditionField)

abbrev Condition := ConditionOf ConditionField

abbrev Subquery := SubqueryOf ConditionField

structure Order where
  descending : Bool
  attr : RelAttr
  deriving DecidableEq, Repr

structure Selects where
  attributes : List RelAttr
  aggs : List AggDesc
  relations : List Name
  conditions : List Condition
  groupBy : List RelAttr
  orders : List Order

namespace ConditionField

def isAttr : ConditionField → Bool
  | attr .. => true
  | _ => false

def isSubquery : ConditionField → Bool
  | subquery _ => true
  | _ => false

end ConditionField

end MiniOb
