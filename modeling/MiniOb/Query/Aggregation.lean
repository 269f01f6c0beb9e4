import MiniOb.Lib.Buckets
import MiniOb.Query.Join
import MiniOb.Query.Select

/-! # Aggregation

`Aggregator` and its subclasses, `AggregatorManager`, `AggregationExecutor` and `Grouper`. -/

namespace MiniOb
open Buckets

/-! ### Aggregators -/

/-- The state of an `Aggregator`. The two sums of `AvgAggregator` are one union; which of them is used depends on the
    type of the column alone. -/
inductive Aggregator
  | count (cnt : Int)
  | const (constVal : Int)
  | max (pos : Nat) (max : Option TupleValue)
  | min (pos : Nat) (min : Option TupleValue)
  | avg (pos : Nat) (attrType : AttrType) (cnt : Int) (intSum : Int) (floatSum : Single.Value) (isNull : Bool)
  deriving DecidableEq, Repr

def TupleValue.getInt : TupleValue → Int
  | .int value => value
  | _ => 0

def TupleValue.getFloat : TupleValue → Single.Value
  | .float word => Single.decode word
  | _ => .finite 0

namespace Aggregator

def consume (tuple : Tuple) : Aggregator → Aggregator
  | count cnt => if tuple.length = 1 ∧ (tuple.at 0).isNull then count cnt else count (wrapInt (cnt + 1))
  | const constVal => const constVal
  | max pos m =>
    let other := tuple.at pos
    if other.isNull then max pos m
    else match m with
      | none => max pos (some other)
      | some v => if v.compare other < 0 then max pos (some other) else max pos m
  | min pos m =>
    let other := tuple.at pos
    if other.isNull then min pos m
    else match m with
      | none => min pos (some other)
      | some v => if 0 < v.compare other then min pos (some other) else min pos m
  | avg pos attrType cnt intSum floatSum isNull =>
    let value := tuple.at pos
    if value.isNull then avg pos attrType cnt intSum floatSum isNull
    else if attrType = .ints then avg pos attrType (wrapInt (cnt + 1)) (wrapInt (intSum + value.getInt)) floatSum false
    else avg pos attrType (wrapInt (cnt + 1)) intSum (Single.add floatSum value.getFloat) false

def result : Aggregator → TupleValue
  | count cnt => .int cnt
  | const constVal => .int constVal
  | max _ m => m.getD .null
  | min _ m => m.getD .null
  | avg _ attrType cnt intSum floatSum isNull =>
    if isNull ∨ cnt = 0 then .null
    else if attrType = .ints then .float (Single.encode (Single.div (Single.ofInt intSum) (Single.ofInt cnt)))
    else .float (Single.encode (Single.div floatSum (Single.ofInt cnt)))

/-- `reset`. The zero of the union is the zero of both sums; the flag for NULL stays as it was. -/
def reset : Aggregator → Aggregator
  | count _ => count 0
  | const constVal => const constVal
  | max pos _ => max pos none
  | min pos _ => min pos none
  | avg pos attrType _ _ _ isNull => avg pos attrType 0 0 (.finite 0) isNull

end Aggregator

namespace AggregatorManager

def findPosOfAggFieldInSchema (schema : TupleSchema) (attr : RelAttr) : Option Nat :=
  match attr.relationName with
  | none => schema.indexOfName attr.attributeName
  | some table => schema.indexOfField ⟨table, attr.attributeName⟩

def fieldAggregator (schema : TupleSchema) (aggType : AggType) (attr : RelAttr) : Option Aggregator :=
  (findPosOfAggFieldInSchema schema attr).map fun pos => match aggType with
    | .max => .max pos none
    | .min => .min pos none
    | .avg => .avg pos ((schema[pos]?.map TupleField.type).getD .undefined) 0 0 (.finite 0) true
    | .count => .count 0

/-- `create_from`. For `*` the operand is a column of that name, which no schema has. -/
def createFrom (schema : TupleSchema) (desc : AggDesc) : Option Aggregator :=
  match desc.aggType, desc.operand with
  | .count, _ => some (.count 0)
  | _, .number n => some (.const n)
  | aggType, .field attr => fieldAggregator schema aggType attr
  | aggType, .star => fieldAggregator schema aggType ⟨none, [42]⟩

def create (schema : TupleSchema) (aggs : List AggDesc) : Option (List Aggregator) :=
  aggs.reverse.mapM (createFrom schema)

def consume (aggregators : List Aggregator) (tuples : List Tuple) : List Aggregator :=
  tuples.foldl (fun aggregators tuple => aggregators.map (Aggregator.consume tuple)) aggregators

def reset (aggregators : List Aggregator) : List Aggregator := aggregators.map Aggregator.reset

def results (aggregators : List Aggregator) : List TupleValue := aggregators.map Aggregator.result

end AggregatorManager

/-! ### Groups -/

/-- A `Group`, or a `Map` with as many levels of maps below it. The entries of a map are in no order. -/
def GroupMap : Nat → Type
  | 0 => List Tuple
  | n + 1 => List (TupleValue × GroupMap n)

namespace Grouper

def createLaterMapChain (tuple : Tuple) : (indices : List Nat) → GroupMap indices.length
  | [] => [tuple]
  | index :: indices => [(tuple.at index, createLaterMapChain tuple indices)]

/-- `get_group_of_tuple`, and the tuple put into the group. A key is found by its hash. -/
def addTuple (std : StdHash) (tuple : Tuple) : (indices : List Nat) → GroupMap indices.length → GroupMap indices.length
  | [], group => List.append group [tuple]
  | index :: indices, map =>
    upsert (TupleValue.hash std) (tuple.at index) (createLaterMapChain tuple indices) (addTuple std tuple indices) map

def emptyMap : (n : Nat) → GroupMap n
  | 0 => []
  | _ + 1 => []

def addTuples (std : StdHash) (indices : List Nat) (tuples : List Tuple) : GroupMap indices.length :=
  tuples.reverse.foldl (fun map tuple => addTuple std tuple indices map) (emptyMap indices.length)

/-- The order in which the entries of the map below a list of keys are visited. -/
structure Iteration where
  arrange : Tuple → (α : Type) → List (TupleValue × α) → List (TupleValue × α)
  perm : ∀ keys α entries, (arrange keys α entries).Perm entries

/-- `do_aggregation_helper`: the aggregators as it leaves them, and the tuples that it adds. -/
def doAggregationHelper (iteration : Iteration) : (n : Nat) → GroupMap n → Tuple → List Aggregator →
    List Aggregator × List Tuple
  | 0, group, tuple, aggregators =>
    let aggregators := AggregatorManager.consume (AggregatorManager.reset aggregators) group
    (aggregators, [tuple ++ AggregatorManager.results aggregators])
  | n + 1, map, tuple, aggregators =>
    (iteration.arrange tuple (GroupMap n) map).foldl (fun (aggregators, out) (entry : TupleValue × GroupMap n) =>
      let (aggregators, added) := doAggregationHelper iteration n entry.2 (tuple ++ [entry.1]) aggregators
      (aggregators, out ++ added)) (aggregators, [])

def execute (std : StdHash) (iteration : Iteration) (indices : List Nat) (aggs : List AggDesc) (set : TupleSet) :
    Option (List Tuple) :=
  (AggregatorManager.create set.schema aggs).map fun aggregators =>
    (doAggregationHelper iteration indices.length (addTuples std indices set.tuples) [] aggregators).2

end Grouper

end MiniOb
