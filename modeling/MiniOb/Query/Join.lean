import MiniOb.Query.Tuple

/-! # Joins

`filter`, `connect_table`, `hash_join` and `join_tables` of `execute_stage.cpp`. -/

namespace MiniOb

structure JoinCondition where
  left : ColumnRef
  right : ColumnRef
  comp : CompOp
  deriving DecidableEq, Repr

/-- The exchange of the operands in `join_tables`. The comparator stays. -/
def JoinCondition.swap (c : JoinCondition) : JoinCondition := { c with left := c.right, right := c.left }

def CompOp.passes : CompOp → Int → Bool
  | .equalTo, cmp => cmp = 0
  | .lessEqual, cmp => cmp ≤ 0
  | .notEqual, cmp => cmp ≠ 0
  | .lessThan, cmp => cmp < 0
  | .greatEqual, cmp => 0 ≤ cmp
  | .greatThan, cmp => 0 < cmp
  | .noOp, _ | .isOp, _ | .isNotOp, _ | .condIn, _ | .notIn, _ => false

/-- `filter`. A test for NULL decides at once, whatever conditions follow it. -/
def filterTuple (cur : Tuple) (schema : TupleSchema) : List JoinCondition → Bool
  | [] => true
  | c :: conditions => match schema.indexOfField c.left, schema.indexOfField c.right with
    | some leftIdx, some rightIdx =>
      let leftVal := cur.at leftIdx
      let rightVal := cur.at rightIdx
      if c.comp = .isNotOp then !leftVal.isNull
      else if c.comp = .isOp then leftVal.isNull
      else if leftVal.isNull || rightVal.isNull then false
      else if c.comp.passes (leftVal.compare rightVal) then filterTuple cur schema conditions
      else false
    | _, _ => false

/-- `std::hash<std::string>`, and what `FloatValue::hash` finds in the eight bytes at the address of a float with this
    word. -/
structure StdHash where
  string : Bytes → Nat
  float : Nat → Nat

def TupleValue.hash (std : StdHash) : TupleValue → Nat
  | .null => 0
  | .int value => (value % 2 ^ 64).toNat
  | .float word => std.float word
  | .string value => std.string value
  | .date value => value

/-- The key in the hash map of `hash_join`, an `int`. -/
def TupleValue.hashKey (std : StdHash) (v : TupleValue) : Int := wrapInt (v.hash std)

/-- `equal_range` of a `std::unordered_multimap`: the values of the entries with the key, in some order. -/
structure EqualRange where
  find : List (Int × Nat) → Int → List Nat
  perm : ∀ entries key, (find entries key).Perm ((entries.filter fun e => decide (e.1 = key)).map Prod.snd)

def EqualRange.inOrder : EqualRange where
  find entries key := (entries.filter fun e => decide (e.1 = key)).map Prod.snd
  perm _ _ := .refl _

def connectTable (schema : TupleSchema) (left right : List Tuple) (conditions : List JoinCondition) : List Tuple :=
  left.flatMap fun l => right.flatMap fun r => if filterTuple (l ++ r) schema conditions then [l ++ r] else []

/-- `hash_join`. The first condition with `=` selects the rows to connect; every condition is tested on them. -/
def hashJoin (std : StdHash) (range : EqualRange) (left right : TupleSet) (conditions : List JoinCondition) :
    TupleSet where
  schema := left.schema ++ right.schema
  tuples := match conditions.find? fun c => decide (c.comp = .equalTo) with
    | none => connectTable (left.schema ++ right.schema) left.tuples right.tuples conditions
    | some c =>
      let leftIndex := (left.schema.indexOfField c.left).getD 0
      let rightIndex := (right.schema.indexOfField c.right).getD 0
      let hashMap := left.tuples.zipIdx.map fun p => ((Tuple.at p.1 leftIndex).hashKey std, p.2)
      right.tuples.flatMap fun r => (range.find hashMap ((Tuple.at r rightIndex).hashKey std)).flatMap fun i =>
        if filterTuple (left.tuples.getD i [] ++ r) (left.schema ++ right.schema) conditions then
          [left.tuples.getD i [] ++ r] else []

/-- What the loop of `join_tables` makes of one condition: as it stands from now on, and whether it belongs to this
    join. -/
def assignCondition (left right : TupleSchema) (c : JoinCondition) : JoinCondition × Bool :=
  let leftExist := (left.indexOfField c.left).isSome
  let rightExist := (right.indexOfField c.right).isSome
  if !leftExist && !rightExist && (left.indexOfField c.right).isSome && (right.indexOfField c.left).isSome then
    (c.swap, true)
  else (c, leftExist && rightExist)

def joinLoop (std : StdHash) (range : EqualRange) : List TupleSet → TupleSet → List JoinCondition → TupleSet
  | [], left, _ => left
  | right :: rest, left, conditions =>
    let assigned := conditions.map (assignCondition left.schema right.schema)
    let leftRight := (assigned.filter Prod.snd).map Prod.fst
    joinLoop std range rest (hashJoin std range left right leftRight) (assigned.map Prod.fst)

def joinTables (std : StdHash) (range : EqualRange) (first : TupleSet) (rest : List TupleSet)
    (conditions : List JoinCondition) : TupleSet :=
  joinLoop std range rest first conditions

end MiniOb
