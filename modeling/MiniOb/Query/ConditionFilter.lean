import MiniOb.Query.Date
import MiniOb.Query.Join
import MiniOb.Query.Select
import MiniOb.Table.Catalog

/-! # Record filters

`DefaultConditionFilter` of `condition_filter.cpp`. Records are the bytes of the whole record, system field included. -/

namespace MiniOb

/-- `TupleValue::from`; `none` is the null pointer. -/
def TupleValue.from (type : AttrType) (value : Bytes) : Option TupleValue :=
  match type with
  | .chars => some (.string (cString value value.length))
  | .ints => some (.int (readInt value))
  | .date => some (.date (readUInt value))
  | .floats => some (.float (readUInt value))
  | .undefined | .texts | .nulls => none

/-- `FloatValue::move_from`. Only integers are given to it. -/
def TupleValue.moveFrom : TupleValue → TupleValue
  | .int value => .float (Single.encode (Single.ofInt value))
  | v => v

/-- `subquery_context`, the last entry first. -/
abbrev Context := List (RelAttr × TupleValue)

def findFromContext (context : Context) (attr : RelAttr) : TupleValue :=
  match context.find? fun entry => decide (entry.1 = attr) with
  | some (_, value) => value
  | none => .null

/-- What `evaluate_subquery` leaves in `result`: the value of an aggregate, or the rows put into a set. -/
structure Evaluator where
  value : Subquery → Context → TupleValue
  rows : Subquery → Context → List TupleValue

/-- The fields of a `ConDesc` that `init` does not set for a literal or a subquery hold what was in memory. -/
structure Unset where
  relAttr : RelAttr
  refersOuter : Bool

def Unset.zero : Unset := ⟨⟨none, []⟩, false⟩

inductive ConDesc
  | attr (relAttr : RelAttr) (refersOuter : Bool) (offset : Nat) (nullable : Bool)
  | value (unset : Unset) (data : Bytes) (isNull : Bool)
  | subquery (unset : Unset) (subquery : Subquery)

namespace ConDesc

def relAttr : ConDesc → RelAttr
  | attr a _ _ _ => a
  | value unset _ _ => unset.relAttr
  | subquery unset _ => unset.relAttr

def refersOuter : ConDesc → Bool
  | attr _ outer _ _ => outer
  | value unset _ _ => unset.refersOuter
  | subquery unset _ => unset.refersOuter

def isAttr : ConDesc → Bool
  | attr .. => true
  | _ => false

def isValue : ConDesc → Bool
  | value .. => true
  | _ => false

def isSubquery : ConDesc → Bool
  | subquery .. => true
  | _ => false

def isNullValue : ConDesc → Bool
  | value _ _ isNull => isNull
  | _ => false

/-- One half of `DefaultConditionFilter::init`: the operand and its type. The table of an outer attribute exists. -/
def init (outer : Name → Catalog.TableMeta) (table : Catalog.TableMeta) (unset : Unset) :
    ConditionField → Except RC (ConDesc × AttrType)
  | .attr a refersOuter =>
    let owner := if refersOuter then outer (a.relationName.getD []) else table
    match owner.field a.attributeName with
    | none => .error .schemaFieldMissing
    | some field => .ok (attr a refersOuter field.offset.toNat field.nullable, field.type)
  | .value v => .ok (value unset v.data (v.type = .nulls), v.type)
  | .subquery q => .ok (subquery unset q, q.resultType)

end ConDesc

structure DefaultConditionFilter where
  left : ConDesc
  right : ConDesc
  attrType : AttrType
  compOp : CompOp
  floatInt : Bool
  intLeft : Bool

def overwriteDate (zone : TimeZone) (data : Bytes) (t : Day) : Bytes := rawBytes zone t ++ data.drop 4

/-- `(is_value(left) && !is_value(right)) || …` with a `DATE` on the one side and a text on the other. -/
def datesText (left right : ConDesc) (typeLeft typeRight : AttrType) : Bool :=
  (left.isValue && !right.isValue && decide (typeLeft = .chars ∧ typeRight = .date)) ||
    (!left.isValue && right.isValue && decide (typeLeft = .date ∧ typeRight = .chars))

def ConditionField.rewriteDate (zone : TimeZone) (t : Day) : ConditionField → ConditionField
  | .value v => .value { v with data := overwriteDate zone v.data t }
  | f => f

/-- The pointer of a `ConDesc` follows: it points at the memory of the literal. -/
def ConDesc.rewriteDate (zone : TimeZone) (t : Day) : ConDesc → ConDesc
  | .value unset data isNull => .value unset (overwriteDate zone data t) isNull
  | d => d

def literalText : ConDesc → ConDesc → Bytes
  | .value _ data _, _ => data
  | _, .value _ data _ => data
  | _, _ => []

namespace DefaultConditionFilter

/-- `DefaultConditionFilter::init`, with the condition as it is afterwards. `unset` is what the two uninitialised
    `ConDesc` hold. -/
def init (zone : TimeZone) (outer : Name → Catalog.TableMeta) (table : Catalog.TableMeta) (unset : Unset × Unset)
    (c : Condition) : Except RC DefaultConditionFilter × Condition :=
  match ConDesc.init outer table unset.1 c.left with
  | .error rc => (.error rc, c)
  | .ok (left, typeLeft) => match ConDesc.init outer table unset.2 c.right with
    | .error rc => (.error rc, c)
    | .ok (right, typeRight) =>
      if typeLeft = typeRight ∨ typeLeft = .nulls ∨ typeRight = .nulls then
        (.ok ⟨left, right, typeLeft, c.comp, false, false⟩, c)
      else if (typeLeft = .ints ∧ typeRight = .floats ∨ typeLeft = .floats ∧ typeRight = .ints) ∧
        !(left.isAttr && right.isAttr) then
        (.ok ⟨left, right, typeLeft, c.comp, true, typeLeft = .ints⟩, c)
      else if datesText left right typeLeft typeRight then
        match validateDataFormat (literalText left right) with
        | none => (.error .invalidArgument, c)
        | some t =>
          (.ok ⟨left.rewriteDate zone t, right.rewriteDate zone t, .date, c.comp, false, false⟩,
            { c with left := c.left.rewriteDate zone t, right := c.right.rewriteDate zone t })
      else (.error .schemaFieldTypeMismatch, c)

/-- Whether `filter` hands the record to `subquery_filter`. -/
def throughSubquery (f : DefaultConditionFilter) : Bool :=
  (f.compOp ≠ .condIn && f.compOp ≠ .notIn && f.compOp ≠ .isOp && f.compOp ≠ .isNotOp) &&
    !(f.left.isNullValue || f.right.isNullValue) &&
    (f.floatInt || f.left.refersOuter || f.right.refersOuter || f.left.isSubquery || f.right.isSubquery)

/-- The class that the left operand of `subquery_filter` is used as. Both operands are built with `attr_type_`; if an
    integer meets a float, one of the two objects is then read as an object of the other class, over the same four
    bytes. -/
def typeLeft (f : DefaultConditionFilter) : AttrType :=
  if f.floatInt then if f.intLeft then .ints else .floats else f.attrType

/-- The class that the right operand of `subquery_filter` is used as. -/
def typeRight (f : DefaultConditionFilter) : AttrType :=
  if f.floatInt then if f.intLeft then .floats else .ints else f.attrType

end DefaultConditionFilter

namespace ConDesc

/-- An operand of `subquery_filter` that is not a subquery. An attribute of the record is read at its offset, where a
    nullable one has its flag. -/
def load (type : AttrType) (context : Context) (data : Bytes) : ConDesc → Option TupleValue
  | attr a refersOuter offset _ => if refersOuter then some (findFromContext context a)
      else TupleValue.from type (data.drop offset)
  | value _ v _ => TupleValue.from type v
  | subquery .. => none

def push (d : ConDesc) (v : TupleValue) (context : Context) : Context :=
  if d.isAttr then (d.relAttr, v) :: context else context

def isNullIn (data : Bytes) : ConDesc → Bool
  | attr _ _ offset nullable => nullable && readInt (data.drop offset) ≠ 0
  | value _ _ isNull => isNull
  | subquery .. => false

def bytesIn (data : Bytes) : ConDesc → Bytes
  | attr _ _ offset nullable => data.drop (if nullable then offset + 4 else offset)
  | value _ v _ => v
  | subquery .. => []

end ConDesc

/-- The comparison in `filter` of two values in memory. -/
def compareBytes (type : AttrType) (left right : Bytes) : Int :=
  match type with
  | .chars => strncmp left right (left.length + right.length + 1)
  | .ints => wrapInt (readInt left - readInt right)
  | .floats =>
    let fcmp := Single.sub (readFloat left) (readFloat right)
    if fcmp = .finite 0 then 0 else if Single.gt fcmp 0 then 1 else -1
  | .date => wrapInt ((readUInt left : Int) - readUInt right)
  | .undefined | .texts | .nulls => 0

def CompOp.opSwitch : CompOp → Int → Bool
  | .equalTo, cmp => cmp = 0
  | .lessEqual, cmp => cmp ≤ 0
  | .notEqual, cmp => cmp ≠ 0
  | .lessThan, cmp => cmp < 0
  | .greatEqual, cmp => 0 ≤ cmp
  | .greatThan, cmp => 0 < cmp
  | .noOp, cmp | .isOp, cmp | .isNotOp, cmp | .condIn, cmp | .notIn, cmp => cmp ≠ 0

namespace DefaultConditionFilter
variable (std : StdHash) (evaluate : Evaluator) (context : Context)

/-- The operands of `subquery_filter`; `none` if one is a null pointer. -/
def operands (f : DefaultConditionFilter) (data : Bytes) : Option (TupleValue × TupleValue) :=
  match f.left, f.right with
  | .subquery _ ql, .subquery _ qr => some (evaluate.value ql context, evaluate.value qr context)
  | .subquery _ ql, right => (right.load f.typeRight context data).map fun r =>
      (evaluate.value ql (right.push r context), r)
  | left, .subquery _ qr => (left.load f.typeLeft context data).map fun l =>
      (l, evaluate.value qr (left.push l context))
  | left, right => match left.load f.typeLeft context data, right.load f.typeRight context data with
    | some l, some r => some (l, r)
    | _, _ => none

/-- `subquery_filter`: the result of the comparison and `has_null`; `none` where a null pointer is used. -/
def subqueryFilter (f : DefaultConditionFilter) (data : Bytes) : Option (Int × Bool) :=
  (f.operands evaluate context data).map fun (l, r) =>
    let hasNull := l.isNull || r.isNull
    if !hasNull && f.floatInt then
      if f.intLeft then (l.moveFrom.compare r, hasNull) else (l.compare r.moveFrom, hasNull)
    else (l.compare r, hasNull)

/-- The branch of `filter` for `IN` and `NOT IN`. The set finds what has the hash of the value. -/
def inFilter (f : DefaultConditionFilter) (data : Bytes) : Option Bool :=
  match f.right with
  | .subquery _ q =>
    if f.attrType ≠ q.resultType then some false
    else (TupleValue.from f.attrType (f.left.bytesIn data)).map fun v =>
      let rows := evaluate.rows q ((f.left.relAttr, v) :: context)
      decide (f.compOp = .condIn) == rows.any fun row => decide (row.hash std = v.hash std)
  | _ => none

/-- `filter`; `none` where a null pointer is used. -/
def filter (f : DefaultConditionFilter) (data : Bytes) : Option Bool :=
  if f.throughSubquery then
    (f.subqueryFilter evaluate context data).map fun (cmp, hasNull) => if hasNull then false else f.compOp.opSwitch cmp
  else
    let leftIsNull := f.left.isNullIn data
    let rightIsNull := f.right.isNullIn data
    if f.compOp ≠ .isOp ∧ f.compOp ≠ .isNotOp ∧ (leftIsNull || rightIsNull) then some false
    else if f.compOp = .isNotOp then some !leftIsNull
    else if f.compOp = .isOp then some leftIsNull
    else if f.compOp = .condIn ∨ f.compOp = .notIn then f.inFilter std evaluate context data
    else some (f.compOp.opSwitch (compareBytes f.attrType (f.left.bytesIn data) (f.right.bytesIn data)))

end DefaultConditionFilter

end MiniOb
