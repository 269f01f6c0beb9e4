import MiniOb.Query.TupleValue

/-! # Tuple sets

`TupleField`, `TupleSchema`, `Tuple` and `TupleSet` of `tuple.h`. -/

namespace MiniOb

abbrev Name := Bytes

structure ColumnRef where
  table : Name
  field : Name
  deriving DecidableEq, Repr

structure TupleField where
  type : AttrType
  column : ColumnRef
  deriving DecidableEq, Repr

abbrev TupleSchema := List TupleField

/-- `index_of_field` with a table name; `none` stands for `-1`. -/
def TupleSchema.indexOfField (schema : TupleSchema) (column : ColumnRef) : Option Nat :=
  schema.findIdx? fun f => decide (f.column = column)

def TupleSchema.indexOfName (schema : TupleSchema) (field : Name) : Option Nat :=
  schema.findIdx? fun f => decide (f.column.field = field)

abbrev Tuple := List TupleValue

def Tuple.at (t : Tuple) (index : Nat) : TupleValue := t.getD index .null

structure TupleSet where
  schema : TupleSchema
  tuples : List Tuple
  deriving DecidableEq, Repr

end MiniOb
