import MiniOb.Table.Table

/-! # CREATE TABLE

What the rule `attr_def` of the grammar makes of a column definition, and the layout of a record in
`TableMeta::init`. -/

namespace MiniOb

structure AttrDef where
  type : AttrType
  nullable : Bool
  number : Option Nat
  deriving DecidableEq, Repr

structure AttrInfo where
  type : AttrType
  length : Nat
  nullable : Bool
  deriving DecidableEq, Repr

/-- The two actions of `attr_def`. A nullable column is four bytes longer. -/
def AttrDef.info (d : AttrDef) : AttrInfo :=
  let flag := if d.nullable then 4 else 0
  match d.number with
  | some number => ⟨d.type, number + flag, d.nullable⟩
  | none => if d.type = .texts then ⟨.chars, 4096 + flag, d.nullable⟩ else ⟨d.type, 4 + flag, d.nullable⟩

/-- The loop of `TableMeta::init` with the checks of `FieldMeta::init`; `offset` is `field_offset` behind the system
    field. -/
def initFields : Nat → List AttrInfo → Except RC (List FieldMeta)
  | _, [] => .ok []
  | offset, a :: attributes =>
    if a.type = .undefined ∨ a.length = 0 then .error .invalidArgument
    else (initFields (offset + a.length) attributes).map (⟨a.type, offset, a.length, a.nullable⟩ :: ·)

/-- `TableMeta::init`: the fields behind the system field. -/
def TableMeta.init (attributes : List AttrInfo) : Except RC (List FieldMeta) :=
  if attributes = [] then .error .invalidArgument else initFields 0 attributes

def createTable (defs : List AttrDef) : Except RC (List FieldMeta) := TableMeta.init (defs.map AttrDef.info)

/-- An entry of the arrays that `BplusTreeIndex::create` hands to `BplusTreeHandler::create`. -/
def FieldMeta.indexAttr (f : FieldMeta) : IndexAttr := ⟨f.type, f.len⟩

end MiniOb
