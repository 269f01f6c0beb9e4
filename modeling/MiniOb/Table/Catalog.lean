import MiniOb.Query.TupleValue

/-! # Table metadata

`TableMeta`, `FieldMeta` and `IndexMeta` with their names, as CREATE TABLE and CREATE INDEX make them: the lengths that
the rule `attr_def` of the grammar computes, the layout of a record in 32-bit arithmetic, and the JSON values that the
metadata file holds. -/

namespace MiniOb.Catalog

def isBlank (s : Bytes) : Bool := s.all fun c => c = 32 || (9 ≤ c && c ≤ 13)

/-! ### CREATE TABLE -/

/-- A column definition: `ID_get type null_def`, and the number in brackets behind it, any `int`. -/
structure AttrDef where
  name : Bytes
  type : AttrType
  nullable : Bool
  number : Option Int
  type_parsed : type ≠ .undefined ∧ type ≠ .nulls := by decide
  number_parsed : ∀ n ∈ number, IsInt n := by decide
  deriving DecidableEq, Repr

structure AttrInfo where
  name : Bytes
  type : AttrType
  length : Nat
  nullType : Bool
  deriving DecidableEq, Repr

def toSize (n : Int) : Nat := (n % 2 ^ 64).toNat

/-- The two actions of `attr_def`. A nullable column is four bytes longer. -/
def AttrDef.info (d : AttrDef) : AttrInfo :=
  let flag := if d.nullable then 4 else 0
  match d.number with
  | some number => ⟨d.name, d.type, toSize (wrapInt (number + flag)), d.nullable⟩
  | none =>
    if d.type = .texts then ⟨d.name, .chars, toSize (4096 + flag), d.nullable⟩
    else ⟨d.name, d.type, toSize (4 + flag), d.nullable⟩

/-! ### Metadata -/

structure FieldMeta where
  name : Bytes
  type : AttrType
  offset : Int
  len : Int
  visible : Bool
  nullable : Bool
  deriving DecidableEq, Repr

def FieldMeta.init (name : Bytes) (type : AttrType) (offset len : Int) (visible nullable : Bool) :
    Except RC FieldMeta :=
  if name = [] then .error .invalidArgument
  else if type = .undefined ∨ offset < 0 ∨ len ≤ 0 then .error .invalidArgument
  else .ok ⟨name, type, offset, len, visible, nullable⟩

structure IndexMeta where
  name : Bytes
  fields : List Bytes
  deriving DecidableEq, Repr

def IndexMeta.init (name : Bytes) (fields : List FieldMeta) : Except RC IndexMeta :=
  if isBlank name then .error .invalidArgument else .ok ⟨name, fields.map FieldMeta.name⟩

structure TableMeta where
  name : Bytes
  fields : List FieldMeta
  indexes : List IndexMeta
  uniqueIndexes : List IndexMeta
  recordSize : Int
  deriving DecidableEq, Repr

def trxField : FieldMeta := ⟨[95, 95, 116, 114, 120], .ints, 0, 4, false, false⟩

/-- The loop of `TableMeta::init`, with the value of `field_offset` behind it. -/
def initFields : Int → List AttrInfo → Except RC (List FieldMeta × Int)
  | offset, [] => .ok ([], offset)
  | offset, a :: attributes =>
    match FieldMeta.init a.name a.type offset (wrapInt a.length) true a.nullType with
    | .error rc => .error rc
    | .ok field =>
      match initFields (wrapInt (offset + a.length)) attributes with
      | .error rc => .error rc
      | .ok (fields, size) => .ok (field :: fields, size)

namespace TableMeta

def init (name : Bytes) (attributes : List AttrInfo) : Except RC TableMeta :=
  if name = [] then .error .invalidArgument
  else if attributes = [] then .error .invalidArgument
  else (initFields (trxField.offset + trxField.len) attributes).map fun (fields, size) =>
    ⟨name, trxField :: fields, [], [], size⟩

def field (t : TableMeta) (name : Bytes) : Option FieldMeta := t.fields.find? fun f => decide (f.name = name)

def index (t : TableMeta) (name : Bytes) : Option IndexMeta :=
  (t.indexes ++ t.uniqueIndexes).find? fun i => decide (i.name = name)

def findIndexByFields (t : TableMeta) (fields : List Bytes) : Option IndexMeta :=
  (t.indexes ++ t.uniqueIndexes).find? fun i => decide (i.fields = fields)

def addIndex (t : TableMeta) (index : IndexMeta) : TableMeta := { t with indexes := t.indexes ++ [index] }

def addUniqueIndex (t : TableMeta) (index : IndexMeta) : TableMeta :=
  { t with uniqueIndexes := t.uniqueIndexes ++ [index] }

end TableMeta

/-- The metadata that CREATE TABLE with these columns, and any sequence of `add_index` and `add_unique_index` over its
    fields after it, can make. -/
inductive TableMeta.Made (defs : List AttrDef) : TableMeta → Prop
  | init {name : Bytes} {t : TableMeta} : TableMeta.init name (defs.map AttrDef.info) = .ok t → Made defs t
  | addIndex {t : TableMeta} {name : Bytes} {fields : List FieldMeta} {index : IndexMeta} :
    Made defs t → fields ≠ [] → (∀ f ∈ fields, f ∈ t.fields) → IndexMeta.init name fields = .ok index →
      Made defs (t.addIndex index)
  | addUniqueIndex {t : TableMeta} {name : Bytes} {fields : List FieldMeta} {index : IndexMeta} :
    Made defs t → fields ≠ [] → (∀ f ∈ fields, f ∈ t.fields) → IndexMeta.init name fields = .ok index →
      Made defs (t.addUniqueIndex index)

/-! ### JSON -/

inductive Json
  | null
  | string (s : Bytes)
  | int (n : Int)
  | bool (b : Bool)
  | array (values : List Json)
  | object (members : List (String × Json))

namespace Json

def member (name : String) : Json → Json
  | object members => ((members.find? fun m => decide (m.1 = name)).map Prod.snd).getD null
  | _ => null

def appended (values : List Json) : Json := if values.isEmpty then null else array values

end Json

def attrTypeName : List (AttrType × Bytes) :=
  [(.undefined, "undefined".toUTF8.toList), (.chars, "chars".toUTF8.toList), (.ints, "ints".toUTF8.toList),
    (.date, "date".toUTF8.toList), (.floats, "floats".toUTF8.toList)]

/-- `attr_type_to_string`. The table ends with FLOATS. -/
def attrTypeToString (type : AttrType) : Bytes :=
  ((attrTypeName.find? fun e => decide (e.1 = type)).map Prod.snd).getD "unknown".toUTF8.toList

def attrTypeFromString (s : Bytes) : AttrType :=
  ((attrTypeName.find? fun e => decide (e.2 = s)).map Prod.fst).getD .undefined

namespace FieldMeta

def toJson (f : FieldMeta) : Json :=
  .object [("name", .string f.name), ("type", .string (attrTypeToString f.type)), ("offset", .int f.offset),
    ("len", .int f.len), ("visible", .bool f.visible), ("nullable", .bool f.nullable)]

/-- `from_json`. A missing `nullable` counts as false. -/
def fromJson (json : Json) : Except RC FieldMeta :=
  match json with
  | .object _ =>
    match json.member "name", json.member "type", json.member "offset", json.member "len", json.member "visible" with
    | .string name, .string type, .int offset, .int len, .bool visible =>
      let nullable := match json.member "nullable" with
        | .bool b => b
        | _ => false
      if attrTypeFromString type = .undefined then .error .genericError
      else init name (attrTypeFromString type) offset len visible nullable
    | _, _, _, _, _ => .error .genericError
  | _ => .error .genericError

end FieldMeta

namespace IndexMeta

def toJson (i : IndexMeta) : Json :=
  .object [("name", .string i.name), ("field_name", .appended (i.fields.map .string))]

/-- The loop of `from_json` over the names of the fields. -/
def findFields (table : TableMeta) : List Json → Except RC (List FieldMeta)
  | [] => .ok []
  | .string name :: rest => match table.field name with
    | none => .error .schemaFieldMissing
    | some f => (findFields table rest).map (f :: ·)
  | _ :: _ => .error .genericError

def fromJson (table : TableMeta) (json : Json) : Except RC IndexMeta :=
  match json.member "name", json.member "field_name" with
  | .string name, .array fields => match findFields table fields with
    | .error rc => .error rc
    | .ok metas => init name metas
  | _, _ => .error .genericError

end IndexMeta

def mapExcept {α β : Type} (f : α → Except RC β) : List α → Except RC (List β)
  | [] => .ok []
  | a :: as => match f a with
    | .error rc => .error rc
    | .ok b => (mapExcept f as).map (b :: ·)

namespace TableMeta

def serialize (t : TableMeta) : Json :=
  .object [("table_name", .string t.name), ("fields", .appended (t.fields.map FieldMeta.toJson)),
    ("indexes", .appended (t.indexes.map IndexMeta.toJson)),
      ("unique_indexes", .appended (t.uniqueIndexes.map IndexMeta.toJson))]

/-- What `deserialize` makes of a list of indexes: nothing changes if it is empty. -/
def indexesFromJson (t : TableMeta) (old : List IndexMeta) : Json → Option (List IndexMeta)
  | .null | .array [] | .object [] => some old
  | .array (value :: values) => (mapExcept (IndexMeta.fromJson t) (value :: values)).toOption
  | _ => none

/-- `deserialize`, into an object that has just been made; a negative result is `none`. -/
def deserialize (json : Json) : Option TableMeta :=
  match json.member "table_name", json.member "fields" with
  | .string name, .array (value :: values) =>
    match mapExcept FieldMeta.fromJson (value :: values) with
    | .error _ => none
    | .ok fields =>
      let sorted := fields.mergeSort fun f g => decide (f.offset ≤ g.offset)
      let size := match sorted.getLast? with
        | none => 0
        | some f => wrapInt (f.offset + f.len)
      let t : TableMeta := ⟨name, sorted, [], [], size⟩
      match t.indexesFromJson [] (json.member "indexes"), t.indexesFromJson [] (json.member "unique_indexes") with
      | some indexes, some uniqueIndexes => some { t with indexes := indexes, uniqueIndexes := uniqueIndexes }
      | _, _ => none
  | _, _ => none

end TableMeta

end MiniOb.Catalog
