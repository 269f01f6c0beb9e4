import MiniOb.Theorems.Join

/-! # The hash join and the nested loop

`hash_join` keys its map on the columns of the first `=`. Floats compare equal when they are close, and hash to their
bits. -/

namespace MiniOb
open Product List

def TupleSchema.typeOf (schema : TupleSchema) (column : ColumnRef) : Option AttrType :=
  (schema.indexOfField column).bind fun i => schema[i]?.map TupleField.type

/-- A row of the schema; the values in its INTS, CHARS and DATE columns are of that type or NULL. -/
def RowOf (schema : TupleSchema) (row : Tuple) : Prop :=
  List.Forall₂ (fun f v => f.type.Exact → TupleValue.Fits f.type v) schema row

/-- The conditions compare a column of the left set with a column of the right set, of any type. -/
structure Compared (left right : TupleSet) (conditions : List JoinCondition) : Prop where
  leftRows : ∀ l ∈ left.tuples, RowOf left.schema l
  rightRows : ∀ r ∈ right.tuples, RowOf right.schema r
  compares : ∀ c ∈ conditions, c.comp.Compares
  foundLeft : ∀ c ∈ conditions, (left.schema.indexOfField c.left).isSome = true
  foundRight : ∀ c ∈ conditions, (right.schema.indexOfField c.right).isSome = true

namespace JoinCondition

def OneType (left right : TupleSchema) (c : JoinCondition) : Prop :=
  ∃ type, AttrType.Exact type ∧ left.typeOf c.left = some type ∧ right.typeOf c.right = some type

/-- The condition is fit for a hash map: of one type, and its right column is not one of the left set as well. -/
def Keyed (left right : TupleSchema) (c : JoinCondition) : Prop :=
  c.OneType left right ∧ left.indexOfField c.right = none

end JoinCondition

theorem RowOf.fits {schema : TupleSchema} {row : Tuple} {column : ColumnRef} {type : AttrType}
    (rowOf : RowOf schema row) (hexact : type.Exact) (htype : schema.typeOf column = some type) :
    (Tuple.value schema row column).Fits type := by
  obtain ⟨i, found, hget⟩ := Option.bind_eq_some_iff.mp htype
  obtain ⟨f, -, -, hf, hfits⟩ := value_of_found rowOf found
  rw [hf] at hget
  cases hget
  exact hfits hexact

/-- The hash join has the rows of the nested loop if and only if the first `=` is fit for a hash map, or all rows that
    pass the conditions happen to have the same key in its columns. -/
theorem hashJoin_eq_connectTable_iff (std : StdHash) (range : EqualRange) {left right : TupleSet}
    {conditions : List JoinCondition} (compared : Compared left right conditions) :
    ((hashJoin std range left right conditions).tuples : Multiset Tuple) =
        (connectTable (left.schema ++ right.schema) left.tuples right.tuples conditions : Multiset Tuple) ↔
      ∀ c, conditions.find? (fun c => decide (c.comp = .equalTo)) = some c → c.Keyed left.schema right.schema ∨
          ∀ l ∈ left.tuples, ∀ r ∈ right.tuples, (∀ c' ∈ conditions, c'.Passes (left.schema ++ right.schema) (l ++ r)) →
            (Tuple.value left.schema l c.left).hashKey std = (Tuple.value right.schema r c.right).hashKey std := by
  cases hfind : conditions.find? fun c => decide (c.comp = .equalTo) with
  | none =>
    have same : (hashJoin std range left right conditions).tuples =
        connectTable (left.schema ++ right.schema) left.tuples right.tuples conditions := by
      unfold hashJoin
      rw [hfind]
    refine iff_of_true (congrArg _ same) fun c hc => ?_
    cases hc
  | some c =>
    have hc := mem_of_find?_eq_some hfind
    have equal : c.comp = .equalTo := by simpa using find?_some hfind
    rw [hashJoin_eq_loop_iff hfind (compared.foundLeft c hc) (compared.foundRight c hc)]
    simp only [filterTuple_iff compared.compares]
    constructor
    · rintro same c' ⟨⟩
      exact .inr same
    · intro safe l hl r hr passes
      rcases safe c rfl with ⟨⟨type, hexact, typeLeft, typeRight⟩, apart⟩ | same
      · have rowLeft := compared.leftRows l hl
        exact hashKey_of_passes std rowLeft.length_eq.symm (compared.foundLeft c hc) apart
          (rowLeft.fits hexact typeLeft) ((compared.rightRows r hr).fits hexact typeRight) equal (passes c hc)
      · exact same l hl r hr passes

def measures (table : Name) (rows : List (TupleValue × TupleValue)) : TupleSet where
  schema := [⟨.ints, ⟨table, [105]⟩⟩, ⟨.floats, ⟨table, [102]⟩⟩]
  tuples := rows.map fun row => [row.1, row.2]

def sameId : JoinCondition := ⟨⟨[97], [105]⟩, ⟨[98], [105]⟩, .equalTo⟩

def sameMeasure : JoinCondition := ⟨⟨[97], [102]⟩, ⟨[98], [102]⟩, .equalTo⟩

theorem measures_compared {as bs : List (TupleValue × TupleValue)} {conditions : List JoinCondition}
    (fitsLeft : ∀ row ∈ as, row.1.Fits .ints) (fitsRight : ∀ row ∈ bs, row.1.Fits .ints)
    (among : ∀ c ∈ conditions, c = sameId ∨ c = sameMeasure) :
    Compared (measures [97] as) (measures [98] bs) conditions := by
  have rows : ∀ {table : Name} {rows : List (TupleValue × TupleValue)}, (∀ row ∈ rows, row.1.Fits .ints) →
      ∀ t ∈ (measures table rows).tuples, RowOf (measures table rows).schema t := by
    intro table rows fits t ht
    obtain ⟨row, hrow, rfl⟩ := mem_map.mp ht
    have inexact : ¬AttrType.Exact .floats := by decide
    exact .cons (fun _ => fits row hrow) (.cons (fun h => absurd h inexact) .nil)
  refine ⟨rows fitsLeft, rows fitsRight, fun c hc => ?_, fun c hc => ?_, fun c hc => ?_⟩
  · rcases among c hc with rfl | rfl
    · exact .inl rfl
    · exact .inl rfl
  · rcases among c hc with rfl | rfl
    · rfl
    · rfl
  · rcases among c hc with rfl | rfl
    · rfl
    · rfl

/-- The key, an `int`, leaves out the four bytes that `FloatValue::hash` reads behind the word. -/
def bitsHash : StdHash := ⟨fun _ => 0, id⟩

/-- `1e-8`, as `atof` and the conversion to `float` give it. -/
def tiny : Nat := 0x322bcc77

theorem hashJoin_finds_pair :
    ((hashJoin bitsHash .inOrder (measures [97] [(.int 1, .float 0), (.null, .float 0)])
        (measures [98] [(.int 1, .float tiny), (.null, .float tiny)]) [sameId, sameMeasure]).tuples : Multiset Tuple) =
      (connectTable ((measures [97] []).schema ++ (measures [98] []).schema)
        [[.int 1, .float 0], [.null, .float 0]] [[.int 1, .float tiny], [.null, .float tiny]]
        [sameId, sameMeasure] : Multiset Tuple) := by
  refine (hashJoin_eq_connectTable_iff bitsHash .inOrder (measures_compared ?_ ?_ ?_)).mpr fun c hc => ?_
  · intro row hrow
    rcases mem_cons.mp hrow with rfl | hrow
    · exact ⟨rfl, by decide⟩
    · rw [mem_singleton.mp hrow]
      trivial
  · intro row hrow
    rcases mem_cons.mp hrow with rfl | hrow
    · exact ⟨rfl, by decide⟩
    · rw [mem_singleton.mp hrow]
      trivial
  · intro c hc
    rcases mem_cons.mp hc with rfl | hc
    · exact .inl rfl
    · exact .inr (mem_singleton.mp hc)
  · cases hc
    exact .inl ⟨⟨.ints, .inl rfl, rfl, rfl⟩, rfl⟩

/-- With `a.f = b.f` in front the row of `(1, 0)` and `(1, 1e-8)` is lost: the floats compare equal, and their bits
    differ. -/
theorem hashJoin_loses_pair :
    Compared (measures [97] [(.int 1, .float 0)]) (measures [98] [(.int 1, .float tiny)]) [sameMeasure, sameId] ∧
      sameId.Keyed (measures [97] []).schema (measures [98] []).schema ∧
      (hashJoin bitsHash .inOrder (measures [97] [(.int 1, .float 0)]) (measures [98] [(.int 1, .float tiny)])
        [sameMeasure, sameId]).tuples = [] ∧
      connectTable ((measures [97] []).schema ++ (measures [98] []).schema) [[.int 1, .float 0]] [[.int 1, .float tiny]]
        [sameMeasure, sameId] = [[.int 1, .float 0, .int 1, .float tiny]] := by
  refine ⟨measures_compared ?_ ?_ ?_, ⟨⟨.ints, .inl rfl, rfl, rfl⟩, rfl⟩, by decide +kernel, by decide +kernel⟩
  · intro row hrow
    rw [mem_singleton.mp hrow]
    exact ⟨rfl, by decide⟩
  · intro row hrow
    rw [mem_singleton.mp hrow]
    exact ⟨rfl, by decide⟩
  · intro c hc
    rcases mem_cons.mp hc with rfl | hc
    · exact .inr rfl
    · exact .inl (mem_singleton.mp hc)

end MiniOb
