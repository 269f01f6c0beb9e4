import MiniOb.Lib.Product
import MiniOb.Query.Join

/-! # Joins and filtered products

`join_tables` tests every condition exactly once. The operands are put into the order of the tables while the comparator
stays, and the difference of two numbers may wrap. -/

namespace MiniOb
open MiniOb.Tuple JoinCondition TupleValue CompOp
variable {schema s : TupleSchema} {column : ColumnRef} {l : Tuple} {c : JoinCondition} {conditions : List JoinCondition}

open Product List

/-! ### Comparisons -/

def AttrType.Exact (type : AttrType) : Prop := type = .ints ∨ type = .chars ∨ type = .date

instance (type : AttrType) : Decidable type.Exact := inferInstanceAs (Decidable (_ ∨ _ ∨ _))

namespace TupleValue

/-- A value of a column of this type, or NULL: a C `int`, a string without a terminator in it, an unsigned number of
    days. -/
def Fits (type : AttrType) : TupleValue → Prop
  | .null => True
  | .int v => type = .ints ∧ -2 ^ 31 ≤ v ∧ v < 2 ^ 31
  | .string s => type = .chars ∧ 0 ∉ s
  | .date d => type = .date ∧ d < 2 ^ 32
  | .float _ => False

/-- The order of the values of one type; strings are compared by their bytes. -/
def Less : TupleValue → TupleValue → Prop
  | .int a, .int b => a < b
  | .date a, .date b => a < b
  | .string a, .string b => a.map (fun c => (c.toNat : Int)) < b.map fun c => (c.toNat : Int)
  | _, _ => False

/-- The difference of the two numbers is a C `int`. -/
def Near : TupleValue → TupleValue → Prop
  | .int a, .int b => -2 ^ 31 ≤ a - b ∧ a - b < 2 ^ 31
  | .date a, .date b => -2 ^ 31 ≤ (a : Int) - b ∧ (a : Int) - b < 2 ^ 31
  | _, _ => True

instance : DecidableRel Less := fun a b => by
  unfold Less
  split
  · exact inferInstance
  · exact inferInstance
  · exact inferInstance
  · exact inferInstance

theorem wrapInt_eq_zero {n : Int} (low : -2 ^ 32 < n) (high : n < 2 ^ 32) : wrapInt n = 0 ↔ n = 0 := by
  unfold wrapInt
  omega

theorem sub_sign (a b : Int) : (a - b < 0 ↔ a < b) ∧ (0 < a - b ↔ b < a) :=
  ⟨⟨Int.lt_of_sub_neg, Int.sub_neg_of_lt⟩, ⟨Int.lt_of_sub_pos, Int.sub_pos_of_lt⟩⟩

theorem cString_eq : ∀ {s : Bytes} {n : Nat}, 0 ∉ s → s.length ≤ n → cString s n = s
  | [], 0, _, _ => rfl
  | [], _ + 1, _, _ => rfl
  | c :: s, n + 1, hzero, hlength => by
    obtain ⟨hc, hs⟩ := not_or.mp (mt mem_cons.mpr hzero)
    rw [cString, headD_cons, if_neg fun h => hc h.symm, tail_cons, cString_eq hs (Nat.le_of_succ_le_succ hlength)]

theorem compare_string {a b : Bytes} (ha : 0 ∉ a) (hb : 0 ∉ b) :
    Agrees ((string a).compare (string b)) (a.map fun c => (c.toNat : Int)) (b.map fun c => (c.toNat : Int)) := by
  have agrees := agrees_strncmp (a.length + b.length + 1) a b
  rw [cString_eq ha (by omega), cString_eq hb (by omega)] at agrees
  exact agrees

theorem bytes_inj {a b : Bytes} (h : (a.map fun c => (c.toNat : Int)) = b.map fun c => (c.toNat : Int)) : a = b := by
  refine map_injective_iff.mpr (fun x y hxy => ?_) h
  exact UInt8.toNat_inj.mp (Int.natCast_inj.mp hxy)

section
variable {type : AttrType} {a b : TupleValue} (ha : a.Fits type) (hb : b.Fits type) (na : a.isNull = false)
  (nb : b.isNull = false)
include ha hb na nb

theorem Fits.cases :
    (∃ v u, a = int v ∧ b = int u ∧ (-2 ^ 31 ≤ v ∧ v < 2 ^ 31) ∧ -2 ^ 31 ≤ u ∧ u < 2 ^ 31) ∨
      (∃ s t, a = string s ∧ b = string t ∧ 0 ∉ s ∧ 0 ∉ t) ∨ ∃ d e, a = date d ∧ b = date e ∧ d < 2 ^ 32 ∧
        e < 2 ^ 32 := by
  cases a with
  | null => cases na
  | float v => exact absurd ha not_false
  | int v =>
    obtain ⟨rfl, hv⟩ := ha
    cases b with
    | int u => exact .inl ⟨v, u, rfl, rfl, hv, hb.2⟩
    | _ => simp [Fits, isNull, TupleValue.type] at hb nb
  | string s =>
    obtain ⟨rfl, hs⟩ := ha
    cases b with
    | string t => exact .inr (.inl ⟨s, t, rfl, rfl, hs, hb.2⟩)
    | _ => simp [Fits, isNull, TupleValue.type] at hb nb
  | date d =>
    obtain ⟨rfl, hd⟩ := ha
    cases b with
    | date e => exact .inr (.inr ⟨d, e, rfl, rfl, hd, hb.2⟩)
    | _ => simp [Fits, isNull, TupleValue.type] at hb nb

theorem compare_eq_zero : a.compare b = 0 ↔ a = b := by
  rcases ha.cases hb na nb with ⟨v, u, rfl, rfl, hv, hu⟩ | ⟨s, t, rfl, rfl, hs, ht⟩ | ⟨d, e, rfl, rfl, hd, he⟩
  · have hwrap : wrapInt (v - u) = 0 ↔ v - u = 0 := wrapInt_eq_zero (by omega) (by omega)
    rw [int.injEq, compare, hwrap]
    exact Int.sub_eq_zero
  · rw [(compare_string hs ht).2, string.injEq]
    exact ⟨bytes_inj, fun h => by rw [h]⟩
  · have hwrap : wrapInt ((d : Int) - e) = 0 ↔ (d : Int) - e = 0 := wrapInt_eq_zero (by omega) (by omega)
    rw [date.injEq, compare, hwrap, Int.sub_eq_zero]
    exact Int.natCast_inj

theorem compare_sign (near : a.Near b) : (a.compare b < 0 ↔ a.Less b) ∧ (0 < a.compare b ↔ b.Less a) := by
  rcases ha.cases hb na nb with ⟨v, u, rfl, rfl, -, -⟩ | ⟨s, t, rfl, rfl, hs, ht⟩ | ⟨d, e, rfl, rfl, -, -⟩
  · rw [compare, wrapInt_eq near.1 near.2]
    exact sub_sign v u
  · exact ⟨(compare_string hs ht).1, (compare_string hs ht).pos_iff⟩
  · rw [compare, wrapInt_eq near.1 near.2]
    exact (sub_sign d e).imp (fun h => h.trans Int.ofNat_lt) fun h => h.trans Int.ofNat_lt

end

end TupleValue

/-! ### Conditions on rows -/

def CompOp.Satisfied : CompOp → TupleValue → TupleValue → Prop
  | .equalTo, a, b => a = b
  | .notEqual, a, b => a ≠ b
  | .lessThan, a, b => a.Less b
  | .lessEqual, a, b => a.Less b ∨ a = b
  | .greatThan, a, b => b.Less a
  | .greatEqual, a, b => b.Less a ∨ a = b
  | .noOp, _, _ | .isOp, _, _ | .isNotOp, _, _ | .condIn, _, _ | .notIn, _, _ => False

instance (op : CompOp) (a b : TupleValue) : Decidable (op.Satisfied a b) := by
  cases op <;> dsimp only [CompOp.Satisfied] <;> infer_instance

def Tuple.value (schema : TupleSchema) (row : Tuple) (column : ColumnRef) : TupleValue :=
  match schema.indexOfField column with
  | some i => row.at i
  | none => .null

namespace JoinCondition

/-- The condition holds as it is written; a comparison with NULL does not. -/
def Holds (schema : TupleSchema) (row : Tuple) (c : JoinCondition) : Prop :=
  (value schema row c.left).isNull = false ∧ (value schema row c.right).isNull = false ∧
    c.comp.Satisfied (value schema row c.left) (value schema row c.right)

def Passes (schema : TupleSchema) (row : Tuple) (c : JoinCondition) : Prop :=
  (value schema row c.left).isNull = false ∧ (value schema row c.right).isNull = false ∧
    c.comp.passes ((value schema row c.left).compare (value schema row c.right)) = true

instance (schema : TupleSchema) (row : Tuple) (c : JoinCondition) : Decidable (c.Holds schema row) :=
  inferInstanceAs (Decidable (_ ∧ _ ∧ _))

instance (schema : TupleSchema) (row : Tuple) (c : JoinCondition) : Decidable (c.Passes schema row) :=
  inferInstanceAs (Decidable (_ ∧ _ ∧ _))

end JoinCondition

def CompOp.Compares (op : CompOp) : Prop :=
  op = .equalTo ∨ op = .notEqual ∨ op = .lessThan ∨ op = .lessEqual ∨ op = .greatThan ∨ op = .greatEqual

instance (op : CompOp) : Decidable op.Compares := inferInstanceAs (Decidable (_ ∨ _ ∨ _ ∨ _ ∨ _ ∨ _))

theorem filterTuple_iff {row : Tuple} {schema : TupleSchema} : ∀ {conditions : List JoinCondition},
    (∀ c ∈ conditions, c.comp.Compares) → (filterTuple row schema conditions = true ↔
      ∀ c ∈ conditions, c.Passes schema row)
  | [], _ => ⟨fun _ _ hc => absurd hc not_mem_nil, fun _ => rfl⟩
  | c :: conditions, compares => by
    have ih : filterTuple row schema conditions = true ↔ _ :=
      filterTuple_iff fun c' hc' => compares c' (mem_cons_of_mem c hc')
    have hcomp := compares c mem_cons_self
    have notNot : c.comp ≠ .isNotOp := fun h => absurd (h ▸ hcomp) (by decide)
    have notIs : c.comp ≠ .isOp := fun h => absurd (h ▸ hcomp) (by decide)
    rw [forall_mem_cons, ← ih, filterTuple]
    unfold Passes value
    cases schema.indexOfField c.left with
    | none => simp [isNull, type]
    | some i =>
      cases schema.indexOfField c.right with
      | none => simp [isNull, type]
      | some j =>
        dsimp only
        rw [if_neg notNot, if_neg notIs]
        cases (Tuple.at row i).isNull <;> cases (Tuple.at row j).isNull <;> simp

/-! ### Columns of concatenated rows -/

theorem indexOfField_lt {i : Nat} (h : schema.indexOfField column = some i) :
    ∃ hi : i < schema.length, (schema.get ⟨i, hi⟩).column = column := by
  obtain ⟨hi, hp, -⟩ := findIdx?_eq_some_iff_getElem.mp h
  exact ⟨hi, of_decide_eq_true hp⟩

theorem indexOfField_append {s' : TupleSchema} :
    TupleSchema.indexOfField (s ++ s') column =
      (s.indexOfField column).or ((s'.indexOfField column).map fun i => i + s.length) := findIdx?_append

theorem value_append_left (s' : TupleSchema) (r : Tuple) (hlength : l.length = s.length)
    (found : (s.indexOfField column).isSome = true) : value (s ++ s') (l ++ r) column = value s l column := by
  obtain ⟨i, hi⟩ := Option.isSome_iff_exists.mp found
  obtain ⟨hlt, -⟩ := indexOfField_lt hi
  unfold value
  rw [indexOfField_append, hi]
  dsimp only [Option.or]
  unfold Tuple.at
  rw [getD_append _ _ _ _ (hlength ▸ hlt)]

theorem value_append_right (s' : TupleSchema) (r : Tuple) (hlength : l.length = s.length)
    (absent : s.indexOfField column = none) : value (s ++ s') (l ++ r) column = value s' r column := by
  unfold value
  rw [indexOfField_append, absent]
  dsimp only [Option.or]
  cases s'.indexOfField column with
  | none => rfl
  | some i =>
    dsimp only [Option.map]
    unfold Tuple.at
    rw [getD_append_right _ _ _ _ (by omega), hlength, Nat.add_sub_cancel]

def Typed (schema : TupleSchema) (row : Tuple) : Prop := List.Forall₂ (fun f v => Fits f.type v) schema row

theorem value_of_found {R : TupleField → TupleValue → Prop} {row : Tuple} {i : Nat}
    (related : List.Forall₂ R schema row) (found : schema.indexOfField column = some i) :
    ∃ f ∈ schema, f.column = column ∧ schema[i]? = some f ∧ R f (value schema row column) := by
  obtain ⟨hi, hcolumn⟩ := indexOfField_lt found
  have hi' : i < row.length := related.length_eq ▸ hi
  refine ⟨schema.get ⟨i, hi⟩, get_mem _ _, hcolumn, getElem?_eq_getElem hi, ?_⟩
  unfold value
  rw [found]
  dsimp only
  unfold Tuple.at
  rw [getD_eq_getElem _ _ hi']
  exact List.Forall₂.get related hi hi'

theorem Typed.value {row : Tuple} {type : AttrType} (typed : Typed schema row)
    (types : ∀ f ∈ schema, f.column = column → f.type = type) : (value schema row column).Fits type := by
  cases h : schema.indexOfField column with
  | none =>
    unfold Tuple.value
    rw [h]
    trivial
  | some i =>
    obtain ⟨f, hf, hcolumn, -, hfit⟩ := value_of_found typed h
    rwa [types f hf hcolumn] at hfit

/-! ### One join -/

/-- What the conditions of a join have in common: a column on each side, of one type, and a comparator. -/
structure Connects (left right : TupleSchema) (c : JoinCondition) : Prop where
  compares : c.comp.Compares
  foundLeft : (left.indexOfField c.left).isSome = true
  foundRight : (right.indexOfField c.right).isSome = true
  apart : left.indexOfField c.right = none
  types : ∀ f ∈ left, ∀ g ∈ right, f.column = c.left → g.column = c.right → f.type = g.type

theorem hashKey_of_passes (std : StdHash) {left right : TupleSchema} {r : Tuple} {type : AttrType}
    (hlength : l.length = left.length) (foundLeft : (left.indexOfField c.left).isSome = true)
    (apart : left.indexOfField c.right = none) (fitsLeft : (value left l c.left).Fits type)
    (fitsRight : (value right r c.right).Fits type) (equal : c.comp = .equalTo)
    (passes : c.Passes (left ++ right) (l ++ r)) :
    (value left l c.left).hashKey std = (value right r c.right).hashKey std := by
  obtain ⟨na, nb, hpass⟩ := passes
  rw [value_append_left _ _ hlength foundLeft] at na hpass
  rw [value_append_right _ _ hlength apart] at nb hpass
  rw [equal] at hpass
  rw [(compare_eq_zero fitsLeft fitsRight na nb).mp (of_decide_eq_true hpass)]

theorem Connects.hashKey (std : StdHash) {left right : TupleSchema} {r : Tuple} (connects : Connects left right c)
    (hl : Typed left l) (hr : Typed right r) (equal : c.comp = .equalTo) (passes : c.Passes (left ++ right) (l ++ r)) :
    (value left l c.left).hashKey std = (value right r c.right).hashKey std := by
  obtain ⟨i, hi⟩ := Option.isSome_iff_exists.mp connects.foundLeft
  obtain ⟨hlt, hcolumn⟩ := indexOfField_lt hi
  obtain ⟨j, hj⟩ := Option.isSome_iff_exists.mp connects.foundRight
  obtain ⟨hlt', hcolumn'⟩ := indexOfField_lt hj
  -- Both values fit the type of the columns.
  have fitsRight : (value right r c.right).Fits (left.get ⟨i, hlt⟩).type :=
    hr.value fun g hg hgc => (connects.types _ (get_mem _ _) g hg hcolumn hgc).symm
  have fitsLeft : (value left l c.left).Fits (left.get ⟨i, hlt⟩).type :=
    hl.value fun f hf hfc => (connects.types f hf _ (get_mem _ _) hfc hcolumn').trans
      (connects.types _ (get_mem _ _) _ (get_mem _ _) hcolumn hcolumn').symm
  exact hashKey_of_passes std hl.length_eq.symm connects.foundLeft connects.apart fitsLeft fitsRight equal passes

theorem hashMap_bucket (range : EqualRange) (key : Tuple → Int) (k : Int) (tuples : List Tuple) :
    ((range.find (tuples.zipIdx.map fun p => (key p.1, p.2)) k).map fun i => tuples.getD i []).Perm
      (tuples.filter fun t => decide (key t = k)) := by
  refine ((range.perm _ k).map _).trans (List.Perm.of_eq ?_)
  rw [filter_map, map_map, map_map]
  have hmem : ∀ p ∈ tuples.zipIdx.filter fun p => decide (key p.1 = k), tuples.getD p.2 [] = p.1 := by
    intro p hp
    have hget := mem_zipIdx_iff_getElem?.mp (mem_filter.mp hp).1
    rw [getD_eq_getElem?_getD, hget]
    rfl
  have hfst : (tuples.zipIdx.filter fun p => decide (key p.1 = k)).map Prod.fst = tuples.filter fun t =>
      decide (key t = k) := by
    have hcomp : (tuples.zipIdx.map Prod.fst).filter (fun t => decide (key t = k)) = _ := filter_map
    rw [zipIdx_map_fst] at hcomp
    exact hcomp.symm
  rw [← hfst]
  exact map_congr_left hmem

/-- The hash join finds what the nested loop finds if and only if all rows that pass the conditions have the same key in
    the columns of the first `=`. -/
theorem hashJoin_eq_loop_iff {std : StdHash} {range : EqualRange} {left right : TupleSet}
    (first : conditions.find? (fun c => decide (c.comp = .equalTo)) = some c)
    (foundLeft : (left.schema.indexOfField c.left).isSome = true)
    (foundRight : (right.schema.indexOfField c.right).isSome = true) :
    ((hashJoin std range left right conditions).tuples : Multiset Tuple) =
        (connectTable (left.schema ++ right.schema) left.tuples right.tuples conditions : Multiset Tuple) ↔
      ∀ l ∈ left.tuples, ∀ r ∈ right.tuples, filterTuple (l ++ r) (left.schema ++ right.schema) conditions = true →
        (Tuple.value left.schema l c.left).hashKey std = (Tuple.value right.schema r c.right).hashKey std := by
  obtain ⟨i, hi⟩ := Option.isSome_iff_exists.mp foundLeft
  obtain ⟨j, hj⟩ := Option.isSome_iff_exists.mp foundRight
  have hleft : ∀ l, Tuple.value left.schema l c.left = Tuple.at l i := fun l => by rw [Tuple.value, hi]
  have hright : ∀ r, Tuple.value right.schema r c.right = Tuple.at r j := fun r => by rw [Tuple.value, hj]
  simp only [hleft, hright]
  have found : ∀ r ∈ right.tuples,
      ((range.find (left.tuples.zipIdx.map fun p => ((Tuple.at p.1 i).hashKey std, p.2))
        ((Tuple.at r j).hashKey std)).map fun i => left.tuples.getD i []).Perm
      (left.tuples.filter fun l => decide ((Tuple.at l i).hashKey std = (Tuple.at r j).hashKey std)) :=
    fun r _ => hashMap_bucket range (fun l => (Tuple.at l i).hashKey std) ((Tuple.at r j).hashKey std) left.tuples
  refine (Eq.congr_left ?_).trans
    (buckets_eq_loop_iff (f := (· ++ ·)) (p := fun row => filterTuple row (left.schema ++ right.schema) conditions)
      found)
  unfold hashJoin
  rw [first]
  dsimp only
  rw [hi, hj]
  simp only [flatMap_map]
  rfl

theorem hashJoin_tuples {std : StdHash} {range : EqualRange} {left right : TupleSet}
    (hl : ∀ l ∈ left.tuples, Typed left.schema l) (hr : ∀ r ∈ right.tuples, Typed right.schema r)
    (connects : ∀ c ∈ conditions, Connects left.schema right.schema c) :
    ((hashJoin std range left right conditions).tuples : Multiset Tuple) =
      (pairs (· ++ ·) (left.tuples : Multiset Tuple) (right.tuples : Multiset Tuple)).filter fun row =>
        ∀ c ∈ conditions, c.Passes (left.schema ++ right.schema) row := by
  have compares : ∀ c ∈ conditions, c.comp.Compares := fun c hc => (connects c hc).compares
  have nested : ((hashJoin std range left right conditions).tuples : Multiset Tuple) =
      (connectTable (left.schema ++ right.schema) left.tuples right.tuples conditions : Multiset Tuple) := by
    cases hfind : conditions.find? fun c => decide (c.comp = .equalTo) with
    | none =>
      unfold hashJoin
      rw [hfind]
    | some c =>
      have hc := mem_of_find?_eq_some hfind
      have equal : c.comp = .equalTo := by simpa using find?_some hfind
      refine (hashJoin_eq_loop_iff hfind (connects c hc).foundLeft (connects c hc).foundRight).mpr
        fun l hl' r hr' hpass => ?_
      exact (connects c hc).hashKey std (hl l hl') (hr r hr') equal ((filterTuple_iff compares).mp hpass c hc)
  rw [nested]
  refine (loop_eq (· ++ ·) (fun row => filterTuple row (left.schema ++ right.schema) conditions) left.tuples
    right.tuples).trans ?_
  exact Multiset.filter_congr fun row _ => filterTuple_iff compares

/-! ### The conditions of a join -/

namespace JoinCondition

def Within (names : List Name) (c : JoinCondition) : Prop := c.left.table ∈ names ∧ c.right.table ∈ names

instance (names : List Name) (c : JoinCondition) : Decidable (c.Within names) := inferInstanceAs (Decidable (_ ∧ _))

def Reversed (names : List Name) (c : JoinCondition) : Prop := names.idxOf c.right.table < names.idxOf c.left.table

instance (names : List Name) (c : JoinCondition) : Decidable (c.Reversed names) := inferInstanceAs (Decidable (_ < _))

/-- The condition with its operands in the order of the tables, and the same comparator. -/
def inOrder (names : List Name) (c : JoinCondition) : JoinCondition := if c.Reversed names then c.swap else c

def current (names seen : List Name) (c : JoinCondition) : JoinCondition := if c.Within seen then c.inOrder names else c

end JoinCondition

/-- A schema with columns of these tables only, and with all the columns of theirs that the conditions name. -/
structure Provides (conditions : List JoinCondition) (schema : TupleSchema) (names : List Name) : Prop where
  only : ∀ f ∈ schema, f.column.table ∈ names
  all : ∀ c ∈ conditions, ∀ column, column = c.left ∨ column = c.right → column.table ∈ names →
    (schema.indexOfField column).isSome = true

namespace Provides
variable {conditions : List JoinCondition} {schema : TupleSchema} {names : List Name} {c : JoinCondition}

theorem isSome_iff (provides : Provides conditions schema names) (hc : c ∈ conditions) {column : ColumnRef}
    (operand : column = c.left ∨ column = c.right) : (schema.indexOfField column).isSome = true ↔
      column.table ∈ names := by
  refine ⟨fun found => ?_, provides.all c hc column operand⟩
  obtain ⟨i, hi⟩ := Option.isSome_iff_exists.mp found
  obtain ⟨hlt, hcolumn⟩ := indexOfField_lt hi
  rw [← hcolumn]
  exact provides.only _ (get_mem _ _)

theorem append {schema' : TupleSchema} {names' : List Name} (provides : Provides conditions schema names)
    (provides' : Provides conditions schema' names') : Provides conditions (schema ++ schema') (names ++ names') where
  only f hf := by
    rcases mem_append.mp hf with hf | hf
    · exact mem_append_left _ (provides.only f hf)
    · exact mem_append_right _ (provides'.only f hf)
  all c hc column operand htable := by
    rw [indexOfField_append, Option.isSome_or, Option.isSome_map, Bool.or_eq_true]
    rcases mem_append.mp htable with htable | htable
    · exact .inl (provides.all c hc column operand htable)
    · exact .inr (provides'.all c hc column operand htable)

end Provides

section Assign
variable {conditions : List JoinCondition} {left right : TupleSchema} {seen rest : List Name} {name : Name}
  {c : JoinCondition}

theorem idxOf_lt {a : Name} (fresh : name ∉ seen) (ha : a ∈ seen) :
    (seen ++ name :: rest).idxOf a < (seen ++ name :: rest).idxOf name := by
  rw [idxOf_append_of_mem ha, idxOf_append_of_notMem fresh, idxOf_cons_self, Nat.add_zero]
  exact idxOf_lt_length_of_mem ha

theorem inOrder_incoming (rest : List Name) (fresh : name ∉ seen) (cross : c.left.table ≠ c.right.table)
    (now : ¬c.Within seen ∧ c.Within (seen ++ [name])) :
    (c.left.table ∈ seen ∧ c.right.table = name ∧ c.inOrder (seen ++ name :: rest) = c) ∨
      (c.left.table = name ∧ c.right.table ∈ seen ∧ c.inOrder (seen ++ name :: rest) = c.swap) := by
  obtain ⟨before, hl, hr⟩ := now
  rw [mem_append, mem_singleton] at hl hr
  rcases hl with hl | hl
  · have hr : c.right.table = name := hr.resolve_left fun h => before ⟨hl, h⟩
    refine .inl ⟨hl, hr, if_neg ?_⟩
    rw [Reversed, hr]
    exact Nat.not_lt.mpr (idxOf_lt fresh hl).le
  · have hr : c.right.table ∈ seen := hr.resolve_right fun h => cross (hl.trans h.symm)
    refine .inr ⟨hl, hr, if_pos ?_⟩
    rw [Reversed, hl]
    exact idxOf_lt fresh hr

/-- A condition belongs to the join in which the later of its tables comes in, and has its operands in the order of the
    tables from then on. -/
theorem assignCondition_eq (provides : Provides conditions left seen) (provides' : Provides conditions right [name])
    (fresh : name ∉ seen) (hc : c ∈ conditions) (cross : c.left.table ≠ c.right.table) :
    assignCondition left right (c.current (seen ++ name :: rest) seen) =
      (c.current (seen ++ name :: rest) (seen ++ [name]), decide (¬c.Within seen ∧ c.Within (seen ++ [name]))) := by
  have inLeft : ∀ {column : ColumnRef}, column = c.left ∨ column = c.right →
      (left.indexOfField column).isSome = decide (column.table ∈ seen) := fun operand => by
    rw [Bool.eq_iff_iff, provides.isSome_iff hc operand, decide_eq_true_eq]
  have inRight : ∀ {column : ColumnRef}, column = c.left ∨ column = c.right →
      (right.indexOfField column).isSome = decide (column.table = name) := fun operand => by
    rw [Bool.eq_iff_iff, provides'.isSome_iff hc operand, decide_eq_true_eq, mem_singleton]
  have apart : ∀ {table : Name}, table ∈ seen → table ≠ name := fun h heq => fresh (heq ▸ h)
  by_cases within : c.Within seen
  · -- Both tables are behind the loop.
    have within' : c.Within (seen ++ [name]) := ⟨mem_append_left _ within.1, mem_append_left _ within.2⟩
    rw [current, if_pos within, current, if_pos within', decide_eq_false fun h => h.1 within]
    unfold assignCondition inOrder
    split
    · dsimp only [JoinCondition.swap]
      rw [inLeft (.inr rfl), inRight (.inl rfl), decide_eq_true within.2, decide_eq_false (apart within.1)]
      rfl
    · rw [inLeft (.inl rfl), inRight (.inr rfl), decide_eq_true within.1, decide_eq_false (apart within.2)]
      rfl
  rw [current, if_neg within]
  by_cases within' : c.Within (seen ++ [name])
  · rw [current, if_pos within', decide_eq_true ⟨within, within'⟩]
    unfold assignCondition
    rw [inLeft (.inl rfl), inLeft (.inr rfl), inRight (.inl rfl), inRight (.inr rfl)]
    rcases inOrder_incoming rest fresh cross ⟨within, within'⟩ with ⟨hl, hr, heq⟩ | ⟨hl, hr, heq⟩
    · rw [heq, decide_eq_true hl, decide_eq_true hr]
      rfl
    · have hl' : c.left.table ∉ seen := fun h => apart h hl
      rw [heq, decide_eq_true hl, decide_eq_true hr, decide_eq_false hl', decide_eq_false (apart hr)]
      rfl
  · -- One of the tables is still to come: neither order of the operands fits.
    have hwritten : ¬(c.left.table ∈ seen ∧ c.right.table = name) := fun h =>
      within' ⟨mem_append_left _ h.1, mem_append_right _ (mem_singleton.mpr h.2)⟩
    have hswapped : ¬(c.right.table ∈ seen ∧ c.left.table = name) := fun h =>
      within' ⟨mem_append_right _ (mem_singleton.mpr h.2), mem_append_left _ h.1⟩
    rw [current, if_neg within', decide_eq_false fun h => within' h.2]
    unfold assignCondition
    dsimp only
    rw [inLeft (.inl rfl), inLeft (.inr rfl), inRight (.inl rfl), inRight (.inr rfl), ← Bool.decide_and,
      decide_eq_false hwritten, Bool.and_assoc _ (decide _), ← Bool.decide_and, decide_eq_false hswapped,
        Bool.and_false, if_neg Bool.false_ne_true]

theorem assigned_eq (provides : Provides conditions left seen) (provides' : Provides conditions right [name])
    (fresh : name ∉ seen) (cross : ∀ c ∈ conditions, c.left.table ≠ c.right.table) :
    (conditions.map (current (seen ++ name :: rest) seen)).map (assignCondition left right) = conditions.map fun c =>
      (c.current (seen ++ name :: rest) (seen ++ [name]), decide (¬c.Within seen ∧ c.Within (seen ++ [name]))) := by
  rw [map_map]
  exact map_congr_left fun c hc => assignCondition_eq provides provides' fresh hc (cross c hc)

theorem selected_eq (names : List Name) :
    ((conditions.map fun c => (c.current names (seen ++ [name]),
      decide (¬c.Within seen ∧ c.Within (seen ++ [name])))).filter
        Prod.snd).map Prod.fst =
      (conditions.filter fun c => decide (¬c.Within seen ∧ c.Within (seen ++ [name]))).map (inOrder names) := by
  rw [filter_map, map_map]
  refine map_congr_left fun c hc => ?_
  have within := (of_decide_eq_true (mem_filter.mp hc).2).2
  exact if_pos within

end Assign

/-! ### The loop -/

/-- The conditions between the tables `seen` pass, each with its operands in the order of the tables. -/
def Passing (conditions : List JoinCondition) (names seen : List Name) (schema : TupleSchema) (row : Tuple) : Prop :=
  ∀ c ∈ conditions, c.Within seen → (c.inOrder names).Passes schema row

instance (conditions : List JoinCondition) (names seen : List Name) (schema : TupleSchema) (row : Tuple) :
    Decidable (Passing conditions names seen schema row) := inferInstanceAs (Decidable (∀ c ∈ conditions, _ → _))

/-- What is asked of the conditions: a comparator, between columns of two tables and of one type. -/
structure Asked (conditions : List JoinCondition) (schema : TupleSchema) : Prop where
  compares : ∀ c ∈ conditions, c.comp.Compares
  cross : ∀ c ∈ conditions, c.left.table ≠ c.right.table
  types : ∀ c ∈ conditions, ∀ f ∈ schema, ∀ g ∈ schema, f.column = c.left → g.column = c.right → f.type = g.type

section Loop
variable {conditions : List JoinCondition} {seen rest : List Name} {name : Name}

theorem inOrder_operands (names : List Name) (c : JoinCondition) :
    ((c.inOrder names).left = c.left ∧ (c.inOrder names).right = c.right) ∨
      ((c.inOrder names).left = c.right ∧ (c.inOrder names).right = c.left) := by
  unfold inOrder
  split
  · exact .inr ⟨rfl, rfl⟩
  · exact .inl ⟨rfl, rfl⟩

theorem passes_append {s s' : TupleSchema} {l r : Tuple} {names : List Name} {c : JoinCondition}
    (provides : Provides conditions s seen) (hc : c ∈ conditions) (hlength : l.length = s.length)
    (within : c.Within seen) : (c.inOrder names).Passes (s ++ s') (l ++ r) ↔ (c.inOrder names).Passes s l := by
  have hl := value_append_left s' r hlength (provides.all c hc _ (.inl rfl) within.1)
  have hr := value_append_left s' r hlength (provides.all c hc _ (.inr rfl) within.2)
  unfold Passes
  rcases inOrder_operands names c with ⟨h1, h2⟩ | ⟨h1, h2⟩
  · rw [h1, h2, hl, hr]
  · rw [h1, h2, hl, hr]

theorem connects_selected {left right : TupleSchema} {c : JoinCondition} (provides : Provides conditions left seen)
    (provides' : Provides conditions right [name]) (fresh : name ∉ seen) (hc : c ∈ conditions)
    (compares : c.comp.Compares) (cross : c.left.table ≠ c.right.table)
    (types : ∀ f ∈ left ++ right, ∀ g ∈ left ++ right, f.column = c.left → g.column = c.right → f.type = g.type)
    (now : ¬c.Within seen ∧ c.Within (seen ++ [name])) : Connects left right (c.inOrder (seen ++ name :: rest)) := by
  have absent : ∀ {column : ColumnRef}, column = c.left ∨ column = c.right → column.table = name →
      left.indexOfField column = none := by
    intro column operand htable
    refine Option.not_isSome_iff_eq_none.mp fun found => fresh ?_
    rw [← htable]
    exact (provides.isSome_iff hc operand).mp found
  rcases inOrder_incoming rest fresh cross now with ⟨hl, hr, heq⟩ | ⟨hl, hr, heq⟩
  · rw [heq]
    exact ⟨compares, provides.all c hc _ (.inl rfl) hl, provides'.all c hc _ (.inr rfl) (mem_singleton.mpr hr),
      absent (.inr rfl) hr, fun f hf g hg => types f (mem_append_left _ hf) g (mem_append_right _ hg)⟩
  · rw [heq]
    exact ⟨compares, provides.all c hc _ (.inr rfl) hr, provides'.all c hc _ (.inl rfl) (mem_singleton.mpr hl),
      absent (.inl rfl) hl, fun f hf g hg hfc hgc =>
        (types g (mem_append_right _ hg) f (mem_append_left _ hf) hgc hfc).symm⟩

theorem passing_step {left : TupleSchema} {l : Tuple} (names : List Name) (name : Name) (right : TupleSchema)
    (r : Tuple) (provides : Provides conditions left seen) (hlength : l.length = left.length) :
    Passing conditions names (seen ++ [name]) (left ++ right) (l ++ r) ↔ Passing conditions names seen left l ∧
      ∀ c ∈ (conditions.filter fun c => decide (¬c.Within seen ∧ c.Within (seen ++ [name]))).map (inOrder names),
        c.Passes (left ++ right) (l ++ r) := by
  constructor
  · intro passing
    refine ⟨fun c hc within => ?_, fun c' hc' => ?_⟩
    · have within' : c.Within (seen ++ [name]) := ⟨mem_append_left _ within.1, mem_append_left _ within.2⟩
      exact (passes_append provides hc hlength within).mp (passing c hc within')
    · obtain ⟨c, hc, rfl⟩ := mem_map.mp hc'
      obtain ⟨hc, now⟩ := mem_filter.mp hc
      exact passing c hc (of_decide_eq_true now).2
  · rintro ⟨before, now⟩ c hc within'
    by_cases within : c.Within seen
    · exact (passes_append provides hc hlength within).mpr (before c hc within)
    · exact now _ (mem_map_of_mem (mem_filter.mpr ⟨hc, decide_eq_true ⟨within, within'⟩⟩))

def product (rows : Multiset Tuple) (sets : List TupleSet) : Multiset Tuple :=
  sets.foldl (fun rows s => pairs (· ++ ·) rows (s.tuples : Multiset Tuple)) rows

def Sets (conditions : List JoinCondition) (sets : List TupleSet) (names : List Name) : Prop :=
  List.Forall₂ (fun s name => Provides conditions s.schema [name] ∧ ∀ r ∈ s.tuples, Typed s.schema r) sets names

theorem joinLoop_tuples (std : StdHash) (range : EqualRange) (names : List Name) (distinct : names.Nodup) :
    ∀ {sets : List TupleSet} {rest seen : List Name} {left : TupleSet} {rows : Multiset Tuple}, names = seen ++ rest →
      Sets conditions sets rest → Provides conditions left.schema seen →
      Asked conditions (left.schema ++ sets.flatMap TupleSet.schema) → (∀ row ∈ rows, Typed left.schema row) →
      (left.tuples : Multiset Tuple) = rows.filter (Passing conditions names seen left.schema) →
      ((joinLoop std range sets left (conditions.map (current names seen))).tuples : Multiset Tuple) =
        (product rows sets).filter (Passing conditions names names (left.schema ++ sets.flatMap TupleSet.schema))
  | [], _, seen, left, rows, hnames, .nil, _, _, _, htuples => by
    rw [append_nil] at hnames
    subst hnames
    rw [flatMap_nil, append_nil]
    exact htuples
  | right :: sets, name :: rest, seen, left, rows, hnames, .cons ⟨provides', typed'⟩ restSets, provides, asked, typed,
      htuples => by
    have fresh : name ∉ seen := by
      rw [hnames] at distinct
      exact fun h => (disjoint_of_nodup_append distinct) h mem_cons_self
    have hschema : left.schema ++ (right :: sets).flatMap TupleSet.schema =
        (left.schema ++ right.schema) ++ sets.flatMap TupleSet.schema := by
      rw [flatMap_cons, append_assoc]
    rw [hschema] at asked ⊢
    have types : ∀ c ∈ conditions, ∀ f ∈ left.schema ++ right.schema, ∀ g ∈ left.schema ++ right.schema,
        f.column = c.left → g.column = c.right → f.type = g.type := fun c hc f hf g hg =>
      asked.types c hc f (mem_append_left _ hf) g (mem_append_left _ hg)
    have typedLeft : ∀ l ∈ left.tuples, Typed left.schema l := by
      intro l hl
      have hmem : l ∈ (left.tuples : Multiset Tuple) := hl
      rw [htuples] at hmem
      exact typed l (Multiset.mem_filter.mp hmem).1
    rw [joinLoop, hnames, assigned_eq provides provides' fresh asked.cross, selected_eq, map_map, ← hnames]
    refine joinLoop_tuples std range names distinct (by rw [append_assoc]; exact hnames) restSets
      (provides.append provides') asked ?_ ?_
    · intro row hrow
      obtain ⟨l, hl, r, hr, rfl⟩ := mem_pairs.mp hrow
      exact rel_append (typed l hl) (typed' r hr)
    · have connects : ∀ c ∈ (conditions.filter fun c => decide (¬c.Within seen ∧ c.Within (seen ++ [name]))).map
          (inOrder names), Connects left.schema right.schema c := by
        intro c' hc'
        obtain ⟨c, hc, rfl⟩ := mem_map.mp hc'
        obtain ⟨hc, now⟩ := mem_filter.mp hc
        rw [hnames]
        exact connects_selected provides provides' fresh hc (asked.compares c hc) (asked.cross c hc) (types c hc)
          (of_decide_eq_true now)
      have step : ∀ l ∈ rows, ∀ r ∈ (right.tuples : Multiset Tuple), _ := fun l hl r _ =>
        passing_step names name right.schema r provides (typed l hl).length_eq.symm
      rw [hashJoin_tuples typedLeft typed' connects, htuples]
      refine Eq.trans (Multiset.filter_congr fun row hrow => ?_)
        (filter_pairs_filter fun l hl r hr passing => ((step l hl r hr).mp passing).1)
      obtain ⟨l, hl, r, hr, rfl⟩ := mem_pairs.mp hrow
      obtain ⟨hl, before⟩ := Multiset.mem_filter.mp hl
      exact ⟨fun now => (step l hl r hr).mpr ⟨before, now⟩, fun passing => ((step l hl r hr).mp passing).2⟩

end Loop

/-! ### The whole join -/

abbrev joinedSchema (first : TupleSet) (rest : List TupleSet) : TupleSchema := (first :: rest).flatMap TupleSet.schema

abbrev joinedRows (first : TupleSet) (rest : List TupleSet) : Multiset Tuple :=
  product (first.tuples : Multiset Tuple) rest

/-- The tuple sets and conditions of a join: every set belongs to a table of its own, its rows fit its columns, and the
    conditions compare columns that are there, of two tables and of one type. -/
structure Joinable (names : List Name) (first : TupleSet) (rest : List TupleSet) (conditions : List JoinCondition) :
    Prop where
  distinct : names.Nodup
  tables : List.Forall₂ (fun s name => ∀ f ∈ s.schema, f.column.table = name) (first :: rest) names
  typed : ∀ s ∈ first :: rest, ∀ row ∈ s.tuples, Typed s.schema row
  asked : Asked conditions (joinedSchema first rest)
  columns : ∀ c ∈ conditions, ∀ column, column = c.left ∨ column = c.right →
    ∃ f ∈ joinedSchema first rest, f.column = column

theorem indexOfField_isSome {f : TupleField} (hf : f ∈ schema) :
    (schema.indexOfField f.column).isSome = true := by
  unfold TupleSchema.indexOfField
  rw [findIdx?_isSome, any_eq_true]
  exact ⟨f, hf, decide_eq_true rfl⟩

theorem table_mem {sets : List TupleSet} {names : List Name}
    (tables : List.Forall₂ (fun s name => ∀ f ∈ s.schema, f.column.table = name) sets names) {f : TupleField}
    (hf : f ∈ sets.flatMap TupleSet.schema) : f.column.table ∈ names := by
  induction tables with
  | nil => exact absurd hf not_mem_nil
  | cons head _ ih =>
    rcases mem_append.mp hf with hf | hf
    · rw [head f hf]
      exact mem_cons_self
    · exact mem_cons_of_mem _ (ih hf)

theorem sets_of_tables {sets : List TupleSet} {names : List Name}
    (tables : List.Forall₂ (fun s name => ∀ f ∈ s.schema, f.column.table = name) sets names) (distinct : names.Nodup)
    (typed : ∀ s ∈ sets, ∀ row ∈ s.tuples, Typed s.schema row)
    (columns : ∀ c ∈ conditions, ∀ column, column = c.left ∨ column = c.right → column.table ∈ names →
      ∃ f ∈ sets.flatMap TupleSet.schema, f.column = column) : Sets conditions sets names := by
  induction tables with
  | nil => exact .nil
  | @cons s name sets names head tail ih =>
    obtain ⟨fresh, distinct⟩ := nodup_cons.mp distinct
    refine .cons ⟨⟨fun f hf => ?_, fun c hc column operand htable => ?_⟩, typed s mem_cons_self⟩ (ih distinct ?_ ?_)
    · rw [head f hf]
      exact mem_singleton_self name
    · have htable := mem_singleton.mp htable
      obtain ⟨f, hf, rfl⟩ := columns c hc column operand (htable ▸ mem_cons_self)
      rcases mem_append.mp hf with hf | hf
      · exact indexOfField_isSome hf
      · exact absurd (htable ▸ table_mem tail hf) fresh
    · exact fun s' hs' => typed s' (mem_cons_of_mem s hs')
    · intro c hc column operand htable
      obtain ⟨f, hf, rfl⟩ := columns c hc column operand (mem_cons_of_mem name htable)
      rcases mem_append.mp hf with hf | hf
      · exact absurd (head f hf ▸ htable) fresh
      · exact ⟨f, hf, rfl⟩

section Whole
variable {names : List Name} {first : TupleSet} {rest : List TupleSet} {conditions : List JoinCondition}
  {c : JoinCondition}

theorem Joinable.within (joinable : Joinable names first rest conditions) (hc : c ∈ conditions) :
    c.Within names := by
  obtain ⟨f, hf, hfc⟩ := joinable.columns c hc c.left (.inl rfl)
  obtain ⟨g, hg, hgc⟩ := joinable.columns c hc c.right (.inr rfl)
  exact ⟨hfc ▸ table_mem joinable.tables hf, hgc ▸ table_mem joinable.tables hg⟩

theorem joinTables_product (std : StdHash) (range : EqualRange) (joinable : Joinable names first rest conditions) :
    ((joinTables std range first rest conditions).tuples : Multiset Tuple) =
      (joinedRows first rest).filter fun row =>
        ∀ c ∈ conditions, (c.inOrder names).Passes (joinedSchema first rest) row := by
  have sets : Sets conditions (first :: rest) names :=
    sets_of_tables joinable.tables joinable.distinct joinable.typed fun c hc column operand _ =>
      joinable.columns c hc column operand
  obtain ⟨name, later, ⟨provides, typed⟩, restSets, rfl⟩ := forall₂_cons_left_iff.mp sets
  have outside : ∀ c ∈ conditions, ¬c.Within [name] := fun c hc within =>
    joinable.asked.cross c hc ((mem_singleton.mp within.1).trans (mem_singleton.mp within.2).symm)
  have start : conditions.map (current (name :: later) [name]) = conditions := by
    refine (map_congr_left fun c hc => ?_).trans (map_id conditions)
    exact if_neg (outside c hc)
  have all : (first.tuples : Multiset Tuple) = Multiset.filter (Passing conditions (name :: later) [name] first.schema)
    first.tuples :=
    (Multiset.filter_eq_self.mpr fun row _ c hc within => absurd within (outside c hc)).symm
  have loop := joinLoop_tuples std range (name :: later) joinable.distinct rfl restSets provides
    joinable.asked typed all
  rw [start] at loop
  refine loop.trans (Multiset.filter_congr fun row _ => ?_)
  exact ⟨fun passing c hc => passing c hc (joinable.within hc), fun passes c hc _ => passes c hc⟩

/-- What a join should compute: the rows of the product in which every condition holds as it is written. -/
def JoinsExactly (std : StdHash) (range : EqualRange) (first : TupleSet) (rest : List TupleSet)
    (conditions : List JoinCondition) : Prop :=
  ((joinTables std range first rest conditions).tuples : Multiset Tuple) =
    (joinedRows first rest).filter fun row =>
      ∀ c ∈ conditions, c.Holds (joinedSchema first rest) row

theorem product_typed {rows : Multiset Tuple} {schema : TupleSchema} (typed : ∀ row ∈ rows, Typed schema row) :
    ∀ {sets : List TupleSet}, (∀ s ∈ sets, ∀ row ∈ s.tuples, Typed s.schema row) →
      ∀ row ∈ product rows sets, Typed (schema ++ sets.flatMap TupleSet.schema) row := by
  intro sets
  induction sets generalizing rows schema with
  | nil =>
    intro _ row hrow
    rw [flatMap_nil, append_nil]
    exact typed row hrow
  | cons s sets ih =>
    intro typedSets row hrow
    rw [flatMap_cons, ← append_assoc]
    refine ih (fun row' hrow' => ?_) (fun s' hs' => typedSets s' (mem_cons_of_mem s hs')) row hrow
    obtain ⟨l, hl, r, hr, rfl⟩ := mem_pairs.mp hrow'
    exact rel_append (typed l hl) (typedSets s mem_cons_self r hr)

namespace JoinCondition
variable {schema : TupleSchema} {row : Tuple} {c : JoinCondition} {type : AttrType}

def Symmetric (c : JoinCondition) : Prop := c.comp = .equalTo ∨ c.comp = .notEqual

theorem passes_iff_symmetric (fitsLeft : (value schema row c.left).Fits type)
    (fitsRight : (value schema row c.right).Fits type) (symmetric : c.Symmetric) :
    c.Passes schema row ↔ c.Holds schema row := by
  refine and_congr_right fun nl => and_congr_right fun nr => ?_
  have hzero := compare_eq_zero fitsLeft fitsRight nl nr
  rcases symmetric with h | h
  · rw [h, passes, decide_eq_true_eq, hzero]
    rfl
  · rw [h, passes, decide_eq_true_eq, ne_eq, hzero]
    rfl

theorem holds_swap (symmetric : c.Symmetric) : c.swap.Holds schema row ↔ c.Holds schema row := by
  unfold Holds swap
  rcases symmetric with h | h
  · rw [h]
    exact ⟨fun ⟨nr, nl, heq⟩ => ⟨nl, nr, heq.symm⟩, fun ⟨nl, nr, heq⟩ => ⟨nr, nl, heq.symm⟩⟩
  · rw [h]
    exact ⟨fun ⟨nr, nl, hne⟩ => ⟨nl, nr, hne.symm⟩, fun ⟨nl, nr, hne⟩ => ⟨nr, nl, hne.symm⟩⟩

theorem passes_iff_near (fitsLeft : (value schema row c.left).Fits type)
    (fitsRight : (value schema row c.right).Fits type)
    (near : (value schema row c.left).Near (value schema row c.right)) (compares : c.comp.Compares) :
    c.Passes schema row ↔ c.Holds schema row := by
  refine and_congr_right fun nl => and_congr_right fun nr => ?_
  have hzero := compare_eq_zero fitsLeft fitsRight nl nr
  obtain ⟨hneg, hpos⟩ := compare_sign fitsLeft fitsRight nl nr near
  rcases compares with h | h | h | h | h | h
  · rw [h, passes, decide_eq_true_eq, hzero]
    rfl
  · rw [h, passes, decide_eq_true_eq, ne_eq, hzero]
    rfl
  · rw [h, passes, decide_eq_true_eq, hneg]
    rfl
  · rw [h, passes, decide_eq_true_eq, Int.le_iff_lt_or_eq, hneg, hzero]
    rfl
  · rw [h, passes, decide_eq_true_eq, hpos]
    rfl
  · rw [h, passes, decide_eq_true_eq, Int.le_iff_lt_or_eq, hpos, eq_comm, hzero]
    rfl

end JoinCondition

theorem Joinable.fits (joinable : Joinable names first rest conditions) (hc : c ∈ conditions) {row : Tuple}
    (typed : Typed (joinedSchema first rest) row) :
    ∃ type, (value (joinedSchema first rest) row c.left).Fits type ∧
      (value (joinedSchema first rest) row c.right).Fits type := by
  obtain ⟨f, hf, hfc⟩ := joinable.columns c hc c.left (.inl rfl)
  obtain ⟨g, hg, hgc⟩ := joinable.columns c hc c.right (.inr rfl)
  refine ⟨f.type, typed.value fun f' hf' hfc' => ?_, typed.value fun g' hg' hgc' => ?_⟩
  · exact (joinable.asked.types c hc f' hf' g hg hfc' hgc).trans (joinable.asked.types c hc f hf g hg hfc hgc).symm
  · exact (joinable.asked.types c hc f hf g' hg' hfc hgc').symm

/-- A condition that `join_tables` does not misjudge: `=` and `<>` in any order, and an inequality in the order of the
    tables whose values are less than `2^31` apart. -/
def SafeCondition (names : List Name) (schema : TupleSchema) (rows : Multiset Tuple) (c : JoinCondition) : Prop :=
  c.Symmetric ∨ (¬c.Reversed names ∧ ∀ row ∈ rows, (value schema row c.left).Near (value schema row c.right))

theorem Joinable.judged_safe (joinable : Joinable names first rest conditions) (hc : c ∈ conditions) {row : Tuple}
    (hrow : row ∈ joinedRows first rest)
    (safe : SafeCondition names (joinedSchema first rest) (joinedRows first rest) c) :
    (c.inOrder names).Passes (joinedSchema first rest) row ↔
      c.Holds (joinedSchema first rest) row := by
  have typed : Typed (joinedSchema first rest) row :=
    product_typed (joinable.typed first mem_cons_self) (fun s hs => joinable.typed s (mem_cons_of_mem first hs))
      row hrow
  obtain ⟨type, fitsLeft, fitsRight⟩ := joinable.fits hc typed
  unfold inOrder
  rcases safe with symmetric | ⟨inOrder, near⟩
  · split
    · exact (passes_iff_symmetric (c := c.swap) fitsRight fitsLeft symmetric).trans (holds_swap symmetric)
    · exact passes_iff_symmetric fitsLeft fitsRight symmetric
  · rw [if_neg inOrder]
    exact passes_iff_near fitsLeft fitsRight (near row hrow) (joinable.asked.compares c hc)

theorem joinsExactly_judged (std : StdHash) (range : EqualRange) (joinable : Joinable names first rest conditions) :
    JoinsExactly std range first rest conditions ↔
      ∀ row ∈ joinedRows first rest,
        ((∀ c ∈ conditions, (c.inOrder names).Passes (joinedSchema first rest) row) ↔
          ∀ c ∈ conditions, c.Holds (joinedSchema first rest) row) := by
  unfold JoinsExactly
  rw [joinTables_product std range joinable]
  exact filter_eq_filter_iff

/-- A join is exact if and only if no row of the product is misjudged: its conditions hold as they are written exactly
    if they pass with the operands in the order of the tables, the comparator unchanged and differences taken in 32
    bits. `=`, `<>` and inequalities in that order between near values do. -/
theorem joinsExactly_iff (std : StdHash) (range : EqualRange) (joinable : Joinable names first rest conditions) :
    (JoinsExactly std range first rest conditions ↔
      ∀ row ∈ joinedRows first rest,
        ((∀ c ∈ conditions, (c.inOrder names).Passes (joinedSchema first rest) row) ↔
          ∀ c ∈ conditions, c.Holds (joinedSchema first rest) row)) ∧
      ((∀ c ∈ conditions, SafeCondition names (joinedSchema first rest)
          (joinedRows first rest) c) → JoinsExactly std range first rest conditions) := by
  have exact_iff := joinsExactly_judged std range joinable
  refine ⟨exact_iff, fun safe => exact_iff.mpr fun row hrow => ?_⟩
  exact forall₂_congr fun c hc => joinable.judged_safe hc hrow (safe c hc)

def numbers (column : ColumnRef) (values : List Int) : TupleSet where
  schema := [⟨.ints, column⟩]
  tuples := values.map fun v => [.int v]

theorem numbers_typed {column : ColumnRef} {values : List Int} (fits : ∀ v ∈ values, -2 ^ 31 ≤ v ∧ v < 2 ^ 31) :
    ∀ row ∈ (numbers column values).tuples, Typed (numbers column values).schema row := by
  intro row hrow
  obtain ⟨v, hv, rfl⟩ := mem_map.mp hrow
  exact .cons ⟨rfl, fits v hv⟩ .nil

def columnX : ColumnRef := ⟨[97], [120]⟩

def columnY : ColumnRef := ⟨[98], [121]⟩

theorem numbers_joinable {xs ys : List Int} (fitsX : ∀ v ∈ xs, -2 ^ 31 ≤ v ∧ v < 2 ^ 31)
    (fitsY : ∀ v ∈ ys, -2 ^ 31 ≤ v ∧ v < 2 ^ 31) (compares : c.comp.Compares)
    (operands : (c.left = columnX ∧ c.right = columnY) ∨ (c.left = columnY ∧ c.right = columnX)) :
    Joinable [columnX.table, columnY.table] (numbers columnX xs) [numbers columnY ys] [c] where
  distinct := by decide
  tables := .cons (fun _ hf => mem_singleton.mp hf ▸ rfl) (.cons (fun _ hf => mem_singleton.mp hf ▸ rfl) .nil)
  typed s hs := by
    rcases mem_cons.mp hs with rfl | hs
    · exact numbers_typed fitsX
    · rw [mem_singleton.mp hs]
      exact numbers_typed fitsY
  asked :=
    { compares := fun c' hc => mem_singleton.mp hc ▸ compares
      cross := fun c' hc => by
        rw [mem_singleton.mp hc]
        rcases operands with ⟨hl, hr⟩ | ⟨hl, hr⟩ <;> rw [hl, hr] <;> decide
      types := fun c' _ f hf g hg _ _ => by
        have hints : ∀ f ∈ joinedSchema (numbers columnX xs) [numbers columnY ys], f.type = .ints := by simp [numbers]
        rw [hints f hf, hints g hg] }
  columns c' hc column operand := by
    rw [mem_singleton.mp hc] at operand
    have both : column = columnX ∨ column = columnY := by
      rcases operands with ⟨hl, hr⟩ | ⟨hl, hr⟩
      · rwa [hl, hr] at operand
      · rw [hl, hr] at operand
        exact operand.symm
    rcases both with rfl | rfl
    · exact ⟨_, mem_cons_self, rfl⟩
    · exact ⟨_, mem_cons_of_mem _ mem_cons_self, rfl⟩

def zeroHash : StdHash := ⟨fun _ => 0, fun _ => 0⟩

theorem joinsExactly_less :
    JoinsExactly zeroHash .inOrder (numbers columnX [1, 5]) [numbers columnY [3]] [⟨columnX, columnY, .lessThan⟩] := by
  refine (joinsExactly_iff zeroHash .inOrder (numbers_joinable (by decide) (by decide) ?_ (.inl ⟨rfl, rfl⟩))).2
    fun c hc => ?_
  · exact .inr (.inr (.inl rfl))
  · rw [mem_singleton.mp hc]
    refine .inr ⟨by decide, fun row hrow => ?_⟩
    have rows : product ((numbers columnX [1, 5]).tuples : Multiset Tuple) [numbers columnY [3]] =
        (([[.int 1, .int 3], [.int 5, .int 3]] : List Tuple) : Multiset Tuple) := by decide
    rcases mem_cons.mp hrow with rfl | hrow
    · exact ⟨by decide, by decide⟩
    · rw [mem_singleton.mp hrow]
      exact ⟨by decide, by decide⟩

/-- `b.y > a.x` with `a` in front loses the row `(1, 2)`: the operands are exchanged and the comparator is not. And `a.x
    > b.y` loses the row `(2147483647, -1)`, whose difference wraps. -/
theorem join_loses_row :
    (Joinable [columnX.table, columnY.table] (numbers columnX [1]) [numbers columnY [2]]
      [⟨columnY, columnX, .greatThan⟩] ∧
      ¬JoinsExactly zeroHash .inOrder (numbers columnX [1]) [numbers columnY [2]] [⟨columnY, columnX, .greatThan⟩]) ∧
      Joinable [columnX.table, columnY.table] (numbers columnX [2147483647]) [numbers columnY [-1]]
        [⟨columnX, columnY, .greatThan⟩] ∧
        ¬JoinsExactly zeroHash .inOrder (numbers columnX [2147483647]) [numbers columnY [-1]]
          [⟨columnX, columnY, .greatThan⟩] := by
  refine ⟨⟨numbers_joinable (by decide) (by decide) ?_ (.inr ⟨rfl, rfl⟩), ?_⟩,
    numbers_joinable (by decide) (by decide) ?_ (.inl ⟨rfl, rfl⟩), ?_⟩
  · exact .inr (.inr (.inr (.inr (.inl rfl))))
  · unfold JoinsExactly
    decide
  · exact .inr (.inr (.inr (.inr (.inl rfl))))
  · unfold JoinsExactly
    decide

end Whole

end MiniOb
