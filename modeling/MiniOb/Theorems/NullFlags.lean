import MiniOb.Theorems.Predicates

/-! # NULL in record filters

`subquery_filter` compares the null flag of an attribute as if it were the value. -/

namespace MiniOb
open TupleValue ConDesc

namespace ConDesc
variable {d : ConDesc} {data : Bytes}

/-- A nullable attribute of the record, described as an attribute that is stored where its value is. -/
def unflagged : ConDesc → ConDesc
  | attr a false offset true => attr a false (offset + 4) false
  | d => d

def withData (bytes : Bytes) : ConDesc → ConDesc
  | value unset _ isNull => value unset bytes isNull
  | d => d

theorem unflagged_eq (plain : d.nullableHere = false) : d.unflagged = d := by
  rcases d with ⟨a, _ | _, offset, _ | _⟩ | _ | _
  · rfl
  · cases plain
  · rfl
  · rfl
  · rfl
  · rfl

theorem nullHere_of_plain (plain : d.nullableHere = false) : d.nullHere data = false := by
  rcases d with ⟨a, _ | _, offset, _ | _⟩ | _ | _
  · rfl
  · cases plain
  · rfl
  · rfl
  · rfl
  · rfl

theorem unflagged_kind (d : ConDesc) : d.unflagged.relAttr = d.relAttr ∧ d.unflagged.refersOuter = d.refersOuter ∧
    d.unflagged.isSubquery = d.isSubquery ∧ d.unflagged.isNullValue = d.isNullValue := by
  rcases d with ⟨a, _ | _, offset, _ | _⟩ | _ | _ <;> exact ⟨rfl, rfl, rfl, rfl⟩

theorem withData_kind (d : ConDesc) (bytes : Bytes) : (d.withData bytes).refersOuter = d.refersOuter ∧
    (d.withData bytes).isSubquery = d.isSubquery ∧ (d.withData bytes).isNullValue = d.isNullValue := by
  rcases d with _ | _ | _ <;> exact ⟨rfl, rfl, rfl⟩

theorem isNullIn_of_nullHere (null : d.nullHere data = true) : d.isNullIn data = true := by
  rcases d with ⟨a, _ | _, offset, nullable⟩ | _ | _
  · exact null
  · cases null
  · cases null
  · cases null

theorem unflagged_read (notNull : d.nullHere data = false) :
    d.unflagged.isNullIn data = d.isNullIn data ∧ d.unflagged.bytesIn data = d.bytesIn data := by
  rcases d with ⟨a, _ | _, offset, _ | _⟩ | _ | _
  · exact ⟨rfl, rfl⟩
  · exact ⟨notNull.symm, rfl⟩
  · exact ⟨rfl, rfl⟩
  · exact ⟨rfl, rfl⟩
  · exact ⟨rfl, rfl⟩
  · exact ⟨rfl, rfl⟩

end ConDesc

namespace DefaultConditionFilter
variable {f : DefaultConditionFilter} {std : StdHash} {evaluate : Evaluator} {context : Context} {data : Bytes}
  {l r v : TupleValue} {type : AttrType} {a : RelAttr} {offset : Nat}

section
variable (f : DefaultConditionFilter)

def unflagged : DefaultConditionFilter := { f with left := f.left.unflagged, right := f.right.unflagged }

def withData (left right : Bytes) : DefaultConditionFilter :=
  { f with left := f.left.withData left, right := f.right.withData right }

/-- The filter refuses a record in which an attribute that it compares is NULL, and in any other record compares what is
    stored behind the null flags. -/
def RespectsNull : Prop :=
  ∀ std evaluate context data,
    ((f.left.nullHere data = true ∨ f.right.nullHere data = true) → f.filter std evaluate context data = some false) ∧
      (f.left.nullHere data = false → f.right.nullHere data = false →
        f.filter std evaluate context data = f.unflagged.filter std evaluate context data)

theorem unflagged_through : f.unflagged.throughSubquery = f.throughSubquery := by
  obtain ⟨-, hl, hl', hl''⟩ := f.left.unflagged_kind
  obtain ⟨-, hr, hr', hr''⟩ := f.right.unflagged_kind
  simp only [throughSubquery, unflagged, hl, hl', hl'', hr, hr', hr'']
  rfl

theorem withData_through (left right : Bytes) :
    (f.withData left right).throughSubquery = f.throughSubquery := by
  obtain ⟨hl, hl', hl''⟩ := f.left.withData_kind left
  obtain ⟨hr, hr', hr''⟩ := f.right.withData_kind right
  simp only [throughSubquery, withData, hl, hl', hl'', hr, hr', hr'']
  rfl

end

theorem inFilter_unflagged (notNull : f.left.nullHere data = false) :
    f.unflagged.inFilter std evaluate context data = f.inFilter std evaluate context data := by
  have hread := (unflagged_read notNull).2
  have hattr := f.left.unflagged_kind.1
  unfold inFilter
  rcases hr : f.right with ⟨a, _ | _, offset, _ | _⟩ | _ | ⟨u, q⟩
  · simp [unflagged, hr, ConDesc.unflagged]
  · simp [unflagged, hr, ConDesc.unflagged]
  · simp [unflagged, hr, ConDesc.unflagged]
  · simp [unflagged, hr, ConDesc.unflagged]
  · simp [unflagged, hr, ConDesc.unflagged]
  · have hq : f.unflagged.right = .subquery u q := congrArg ConDesc.unflagged hr
    simp only [hq]
    simp only [unflagged, hread, hattr]
    rfl

theorem respectsNull_of_plain (plain : f.throughSubquery = false) (compares : f.compOp ≠ .isOp ∧ f.compOp ≠ .isNotOp) :
    f.RespectsNull := by
  intro std evaluate context data
  refine ⟨fun null => ?_, fun hl hr => ?_⟩
  · have hnull : (f.left.isNullIn data || f.right.isNullIn data) = true := by
      rcases null with hl | hr
      · rw [isNullIn_of_nullHere hl, Bool.true_or]
      · rw [isNullIn_of_nullHere hr, Bool.or_true]
    rw [filter, plain, if_neg Bool.false_ne_true]
    exact if_pos ⟨compares.1, compares.2, hnull⟩
  · obtain ⟨hnl, hbl⟩ := unflagged_read hl
    obtain ⟨hnr, hbr⟩ := unflagged_read hr
    rw [filter, filter, unflagged_through, inFilter_unflagged hl, plain]
    simp only [unflagged, hnl, hbl, hnr, hbr]
    rfl

theorem respectsNull_of_not_nullable (left : f.left.nullableHere = false) (right : f.right.nullableHere = false) :
    f.RespectsNull := by
  have hsame : f.unflagged = f := by
    unfold unflagged
    rw [unflagged_eq left, unflagged_eq right]
  intro std evaluate context data
  rw [hsame, nullHere_of_plain left, nullHere_of_plain right]
  exact ⟨fun h => (h.elim nofun nofun), fun _ _ => rfl⟩

def compareOperands (f : DefaultConditionFilter) (l r : TupleValue) : Int :=
  if f.floatInt then if f.intLeft then l.moveFrom.compare r else l.compare r.moveFrom else l.compare r

theorem filter_of_operands (through : f.throughSubquery = true)
    (operands : f.operands evaluate context data = some (l, r)) (hl : l.isNull = false) (hr : r.isNull = false) :
    f.filter std evaluate context data = some (f.compOp.opSwitch (f.compareOperands l r)) := by
  rw [filter, through, if_pos rfl, subqueryFilter, operands]
  unfold compareOperands
  cases f.floatInt with
  | false => simp [hl, hr]
  | true => cases f.intLeft <;> simp [hl, hr]

theorem opSwitch_accepts (op : CompOp) : (∀ cmp, cmp < 0 → op.opSwitch cmp = true) ∨
    (∀ cmp, cmp = 0 → op.opSwitch cmp = true) ∨ ∀ cmp, 0 < cmp → op.opSwitch cmp = true := by
  cases op with
  | equalTo => exact .inr (.inl fun cmp h => decide_eq_true h)
  | lessEqual => exact .inl fun cmp h => decide_eq_true (Int.le_of_lt h)
  | lessThan => exact .inl fun cmp h => decide_eq_true h
  | greatEqual => exact .inr (.inr fun cmp h => decide_eq_true (Int.le_of_lt h))
  | greatThan => exact .inr (.inr fun cmp h => decide_eq_true h)
  | notEqual => exact .inl fun cmp h => decide_eq_true (Int.ne_of_lt h)
  | noOp => exact .inl fun cmp h => decide_eq_true (Int.ne_of_lt h)
  | isOp => exact .inl fun cmp h => decide_eq_true (Int.ne_of_lt h)
  | isNotOp => exact .inl fun cmp h => decide_eq_true (Int.ne_of_lt h)
  | condIn => exact .inl fun cmp h => decide_eq_true (Int.ne_of_lt h)
  | notIn => exact .inl fun cmp h => decide_eq_true (Int.ne_of_lt h)

/-- Values of the type lie below, at and above something that they are compared with. -/
def Surrounds (type : AttrType) (compare : TupleValue → Int) : Prop :=
  (∃ bytes v, TupleValue.from type bytes = some v ∧ v.isNull = false ∧ compare v < 0) ∧
    (∃ bytes v, TupleValue.from type bytes = some v ∧ v.isNull = false ∧ compare v = 0) ∧
    ∃ bytes v, TupleValue.from type bytes = some v ∧ v.isNull = false ∧ 0 < compare v

theorem Surrounds.accepted {compare : TupleValue → Int} (h : Surrounds type compare) (op : CompOp) :
    ∃ bytes v, TupleValue.from type bytes = some v ∧ v.isNull = false ∧ op.opSwitch (compare v) = true := by
  obtain ⟨⟨below, v, hbelow, hv, hlt⟩, ⟨same, u, hsame, hu, heq⟩, above, w, habove, hw, hgt⟩ := h
  rcases opSwitch_accepts op with haccepts | haccepts | haccepts
  · exact ⟨below, v, hbelow, hv, haccepts _ hlt⟩
  · exact ⟨same, u, hsame, hu, haccepts _ heq⟩
  · exact ⟨above, w, habove, hw, haccepts _ hgt⟩

theorem surrounds_of {compare : TupleValue → Int} (below same above : Bytes) {u w : TupleValue}
    (hbelow : TupleValue.from type below = some u) (hsame : TupleValue.from type same = some v)
    (habove : TupleValue.from type above = some w) (notNull : u.isNull = false ∧ v.isNull = false ∧ w.isNull = false)
    (signs : compare u < 0 ∧ compare v = 0 ∧ 0 < compare w) : Surrounds type compare :=
  ⟨⟨below, u, hbelow, notNull.1, signs.1⟩, ⟨same, v, hsame, notNull.2.1, signs.2.1⟩, above, w, habove,
    notNull.2.2, signs.2.2⟩

def nullFlag : Bytes := [1, 0, 0, 0]

theorem surrounds_flag (hv : TupleValue.from type nullFlag = some v) :
    v.isNull = false ∧ Surrounds type v.compare ∧ Surrounds type fun u => u.compare v := by
  cases type with
  | undefined => cases hv
  | texts => cases hv
  | nulls => cases hv
  | floats =>
    cases hv
    exact ⟨rfl, surrounds_of [0, 0, 128, 63] [] [0, 0, 128, 191] rfl rfl rfl (by decide) (by decide),
      surrounds_of [0, 0, 128, 191] [] [0, 0, 128, 63] rfl rfl rfl (by decide) (by decide)⟩
  | chars =>
    cases hv
    exact ⟨rfl, surrounds_of [2] [1] [] rfl rfl rfl (by decide) (by decide),
      surrounds_of [] [1] [2] rfl rfl rfl (by decide) (by decide)⟩
  | ints =>
    cases hv
    exact ⟨rfl, surrounds_of [2] [1] [] rfl rfl rfl (by decide) (by decide),
      surrounds_of [] [1] [2] rfl rfl rfl (by decide) (by decide)⟩
  | date =>
    cases hv
    exact ⟨rfl, surrounds_of [2] [1] [] rfl rfl rfl (by decide) (by decide),
      surrounds_of [] [1] [2] rfl rfl rfl (by decide) (by decide)⟩

theorem surrounds_int_flag : Surrounds .floats (int (readInt nullFlag)).moveFrom.compare ∧
    Surrounds .floats fun l => l.compare (int (readInt nullFlag)).moveFrom :=
  ⟨surrounds_of [0, 0, 0, 64] [0, 0, 128, 63] [] rfl rfl rfl (by decide) (by decide),
    surrounds_of [] [0, 0, 128, 63] [0, 0, 0, 64] rfl rfl rfl (by decide) (by decide)⟩

theorem surrounds_float_flag : (Surrounds .ints fun r => (float (readUInt nullFlag)).compare r.moveFrom) ∧
    Surrounds .ints fun l => l.moveFrom.compare (float (readUInt nullFlag)) :=
  ⟨surrounds_of [1] [] [255, 255, 255, 255] rfl rfl rfl (by decide) (by decide),
    surrounds_of [255, 255, 255, 255] [] [1] rfl rfl rfl (by decide) (by decide)⟩

theorem surrounds_left_flag (hl : TupleValue.from f.typeLeft nullFlag = some l) :
    l.isNull = false ∧ Surrounds f.typeRight (f.compareOperands l) := by
  unfold typeLeft at hl
  unfold typeRight compareOperands
  cases hmixed : f.floatInt with
  | false =>
    rw [hmixed, if_neg Bool.false_ne_true] at hl
    simp only [Bool.false_eq_true, if_false]
    exact ⟨(surrounds_flag hl).1, (surrounds_flag hl).2.1⟩
  | true =>
    rw [hmixed, if_pos rfl] at hl
    cases hint : f.intLeft with
    | true =>
      rw [hint, if_pos rfl] at hl
      cases hl
      simp only [if_true]
      exact ⟨rfl, surrounds_int_flag.1⟩
    | false =>
      rw [hint, if_neg Bool.false_ne_true] at hl
      cases hl
      simp only [Bool.false_eq_true, if_false, if_true]
      exact ⟨rfl, surrounds_float_flag.1⟩

theorem surrounds_right_flag (hr : TupleValue.from f.typeRight nullFlag = some r) :
    r.isNull = false ∧ Surrounds f.typeLeft fun l => f.compareOperands l r := by
  unfold typeRight at hr
  unfold typeLeft compareOperands
  cases hmixed : f.floatInt with
  | false =>
    rw [hmixed, if_neg Bool.false_ne_true] at hr
    simp only [Bool.false_eq_true, if_false]
    exact ⟨(surrounds_flag hr).1, (surrounds_flag hr).2.2⟩
  | true =>
    rw [hmixed, if_pos rfl] at hr
    cases hint : f.intLeft with
    | true =>
      rw [hint, if_pos rfl] at hr
      cases hr
      simp only [if_true]
      exact ⟨rfl, surrounds_float_flag.2⟩
    | false =>
      rw [hint, if_neg Bool.false_ne_true] at hr
      cases hr
      simp only [Bool.false_eq_true, if_false, if_true]
      exact ⟨rfl, surrounds_int_flag.2⟩

def flaggedAt (offset : Nat) : Bytes := List.replicate offset 0 ++ nullFlag

theorem drop_flaggedAt (offset : Nat) : (flaggedAt offset).drop offset = nullFlag :=
  List.drop_left' List.length_replicate

/-- No attribute of the record meets another one in `subquery_filter`, because `init` refuses to compare two attributes
    of different types. -/
def Checked (f : DefaultConditionFilter) : Prop := f.floatInt = true → ¬(f.left.isAttr = true ∧ f.right.isAttr = true)

theorem Checked.not_both_here (checked : f.Checked) (through : f.throughSubquery = true) {b : RelAttr} {p q : Nat}
    {n m : Bool} (left : f.left = .attr a false p n) (right : f.right = .attr b false q m) : False := by
  rw [throughSubquery, Bool.and_eq_true, left, right] at through
  have hmixed : f.floatInt = true := by simpa [refersOuter, isSubquery] using through.2
  exact checked hmixed (by rw [left, right]; exact ⟨rfl, rfl⟩)

section Operands
variable {a : RelAttr} {offset : Nat} {nullable : Bool} {unset : Unset} {q : Subquery} {l r : TupleValue}

theorem operands_right_subquery (left : f.left = .attr a false offset nullable) (right : f.right = .subquery unset q)
    (hl : TupleValue.from f.typeLeft (data.drop offset) = some l) :
    f.operands evaluate context data = some (l, evaluate.value q ((a, l) :: context)) := by
  simp [operands, left, right, load, push, isAttr, relAttr, hl]

theorem operands_left_subquery (right : f.right = .attr a false offset nullable) (left : f.left = .subquery unset q)
    (hr : TupleValue.from f.typeRight (data.drop offset) = some r) :
    f.operands evaluate context data = some (evaluate.value q ((a, r) :: context), r) := by
  simp [operands, left, right, load, push, isAttr, relAttr, hr]

theorem operands_left_none (left : f.left = .attr a false offset nullable)
    (hl : TupleValue.from f.typeLeft (data.drop offset) = none) : f.operands evaluate context data = none := by
  rcases hright : f.right with _ | _ | _ <;> simp [operands, left, hright, load, hl]

theorem operands_right_none (right : f.right = .attr a false offset nullable)
    (hr : TupleValue.from f.typeRight (data.drop offset) = none) : f.operands evaluate context data = none := by
  rcases hleft : f.left with _ | _ | _ <;> simp [operands, right, hleft, load, hr]

end Operands

theorem exists_right_operand {bytes : Bytes} {nullable : Bool}
    (left : f.left = .attr a false offset nullable) (hl : TupleValue.from f.typeLeft (data.drop offset) = some l)
    (hv : TupleValue.from f.typeRight bytes = some v) (other : ∀ b q m, f.right ≠ .attr b false q m) :
    ∃ evaluate context, (f.withData [] bytes).operands evaluate context data = some (l, v) := by
  have hleft : (f.withData [] bytes).left = .attr a false offset nullable := congrArg (ConDesc.withData []) left
  rcases hright : f.right with ⟨b, _ | _, q, m⟩ | ⟨unset, w, isNull⟩ | ⟨unset, q⟩
  · exact absurd hright (other b q m)
  · have hfound : (f.withData [] bytes).right.load f.typeRight [(b, v)] data = some v := by
      simp [withData, hright, ConDesc.withData, ConDesc.load, findFromContext]
    exact ⟨noEvaluation, [(b, v)], operands_eq (by rw [hleft]; rfl) (by rw [withData, hright]; rfl)
      (by rw [hleft]; exact hl) hfound⟩
  · have hfrom : (f.withData [] bytes).right.load f.typeRight [] data = some v := by
      rw [withData, hright]
      exact hv
    exact ⟨noEvaluation, [], operands_eq (by rw [hleft]; rfl) (by rw [withData, hright]; rfl)
      (by rw [hleft]; exact hl) hfrom⟩
  · exact ⟨⟨fun _ _ => v, fun _ _ => []⟩, [], operands_right_subquery hleft
      (congrArg (ConDesc.withData bytes) hright) hl⟩

theorem exists_left_operand {bytes : Bytes} {nullable : Bool}
    (right : f.right = .attr a false offset nullable) (hr : TupleValue.from f.typeRight (data.drop offset) = some r)
    (hv : TupleValue.from f.typeLeft bytes = some v) (other : ∀ b q m, f.left ≠ .attr b false q m) :
    ∃ evaluate context, (f.withData bytes []).operands evaluate context data = some (v, r) := by
  have hright : (f.withData bytes []).right = .attr a false offset nullable := congrArg (ConDesc.withData []) right
  rcases hleft : f.left with ⟨b, _ | _, q, m⟩ | ⟨unset, w, isNull⟩ | ⟨unset, q⟩
  · exact absurd hleft (other b q m)
  · have hfound : (f.withData bytes []).left.load f.typeLeft [(b, v)] data = some v := by
      simp [withData, hleft, ConDesc.withData, ConDesc.load, findFromContext]
    exact ⟨noEvaluation, [(b, v)], operands_eq (by rw [withData, hleft]; rfl) (by rw [hright]; rfl) hfound
      (by rw [hright]; exact hr)⟩
  · have hfrom : (f.withData bytes []).left.load f.typeLeft [] data = some v := by
      rw [withData, hleft]
      exact hv
    exact ⟨noEvaluation, [], operands_eq (by rw [withData, hleft]; rfl) (by rw [hright]; rfl) hfrom
      (by rw [hright]; exact hr)⟩
  · exact ⟨⟨fun _ _ => v, fun _ _ => []⟩, [], operands_left_subquery hright
      (congrArg (ConDesc.withData bytes) hleft) hr⟩

theorem nullable_attr {d : ConDesc} (nullable : d.nullableHere = true) : ∃ a offset, d = .attr a false offset true := by
  rcases d with ⟨a, _ | _, offset, _ | _⟩ | _ | _
  · cases nullable
  · exact ⟨a, offset, rfl⟩
  · cases nullable
  · cases nullable
  · cases nullable
  · cases nullable

section Refuted
variable {offset : Nat} {l r : TupleValue}

section
variable (through : f.throughSubquery = true) (null : f.left.nullHere data = true ∨ f.right.nullHere data = true)
include through null

theorem not_respectsNull_of_none
    (none : ∀ evaluate context, f.operands evaluate context data = none) : ¬f.RespectsNull := by
  intro respects
  have hfalse := (respects zeroHash noEvaluation [] data).1 null
  rw [filter, through, if_pos rfl, subqueryFilter, none] at hfalse
  cases hfalse

theorem not_respectsNull_of_accepted
    (operands : ∃ evaluate context, f.operands evaluate context data = some (l, r)) (hl : l.isNull = false)
    (hr : r.isNull = false) (accepted : f.compOp.opSwitch (f.compareOperands l r) = true) : ¬f.RespectsNull := by
  intro respects
  obtain ⟨evaluate, context, hoperands⟩ := operands
  have hfalse := (respects zeroHash evaluate context data).1 null
  rw [filter_of_operands through hoperands hl hr, accepted] at hfalse
  cases hfalse

end

end Refuted

theorem nullHere_flaggedAt {d : ConDesc} (h : d = .attr a false offset true) :
    d.nullHere (flaggedAt offset) = true := by
  rw [h, nullHere, drop_flaggedAt]
  rfl

theorem not_respectsNull_left (through : f.throughSubquery = true) (checked : f.Checked)
    (nullable : f.left.nullableHere = true) : ∃ bytes, ¬(f.withData [] bytes).RespectsNull := by
  obtain ⟨a, offset, left⟩ := nullable_attr nullable
  have hleft : ∀ bytes, (f.withData [] bytes).left = .attr a false offset true :=
    fun _ => congrArg (ConDesc.withData []) left
  have hthrough : ∀ bytes, (f.withData [] bytes).throughSubquery = true :=
    fun bytes => (f.withData_through [] bytes).trans through
  cases hl : TupleValue.from f.typeLeft nullFlag with
  | none =>
    refine ⟨[], not_respectsNull_of_none (hthrough []) (.inl (nullHere_flaggedAt (hleft []))) fun _ _ =>
      operands_left_none (hleft []) ?_⟩
    rw [drop_flaggedAt]
    exact hl
  | some l =>
    obtain ⟨hnotNull, surrounds⟩ := surrounds_left_flag hl
    obtain ⟨bytes, v, hv, hv', accepted⟩ := surrounds.accepted f.compOp
    rw [← drop_flaggedAt offset] at hl
    exact ⟨bytes, not_respectsNull_of_accepted (hthrough bytes) (.inl (nullHere_flaggedAt (hleft bytes)))
      (exists_right_operand left hl hv fun b q m right => checked.not_both_here through left right) hnotNull
        hv' accepted⟩

theorem not_respectsNull_right (through : f.throughSubquery = true) (checked : f.Checked)
    (nullable : f.right.nullableHere = true) : ∃ bytes, ¬(f.withData bytes []).RespectsNull := by
  obtain ⟨a, offset, right⟩ := nullable_attr nullable
  have hright : ∀ bytes, (f.withData bytes []).right = .attr a false offset true :=
    fun _ => congrArg (ConDesc.withData []) right
  have hthrough : ∀ bytes, (f.withData bytes []).throughSubquery = true :=
    fun bytes => (f.withData_through bytes []).trans through
  cases hr : TupleValue.from f.typeRight nullFlag with
  | none =>
    refine ⟨[], not_respectsNull_of_none (hthrough []) (.inr (nullHere_flaggedAt (hright []))) fun _ _ =>
      operands_right_none (hright []) ?_⟩
    rw [drop_flaggedAt]
    exact hr
  | some r =>
    obtain ⟨hnotNull, surrounds⟩ := surrounds_right_flag hr
    obtain ⟨bytes, v, hv, hv', accepted⟩ := surrounds.accepted f.compOp
    rw [← drop_flaggedAt offset] at hr
    exact ⟨bytes, not_respectsNull_of_accepted (hthrough bytes) (.inr (nullHere_flaggedAt (hright bytes)))
      (exists_left_operand right hr hv fun b q m left => checked.not_both_here through left right) hv'
        hnotNull accepted⟩

theorem withData_nullableHere (d : ConDesc) (bytes : Bytes) : (d.withData bytes).nullableHere = d.nullableHere := by
  rcases d with _ | _ | _ <;> rfl

theorem init_checked {zone : TimeZone} {outer : Name → Catalog.TableMeta} {table : Catalog.TableMeta}
    {unset : Unset × Unset} {c : Condition} (made : (init zone outer table unset c).1 = .ok f) :
    f.Checked ∧ f.compOp = c.comp := by
  unfold init at made
  split at made
  · cases made
  · split at made
    · cases made
    · split at made
      · cases made
        exact ⟨nofun, rfl⟩
      · split at made
        · rename_i mixed
          cases made
          exact ⟨fun _ both => by simp [both] at mixed, rfl⟩
        · split at made
          · split at made
            · cases made
            · cases made
              exact ⟨nofun, rfl⟩
          · cases made

/-- A comparison respects NULL, whatever the literal it may have, exactly if it does not go through `subquery_filter` or
    none of its operands is a nullable attribute of the record. -/
theorem respectsNull_iff (zone : TimeZone) (outer : Name → Catalog.TableMeta) (table : Catalog.TableMeta)
    (unset : Unset × Unset) (c : Condition) (f : DefaultConditionFilter)
    (made : (init zone outer table unset c).1 = .ok f) (compares : c.comp ≠ .isOp ∧ c.comp ≠ .isNotOp) :
    (∀ left right, (f.withData left right).RespectsNull) ↔
      ¬(f.throughSubquery = true ∧ (f.left.nullableHere = true ∨ f.right.nullableHere = true)) := by
  obtain ⟨checked, hop⟩ := init_checked made
  refine ⟨fun respects => ?_, fun h left right => ?_⟩
  · rintro ⟨through, nullable | nullable⟩
    · obtain ⟨bytes, not⟩ := not_respectsNull_left through checked nullable
      exact not (respects [] bytes)
    · obtain ⟨bytes, not⟩ := not_respectsNull_right through checked nullable
      exact not (respects bytes [])
  · cases hthrough : f.throughSubquery with
    | false =>
      refine respectsNull_of_plain (by rw [withData_through, hthrough]) ?_
      rw [withData, hop]
      exact compares
    | true =>
      obtain ⟨hl, hr⟩ := not_or.mp fun nullable => h ⟨hthrough, nullable⟩
      exact respectsNull_of_not_nullable ((withData_nullableHere _ _).trans (Bool.eq_false_iff.mpr hl))
        ((withData_nullableHere _ _).trans (Bool.eq_false_iff.mpr hr))

def bIsOne : Condition := ⟨.attr ⟨none, [98]⟩ false, .value ⟨.ints, [1, 0, 0, 0]⟩, .equalTo⟩

theorem bIsOne_respectsNull : ∃ f, (init .utc (fun _ => twoIntegers) twoIntegers (.zero, .zero) bIsOne).1 = .ok f ∧
    ∀ left right, (f.withData left right).RespectsNull := by
  refine ⟨_, rfl, (respectsNull_iff .utc (fun _ => twoIntegers) twoIntegers (.zero, .zero) bIsOne _ rfl (by decide)).mpr
    ?_⟩
  decide

def bIsFloatOne : Condition := ⟨.attr ⟨none, [98]⟩ false, .value ⟨.floats, [0, 0, 128, 63]⟩, .equalTo⟩

/-- It accepts a record in which `b` is NULL, and refuses one in which it is 1. -/
theorem null_is_floatOne : ∃ f, (init .utc (fun _ => twoIntegers) twoIntegers (.zero, .zero) bIsFloatOne).1 = .ok f ∧
    f.left.nullHere [0, 0, 0, 0, 0, 0, 0, 0, 1, 0, 0, 0, 0, 0, 0, 0] = true ∧
    f.filter zeroHash noEvaluation [] [0, 0, 0, 0, 0, 0, 0, 0, 1, 0, 0, 0, 0, 0, 0, 0] = some true ∧
    f.left.nullHere [0, 0, 0, 0, 0, 0, 0, 0, 0, 0, 0, 0, 1, 0, 0, 0] = false ∧
    f.filter zeroHash noEvaluation [] [0, 0, 0, 0, 0, 0, 0, 0, 0, 0, 0, 0, 1, 0, 0, 0] = some false := by
  refine ⟨_, rfl, ?_⟩
  decide

end DefaultConditionFilter

end MiniOb
