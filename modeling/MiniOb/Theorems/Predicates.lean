import MiniOb.Query.ConditionFilter
import MiniOb.Theorems.Join

/-! # Comparisons in record filters

What `DefaultConditionFilter::filter` answers for two numbers or two dates, and when it respects NULL. -/

namespace MiniOb
open TupleValue ConDesc

namespace TupleValue
variable {type : AttrType} {a b : TupleValue}

theorem compare_far (ha : a.Fits type) (hb : b.Fits type) (na : a.isNull = false) (nb : b.isNull = false)
    (far : ¬a.Near b) : (a.compare b < 0 ↔ b.Less a) ∧ (0 < a.compare b ↔ a.Less b) := by
  rcases ha.cases hb na nb with ⟨v, u, rfl, rfl, hv, hu⟩ | ⟨s, t, rfl, rfl, hs, ht⟩ | ⟨d, e, rfl, rfl, hd, he⟩
  · simp only [Near, compare, Less, wrapInt] at far ⊢
    omega
  · exact absurd trivial far
  · simp only [Near, compare, Less, wrapInt] at far ⊢
    omega

theorem ne_of_far (far : ¬a.Near b) : a ≠ b := by
  rintro rfl
  refine far ?_
  cases a with
  | null => trivial
  | int v => exact ⟨by omega, by omega⟩
  | float v => trivial
  | string s => trivial
  | date d => exact ⟨by omega, by omega⟩

theorem compare_sign_iff (ha : a.Fits type) (hb : b.Fits type) (na : a.isNull = false) (nb : b.isNull = false) :
    ((a.compare b < 0 ↔ a.Less b) ∧ (0 < a.compare b ↔ b.Less a)) ↔ a.Near b := by
  refine ⟨fun sign => ?_, compare_sign ha hb na nb⟩
  by_contra far
  have hfar := compare_far ha hb na nb far
  have hne : a.compare b ≠ 0 := fun h => ne_of_far far ((compare_eq_zero ha hb na nb).mp h)
  have hneg : a.compare b < 0 ↔ 0 < a.compare b := sign.1.trans hfar.2.symm
  omega

end TupleValue

namespace CompOp

theorem Compares.not_special {op : CompOp} (compares : op.Compares) :
    op ≠ .isOp ∧ op ≠ .isNotOp ∧ ¬(op = .condIn ∨ op = .notIn) := by
  rcases compares with rfl | rfl | rfl | rfl | rfl | rfl <;> decide

variable {op : CompOp} {type : AttrType} {a b : TupleValue}

theorem opSwitch_near (compares : op.Compares) (ha : a.Fits type) (hb : b.Fits type) (na : a.isNull = false)
    (nb : b.isNull = false) (near : op = .equalTo ∨ op = .notEqual ∨ a.Near b) : op.opSwitch (a.compare b) = true ↔
      op.Satisfied a b := by
  have hzero := compare_eq_zero ha hb na nb
  rcases compares with rfl | rfl | h
  · simp only [opSwitch, decide_eq_true_eq]
    exact hzero
  · simp only [opSwitch, decide_eq_true_eq]
    exact not_congr hzero
  · have hnear : a.Near b := by
      rcases near with rfl | rfl | near
      · exact absurd h (by decide)
      · exact absurd h (by decide)
      · exact near
    obtain ⟨hless, hmore⟩ := compare_sign ha hb na nb hnear
    rcases h with rfl | rfl | rfl | rfl
    · simp only [opSwitch, Satisfied, decide_eq_true_eq]
      exact hless
    · simp only [opSwitch, Satisfied, decide_eq_true_eq, ← hless, ← hzero]
      omega
    · simp only [opSwitch, Satisfied, decide_eq_true_eq]
      exact hmore
    · simp only [opSwitch, Satisfied, decide_eq_true_eq, ← hmore, ← hzero]
      omega

theorem opSwitch_far (compares : op.Compares) (ha : a.Fits type) (hb : b.Fits type) (na : a.isNull = false)
    (nb : b.isNull = false) (far : ¬(op = .equalTo ∨ op = .notEqual ∨ a.Near b)) : op.opSwitch (a.compare b) = true ↔
      ¬op.Satisfied a b := by
  obtain ⟨notEq, notNe, hfar⟩ := not_or.mp far |>.imp_right not_or.mp
  have hzero : a.compare b = 0 ↔ a = b := compare_eq_zero ha hb na nb
  have hne : a.compare b ≠ 0 := fun h => ne_of_far hfar (hzero.mp h)
  obtain ⟨hless, hmore⟩ := compare_far ha hb na nb hfar
  rcases compares with rfl | rfl | rfl | rfl | rfl | rfl
  · exact absurd rfl notEq
  · exact absurd rfl notNe
  · simp only [opSwitch, Satisfied, decide_eq_true_eq, ← hmore]
    omega
  · simp only [opSwitch, Satisfied, decide_eq_true_eq, ← hmore, ← hzero]
    omega
  · simp only [opSwitch, Satisfied, decide_eq_true_eq, ← hless]
    omega
  · simp only [opSwitch, Satisfied, decide_eq_true_eq, ← hless, ← hzero]
    omega

end CompOp

namespace ConDesc
variable {type : AttrType} {context : Context} {data : Bytes} {d : ConDesc} {v : TupleValue}

def nullableHere : ConDesc → Bool
  | attr _ false _ nullable => nullable
  | _ => false

def outerAttr : ConDesc → Bool
  | attr _ refersOuter _ _ => refersOuter
  | _ => false

def nullHere (data : Bytes) : ConDesc → Bool
  | attr _ false offset nullable => nullable && readInt (data.drop offset) ≠ 0
  | _ => false

/-- The value of an operand other than a subquery: of the record, of the outer query, or written in the condition. -/
def stored (type : AttrType) (context : Context) (data : Bytes) : ConDesc → TupleValue
  | attr a true _ _ => findFromContext context a
  | attr a false offset nullable =>
    if (attr a false offset nullable).nullHere data then .null
    else (TupleValue.from type (data.drop (if nullable then offset + 4 else offset))).getD .null
  | value _ v isNull => if isNull then .null else (TupleValue.from type v).getD .null
  | subquery .. => .null

end ConDesc

namespace AttrType

def Subtracts (type : AttrType) : Prop := type = .ints ∨ type = .date

instance (type : AttrType) : Decidable type.Subtracts := inferInstanceAs (Decidable (_ ∨ _))

def zero : AttrType → TupleValue
  | date => .date 0
  | _ => .int 0

end AttrType

namespace AttrType.Subtracts
variable {type : AttrType}

section
variable (h : type.Subtracts)
include h

theorem from_eq (value : Bytes) : ∃ v, TupleValue.from type value = some v ∧ v.isNull = false := by
  rcases h with rfl | rfl
  · exact ⟨.int (readInt value), rfl, rfl⟩
  · exact ⟨.date (readUInt value), rfl, rfl⟩

theorem compareBytes_eq {left right : Bytes} {a b : TupleValue} (ha : TupleValue.from type left = some a)
    (hb : TupleValue.from type right = some b) : compareBytes type left right = a.compare b := by
  rcases h with rfl | rfl
  · cases ha
    cases hb
    rfl
  · cases ha
    cases hb
    rfl

theorem zero_isNull : type.zero.isNull = false := by
  rcases h with rfl | rfl <;> rfl

theorem zero_fits : type.zero.Fits type := by
  rcases h with rfl | rfl
  · exact ⟨rfl, by decide⟩
  · exact ⟨rfl, by decide⟩

theorem from_zero {value : Bytes} (zero : readInt value = 0) :
    TupleValue.from type value = some type.zero := by
  have hzero : readUInt value = 0 := by
    have hlt := readUInt_lt value
    unfold readInt at zero
    split at zero <;> omega
  rcases h with rfl | rfl
  · rw [TupleValue.from, zero]
    rfl
  · rw [TupleValue.from, hzero]
    rfl

end

end AttrType.Subtracts

namespace ConDesc
variable {type : AttrType} {context : Context} {data : Bytes} {d : ConDesc} {v : TupleValue}

theorem isNullValue_of_stored (hv : d.stored type context data = v) (notNull : v.isNull = false) :
    d.isNullValue = false := by
  cases d with
  | attr a outer offset nullable => rfl
  | value unset bytes isNull =>
    cases isNull with
    | false => rfl
    | true =>
      rw [← hv] at notNull
      cases notNull
  | subquery unset q => rfl

theorem outerAttr_of_refersOuter (here : d.refersOuter = false) : d.outerAttr = false := by
  cases d with
  | attr a outer offset nullable => exact here
  | value unset bytes isNull => rfl
  | subquery unset q => rfl

theorem read_of_stored (numeric : type.Subtracts) (noSubquery : d.isSubquery = false) (here : d.outerAttr = false)
    (hv : d.stored type context data = v) (notNull : v.isNull = false) :
    d.isNullIn data = false ∧ TupleValue.from type (d.bytesIn data) = some v := by
  cases d with
  | attr a outer offset nullable =>
    obtain rfl : outer = false := here
    rw [stored] at hv
    split at hv
    · rw [← hv] at notNull
      exact absurd notNull (by decide)
    · rename_i notNullHere
      obtain ⟨w, hw, -⟩ := numeric.from_eq (data.drop (if nullable then offset + 4 else offset))
      rw [hw] at hv
      exact ⟨Bool.eq_false_iff.mpr notNullHere, hw.trans (congrArg some hv)⟩
  | value unset bytes isNull =>
    rw [stored] at hv
    cases isNull with
    | true =>
      rw [if_pos rfl] at hv
      rw [← hv] at notNull
      exact absurd notNull (by decide)
    | false =>
      obtain ⟨w, hw, -⟩ := numeric.from_eq bytes
      rw [if_neg Bool.false_ne_true, hw] at hv
      exact ⟨rfl, hw.trans (congrArg some hv)⟩
  | subquery unset q => cases noSubquery

theorem load_of_stored (numeric : type.Subtracts) (noSubquery : d.isSubquery = false)
    (hv : d.stored type context data = v) (notNull : v.isNull = false) :
    d.load type context data = some (if d.nullableHere then type.zero else v) := by
  cases d with
  | attr a outer offset nullable =>
    cases outer with
    | true =>
      rw [← hv]
      rfl
    | false =>
      have hread := read_of_stored numeric rfl rfl hv notNull
      cases nullable with
      | true =>
        have hflag : readInt (data.drop offset) = 0 := by simpa [isNullIn] using hread.1
        exact numeric.from_zero hflag
      | false => exact hread.2
  | value unset bytes isNull =>
    exact (read_of_stored numeric rfl rfl hv notNull).2
  | subquery unset q => cases noSubquery

end ConDesc

namespace DefaultConditionFilter
variable {f : DefaultConditionFilter} {std : StdHash} {evaluate : Evaluator} {context : Context} {data : Bytes}

/-- A comparison of two numbers or two dates: attributes or literals. -/
structure Subtracts (f : DefaultConditionFilter) : Prop where
  type : f.attrType.Subtracts
  sameType : f.floatInt = false
  compares : f.compOp.Compares
  left : f.left.isSubquery = false
  right : f.right.isSubquery = false

def seen (f : DefaultConditionFilter) (d : ConDesc) (v : TupleValue) : TupleValue :=
  if f.throughSubquery && d.nullableHere then f.attrType.zero else v

theorem operands_eq (noLeft : f.left.isSubquery = false) (noRight : f.right.isSubquery = false) {l r : TupleValue}
    (hl : f.left.load f.typeLeft context data = some l) (hr : f.right.load f.typeRight context data = some r) :
    f.operands evaluate context data = some (l, r) := by
  unfold operands
  rcases hfl : f.left with _ | _ | _
  · rcases hfr : f.right with _ | _ | _ <;> simp_all [isSubquery]
  · rcases hfr : f.right with _ | _ | _ <;> simp_all [isSubquery]
  · simp [hfl, isSubquery] at noLeft

theorem through_eq (compares : f.compOp.Compares) (nonNull : f.left.isNullValue = false ∧ f.right.isNullValue = false) :
    f.throughSubquery = (f.floatInt || f.left.refersOuter || f.right.refersOuter || f.left.isSubquery ||
      f.right.isSubquery) := by
  unfold throughSubquery
  rw [nonNull.1, nonNull.2]
  rcases compares with h | h | h | h | h | h <;> simp [h]

theorem filter_eq (h : f.Subtracts) {a b : TupleValue} (ha : f.left.stored f.attrType context data = a)
    (hb : f.right.stored f.attrType context data = b) (na : a.isNull = false) (nb : b.isNull = false) :
    f.filter std evaluate context data = some (f.compOp.opSwitch ((f.seen f.left a).compare (f.seen f.right b))) := by
  have htypeLeft : f.typeLeft = f.attrType := by rw [typeLeft, h.sameType, if_neg Bool.false_ne_true]
  have htypeRight : f.typeRight = f.attrType := by rw [typeRight, h.sameType, if_neg Bool.false_ne_true]
  unfold filter seen
  cases hthrough : f.throughSubquery with
  | true =>
    have hl := load_of_stored h.type h.left ha na
    have hr := load_of_stored h.type h.right hb nb
    rw [← htypeLeft] at hl
    rw [← htypeRight] at hr
    have hnull : ∀ (d : ConDesc) (v : TupleValue), v.isNull = false →
        (if d.nullableHere then f.attrType.zero else v).isNull = false := by
      intro d v hv
      split
      · exact h.type.zero_isNull
      · exact hv
    rw [if_pos rfl, subqueryFilter, operands_eq h.left h.right hl hr]
    simp [htypeLeft, htypeRight, hnull _ _ na, hnull _ _ nb, h.sameType]
  | false =>
    have hthrough' := hthrough
    rw [through_eq h.compares ⟨isNullValue_of_stored ha na, isNullValue_of_stored hb nb⟩] at hthrough'
    simp only [Bool.or_eq_false_iff] at hthrough'
    obtain ⟨hnl, hfl⟩ := read_of_stored h.type h.left (outerAttr_of_refersOuter hthrough'.1.1.1.2) ha na
    obtain ⟨hnr, hfr⟩ := read_of_stored h.type h.right (outerAttr_of_refersOuter hthrough'.1.1.2) hb nb
    obtain ⟨notIs, notNot, notIn⟩ := h.compares.not_special
    simp [hnl, hnr, notIs, notNot, notIn, h.type.compareBytes_eq hfl hfr]

/-- The filter tells the relation that its comparator names, and `compare` the order of the two values, if the
    difference of the values does not wrap. Through `subquery_filter` it is a zero that is compared in place of a
    nullable attribute. -/
theorem filter_numbers_iff (f : DefaultConditionFilter) (std : StdHash) (evaluate : Evaluator) (context : Context)
    (data : Bytes) (a b : TupleValue) (h : f.Subtracts) (ha : f.left.stored f.attrType context data = a)
    (hb : f.right.stored f.attrType context data = b) (na : a.isNull = false) (nb : b.isNull = false)
    (fa : a.Fits f.attrType) (fb : b.Fits f.attrType) :
    ((f.filter std evaluate context data = some true ↔ f.compOp.Satisfied a b) ↔
        ((f.compOp = .equalTo ∨ f.compOp = .notEqual ∨ (f.seen f.left a).Near (f.seen f.right b)) ↔
          (f.compOp.Satisfied (f.seen f.left a) (f.seen f.right b) ↔ f.compOp.Satisfied a b))) ∧
      (((a.compare b < 0 ↔ a.Less b) ∧ (0 < a.compare b ↔ b.Less a)) ↔ a.Near b) := by
  refine ⟨?_, compare_sign_iff fa fb na nb⟩
  have hseen : ∀ (d : ConDesc) (v : TupleValue), v.isNull = false → v.Fits f.attrType →
      (f.seen d v).isNull = false ∧ (f.seen d v).Fits f.attrType := by
    intro d v hv hfits
    unfold seen
    split
    · exact ⟨h.type.zero_isNull, h.type.zero_fits⟩
    · exact ⟨hv, hfits⟩
  obtain ⟨na', fa'⟩ := hseen f.left a na fa
  obtain ⟨nb', fb'⟩ := hseen f.right b nb fb
  rw [filter_eq h ha hb na nb, Option.some.injEq]
  by_cases near : f.compOp = .equalTo ∨ f.compOp = .notEqual ∨ (f.seen f.left a).Near (f.seen f.right b)
  · rw [CompOp.opSwitch_near h.compares fa' fb' na' nb' near]
    simp [near]
  · rw [CompOp.opSwitch_far h.compares fa' fb' na' nb' near]
    simp [near, not_iff]

def twoIntegers : Catalog.TableMeta :=
  ⟨[116], [Catalog.trxField, ⟨[97], .ints, 4, 4, true, false⟩, ⟨[98], .ints, 8, 8, true, true⟩], [], [], 16⟩

def belowOne : Condition := ⟨.attr ⟨none, [97]⟩ false, .value ⟨.ints, [1, 0, 0, 0]⟩, .lessThan⟩

def belowOneFilter : DefaultConditionFilter :=
  ⟨.attr ⟨none, [97]⟩ false 4 false, .value .zero [1, 0, 0, 0] false, .ints, .lessThan, false, false⟩

def noEvaluation : Evaluator := ⟨fun _ _ => .null, fun _ _ => []⟩

theorem belowOneFilter_subtracts : belowOneFilter.Subtracts := ⟨.inl rfl, rfl, by decide, rfl, rfl⟩

theorem belowOne_zero :
    (belowOneFilter.filter zeroHash noEvaluation [] (List.replicate 16 0) = some true ↔
        CompOp.lessThan.Satisfied (.int 0) (.int 1)) ∧
      ((int 0).compare (.int 1) < 0 ↔ (int 0).Less (.int 1)) := by
  have near : (int 0).Near (.int 1) := ⟨by decide, by decide⟩
  have h := filter_numbers_iff belowOneFilter zeroHash noEvaluation [] (List.replicate 16 0) (.int 0) (.int 1)
    belowOneFilter_subtracts rfl rfl rfl rfl ⟨rfl, by decide⟩ ⟨rfl, by decide⟩
  exact ⟨h.1.mpr (iff_of_true (.inr (.inr near)) Iff.rfl), (h.2.mpr near).1⟩

/-- The least `int` is not below 1 for the filter. -/
theorem least_not_belowOne :
    (init .utc (fun _ => twoIntegers) twoIntegers (.zero, .zero) belowOne).1 = .ok belowOneFilter ∧
      belowOneFilter.left.stored .ints [] [0, 0, 0, 0, 0, 0, 0, 128] = .int (-2147483648) ∧
      belowOneFilter.right.stored .ints [] [0, 0, 0, 0, 0, 0, 0, 128] = .int 1 ∧
      CompOp.lessThan.Satisfied (.int (-2147483648)) (.int 1) ∧
      belowOneFilter.filter zeroHash noEvaluation [] [0, 0, 0, 0, 0, 0, 0, 128] = some false ∧
      (int (-2147483648)).compare (.int 1) = 2147483647 := by
  refine ⟨rfl, ?_⟩
  decide

end DefaultConditionFilter

end MiniOb
