import MiniOb.Query.ConditionFilter
import MiniOb.Theorems.HashJoin

/-! # IN and NOT IN

The set that `evaluate_subquery` builds finds whatever has the hash of the value that is looked for. NULL has that of
the zero. -/

namespace MiniOb
open TupleValue

namespace TupleValue
variable {type : AttrType} {std : StdHash} {a b v : TupleValue}

theorem from_fits (hexact : type.Exact) {bytes : Bytes} (hv : TupleValue.from type bytes = some v) :
    v.isNull = false ∧ v.Fits type := by
  rcases hexact with rfl | rfl | rfl
  · cases hv
    exact ⟨rfl, rfl, readInt_isInt bytes⟩
  · cases hv
    exact ⟨rfl, rfl, zero_not_mem_cString _ _⟩
  · cases hv
    exact ⟨rfl, rfl, readUInt_lt bytes⟩

theorem hash_inj (number : type ≠ .chars) (ha : a.Fits type) (hb : b.Fits type) (na : a.isNull = false)
    (nb : b.isNull = false) (same : a.hash std = b.hash std) : a = b := by
  rcases ha.cases hb na nb with ⟨v, u, rfl, rfl, hv, hu⟩ | ⟨s, t, rfl, rfl, -, -⟩ | ⟨d, e, rfl, rfl, -, -⟩
  · have hsame : (v % 2 ^ 64).toNat = (u % 2 ^ 64).toNat := same
    rw [int.injEq]
    omega
  · exact absurd ha.1 number
  · exact congrArg date same

end TupleValue

namespace DefaultConditionFilter
variable {f : DefaultConditionFilter} {std : StdHash} {evaluate : Evaluator} {context : Context} {data : Bytes}
  {v : TupleValue}
variable {unset : Unset} {q : Subquery} {rows : List TupleValue}

def withOp (f : DefaultConditionFilter) (op : CompOp) : DefaultConditionFilter := { f with compOp := op }

def MemberOf (v : TupleValue) (rows : List TupleValue) : Prop := ∃ row ∈ rows, row.isNull = false ∧ v.compare row = 0

theorem memberOf_iff {type : AttrType} (hv : v.Fits type) (notNull : v.isNull = false)
    (typed : ∀ row ∈ rows, row.Fits type) : MemberOf v rows ↔ v ∈ rows := by
  constructor
  · rintro ⟨row, hrow, hnull, hcompare⟩
    rw [(compare_eq_zero hv (typed row hrow) notNull hnull).mp hcompare]
    exact hrow
  · exact fun hmem => ⟨v, hmem, notNull, (compare_eq_zero hv hv notNull notNull).mpr rfl⟩

theorem filter_in (right : f.right = .subquery unset q) (same : f.attrType = q.resultType)
    (notNull : f.left.isNullIn data = false) (read : TupleValue.from f.attrType (f.left.bytesIn data) = some v)
    (hrows : evaluate.rows q ((f.left.relAttr, v) :: context) = rows) :
    ((f.withOp .condIn).filter std evaluate context data = some true ↔ ∃ row ∈ rows, row.hash std = v.hash std) ∧
      ((f.withOp .notIn).filter std evaluate context data = some true ↔ ¬∃ row ∈ rows, row.hash std = v.hash std) := by
  have hnull : ConDesc.isNullIn data (.subquery unset q) = false := rfl
  rw [same] at read
  constructor
  · simp [filter, throughSubquery, withOp, notNull, hnull, inFilter, right, read, same, hrows]
  · simp [filter, throughSubquery, withOp, notNull, hnull, inFilter, right, read, same, hrows]

/-- `IN` is membership and `NOT IN` its negation if and only if a row with the hash of the value is there only together
    with the value itself. For numbers and dates that fails only for a zero, against a set that has a NULL and no
    zero. -/
theorem in_iff_memberOf (f : DefaultConditionFilter) (std : StdHash) (evaluate : Evaluator) (context : Context)
    (data : Bytes) (v : TupleValue) (unset : Unset) (q : Subquery) (rows : List TupleValue) (hexact : f.attrType.Exact)
    (right : f.right = .subquery unset q) (same : f.attrType = q.resultType) (notNull : f.left.isNullIn data = false)
    (read : TupleValue.from f.attrType (f.left.bytesIn data) = some v)
    (hrows : evaluate.rows q ((f.left.relAttr, v) :: context) = rows) (typed : ∀ row ∈ rows, row.Fits f.attrType) :
    ((((f.withOp .condIn).filter std evaluate context data = some true ↔ MemberOf v rows) ∧
        ((f.withOp .notIn).filter std evaluate context data = some true ↔
          ¬(f.withOp .condIn).filter std evaluate context data = some true)) ↔
      ((∃ row ∈ rows, row.hash std = v.hash std) → v ∈ rows)) ∧
    (f.attrType ≠ .chars →
      (((∃ row ∈ rows, row.hash std = v.hash std) → v ∈ rows) ↔ ¬(v.hash std = 0 ∧ .null ∈ rows ∧ v ∉ rows))) := by
  obtain ⟨hv, hfits⟩ := from_fits hexact read
  refine ⟨?_, fun number => ?_⟩
  · obtain ⟨hin, hnot⟩ := filter_in right same notNull read hrows
    rw [hin, hnot, memberOf_iff hfits hv typed]
    refine ⟨fun h => h.1.mp, fun h => ⟨⟨h, fun hmem => ⟨v, hmem, rfl⟩⟩, Iff.rfl⟩⟩
  · constructor
    · rintro h ⟨hzero, hnull, habsent⟩
      exact habsent (h ⟨.null, hnull, hzero.symm⟩)
    · rintro h ⟨row, hrow, hhash⟩
      by_contra habsent
      cases hnull : row.isNull with
      | false =>
        rw [hash_inj number (typed row hrow) hfits hnull hv hhash] at hrow
        exact habsent hrow
      | true =>
        obtain rfl : row = .null := eq_null_of_isNull hnull
        exact h ⟨hhash.symm, hrow, habsent⟩

def aInB : DefaultConditionFilter :=
  ⟨.attr ⟨none, [97]⟩ false 4 false, .subquery .zero ⟨.attribute ⟨none, [98]⟩, .ints, [[116]], []⟩, .ints,
    .condIn, false, false⟩

def always (rows : List TupleValue) : Evaluator := ⟨fun _ _ => .null, fun _ _ => rows⟩

theorem zero_in_one_zero :
    (aInB.withOp .condIn).filter zeroHash (always [.int 1, .int 0]) [] (List.replicate 8 0) = some true ↔
      MemberOf (.int 0) [.int 1, .int 0] := by
  have typed : ∀ row ∈ [int 1, .int 0], row.Fits .ints := by
    intro row hrow
    rcases List.mem_pair.mp hrow with rfl | rfl
    · exact ⟨rfl, by decide⟩
    · exact ⟨rfl, by decide⟩
  have h := in_iff_memberOf aInB zeroHash (always [.int 1, .int 0]) [] (List.replicate 8 0)
    (.int 0) _ _ [.int 1, .int 0] (.inl rfl) rfl rfl rfl rfl rfl typed
  exact (h.1.mpr fun _ => by decide).1

/-- The zero is found in a set that has nothing but a NULL. -/
theorem zero_in_null :
    (aInB.withOp .condIn).filter zeroHash (always [.null]) [] (List.replicate 8 0) = some true ∧
      (aInB.withOp .notIn).filter zeroHash (always [.null]) [] (List.replicate 8 0) = some false ∧
        ¬MemberOf (.int 0) [.null] := by
  unfold MemberOf
  decide

end DefaultConditionFilter

end MiniOb
