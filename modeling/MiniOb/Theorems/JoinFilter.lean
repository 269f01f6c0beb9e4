import MiniOb.Query.Join

/-! # Lists of join conditions

`filter` goes through its conditions up to the first test for NULL, which decides. -/

namespace MiniOb
open List

def CompOp.TestsNull (op : CompOp) : Prop := op = .isOp ∨ op = .isNotOp

instance (op : CompOp) : Decidable op.TestsNull := inferInstanceAs (Decidable (_ ∨ _))

variable {cur : Tuple} {schema : TupleSchema} {c : JoinCondition} {conditions : List JoinCondition}

def AcceptsAlone (cur : Tuple) (schema : TupleSchema) (c : JoinCondition) : Prop := filterTuple cur schema [c] = true

instance : Decidable (AcceptsAlone cur schema c) := inferInstanceAs (Decidable (_ = _))

def decidingConditions : List JoinCondition → List JoinCondition
  | [] => []
  | c :: conditions => if c.comp.TestsNull then [c] else c :: decidingConditions conditions

def skippedConditions : List JoinCondition → List JoinCondition
  | [] => []
  | c :: conditions => if c.comp.TestsNull then conditions else skippedConditions conditions

theorem deciding_append_skipped : ∀ conditions, decidingConditions conditions ++ skippedConditions conditions =
    conditions
  | [] => rfl
  | c :: conditions => by
    rw [decidingConditions, skippedConditions]
    split
    · rfl
    · rw [cons_append, deciding_append_skipped conditions]

theorem filterTuple_of_testsNull (tests : c.comp.TestsNull) :
    filterTuple cur schema (c :: conditions) = filterTuple cur schema [c] := by
  rw [filterTuple, filterTuple]
  rcases tests with h | h
  · simp [h]
  · simp [h]

theorem filterTuple_of_not_testsNull (compares : ¬c.comp.TestsNull) :
    filterTuple cur schema (c :: conditions) = (filterTuple cur schema [c] && filterTuple cur schema conditions) := by
  obtain ⟨notIs, notNot⟩ := not_or.mp compares
  rw [filterTuple, filterTuple]
  cases schema.indexOfField c.left with
  | none => rfl
  | some i =>
    cases schema.indexOfField c.right with
    | none => rfl
    | some j =>
      dsimp only
      rw [if_neg notNot, if_neg notIs, if_neg notNot, if_neg notIs]
      split
      · rfl
      · split
        · rw [filterTuple, Bool.true_and]
        · rfl

theorem filterTuple_iff_deciding : ∀ {conditions : List JoinCondition},
    filterTuple cur schema conditions = true ↔ ∀ c ∈ decidingConditions conditions, AcceptsAlone cur schema c
  | [] => ⟨fun _ c hc => (nomatch hc), fun _ => rfl⟩
  | c :: conditions => by
    rw [decidingConditions]
    split
    · rename_i tests
      rw [filterTuple_of_testsNull tests, forall_mem_singleton]
      rfl
    · rename_i compares
      rw [filterTuple_of_not_testsNull compares, Bool.and_eq_true, forall_mem_cons]
      exact and_congr_right fun _ => filterTuple_iff_deciding

def MeansConjunction (cur : Tuple) (schema : TupleSchema) (conditions : List JoinCondition) : Prop :=
  filterTuple cur schema conditions = true ↔ ∀ c ∈ conditions, AcceptsAlone cur schema c

theorem meansConjunction_iff_skipped : MeansConjunction cur schema conditions ↔
    ((∀ c ∈ decidingConditions conditions, AcceptsAlone cur schema c) →
      ∀ c ∈ skippedConditions conditions, AcceptsAlone cur schema c) := by
  have hall : (∀ c ∈ conditions, AcceptsAlone cur schema c) ↔
    (∀ c ∈ decidingConditions conditions, AcceptsAlone cur schema c) ∧
      ∀ c ∈ skippedConditions conditions, AcceptsAlone cur schema c := by
    rw [← forall_mem_append, deciding_append_skipped]
  rw [MeansConjunction, filterTuple_iff_deciding, hall]
  exact iff_self_and

theorem meansConjunction_of_no_test (none : ¬∃ c ∈ conditions, c.comp.TestsNull ∧ AcceptsAlone cur schema c) :
    MeansConjunction cur schema conditions := by
  induction conditions with
  | nil => exact ⟨fun _ c hc => (nomatch hc), fun _ => rfl⟩
  | cons c conditions ih =>
    have hrest : MeansConjunction cur schema conditions :=
      ih fun ⟨d, hd, htest⟩ => none ⟨d, mem_cons_of_mem c hd, htest⟩
    rw [MeansConjunction, forall_mem_cons]
    by_cases tests : c.comp.TestsNull
    · have hfalse : ¬AcceptsAlone cur schema c := fun h => none ⟨c, mem_cons_self, tests, h⟩
      rw [filterTuple_of_testsNull tests]
      exact iff_of_false hfalse fun h => hfalse h.1
    · rw [filterTuple_of_not_testsNull tests, Bool.and_eq_true]
      exact and_congr_right fun _ => hrest

theorem filterTuple_cons_refuses (refused : ¬AcceptsAlone cur schema c) :
    filterTuple cur schema (c :: conditions) = false := by
  have halone : filterTuple cur schema [c] = false := Bool.eq_false_iff.mpr refused
  by_cases tests : c.comp.TestsNull
  · rw [filterTuple_of_testsNull tests, halone]
  · rw [filterTuple_of_not_testsNull tests, halone, Bool.false_and]

/-- The list means the conjunction of its conditions if the conditions up to the first test for NULL are not all true,
    or the ones behind it are; and the order of the conditions does not matter exactly if there is no true test for NULL
    among them, or all of them are true. -/
theorem meansConjunction_iff (cur : Tuple) (schema : TupleSchema) (conditions : List JoinCondition) :
    (MeansConjunction cur schema conditions ↔
        ((∀ c ∈ decidingConditions conditions, AcceptsAlone cur schema c) →
          ∀ c ∈ skippedConditions conditions, AcceptsAlone cur schema c)) ∧
      ((∀ conditions', conditions'.Perm conditions → filterTuple cur schema conditions' =
        filterTuple cur schema conditions) ↔
        ((∃ c ∈ conditions, c.comp.TestsNull ∧ AcceptsAlone cur schema c) → ∀ c ∈ conditions,
          AcceptsAlone cur schema c)) := by
  refine ⟨meansConjunction_iff_skipped, fun same => ?_, fun h conditions' perm => ?_⟩
  · rintro ⟨c, hc, tests, accepted⟩ d hd
    by_contra refused
    -- With the true test in front the tuple is accepted, with the false condition in front it is refused.
    have htrue := same _ (perm_cons_erase hc).symm
    have hfalse := same _ (perm_cons_erase hd).symm
    rw [filterTuple_of_testsNull tests] at htrue
    rw [filterTuple_cons_refuses refused, ← htrue] at hfalse
    exact Bool.false_ne_true (hfalse.trans accepted)
  · have hmeans : ∀ l : List JoinCondition, l.Perm conditions → MeansConjunction cur schema l := by
      intro l hl
      by_cases htest : ∃ c ∈ conditions, c.comp.TestsNull ∧ AcceptsAlone cur schema c
      · refine meansConjunction_iff_skipped.mpr fun _ c hc => h htest c (hl.subset ?_)
        rw [← deciding_append_skipped l]
        exact mem_append_right _ hc
      · refine meansConjunction_of_no_test fun ⟨c, hc, hcond⟩ => htest ⟨c, hl.subset hc, hcond⟩
    have hsame : (∀ c ∈ conditions', AcceptsAlone cur schema c) ↔ ∀ c ∈ conditions, AcceptsAlone cur schema c := by
      simp only [perm.mem_iff]
    exact Bool.eq_iff_iff.mpr ((hmeans _ perm).trans (hsame.trans (hmeans _ (.refl _)).symm))

def twoColumns : TupleSchema := [⟨.ints, ⟨[97], [120]⟩⟩, ⟨.ints, ⟨[98], [121]⟩⟩]

/-- On the row 1, 2 the list `a.x IS NOT b.y AND a.x = b.y` is true, the equality alone is not, and in the other order
    the list is false. -/
theorem isNot_hides_equality :
    filterTuple [.int 1, .int 2] twoColumns [⟨⟨[97], [120]⟩, ⟨[98], [121]⟩, .isNotOp⟩,
      ⟨⟨[97], [120]⟩, ⟨[98], [121]⟩, .equalTo⟩] = true ∧
      filterTuple [.int 1, .int 2] twoColumns [⟨⟨[97], [120]⟩, ⟨[98], [121]⟩, .equalTo⟩] = false ∧
      filterTuple [.int 1, .int 2] twoColumns
        [⟨⟨[97], [120]⟩, ⟨[98], [121]⟩, .equalTo⟩, ⟨⟨[97], [120]⟩, ⟨[98], [121]⟩, .isNotOp⟩] = false ∧
      ¬MeansConjunction [.int 1, .int 2] twoColumns
        [⟨⟨[97], [120]⟩, ⟨[98], [121]⟩, .isNotOp⟩, ⟨⟨[97], [120]⟩, ⟨[98], [121]⟩, .equalTo⟩] := by
  unfold MeansConjunction
  decide

end MiniOb
