import MiniOb.Theorems.GroupBy
import MiniOb.Theorems.OrderBy

/-! # MAX, MIN and AVG

`MaxAggregator` and `MinAggregator` keep the best value so far, by a comparison that subtracts. `AvgAggregator` adds
integers up in an `int`. -/

namespace MiniOb
open Sorting List TupleValue Aggregator
variable {pos : Nat} {tuples : List Tuple} {type : AttrType}

def columnValues (pos : Nat) (tuples : List Tuple) : List TupleValue :=
  (tuples.map fun t => t.at pos).filter fun v => !v.isNull

theorem mem_columnValues {v : TupleValue} : v ∈ columnValues pos tuples ↔ (∃ t ∈ tuples, t.at pos = v) ∧
    v.isNull = false := by
  simp [columnValues]

theorem columnValues_cons (t : Tuple) :
    columnValues pos (t :: tuples) = if (t.at pos).isNull then columnValues pos tuples
      else t.at pos :: columnValues pos tuples := by
  unfold columnValues
  rw [map_cons, filter_cons]
  cases (t.at pos).isNull <;> rfl

def Aggregator.after (a : Aggregator) (tuples : List Tuple) : Aggregator := tuples.foldl (fun a t => a.consume t) a

/-- `MaxAggregator`, or `MinAggregator`, with the value that it keeps. -/
def extremal (least : Bool) (pos : Nat) (best : Option TupleValue) : Aggregator :=
  if least then .min pos best else .max pos best

def extremum (least : Bool) (pos : Nat) (tuples : List Tuple) : TupleValue :=
  ((extremal least pos none).after tuples).result

/-- The answer is NULL if and only if there is nothing but NULL, and otherwise the greatest, or least, value of the
    column; it is the same in whatever order the tuples come. -/
structure Extremal (least : Bool) (pos : Nat) (tuples : List Tuple) : Prop where
  null : extremum least pos tuples = .null ↔ ∀ t ∈ tuples, (t.at pos).isNull = true
  best : extremum least pos tuples ≠ .null → extremum least pos tuples ∈ columnValues pos tuples ∧
    ∀ v ∈ columnValues pos tuples, ¬Before least (extremum least pos tuples).place v.place
  stable : ∀ tuples', tuples'.Perm tuples → extremum least pos tuples' = extremum least pos tuples

def beats (least : Bool) (m v : TupleValue) : Prop := if least then 0 < m.compare v else m.compare v < 0

instance (least : Bool) : DecidableRel (beats least) := fun m v =>
  inferInstanceAs (Decidable (if least then 0 < m.compare v else m.compare v < 0))

variable {least : Bool}

theorem extremal_after : ∀ {tuples : List Tuple} {best : Option TupleValue}, (extremal least pos best).after tuples =
    extremal least pos ((columnValues pos tuples).foldl (keepBest (beats least)) best)
  | [], _ => rfl
  | t :: tuples, best => by
    have hstep : (extremal least pos best).consume t =
        extremal least pos (if (t.at pos).isNull then best else keepBest (beats least) best (t.at pos)) := by
      cases least <;> cases best <;> cases hnull : (t.at pos).isNull <;>
        simp only [extremal, Aggregator.consume, keepBest, beats, hnull, Bool.false_eq_true, if_false, if_true,
          apply_ite (Aggregator.max pos), apply_ite (Aggregator.min pos)]
    rw [Aggregator.after, foldl_cons, hstep, columnValues_cons]
    refine extremal_after.trans ?_
    split
    · rfl
    · rw [foldl_cons]

theorem extremum_eq : extremum least pos tuples =
    ((columnValues pos tuples).foldl (keepBest (beats least)) none).getD .null := by
  rw [extremum, extremal_after]
  cases least <;> rfl

section Near
variable {u v m : TupleValue}

theorem beats_near (hu : u.Fits type) (hv : v.Fits type) (nu : u.isNull = false) (nv : v.isNull = false)
    (near : u.Near v) : beats least u v ↔ Before least u.place v.place := by
  have hsign := compare_sign hu hv nu nv near
  cases least with
  | false => exact hsign.1.trans (place_lt_iff hu hv nu nv).symm
  | true => exact hsign.2.trans (place_lt_iff hv hu nv nu).symm

theorem beats_far (hu : u.Fits type) (hv : v.Fits type) (nu : u.isNull = false) (nv : v.isNull = false)
    (far : ¬u.Near v) : beats least u v ↔ Before least v.place u.place := by
  have hsign := compare_far hu hv nu nv far
  cases least with
  | false => exact hsign.1.trans (place_lt_iff hv hu nv nu).symm
  | true => exact hsign.2.trans (place_lt_iff hu hv nu nv).symm

theorem beats_iff_near (hu : u.Fits type) (hm : m.Fits type) (nu : u.isNull = false) (nm : m.isNull = false)
    (worse : Before least u.place m.place) : (beats least u m ∧ ¬beats least m u) ↔ u.Near m ∧ m.Near u := by
  refine and_congr ?_ ?_
  · by_cases near : u.Near m
    · exact iff_of_true ((beats_near hu hm nu nm near).mpr worse) near
    · exact iff_of_false (fun h => worse.asymm ((beats_far hu hm nu nm near).mp h)) near
  · by_cases near : m.Near u
    · exact iff_of_true (fun h => worse.asymm ((beats_near hm hu nm nu near).mp h)) near
    · exact iff_of_false (not_not.mpr ((beats_far hm hu nm nu near).mpr worse)) near

theorem near_between (hu : u.Fits type) (hv : v.Fits type) (hm : m.Fits type) (nu : u.isNull = false)
    (nv : v.isNull = false) (nm : m.isNull = false) (least : Bool) (um : ¬Before least m.place u.place)
    (vm : ¬Before least m.place v.place) (mu : m.Near u) (mv : m.Near v) (un : u.Near m) (vn : v.Near m) :
    u.Near v := by
  rcases hu.cases hv nu nv with ⟨a, b, rfl, rfl, -, -⟩ | ⟨s, t, rfl, rfl, -, -⟩ | ⟨d, e, rfl, rfl, -, -⟩
  · rcases hu.cases hm nu nm with ⟨_, c, h, rfl, -, -⟩ | ⟨_, _, h, -⟩ | ⟨_, _, h, -⟩
    · cases least <;> simp only [Before, place, WithTop.coe_lt_coe, singleton_lt, Bool.false_eq_true, if_false,
        if_true, Near] at * <;> omega
    · cases h
    · cases h
  · trivial
  · rcases hu.cases hm nu nm with ⟨_, _, h, -⟩ | ⟨_, _, h, -⟩ | ⟨_, c, h, rfl, -, -⟩
    · cases h
    · cases h
    · cases least <;> simp only [Before, place, WithTop.coe_lt_coe, singleton_lt, Bool.false_eq_true, if_false,
        if_true, Near] at * <;> omega

end Near

theorem columnValues_perm {tuples' : List Tuple} (perm : tuples'.Perm tuples) : (columnValues pos tuples').Perm
    (columnValues pos tuples) :=
  (perm.map _).filter _

theorem exists_columnValues {l : List TupleValue} (perm : l.Perm (columnValues pos tuples)) :
    ∃ tuples', tuples'.Perm tuples ∧ columnValues pos tuples' = l := by
  have hvalues : columnValues pos tuples = (tuples.filter fun t => !(t.at pos).isNull).map fun t => t.at pos :=
    filter_map
  obtain ⟨kept, rfl, hkept⟩ : Relation.Comp (· = List.map (fun t : Tuple => t.at pos) ·) List.Perm l
      (tuples.filter fun t => !(t.at pos).isNull) := by
    rw [eq_map_comp_perm]
    exact perm.trans (.of_eq hvalues)
  have hnull : ∀ t ∈ kept, (t.at pos).isNull = false := fun t ht => by simpa using (mem_filter.mp (hkept.subset ht)).2
  -- The tuples with NULL are put behind.
  refine ⟨kept ++ tuples.filter fun t => !!(t.at pos).isNull,
    (hkept.append_right _).trans (filter_append_perm _ tuples), ?_⟩
  rw [columnValues, map_append, filter_append, filter_eq_self.mpr, filter_eq_nil_iff.mpr, append_nil]
  · simpa using fun _ t _ null heq => heq ▸ null
  · simpa using hnull

theorem exists_best (least : Bool) {l : List TupleValue} (nonempty : l ≠ []) :
    ∃ m ∈ l, ∀ v ∈ l, ¬Before least m.place v.place := by
  have hne : l.toFinset.Nonempty := toFinset_nonempty_iff l |>.mpr nonempty
  cases least with
  | false =>
    obtain ⟨m, hm, hmax⟩ := l.toFinset.exists_max_image place hne
    exact ⟨m, mem_toFinset.mp hm, fun v hv => not_lt.mpr (hmax v (mem_toFinset.mpr hv))⟩
  | true =>
    obtain ⟨m, hm, hmin⟩ := l.toFinset.exists_min_image place hne
    exact ⟨m, mem_toFinset.mp hm, fun v hv => not_lt.mpr (hmin v (mem_toFinset.mpr hv))⟩

theorem kept_iff_near {l : List TupleValue} {m : TupleValue} (fits : ∀ v ∈ l, v.Fits type ∧ v.isNull = false)
    (hm : m ∈ l) (best : ∀ v ∈ l, ¬Before least m.place v.place) :
    (∀ l' : List TupleValue, l'.Perm l → l'.foldl (keepBest (beats least)) none = some m) ↔
      ∀ u ∈ l, ∀ v ∈ l, u.Near v := by
  have hworse : ∀ u ∈ l, u ≠ m → ((beats least u m ∧ ¬beats least m u) ↔ u.Near m ∧ m.Near u) := fun u hu hne => by
    refine beats_iff_near (fits u hu).1 (fits m hm).1 (fits u hu).2 (fits m hm).2 ?_
    exact (before_or_before fun h => hne (place_inj (fits u hu).1 (fits m hm).1 h)).resolve_right (best u hu)
  rw [foldl_keepBest_perm_iff hm]
  refine ⟨fun kept => ?_, fun near u hu hne => (hworse u hu hne).mpr ⟨near u hu m hm, near m hm u hu⟩⟩
  have hnear : ∀ u ∈ l, u.Near m ∧ m.Near u := fun u hu => by
    by_cases hne : u = m
    · rw [hne, and_self_iff]
      exact not_not.mp fun far => ne_of_far far rfl
    · exact (hworse u hu hne).mp (kept u hu hne)
  exact fun u hu v hv => near_between (fits u hu).1 (fits v hv).1 (fits m hm).1 (fits u hu).2 (fits v hv).2
    (fits m hm).2 least (best u hu) (best v hv) (hnear u hu).2 (hnear v hv).2 (hnear u hu).1 (hnear v hv).1

/-- MAX and MIN of a column of integers, strings or dates are right in every order of the tuples if and only if no two
    of its integers or dates are `2^31` or more apart. -/
theorem extremal_iff_near (least : Bool) (pos : Nat) (tuples : List Tuple) (type : AttrType)
    (fits : ∀ t ∈ tuples, (t.at pos).Fits type) :
    Extremal least pos tuples ↔ ∀ u ∈ columnValues pos tuples, ∀ v ∈ columnValues pos tuples, u.Near v := by
  have hfits : ∀ v ∈ columnValues pos tuples, v.Fits type ∧ v.isNull = false := fun v hv => by
    obtain ⟨⟨t, ht, rfl⟩, hnull⟩ := mem_columnValues.mp hv
    exact ⟨fits t ht, hnull⟩
  have hnil : columnValues pos tuples = [] ↔ ∀ t ∈ tuples, (t.at pos).isNull = true := by simp [columnValues]
  by_cases empty : columnValues pos tuples = []
  · have hnull : ∀ tuples', tuples'.Perm tuples → extremum least pos tuples' = .null := fun tuples' perm => by
      have hperm := @columnValues_perm pos _ _ perm
      rw [empty] at hperm
      rw [extremum_eq, hperm.eq_nil]
      rfl
    refine iff_of_true ⟨iff_of_true (hnull _ (.refl _)) (hnil.mp empty), fun h => absurd (hnull _ (.refl _)) h,
      fun tuples' perm => ?_⟩ (by simp [empty])
    rw [hnull tuples' perm, hnull tuples (.refl _)]
  constructor
  · intro extremal
    have hsome : extremum least pos tuples ≠ .null := fun h => empty (hnil.mpr (extremal.null.mp h))
    obtain ⟨hmem, hbest⟩ := extremal.best hsome
    refine (kept_iff_near hfits hmem hbest).mp fun l perm => ?_
    obtain ⟨tuples', perm', rfl⟩ := exists_columnValues perm
    have hrun := extremal.stable tuples' perm'
    rw [extremum_eq] at hrun
    cases hfold : (columnValues pos tuples').foldl (keepBest (beats least)) none with
    | none =>
      rw [hfold] at hrun
      exact absurd hrun.symm hsome
    | some r =>
      rw [hfold] at hrun
      exact congrArg some hrun
  · intro near
    obtain ⟨m, hm, hbest⟩ := exists_best least empty
    have hrun : ∀ tuples', tuples'.Perm tuples → extremum least pos tuples' = m := fun tuples' perm => by
      rw [extremum_eq, (kept_iff_near hfits hm hbest).mpr near _ (columnValues_perm perm)]
      rfl
    have hnotNull : m ≠ .null := fun h => by
      have hm' := (hfits m hm).2
      rw [h] at hm'
      cases hm'
    refine ⟨?_, fun _ => ?_, fun tuples' perm => ?_⟩
    · rw [hrun tuples (.refl _)]
      exact iff_of_false hnotNull fun h => empty (hnil.mpr h)
    · rw [hrun tuples (.refl _)]
      exact ⟨hm, hbest⟩
    · rw [hrun tuples' perm, hrun tuples (.refl _)]

theorem extremal_dates : Extremal true 0 [[.date 18], [.null], [.date 7], [.date 30]] :=
  (extremal_iff_near true 0 _ .date (by simp [Fits, Tuple.at])).mpr (by decide)

/-- The greatest of 2147483647 and -1 is -1 if it comes last. -/
theorem max_of_far_values :
    extremum false 0 [[.int 2147483647], [.int (-1)]] = .int (-1) ∧ extremum false 0 [[.int (-1)], [.int 2147483647]] =
      .int 2147483647 ∧ ¬Extremal false 0 [[.int 2147483647], [.int (-1)]] := by
  refine ⟨by decide, by decide, fun extremal => ?_⟩
  exact absurd (extremal.stable [[.int (-1)], [.int 2147483647]] (.swap _ _ _)) (by decide)

def columnInts (pos : Nat) (tuples : List Tuple) : List Int := (columnValues pos tuples).map getInt

theorem columnInts_cons (t : Tuple) : columnInts pos (t :: tuples) =
    if (t.at pos).isNull then columnInts pos tuples else (t.at pos).getInt :: columnInts pos tuples := by
  rw [columnInts, columnValues_cons, apply_ite (List.map getInt)]
  rfl

def NoOverflow : Aggregator → List Tuple → Prop
  | .avg pos .ints cnt intSum floatSum isNull, t :: tuples =>
    ((t.at pos).isNull = false → IsInt (cnt + 1) ∧ IsInt (intSum + (t.at pos).getInt)) ∧
      NoOverflow ((avg pos .ints cnt intSum floatSum isNull).consume t) tuples
  | _, _ => True

/-- At the call of `result` the accumulators hold the number of the integers and their sum, which they have come to
    without an overflow, and the result is NULL if and only if there are none. -/
structure AvgExact (start : Aggregator) (pos : Nat) (tuples : List Tuple) : Prop where
  sums : ∃ floatSum isNull,
    start.after tuples = .avg pos .ints (columnInts pos tuples).length (columnInts pos tuples).sum floatSum isNull
  noOverflow : NoOverflow start tuples
  null : (start.after tuples).result = .null ↔ (columnInts pos tuples).length = 0

variable {floatSum : Single.Value} {isNull : Bool}

theorem consume_avg (c s : Int) (t : Tuple) : (avg pos .ints c s floatSum isNull).consume t =
    if (t.at pos).isNull then .avg pos .ints c s floatSum isNull
    else .avg pos .ints (wrapInt (c + 1)) (wrapInt (s + (t.at pos).getInt)) floatSum false := rfl

theorem after_avg : ∀ {tuples : List Tuple} {c s : Int} {isNull : Bool}, IsInt c → IsInt s →
    (avg pos .ints c s floatSum isNull).after tuples = .avg pos .ints (wrapInt (c + (columnInts pos tuples).length))
      (wrapInt (s + (columnInts pos tuples).sum)) floatSum (isNull && (columnInts pos tuples).isEmpty)
  | [], c, s, isNull, hc, hs => by
    simp [Aggregator.after, columnInts, columnValues, wrapInt_eq hc.1 hc.2, wrapInt_eq hs.1 hs.2]
  | t :: tuples, c, s, isNull, hc, hs => by
    rw [Aggregator.after, foldl_cons, consume_avg, columnInts_cons]
    split
    · exact after_avg hc hs
    · refine (after_avg (wrapInt_isInt _) (wrapInt_isInt _)).trans ?_
      have hadd : ∀ a b c : Int, wrapInt (wrapInt (a + b) + c) = wrapInt (a + (b + c)) := fun a b c => by
        rw [Int.add_comm, wrapInt_add_wrapInt, Int.add_comm, Int.add_assoc]
      rw [hadd, hadd, length_cons, sum_cons, Int.natCast_succ, Int.add_comm 1, Bool.false_and, isEmpty_cons,
        Bool.and_false]

theorem noOverflow_iff : ∀ {tuples : List Tuple} {c s : Int} {isNull : Bool},
    NoOverflow (.avg pos .ints c s floatSum isNull) tuples ↔
      ∀ values, values <+: columnInts pos tuples → values ≠ [] → IsInt (c + values.length) ∧ IsInt (s + values.sum)
  | [], c, s, isNull => by simp [NoOverflow, columnInts, columnValues]
  | t :: tuples, c, s, isNull => by
    rw [NoOverflow, consume_avg, columnInts_cons]
    cases hnull : (t.at pos).isNull with
    | true =>
      rw [if_pos rfl, if_pos rfl, noOverflow_iff]
      exact and_iff_right fun h => nomatch h
    | false =>
      rw [if_neg Bool.false_ne_true, if_neg Bool.false_ne_true, forall_prop_of_true rfl]
      constructor
      · rintro ⟨⟨hcount, hsum⟩, hrest⟩ values hprefix hne
        rw [wrapInt_eq hcount.1 hcount.2, wrapInt_eq hsum.1 hsum.2, noOverflow_iff] at hrest
        obtain ⟨x, values, rfl⟩ := exists_cons_of_ne_nil hne
        obtain ⟨rfl, hrestPrefix⟩ := cons_prefix_cons.mp hprefix
        rw [length_cons, sum_cons, Int.natCast_succ, Int.add_comm _ 1, ← Int.add_assoc, ← Int.add_assoc]
        by_cases hnil : values = []
        · subst hnil
          simpa using ⟨hcount, hsum⟩
        · exact hrest values hrestPrefix hnil
      · intro hall
        have hone := hall [(t.at pos).getInt] (by simp) (cons_ne_nil _ _)
        rw [sum_singleton, length_singleton, Int.natCast_one] at hone
        obtain ⟨hcount, hsum⟩ := hone
        refine ⟨⟨hcount, hsum⟩, ?_⟩
        rw [wrapInt_eq hcount.1 hcount.2, wrapInt_eq hsum.1 hsum.2, noOverflow_iff]
        intro values hprefix _
        have hmore := hall ((t.at pos).getInt :: values) (cons_prefix_cons.mpr ⟨rfl, hprefix⟩) (cons_ne_nil _ _)
        rwa [length_cons, sum_cons, Int.natCast_succ, Int.add_comm _ 1, ← Int.add_assoc, ← Int.add_assoc] at hmore

/-- AVG over integers adds up exactly if and only if the sum of the integers that have come stays an `int` from the
    first to the last of them, and there are fewer than `2^31`. -/
theorem avgExact_iff (pos : Nat) (tuples : List Tuple) (floatSum : Single.Value) (isNull : Bool) :
    AvgExact (.avg pos .ints 0 0 floatSum isNull) pos tuples ↔
      (columnInts pos tuples).length < 2 ^ 31 ∧ ∀ values, values <+: columnInts pos tuples → IsInt values.sum := by
  have hzero : IsInt 0 := by decide
  constructor
  · rintro ⟨-, noOverflow, -⟩
    have hall := noOverflow_iff.mp noOverflow
    constructor
    · by_cases hnil : columnInts pos tuples = []
      · rw [hnil]
        decide
      · have hlength := (hall _ (prefix_refl _) hnil).1.2
        omega
    · intro values hprefix
      by_cases hnil : values = []
      · rw [hnil]
        exact hzero
      · simpa using (hall values hprefix hnil).2
  · rintro ⟨hlength, hsum⟩
    have hafter := @after_avg pos floatSum tuples 0 0 isNull hzero hzero
    rw [Int.zero_add, Int.zero_add, wrapInt_eq (by omega) (by omega), wrapInt_eq (hsum _ (prefix_refl _)).1
      (hsum _ (prefix_refl _)).2] at hafter
    refine ⟨⟨_, _, hafter⟩, noOverflow_iff.mpr fun values hprefix _ => ?_, ?_⟩
    · have hle := hprefix.length_le
      rw [Int.zero_add, Int.zero_add]
      exact ⟨⟨by omega, by omega⟩, hsum values hprefix⟩
    · rw [hafter, result]
      cases hvalues : columnInts pos tuples with
      | nil => simp
      | cons x values =>
        have hpos : (values.length : Int) + 1 ≠ 0 := by omega
        simp [hpos]

/-- The average of 2147483647 and 1 is negative. -/
theorem avg_of_large_values :
    (avg 0 .ints 0 0 (.finite 0) true).after [[.int 2147483647], [.int 1]] =
      .avg 0 .ints 2 (-2147483648) (.finite 0) false ∧
      ¬AvgExact (.avg 0 .ints 0 0 (.finite 0) true) 0 [[.int 2147483647], [.int 1]] := by
  have hafter : (avg 0 .ints 0 0 (.finite 0) true).after [[.int 2147483647], [.int 1]] =
      .avg 0 .ints 2 (-2147483648) (.finite 0) false := by decide
  refine ⟨hafter, fun exact => ?_⟩
  obtain ⟨floatSum, isNull, hsums⟩ := exact.sums
  rw [hafter] at hsums
  exact absurd (avg.inj hsums).2.2.2.1 (by decide)

end MiniOb
