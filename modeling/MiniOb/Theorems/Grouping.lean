import MiniOb.Lib.Checks
import MiniOb.Query.Aggregation
import MiniOb.Theorems.InFilter

/-! # GROUP BY

One output tuple comes from each group, and the aggregators that all groups share carry nothing from one group to the
next. -/

namespace MiniOb
open Buckets List AggregatorManager Aggregator

namespace Aggregator

def fresh : Aggregator → Aggregator
  | count _ => count 0
  | const constVal => const constVal
  | max pos _ => max pos none
  | min pos _ => min pos none
  | avg pos attrType _ _ _ _ => avg pos attrType 0 0 (.finite 0) true

/-- Two aggregators that only differ in a flag for NULL that no result shows: nothing has been counted. -/
def Alike : Aggregator → Aggregator → Prop
  | avg pos attrType cnt intSum floatSum isNull, avg pos' attrType' cnt' intSum' floatSum' isNull' =>
    pos = pos' ∧ attrType = attrType' ∧ cnt = cnt' ∧ intSum = intSum' ∧ floatSum = floatSum' ∧
      (cnt = 0 ∨ isNull = isNull')
  | a, b => a = b

theorem Alike.result {a b : Aggregator} (h : Alike a b) : a.result = b.result := by
  cases a with
  | avg pos attrType cnt intSum floatSum isNull =>
    cases b with
    | avg pos' attrType' cnt' intSum' floatSum' isNull' =>
      obtain ⟨rfl, rfl, rfl, rfl, rfl, hzero | rfl⟩ := h
      · simp [Aggregator.result, hzero]
      · rfl
    | _ => cases h
  | _ => exact congrArg Aggregator.result h

theorem Alike.refl (a : Aggregator) : Alike a a := by
  cases a with
  | avg pos attrType cnt intSum floatSum isNull => exact ⟨rfl, rfl, rfl, rfl, rfl, .inr rfl⟩
  | _ => exact rfl

theorem Alike.consume {a b : Aggregator} (h : Alike a b) (tuple : Tuple) :
    Alike (a.consume tuple) (b.consume tuple) := by
  cases a with
  | avg pos attrType cnt intSum floatSum isNull =>
    cases b with
    | avg pos' attrType' cnt' intSum' floatSum' isNull' =>
      obtain ⟨rfl, rfl, rfl, rfl, rfl, hflag⟩ := h
      rw [Aggregator.consume, Aggregator.consume]
      cases hnull : (tuple.at pos).isNull with
      | true => exact ⟨rfl, rfl, rfl, rfl, rfl, hflag⟩
      | false =>
        rw [if_neg Bool.false_ne_true, if_neg Bool.false_ne_true]
        split
        · exact ⟨rfl, rfl, rfl, rfl, rfl, .inr rfl⟩
        · exact ⟨rfl, rfl, rfl, rfl, rfl, .inr rfl⟩
    | _ => cases h
  | _ =>
    obtain rfl := h
    exact .refl _

theorem alike_reset (a : Aggregator) : Alike a.reset a.fresh := by
  cases a with
  | avg pos attrType cnt intSum floatSum isNull => exact ⟨rfl, rfl, rfl, rfl, rfl, .inl rfl⟩
  | _ => exact rfl

theorem fresh_reset (a : Aggregator) : a.reset.fresh = a.fresh := by
  cases a <;> rfl

theorem fresh_consume (a : Aggregator) (tuple : Tuple) : (a.consume tuple).fresh = a.fresh := by
  cases a with
  | count cnt =>
    rw [consume]
    split <;> rfl
  | const constVal => rfl
  | max pos m =>
    unfold consume
    dsimp only
    split
    · rfl
    · cases m with
      | none => rfl
      | some v =>
        dsimp only
        split <;> rfl
  | min pos m =>
    unfold consume
    dsimp only
    split
    · rfl
    · cases m with
      | none => rfl
      | some v =>
        dsimp only
        split <;> rfl
  | avg pos attrType cnt intSum floatSum isNull =>
    rw [consume]
    split
    · rfl
    · split <;> rfl

theorem fresh_createFrom {schema : TupleSchema} {desc : AggDesc} {a : Aggregator}
    (created : createFrom schema desc = some a) : a.fresh = a := by
  have hfield : ∀ aggType attr, fieldAggregator schema aggType attr = some a → a.fresh = a := by
    intro aggType attr h
    obtain ⟨pos, -, rfl⟩ := Option.map_eq_some_iff.mp h
    cases aggType <;> rfl
  obtain ⟨aggType, operand⟩ := desc
  cases operand with
  | number n =>
    cases aggType <;>
    · cases created
      rfl
  | field attr =>
    cases aggType with
    | count =>
      cases created
      rfl
    | max => exact hfield .max attr created
    | min => exact hfield .min attr created
    | avg => exact hfield .avg attr created
  | star =>
    cases aggType with
    | count =>
      cases created
      rfl
    | max => exact hfield .max _ created
    | min => exact hfield .min _ created
    | avg => exact hfield .avg _ created

end Aggregator

namespace AggregatorManager

def Of (aggregators state : List Aggregator) : Prop := state.map fresh = aggregators

variable {aggregators state : List Aggregator}

theorem of_create {schema : TupleSchema} {aggs : List AggDesc} (created : create schema aggs = some aggregators) :
    Of aggregators aggregators := by
  have hfresh : List.Forall₂ (fun a b => a.fresh = b) aggregators aggregators :=
    forall₂_same.mpr fun a ha => by
      obtain ⟨desc, -, hdesc⟩ := Checks.exists_right (Checks.mapM_eq_some.mp created).flip ha
      exact fresh_createFrom hdesc
  rwa [← forall₂_map_left_iff, forall₂_eq_eq_eq] at hfresh

def afterGroup (state : List Aggregator) (group : List Tuple) : List Aggregator := consume (reset state) group

theorem of_consume : ∀ {group : List Tuple} {state : List Aggregator}, Of aggregators state →
    Of aggregators (consume state group)
  | [], _, h => h
  | tuple :: group, state, h => by
    refine @of_consume group (state.map (Aggregator.consume tuple)) ?_
    rw [Of, map_map]
    refine Eq.trans (map_congr_left fun a _ => ?_) h
    exact a.fresh_consume tuple

theorem of_reset (h : Of aggregators state) : Of aggregators (reset state) := by
  rw [Of, reset, map_map]
  exact Eq.trans (map_congr_left fun a _ => a.fresh_reset) h

theorem of_afterGroup (h : Of aggregators state) (group : List Tuple) : Of aggregators (afterGroup state group) :=
  of_consume (of_reset h)

theorem alike_consume : ∀ {group : List Tuple} {as bs : List Aggregator}, List.Forall₂ Alike as bs →
    List.Forall₂ Alike (consume as group) (consume bs group)
  | [], _, _, h => h
  | tuple :: group, as, bs, h => by
    refine @alike_consume group _ _ ?_
    exact forall₂_map_left_iff.mpr (forall₂_map_right_iff.mpr (h.imp fun _ _ hab => hab.consume tuple))

theorem results_afterGroup (h : Of aggregators state) (group : List Tuple) :
    results (afterGroup state group) = results (consume aggregators group) := by
  have hreset : List.Forall₂ Alike (reset state) aggregators := by
    rw [← h]
    exact forall₂_map_left_iff.mpr (forall₂_map_right_iff.mpr (forall₂_same.mpr fun a _ => a.alike_reset))
  have hresults : List.Forall₂ Eq (results (afterGroup state group)) (results (consume aggregators group)) :=
    forall₂_map_left_iff.mpr (forall₂_map_right_iff.mpr ((alike_consume hreset).imp fun _ _ h => h.result))
  rwa [forall₂_eq_eq_eq] at hresults

end AggregatorManager

namespace Grouper
variable {iteration : Iteration}

/-- The groups below a map with their keys, in the order in which `do_aggregation_helper` visits them. -/
def visited (iteration : Iteration) : (n : Nat) → GroupMap n → Tuple → List (Tuple × List Tuple)
  | 0, group, keys => [(keys, group)]
  | n + 1, map, keys => (iteration.arrange keys (GroupMap n) map).flatMap fun entry => visited iteration n entry.2
      (keys ++ [entry.1])

def outputOf (aggregators : List Aggregator) (leaf : Tuple × List Tuple) : Tuple :=
  leaf.1 ++ results (consume aggregators leaf.2)

theorem doAggregationHelper_eq {aggregators : List Aggregator} :
    ∀ (n : Nat) (map : GroupMap n) (keys : Tuple) {state : List Aggregator},
    Of aggregators state → Of aggregators (doAggregationHelper iteration n map keys state).1 ∧
        (doAggregationHelper iteration n map keys state).2 = (visited iteration n map keys).map (outputOf aggregators)
  | 0, group, keys, state, h => by
    exact ⟨of_afterGroup h group,
      congrArg (fun values => [keys ++ values]) (results_afterGroup h group)⟩
  | n + 1, map, keys, state, h => by
    -- The loop over the entries carries the aggregators and what has been put out so far.
    have hloop : ∀ (entries : List (TupleValue × GroupMap n)) (state : List Aggregator) (out : List Tuple),
        Of aggregators state →
        let r := entries.foldl (fun p (entry : TupleValue × GroupMap n) =>
          let r := doAggregationHelper iteration n entry.2 (keys ++ [entry.1]) p.1
          (r.1, p.2 ++ r.2)) (state, out)
        Of aggregators r.1 ∧ r.2 = out ++
          (entries.flatMap fun entry => visited iteration n entry.2 (keys ++ [entry.1])).map
              (outputOf aggregators) := by
      intro entries
      induction entries with
      | nil =>
        intro state out h
        exact ⟨h, (append_nil out).symm⟩
      | cons entry entries ih =>
        intro state out h
        obtain ⟨hof, hout⟩ := doAggregationHelper_eq n entry.2 (keys ++ [entry.1]) h
        obtain ⟨hof', hout'⟩ := ih _ (out ++ (doAggregationHelper iteration n entry.2 (keys ++ [entry.1]) state).2) hof
        refine ⟨hof', hout'.trans ?_⟩
        rw [hout, flatMap_cons, map_append, append_assoc]
    exact hloop _ state [] h

/-- Whatever groups the aggregators have worked on before, each group is given the values that aggregators just created
    compute on it alone. -/
theorem groups_independent (schema : TupleSchema) (aggs : List AggDesc) (aggregators : List Aggregator)
    (created : AggregatorManager.create schema aggs = some aggregators) (before : List (List Tuple))
    (iteration : Iteration) (n : Nat) (map : GroupMap n) (keys : Tuple) :
    (doAggregationHelper iteration n map keys (before.foldl afterGroup aggregators)).2 =
      (visited iteration n map keys).map fun leaf => leaf.1 ++ results (consume aggregators leaf.2) := by
  have hbefore : Of aggregators (before.foldl afterGroup aggregators) := by
    have hrun : ∀ (groups : List (List Tuple)) (state : List Aggregator), Of aggregators state →
        Of aggregators (groups.foldl afterGroup state) := by
      intro groups
      induction groups with
      | nil => exact fun state h => h
      | cons group groups ih => exact fun state h => ih _ (of_afterGroup h group)
    exact hrun before aggregators (of_create created)
  exact (doAggregationHelper_eq n map keys hbefore).2

def inOrder : Iteration where
  arrange _ _ entries := entries
  perm _ _ _ := .refl _

theorem avg_after_numbers :
    (doAggregationHelper inOrder 0 [[.null]] [.int 2]
        ([[[.int 5], [.int 7]]].foldl afterGroup [.avg 0 .ints 0 0 (.finite 0) true])).2 = [[.int 2, .null]] :=
  groups_independent [⟨.ints, ⟨[116], [97]⟩⟩] [⟨.avg, .field ⟨none, [97]⟩⟩] _ rfl [[[.int 5], [.int 7]]] _ 0
    [[.null]] [.int 2]

end Grouper

end MiniOb
