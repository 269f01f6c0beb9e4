import MiniOb.Query.Sort
import MiniOb.Theorems.HashJoin
import MiniOb.Theorems.Predicates

/-! # ORDER BY

With NULL on the left `compare` finds a tie, so that the next column decides. -/

namespace MiniOb
open Sorting List TupleValue

namespace TupleValue
variable {type : AttrType} {u v : TupleValue}

def place : TupleValue → WithTop (List Int)
  | null => ⊤
  | int n => ([n] : List Int)
  | date d => ([(d : Int)] : List Int)
  | string s => (s.map fun c => (c.toNat : Int) : List Int)
  | float _ => ([] : List Int)

theorem singleton_lt {n m : Int} : [n] < [m] ↔ n < m := by
  rw [cons_lt_cons_iff]
  simp

theorem place_lt_iff (hu : u.Fits type) (hv : v.Fits type) (nu : u.isNull = false) (nv : v.isNull = false) :
    u.place < v.place ↔ u.Less v := by
  rcases hu.cases hv nu nv with ⟨n, m, rfl, rfl, -, -⟩ | ⟨s, t, rfl, rfl, -, -⟩ | ⟨d, e, rfl, rfl, -, -⟩
  · rw [place, place, WithTop.coe_lt_coe, singleton_lt]
    rfl
  · rw [place, place, WithTop.coe_lt_coe]
    rfl
  · rw [place, place, WithTop.coe_lt_coe, singleton_lt, Int.ofNat_lt]
    rfl

theorem place_ne_top (nv : v.isNull = false) : v.place ≠ ⊤ := by
  cases v with
  | null => cases nv
  | int n => exact WithTop.coe_ne_top
  | float x => exact WithTop.coe_ne_top
  | string s => exact WithTop.coe_ne_top
  | date d => exact WithTop.coe_ne_top

theorem place_inj (hu : u.Fits type) (hv : v.Fits type) (h : u.place = v.place) : u = v := by
  cases nu : u.isNull with
  | true =>
    rw [eq_null_of_isNull nu] at h ⊢
    cases nv : v.isNull with
    | true => exact (eq_null_of_isNull nv).symm
    | false => exact absurd h.symm (place_ne_top nv)
  | false =>
    cases nv : v.isNull with
    | true =>
      rw [eq_null_of_isNull nv] at h
      exact absurd h (place_ne_top nu)
    | false =>
      rcases hu.cases hv nu nv with ⟨n, m, rfl, rfl, -, -⟩ | ⟨s, t, rfl, rfl, -, -⟩ | ⟨d, e, rfl, rfl, -, -⟩
      · simpa [place] using h
      · exact congrArg string (bytes_inj (WithTop.coe_inj.mp h))
      · exact congrArg date (Int.natCast_inj.mp (singleton_injective (WithTop.coe_inj.mp h)))

theorem strncmp_swap : ∀ (n : Nat) (s t : Bytes), strncmp t s n = -strncmp s t n
  | 0, _, _ => rfl
  | n + 1, s, t => by
    rw [strncmp, strncmp]
    by_cases same : s.headD 0 = t.headD 0
    · simp only [same, ne_eq, not_true_eq_false, if_false]
      split
      · rfl
      · exact strncmp_swap n s.tail t.tail
    · simp only [ne_eq, same, Ne.symm same, not_false_eq_true, if_true]
      omega

theorem strncmp_bounds : ∀ (n : Nat) (s t : Bytes), -255 ≤ strncmp s t n ∧ strncmp s t n ≤ 255
  | 0, _, _ => ⟨by rw [strncmp]; decide, by rw [strncmp]; decide⟩
  | n + 1, s, t => by
    have hs := (s.headD 0).toNat_lt
    have ht := (t.headD 0).toNat_lt
    rw [strncmp]
    split
    · omega
    · split
      · omega
      · exact strncmp_bounds n s.tail t.tail

theorem neg_compare (hu : u.Fits type) (hv : v.Fits type) (nu : u.isNull = false) (nv : v.isNull = false) :
    wrapInt (-u.compare v) = v.compare u := by
  rcases hu.cases hv nu nv with ⟨n, m, rfl, rfl, -, -⟩ | ⟨s, t, rfl, rfl, -, -⟩ | ⟨d, e, rfl, rfl, -, -⟩
  · simp only [compare, wrapInt]
    omega
  · have hbounds := strncmp_bounds (t.length + s.length + 1) t s
    rw [compare, compare, Nat.add_comm s.length, strncmp_swap, Int.neg_neg]
    exact wrapInt_eq (by omega) (by omega)
  · simp only [compare, wrapInt]
    omega

end TupleValue

def orderKeys (orders : List (Nat × Bool)) : List ((Tuple → WithTop (List Int)) × Bool) :=
  orders.map fun o => ((fun t => (t.at o.1).place), o.2)

def OrderTyped (orders : List (Nat × Bool)) (tuples : List Tuple) : Prop :=
  ∀ o ∈ orders, ∃ type : AttrType, ∀ t ∈ tuples, Fits type (t.at o.1)

/-- The comparison of two rows is right. In the first column in which they differ the difference must not wrap; a NULL
    in the first row must stay behind the other row, or come before it in a descending column, whatever the further
    columns say. -/
def OrderedRight : List (Nat × Bool) → Tuple → Tuple → Prop
  | [], _, _ => True
  | (index, descending) :: orders, t1, t2 =>
    let u := t1.at index
    let v := t2.at index
    if u = v then OrderedRight orders t1 t2
    else if u.isNull then lessBy orders t1 t2 = descending
    else if v.isNull then True
    else if descending then v.Near u
    else u.Near v

instance : DecidableRel Near
  | .int a, .int b => inferInstanceAs (Decidable (-2 ^ 31 ≤ a - b ∧ a - b < 2 ^ 31))
  | .date a, .date b => inferInstanceAs (Decidable (-2 ^ 31 ≤ (a : Int) - b ∧ (a : Int) - b < 2 ^ 31))
  | .int _, .null | .int _, .float _ | .int _, .string _ | .int _, .date _ => .isTrue trivial
  | .date _, .null | .date _, .float _ | .date _, .string _ | .date _, .int _ => .isTrue trivial
  | .null, _ | .float _, _ | .string _, _ => .isTrue trivial

instance : ∀ orders t1 t2, Decidable (OrderedRight orders t1 t2)
  | [], _, _ => .isTrue trivial
  | (index, descending) :: orders, t1, t2 =>
    have := instDecidableOrderedRight orders t1 t2
    inferInstanceAs (Decidable (if t1.at index = t2.at index then OrderedRight orders t1 t2
      else if (t1.at index).isNull then lessBy orders t1 t2 = descending
      else if (t2.at index).isNull then True
      else if descending then (t2.at index).Near (t1.at index)
      else (t1.at index).Near (t2.at index)))

section Rows
variable {orders : List (Nat × Bool)} {t1 t2 : Tuple} {tuples : List Tuple} {descending : Bool} {type : AttrType}
  {u v : TupleValue}

def columnOrder (descending : Bool) (u v : TupleValue) : Int :=
  if descending then wrapInt (-u.compare v) else u.compare v

theorem lessBy_tie {index : Nat} (tie : columnOrder descending (t1.at index) (t2.at index) = 0) :
    lessBy ((index, descending) :: orders) t1 t2 = lessBy orders t1 t2 := by
  rw [columnOrder] at tie
  simp [lessBy, tie]

theorem lessBy_decided {index : Nat} (decided : columnOrder descending (t1.at index) (t2.at index) ≠ 0) :
    lessBy ((index, descending) :: orders) t1 t2 = true ↔ columnOrder descending (t1.at index) (t2.at index) < 0 := by
  rw [columnOrder] at decided ⊢
  rw [lessBy]
  rcases lt_or_gt_of_ne decided with hlt | hgt
  · simp [hlt]
  · simp [hgt, hgt.not_gt]

section
variable (hu : u.Fits type) (hv : v.Fits type) (nu : u.isNull = false) (nv : v.isNull = false) (hne : u ≠ v)
include hu hv nu nv hne

theorem compare_neg_iff : (u.compare v < 0 ↔ u.place < v.place) ↔ u.Near v := by
  rw [place_lt_iff hu hv nu nv]
  refine ⟨fun h => ?_, fun near => (compare_sign hu hv nu nv near).1⟩
  by_contra far
  rw [(compare_far hu hv nu nv far).1, ← place_lt_iff hu hv nu nv, ← place_lt_iff hv hu nv nu] at h
  rcases lt_or_gt_of_ne fun hplace => hne (place_inj hu hv hplace) with hlt | hgt
  · exact lt_asymm hlt (h.mpr hlt)
  · exact lt_asymm hgt (h.mp hgt)

theorem before_iff_near :
    (columnOrder descending u v < 0 ↔ Before descending u.place v.place) ↔
      if descending then v.Near u else u.Near v := by
  cases descending with
  | false => exact compare_neg_iff hu hv nu nv hne
  | true =>
    rw [columnOrder, if_pos rfl, neg_compare hu hv nu nv, if_pos rfl]
    exact compare_neg_iff hv hu nv nu hne.symm

theorem column_ne_zero :
    columnOrder descending u v ≠ 0 := by
  cases descending with
  | false => exact fun h => hne ((compare_eq_zero hu hv nu nv).mp h)
  | true =>
    rw [columnOrder, if_pos rfl, neg_compare hu hv nu nv]
    exact fun h => hne ((compare_eq_zero hv hu nv nu).mp h).symm

end

theorem compare_self (hv : v.Fits type) : v.compare v = 0 := by
  cases nv : v.isNull with
  | true =>
    rw [eq_null_of_isNull nv]
    rfl
  | false => exact (compare_eq_zero hv hv nv nv).mpr rfl

theorem columnOrder_same (hv : v.Fits type) (same : u = v) : columnOrder descending u v = 0 := by
  rw [columnOrder, same, compare_self hv]
  cases descending <;> rfl

theorem columnOrder_null (descending : Bool) (nv : v.isNull = false) :
    columnOrder descending .null v = 0 ∧ columnOrder descending v .null = (if descending then 1 else -1) := by
  cases v with
  | null => cases nv
  | int n => cases descending <;> exact ⟨rfl, rfl⟩
  | float x => cases descending <;> exact ⟨rfl, rfl⟩
  | string s => cases descending <;> exact ⟨rfl, rfl⟩
  | date d => cases descending <;> exact ⟨rfl, rfl⟩

theorem before_null (nv : v.isNull = false) :
    (Before descending null.place v.place ↔ descending = true) ∧
      (Before descending v.place null.place ↔ descending = false) := by
  have htop : v.place < ⊤ := lt_top_iff_ne_top.mpr (place_ne_top nv)
  cases descending with
  | false => exact ⟨iff_of_false not_top_lt Bool.false_ne_true, iff_of_true htop rfl⟩
  | true => exact ⟨iff_of_true htop rfl, iff_of_false not_top_lt Bool.noConfusion⟩

theorem lessBy_iff : ∀ {orders : List (Nat × Bool)}, OrderTyped orders [t1, t2] →
    ((lessBy orders t1 t2 = true ↔ Lexicographic (orderKeys orders) t1 t2) ↔ OrderedRight orders t1 t2)
  | [], _ => by simp [lessBy, Lexicographic, orderKeys, OrderedRight]
  | (index, descending) :: orders, typed => by
    obtain ⟨type, fits⟩ := typed _ mem_cons_self
    have hu : (t1.at index).Fits type := fits t1 (by simp)
    have hv : (t2.at index).Fits type := fits t2 (by simp)
    have ih : (lessBy orders t1 t2 = true ↔ Lexicographic (orderKeys orders) t1 t2) ↔ OrderedRight orders t1 t2 :=
      lessBy_iff fun o ho => typed o (mem_cons_of_mem _ ho)
    have hlex : Lexicographic (orderKeys ((index, descending) :: orders)) t1 t2 ↔
        Before descending (t1.at index).place (t2.at index).place ∨
          (t1.at index).place = (t2.at index).place ∧ Lexicographic (orderKeys orders) t1 t2 := Iff.rfl
    rw [hlex, OrderedRight]
    by_cases hne : t1.at index = t2.at index
    · have hbefore : ¬Before descending (t1.at index).place (t2.at index).place := fun h => h.ne (congrArg _ hne)
      rw [lessBy_tie (columnOrder_same hv hne), if_pos hne, ← ih, or_iff_right hbefore,
        and_iff_right (congrArg place hne)]
    · have hplace : (t1.at index).place ≠ (t2.at index).place := fun h => hne (place_inj hu hv h)
      simp only [hplace, false_and, or_false, if_neg hne]
      cases nu : (t1.at index).isNull with
      | true =>
        have hnull := eq_null_of_isNull nu
        have nv : (t2.at index).isNull = false := by
          refine Bool.eq_false_iff.mpr fun h => hne (hnull.trans (eq_null_of_isNull h).symm)
        rw [lessBy_tie (by rw [hnull]; exact (columnOrder_null descending nv).1), hnull, (before_null nv).1, if_pos rfl]
        exact Bool.eq_iff_iff.symm
      | false =>
        rw [if_neg Bool.false_ne_true]
        cases nv : (t2.at index).isNull with
        | true =>
          have hnull := eq_null_of_isNull nv
          have horder := (columnOrder_null descending nu).2
          have hdecided : columnOrder descending (t1.at index) (t2.at index) ≠ 0 := by
            rw [hnull, horder]
            cases descending <;> decide
          rw [lessBy_decided hdecided, hnull, horder, (before_null nu).2, if_pos rfl]
          cases descending <;> decide
        | false =>
          rw [lessBy_decided (column_ne_zero hu hv nu nv hne), before_iff_near hu hv nu nv hne,
            if_neg Bool.false_ne_true]

theorem lessBy_of_tie : ∀ {orders : List (Nat × Bool)}, OrderTyped orders [t1, t2] →
    ¬Lexicographic (orderKeys orders) t1 t2 → ¬Lexicographic (orderKeys orders) t2 t1 → lessBy orders t1 t2 = false
  | [], _, _, _ => rfl
  | (index, descending) :: orders, typed, hlt, hgt => by
    obtain ⟨type, fits⟩ := typed _ mem_cons_self
    have hu : (t1.at index).Fits type := fits t1 (by simp)
    have hv : (t2.at index).Fits type := fits t2 (by simp)
    have hplace : (t1.at index).place = (t2.at index).place := by
      by_contra hne
      have hbefore : Before descending (t1.at index).place (t2.at index).place ∨ _ := before_or_before hne
      exact hbefore.elim (fun h => hlt (.inl h)) fun h => hgt (.inl h)
    rw [lessBy_tie (columnOrder_same hv (place_inj hu hv hplace))]
    exact lessBy_of_tie (fun o ho => typed o (mem_cons_of_mem _ ho)) (fun h => hlt (.inr ⟨hplace, h⟩))
      fun h => hgt (.inr ⟨hplace.symm, h⟩)

end Rows

/-- The comparison is a strict weak order, and whatever a correct sort leaves is in the order of the columns. -/
def TupleSet.SortsRight (set : TupleSet) (orders : List Order) : Prop :=
  StrictWeakOn (fun t1 t2 => lessBy (set.schema.orderIndexes orders) t1 t2 = true) set.tuples ∧
    ∀ result, set.SortByOrders orders result → result.Perm set.tuples ∧
      result.IsChain fun t1 t2 => ¬Lexicographic (orderKeys (set.schema.orderIndexes orders)) t2 t1

def TupleSet.Orderable (set : TupleSet) (orders : List Order) : Prop :=
  ∀ o ∈ orders, ∃ i f, set.schema.orderIndex o.attr = some i ∧ set.schema[i]? = some f ∧ f.type.Exact

theorem TupleSet.Orderable.typed {set : TupleSet} {orders : List Order} (h : set.Orderable orders)
    (rows : ∀ t ∈ set.tuples, RowOf set.schema t) : OrderTyped (set.schema.orderIndexes orders) set.tuples := by
  intro o ho
  obtain ⟨order, hmem, rfl⟩ := mem_map.mp ho
  obtain ⟨i, f, hi, hf, hexact⟩ := h order hmem
  refine ⟨f.type, fun t ht => ?_⟩
  rw [hi]
  obtain ⟨hlt, hget⟩ := List.getElem?_eq_some_iff.mp hf
  have hlt' : i < t.length := (rows t ht).length_eq ▸ hlt
  have hfits := List.Forall₂.get (rows t ht) hlt hlt'
  rw [get_eq_getElem, hget] at hfits
  rw [Option.getD_some, Tuple.at, getD_eq_getElem _ _ hlt']
  exact hfits hexact

/-- ORDER BY sorts exactly if the comparison of every two rows is right. -/
theorem sortsRight_iff (set : TupleSet) (orders : List Order) (orderable : set.Orderable orders)
    (rows : ∀ t ∈ set.tuples, RowOf set.schema t) :
    set.SortsRight orders ↔ ∀ t1 ∈ set.tuples, ∀ t2 ∈ set.tuples,
      OrderedRight (set.schema.orderIndexes orders) t1 t2 := by
  have typed := orderable.typed rows
  have pair : ∀ t1 ∈ set.tuples, ∀ t2 ∈ set.tuples, OrderTyped (set.schema.orderIndexes orders) [t1, t2] := by
    intro t1 h1 t2 h2 o ho
    obtain ⟨type, fits⟩ := typed o ho
    refine ⟨type, fun t ht => ?_⟩
    rcases mem_pair.mp ht with rfl | rfl
    · exact fits t h1
    · exact fits t h2
  have hagree : (∀ t1 ∈ set.tuples, ∀ t2 ∈ set.tuples, (lessBy (set.schema.orderIndexes orders) t1 t2 = true ↔
      Lexicographic (orderKeys (set.schema.orderIndexes orders)) t1 t2)) ↔
        ∀ t1 ∈ set.tuples, ∀ t2 ∈ set.tuples, OrderedRight (set.schema.orderIndexes orders) t1 t2 :=
    forall₂_congr fun t1 h1 => forall₂_congr fun t2 h2 => lessBy_iff (pair t1 h1 t2 h2)
  rw [← hagree, ← sorts_by_iff (lexicographic_strictWeakOn _) fun t1 h1 t2 h2 hlt hgt =>
    Bool.eq_false_iff.mp (lessBy_of_tie (pair t1 h1 t2 h2) hlt hgt)]
  refine and_congr_right fun _ => forall_congr' fun result => ?_
  unfold TupleSet.SortByOrders
  split
  · rename_i hnone
    subst hnone
    have hnever : ∀ l : List Tuple, l.IsChain fun t1 t2 =>
      ¬Lexicographic (orderKeys (set.schema.orderIndexes [])) t2 t1 :=
      fun l => (pairwise_of_forall fun _ _ => id).isChain
    exact iff_of_true (fun h => ⟨.of_eq h, hnever result⟩) fun _ => hnever result
  · exact ⟨fun h hresult => (h hresult).2, fun h hresult => ⟨hresult.perm, h hresult⟩⟩

def twoColumnSet (rows : List (TupleValue × TupleValue)) : TupleSet :=
  ⟨[⟨.ints, ⟨[116], [120]⟩⟩, ⟨.ints, ⟨[116], [121]⟩⟩], rows.map fun r => [r.1, r.2]⟩

def byXThenY : List Order := [⟨false, ⟨none, [120]⟩⟩, ⟨false, ⟨none, [121]⟩⟩]

theorem twoColumnSet_orderable (rows : List (TupleValue × TupleValue)) : (twoColumnSet rows).Orderable byXThenY := by
  intro o ho
  rcases mem_pair.mp ho with rfl | rfl
  · exact ⟨0, _, rfl, rfl, .inl rfl⟩
  · exact ⟨1, _, rfl, rfl, .inl rfl⟩

theorem twoColumnSet_rows {rows : List (TupleValue × TupleValue)} (fits : ∀ r ∈ rows, r.1.Fits .ints ∧ r.2.Fits .ints) :
    ∀ t ∈ (twoColumnSet rows).tuples, RowOf (twoColumnSet rows).schema t := by
  intro t ht
  obtain ⟨r, hr, rfl⟩ := mem_map.mp ht
  exact .cons (fun _ => (fits r hr).1) (.cons (fun _ => (fits r hr).2) .nil)

theorem null_last_sortsRight : (twoColumnSet [(.int 5, .int 2), (.int 5, .null)]).SortsRight byXThenY := by
  refine (sortsRight_iff _ _ (twoColumnSet_orderable _) (twoColumnSet_rows ?_)).mpr ?_
  · intro r hr
    rcases mem_pair.mp hr with rfl | rfl
    · exact ⟨⟨rfl, by decide⟩, rfl, by decide⟩
    · exact ⟨⟨rfl, by decide⟩, trivial⟩
  · decide

/-- The row of NULL and 1 comes before the row of 5 and 2, and that one before it; in a descending column NULL ties with
    1 and with 2; and the greatest integer comes before the least. -/
theorem null_on_both_sides :
    let rows := twoColumnSet [(.null, .int 1), (.int 5, .int 2)]
    lessBy (rows.schema.orderIndexes byXThenY) [.null, .int 1] [.int 5, .int 2] = true ∧
      lessBy (rows.schema.orderIndexes byXThenY) [.int 5, .int 2] [.null, .int 1] = true ∧ ¬rows.SortsRight byXThenY ∧
      lessBy [(0, true)] [.null] [.int 1] = false ∧ lessBy [(0, true)] [.int 1] [.null] = false ∧
      lessBy [(0, true)] [.null] [.int 2] = false ∧ lessBy [(0, true)] [.int 2] [.null] = false ∧
      lessBy [(0, false)] [.int 2147483647] [.int (-2147483648)] = true := by
  refine ⟨by decide, by decide, fun h => ?_, by decide⟩
  exact h.1.asymm [.null, .int 1] (by simp [twoColumnSet]) [.int 5, .int 2] (by simp [twoColumnSet])
    (by decide) (by decide)

end MiniOb
