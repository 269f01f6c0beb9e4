import Mathlib.Data.Multiset.Bind

/-! # Filtered products

The pairs of two collections that pass a test, as a multiset. -/

namespace MiniOb.Product
open Multiset
variable {α β γ κ : Type}

def pairs (f : α → β → γ) (as : Multiset α) (bs : Multiset β) : Multiset γ := as.bind fun a => bs.map (f a)

theorem mem_pairs {f : α → β → γ} {as : Multiset α} {bs : Multiset β} {c : γ} :
    c ∈ pairs f as bs ↔ ∃ a ∈ as, ∃ b ∈ bs, f a b = c := by
  unfold pairs
  rw [mem_bind]
  simp only [mem_map]

theorem pairs_coe (f : α → β → γ) (as : List α) (bs : List β) :
    pairs f (as : Multiset α) (bs : Multiset β) = ((as.flatMap fun a => bs.map (f a) : List γ) : Multiset γ) := by
  unfold pairs
  simp only [map_coe]
  exact coe_bind as fun a => bs.map (f a)

theorem pairs_comm (f : α → β → γ) (as : Multiset α) (bs : Multiset β) :
    pairs f as bs = pairs (fun b a => f a b) bs as :=
  bind_map_comm as bs

theorem filter_eq_filter_iff {s : Multiset α} {p q : α → Prop} [DecidablePred p] [DecidablePred q] :
    s.filter p = s.filter q ↔ ∀ a ∈ s, (p a ↔ q a) := by
  constructor
  · intro heq a ha
    have hmem : a ∈ s.filter p ↔ a ∈ s.filter q := by rw [heq]
    rw [mem_filter, mem_filter] at hmem
    exact ⟨fun h => (hmem.mp ⟨ha, h⟩).2, fun h => (hmem.mpr ⟨ha, h⟩).2⟩
  · exact filter_congr

theorem filter_pairs_filter {f : α → β → γ} {as : Multiset α} {bs : Multiset β} {p : γ → Prop} {q : α → Prop}
    [DecidablePred p] [DecidablePred q] (refuses : ∀ a ∈ as, ∀ b ∈ bs, p (f a b) → q a) :
    (pairs f (as.filter q) bs).filter p = (pairs f as bs).filter p := by
  unfold pairs
  induction as using Multiset.induction with
  | empty => rfl
  | cons a as ih =>
    have ih := ih fun a' ha' => refuses a' (mem_cons_of_mem ha')
    by_cases ha : q a
    · rw [filter_cons_of_pos _ ha, cons_bind, cons_bind, filter_add, filter_add, ih]
    · have none : (bs.map (f a)).filter p = 0 := by
        refine filter_eq_nil.mpr fun c hc hp => ?_
        obtain ⟨b, hb, rfl⟩ := mem_map.mp hc
        exact ha (refuses a (mem_cons_self a as) b hb hp)
      rw [filter_cons_of_neg _ ha, cons_bind, filter_add, none, zero_add, ih]

theorem map_filter_eq_iff {s : Multiset α} {f : α → γ} {p q : α → Prop} [DecidablePred p] [DecidablePred q] :
    (s.filter fun a => p a ∧ q a).map f = (s.filter p).map f ↔ ∀ a ∈ s, p a → q a := by
  constructor
  · intro heq a ha hp
    have hle : (s.filter fun a => p a ∧ q a) ≤ s.filter p := monotone_filter_right s fun _ h => h.1
    have hcard := congrArg card heq
    rw [card_map, card_map] at hcard
    have hmem : a ∈ s.filter fun a => p a ∧ q a := by
      rw [eq_of_le_of_card_le hle hcard.ge]
      exact mem_filter.mpr ⟨ha, hp⟩
    exact (mem_filter.mp hmem).2.2
  · intro implies
    rw [filter_congr fun a ha => and_iff_left_of_imp (implies a ha)]

theorem flatMap_ite (p : α → Bool) (g : α → γ) : ∀ as : List α,
    (as.flatMap fun a => if p a then [g a] else []) = (as.filter p).map g
  | [] => rfl
  | a :: as => by
    rw [List.flatMap_cons, flatMap_ite p g as, List.filter_cons]
    split
    · rfl
    · rfl

theorem loop_pairs (f : α → β → γ) (p : α × β → Bool) (as : List α) (bs : List β) :
    ((as.flatMap fun a => bs.flatMap fun b => if p (a, b) then [f a b] else [] : List γ) : Multiset γ) =
      ((pairs Prod.mk (as : Multiset α) (bs : Multiset β)).filter fun q => p q = true).map fun q => f q.1 q.2 := by
  simp only [flatMap_ite]
  rw [pairs_coe, filter_coe, map_coe, List.filter_flatMap, List.map_flatMap]
  simp only [List.filter_map, List.map_map, Bool.decide_eq_true]
  rfl

theorem loop_eq (f : α → β → γ) (p : γ → Bool) (as : List α) (bs : List β) :
    ((as.flatMap fun a => bs.flatMap fun b => if p (f a b) then [f a b] else [] : List γ) : Multiset γ) =
      (pairs f (as : Multiset α) (bs : Multiset β)).filter fun c => p c = true := by
  have hpairs : pairs f (as : Multiset α) (bs : Multiset β) =
      (pairs Prod.mk (as : Multiset α) (bs : Multiset β)).map fun q => f q.1 q.2 := by
    unfold pairs
    rw [map_bind]
    simp only [map_map, Function.comp_def]
  rw [hpairs, filter_map]
  exact loop_pairs f (fun q => p (f q.1 q.2)) as bs

/-- The loop over the second collection that looks up the elements of the first one with the same key, in any order,
    misses nothing of the nested loop if and only if all that passes the test has the same key. -/
theorem buckets_eq_loop_iff [DecidableEq κ] {f : α → β → γ} {p : γ → Bool} {as : List α} {bs : List β} {key : α → κ}
    {key' : β → κ} {bucket : β → List α}
    (found : ∀ b ∈ bs, (bucket b).Perm (as.filter fun a => decide (key a = key' b))) :
    ((bs.flatMap fun b => (bucket b).flatMap fun a => if p (f a b) then [f a b] else [] : List γ) : Multiset γ) =
        ((as.flatMap fun a => bs.flatMap fun b => if p (f a b) then [f a b] else [] : List γ) : Multiset γ) ↔
      ∀ a ∈ as, ∀ b ∈ bs, p (f a b) = true → key a = key' b := by
  have rows : (bs.flatMap fun b => (bucket b).flatMap fun a => if p (f a b) then [f a b] else []).Perm
      (bs.flatMap fun b => as.flatMap fun a => if p (f a b) && decide (key a = key' b) then [f a b] else []) := by
    refine List.Perm.flatMap_left bs fun b hb => ?_
    refine ((found b hb).flatMap_right _).trans (List.Perm.of_eq ?_)
    rw [flatMap_ite (fun a => p (f a b)) fun a => f a b, flatMap_ite (fun a => p (f a b) && decide (key a = key' b))
      fun a => f a b, List.filter_filter]
  -- Both loops are images of the pairs that pass: the test alone, and the test with equal keys.
  rw [coe_eq_coe.mpr rows, loop_pairs (fun b a => f a b) (fun q => p (f q.2 q.1) && decide (key q.2 = key' q.1)) bs as,
    loop_eq f p as bs, pairs_comm f, ← loop_eq (fun b a => f a b) p bs as,
    loop_pairs (fun b a => f a b) (fun q => p (f q.2 q.1)) bs as]
  simp only [Bool.and_eq_true, decide_eq_true_eq]
  rw [map_filter_eq_iff]
  constructor
  · intro same a ha b hb
    exact same (b, a) (mem_pairs.mpr ⟨b, hb, a, ha, rfl⟩)
  · intro same q hq hp
    obtain ⟨b, hb, a, ha, rfl⟩ := mem_pairs.mp hq
    exact same a ha b hb hp

end MiniOb.Product
