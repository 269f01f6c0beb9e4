import Mathlib
import MiniOb.Lib.Cursor

/-! # Cursors over chunks

A cursor over a list of chunks that holds one chunk at a time and hands out its accepted items. A call looks at one more
chunk at most: a chunk without an accepted item ends it with a gap. -/

namespace PagedCursor
open List Cursor
variable {γ α : Type*}

/-- Where a cursor stands: the chunk it holds, what is left of it, and the chunks behind it. -/
structure Place (γ α : Type*) where
  held : Option γ
  todo : List α
  rest : List γ

inductive Found (α : Type*)
  | item (a : α)
  | gap
  | ended

section
variable (accept : α → Bool) (items : γ → List α)

def next (p : Place γ α) : Found α × Place γ α :=
  match p.todo.dropWhile (!accept ·) with
  | a :: todo => (.item a, { p with todo })
  | [] => match p.rest with
    | [] => (.ended, ⟨none, [], []⟩)
    | c :: rest => match (items c).dropWhile (!accept ·) with
      | a :: todo => (.item a, ⟨some c, todo, rest⟩)
      | [] => (.gap, ⟨some c, [], rest⟩)

def after (k : Nat) (p : Place γ α) : Place γ α := (fun p => (next accept items p).2)^[k] p

def step (p : Place γ α) : Except Bool (α × Place γ α) :=
  match next accept items p with
  | (.item a, p') => .ok (a, p')
  | (.gap, _) => .error false
  | (.ended, _) => .error true

def Yields (c : γ) : Prop := ∃ a ∈ items c, accept a = true

/-- The calls that are answered before the end: one for each accepted item, and one for a chunk without any. -/
def calls (p : Place γ α) : Nat :=
  (p.todo.filter accept).length + (p.rest.map fun c => max 1 ((items c).filter accept).length).sum

inductive Outcome (p : Place γ α) : Found α → Place γ α → Prop
  | here {a : α} {todo : List α} (item : p.todo.filter accept = a :: todo.filter accept) :
      Outcome p (.item a) { p with todo }
  | moved {c : γ} {rest : List γ} {a : α} {todo : List α} (done : p.todo.filter accept = [])
      (rest_eq : p.rest = c :: rest)
      (item : (items c).filter accept = a :: todo.filter accept) : Outcome p (.item a) ⟨some c, todo, rest⟩
  | gap {c : γ} {rest : List γ} (done : p.todo.filter accept = []) (rest_eq : p.rest = c :: rest)
      (none : (items c).filter accept = []) : Outcome p .gap ⟨some c, [], rest⟩
  | ended (done : p.todo.filter accept = []) (rest_eq : p.rest = []) : Outcome p .ended ⟨none, [], []⟩

end

variable {accept : α → Bool} {items : γ → List α}

theorem filter_of_dropWhile {l todo : List α} {a : α} (h : l.dropWhile (!accept ·) = a :: todo) :
    l.filter accept = a :: todo.filter accept := by
  induction l with
  | nil => cases h
  | cons b l ih =>
    rw [dropWhile_cons] at h
    cases hb : accept b with
    | false =>
      rw [hb, Bool.not_false, if_pos rfl] at h
      rw [filter_cons_of_neg (Bool.eq_false_iff.mp hb)]
      exact ih h
    | true =>
      rw [hb, Bool.not_true, if_neg Bool.false_ne_true] at h
      cases h
      exact filter_cons_of_pos hb

theorem filter_eq_nil_of_dropWhile {l : List α} (h : l.dropWhile (!accept ·) = []) : l.filter accept = [] := by
  simpa [dropWhile_eq_nil_iff] using h

theorem yields_iff {c : γ} : Yields accept items c ↔ (items c).filter accept ≠ [] := by
  simp [Yields, filter_eq_nil_iff]

theorem next_outcome (accept : α → Bool) (items : γ → List α) (p : Place γ α) :
    Outcome accept items p (next accept items p).1 (next accept items p).2 := by
  unfold next
  cases htodo : p.todo.dropWhile (!accept ·) with
  | cons a todo => exact .here (filter_of_dropWhile htodo)
  | nil =>
    have hdone := filter_eq_nil_of_dropWhile htodo
    cases hrest : p.rest with
    | nil => exact .ended hdone hrest
    | cons c rest =>
      dsimp only
      cases hc : (items c).dropWhile (!accept ·) with
      | cons a todo => exact .moved hdone hrest (filter_of_dropWhile hc)
      | nil => exact .gap hdone hrest (filter_eq_nil_of_dropWhile hc)

theorem step_ok {p p' : Place γ α} {a : α} (h : step accept items p = .ok (a, p')) :
    Outcome accept items p (.item a) p' := by
  have hout := next_outcome accept items p
  unfold step at h
  generalize next accept items p = r at h hout
  obtain ⟨found, p''⟩ := r
  cases found <;> cases h
  exact hout

theorem step_error {p : Place γ α} {e : Bool} (h : step accept items p = .error e) :
    ∃ p', Outcome accept items p (if e then .ended else .gap) p' := by
  have hout := next_outcome accept items p
  unfold step at h
  generalize next accept items p = r at h hout
  obtain ⟨found, p'⟩ := r
  cases found <;> cases h
  · exact ⟨p', hout⟩
  · exact ⟨p', hout⟩

theorem drain_step {n : Nat} {p : Place γ α} (yields : ∀ c ∈ p.rest, Yields accept items c)
    (hn : ((p.todo ++ p.rest.flatMap items).filter accept).length < n) :
    drain (step accept items) n p = some ((p.todo ++ p.rest.flatMap items).filter accept, true) := by
  refine drain_eq (r := fun p : Place γ α => (p.todo ++ p.rest.flatMap items).filter accept)
    (p := fun p : Place γ α => ∀ c ∈ p.rest, Yields accept items c) ?_ ?_ yields hn
  · intro p a p' yields hstep
    rw [filter_append, filter_append]
    cases step_ok hstep with
    | here item =>
      rw [item]
      exact ⟨yields, rfl⟩
    | moved done rest_eq item =>
      rw [rest_eq] at yields ⊢
      rw [done, flatMap_cons, filter_append, item]
      exact ⟨fun d hd => yields d (mem_cons_of_mem _ hd), rfl⟩
  · intro p e yields hstep
    obtain ⟨p', hout⟩ := step_error hstep
    rw [filter_append]
    cases e with
    | false =>
      cases hout with
      | gap done rest_eq none =>
        rw [rest_eq] at yields
        exact absurd none (yields_iff.mp (yields _ mem_cons_self))
    | true =>
      cases hout with
      | ended done rest_eq =>
        rw [done, rest_eq]
        exact ⟨rfl, rfl⟩

theorem drain_ne_of_gap {n : Nat} : ∀ {p : Place γ α} {c : γ} (l : List α), c ∈ p.rest → ¬Yields accept items c →
    drain (step accept items) n p ≠ some (l, true) := by
  induction n with
  | zero =>
    intro p c l _ _ h
    cases h
  | succ n ih =>
    intro p c l hc hgap h
    rw [drain] at h
    cases hstep : step accept items p with
    | error e =>
      rw [hstep] at h
      cases h
      obtain ⟨p', hout⟩ := step_error hstep
      cases hout with
      | ended done rest_eq =>
        rw [rest_eq] at hc
        cases hc
    | ok found =>
      obtain ⟨a, p'⟩ := found
      rw [hstep] at h
      obtain ⟨⟨l', e⟩, hr, hl⟩ := Option.map_eq_some_iff.mp h
      cases hl
      refine ih l' ?_ hgap hr
      cases step_ok hstep with
      | here item => exact hc
      | moved done rest_eq item =>
        -- The chunk that the call has gone on to has an accepted item, so it is another one.
        rw [rest_eq] at hc
        rcases mem_cons.mp hc with rfl | hc
        · refine absurd (yields_iff.mpr ?_) hgap
          rw [item]
          exact cons_ne_nil _ _
        · exact hc

theorem drain_front {n : Nat} {held : Option γ} {rest : List γ} (nonempty : ∀ c ∈ rest, items c ≠ [])
    (front : (rest.flatMap items).Pairwise fun a b => accept b = true → accept a = true)
    (hn : ((rest.flatMap items).filter accept).length < n) :
    ∃ e, drain (step accept items) n ⟨held, [], rest⟩ = some ((rest.flatMap items).filter accept, e) := by
  have yields : ∀ (p : Place γ α) a p', ((∀ c ∈ p.rest, items c ≠ []) ∧
        (p.rest.flatMap items).Pairwise fun a b => accept b = true → accept a = true) →
          step accept items p = .ok (a, p') →
      ((∀ c ∈ p'.rest, items c ≠ []) ∧ (p'.rest.flatMap items).Pairwise fun a b => accept b = true → accept a = true) ∧
        (p.todo ++ p.rest.flatMap items).filter accept = a :: (p'.todo ++ p'.rest.flatMap items).filter accept := by
    rintro p a p' ⟨nonempty, front⟩ hstep
    rw [filter_append, filter_append]
    cases step_ok hstep with
    | here item =>
      rw [item]
      exact ⟨⟨nonempty, front⟩, rfl⟩
    | moved done rest_eq item =>
      rw [rest_eq] at nonempty front ⊢
      rw [flatMap_cons] at front
      rw [done, flatMap_cons, filter_append, item]
      exact ⟨⟨fun d hd => nonempty d (mem_cons_of_mem _ hd), (pairwise_append.mp front).2.1⟩, rfl⟩
  have ends : ∀ (p : Place γ α) e, ((∀ c ∈ p.rest, items c ≠ []) ∧
        (p.rest.flatMap items).Pairwise fun a b => accept b = true → accept a = true) → step accept items p = .error e →
      (p.todo ++ p.rest.flatMap items).filter accept = [] ∧ True := by
    rintro p e ⟨nonempty, front⟩ hstep
    refine ⟨?_, trivial⟩
    obtain ⟨p', hout⟩ := step_error hstep
    rw [filter_append]
    cases e with
    | true => cases hout with
      | ended done rest_eq =>
        rw [done, rest_eq]
        rfl
    | false => cases hout with
      | @gap c rest done rest_eq none =>
        -- An item of the chunk is not accepted, so none behind it is.
        obtain ⟨a, ha⟩ := exists_mem_of_ne_nil _ (nonempty c (rest_eq ▸ mem_cons_self))
        rw [rest_eq, flatMap_cons] at front ⊢
        rw [done, filter_append, none, nil_append, nil_append]
        refine filter_eq_nil_iff.mpr fun b hb hbt => ?_
        exact filter_eq_nil_iff.mp none a ha ((pairwise_append.mp front).2.2 a ha b hb hbt)
  obtain ⟨e, -, hdrain⟩ := drain_all yields ends (s := ⟨held, [], rest⟩) ⟨nonempty, front⟩ hn
  exact ⟨e, hdrain⟩

theorem calls_next {p : Place γ α} (hcalls : calls accept items p ≠ 0) (hheld : p.todo ≠ [] → p.held.isSome) :
    calls accept items (next accept items p).2 + 1 = calls accept items p ∧ (next accept items p).2.held.isSome := by
  unfold calls at hcalls ⊢
  have hout := next_outcome accept items p
  generalize next accept items p = r at hout
  obtain ⟨found, p'⟩ := r
  cases hout with
  | here item =>
    have htodo : p.todo ≠ [] := by
      intro hnil
      rw [hnil] at item
      cases item
    refine ⟨?_, hheld htodo⟩
    simp only [item, length_cons]
    omega
  | moved done rest_eq item =>
    refine ⟨?_, rfl⟩
    simp only [done, rest_eq, item, map_cons, sum_cons, length_cons, length_nil]
    omega
  | gap done rest_eq none =>
    refine ⟨?_, rfl⟩
    simp only [done, rest_eq, none, map_cons, sum_cons, length_nil, filter_nil]
    omega
  | ended done rest_eq =>
    rw [done, rest_eq] at hcalls
    exact absurd rfl hcalls

theorem next_of_calls_eq_zero {p : Place γ α} (hcalls : calls accept items p = 0) :
    (next accept items p).2 = ⟨none, [], []⟩ := by
  unfold calls at hcalls
  have hout := next_outcome accept items p
  generalize next accept items p = r at hout
  obtain ⟨found, p'⟩ := r
  cases hout with
  | here item =>
    rw [item, length_cons] at hcalls
    omega
  | moved done rest_eq item =>
    rw [rest_eq, map_cons, sum_cons] at hcalls
    omega
  | gap done rest_eq none =>
    rw [rest_eq, map_cons, sum_cons] at hcalls
    omega
  | ended done rest_eq => rfl

/-- A cursor holds no chunk after `k` calls if and only if none was made or the last one was at the end. -/
theorem after_held_iff {k : Nat} : ∀ {p : Place γ α}, (p.todo ≠ [] → p.held.isSome) →
    ((after accept items k p).held = none ↔ if k = 0 then p.held = none else calls accept items p < k) := by
  induction k with
  | zero => exact fun _ => Iff.rfl
  | succ k ih =>
    intro p hheld
    rw [if_neg k.succ_ne_zero, after, Function.iterate_succ_apply]
    by_cases hcalls : calls accept items p = 0
    · rw [next_of_calls_eq_zero hcalls, hcalls]
      refine (ih fun h => absurd rfl h).trans (iff_of_true ?_ k.succ_pos)
      split
      · rfl
      · exact Nat.pos_of_ne_zero ‹_›
    · obtain ⟨hless, hsome⟩ := calls_next hcalls hheld
      refine (ih fun _ => hsome).trans ?_
      split
      case isTrue hk =>
        refine iff_of_false (Option.isSome_iff_ne_none.mp hsome) ?_
        omega
      case isFalse hk => omega

end PagedCursor
