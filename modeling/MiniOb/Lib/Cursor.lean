import Mathlib.Data.List.Sort

/-! # Cursors

A cursor hands out one item after the other until it ends with a code. -/

namespace Cursor
variable {σ α ε : Type*}

/-- The items that repeated calls hand out, and the code of the call that ends them; `none` is running out of fuel. -/
def drain (next : σ → Except ε (α × σ)) : Nat → σ → Option (List α × ε)
  | 0, _ => none
  | n + 1, s => match next s with
    | .error e => some ([], e)
    | .ok (a, s') => (drain next n s').map fun r => (a :: r.1, r.2)

/-- A cursor that hands out the first item of what remains, `r`, and ends, with a code that `q` allows, when nothing
    remains. -/
theorem drain_all {next : σ → Except ε (α × σ)} {r : σ → List α} {q : ε → Prop} {p : σ → Prop}
    (yields : ∀ s a s', p s → next s = .ok (a, s') → p s' ∧ r s = a :: r s')
    (ends : ∀ s e, p s → next s = .error e → r s = [] ∧ q e) {n : Nat} :
    ∀ {s : σ}, p s → (r s).length < n → ∃ e, q e ∧ drain next n s = some (r s, e) := by
  induction n with
  | zero =>
    intro s _ hn
    exact absurd hn (Nat.not_lt_zero _)
  | succ n ih =>
    intro s hs hn
    rw [drain]
    cases hnext : next s with
    | error e =>
      obtain ⟨hrest, he⟩ := ends s e hs hnext
      exact ⟨e, he, by rw [hrest]⟩
    | ok found =>
      obtain ⟨a, s'⟩ := found
      obtain ⟨hs', hrest⟩ := yields s a s' hs hnext
      rw [hrest] at hn ⊢
      obtain ⟨e, he, hdrain⟩ := ih hs' (Nat.lt_of_succ_lt_succ hn)
      refine ⟨e, he, ?_⟩
      dsimp only
      rw [hdrain]
      rfl

theorem drain_eq {next : σ → Except ε (α × σ)} {r : σ → List α} {code : ε} {p : σ → Prop}
    (yields : ∀ s a s', p s → next s = .ok (a, s') → p s' ∧ r s = a :: r s')
    (ends : ∀ s e, p s → next s = .error e → r s = [] ∧ e = code) {n : Nat} {s : σ} (hs : p s) (hn : (r s).length < n) :
    drain next n s = some (r s, code) := by
  obtain ⟨_, rfl, hdrain⟩ := drain_all yields ends hs hn
  exact hdrain

theorem filter_behind {r : α → α → Prop} [DecidableRel r] [Std.Antisymm r] [Std.Irrefl r] [IsTrans α r] {l : List α}
    (sorted : l.Pairwise r) {a b : α} (hb : b ∈ l) (hab : r a b) (least : ∀ c ∈ l, r a c → c = b ∨ r b c) :
    l.filter (r a ·) = b :: l.filter (r b ·) := by
  refine List.Pairwise.eq_of_mem_iff (r := r) (sorted.filter _) (List.pairwise_cons.mpr ⟨?_, sorted.filter _⟩)
    fun c => ?_
  · intro c hc
    exact of_decide_eq_true (List.mem_filter.mp hc).2
  · rw [List.mem_cons, List.mem_filter, List.mem_filter, decide_eq_true_eq, decide_eq_true_eq]
    constructor
    · rintro ⟨hc, hac⟩
      exact (least c hc hac).imp_right fun hbc => ⟨hc, hbc⟩
    · rintro (rfl | ⟨hc, hbc⟩)
      · exact ⟨hb, hab⟩
      · exact ⟨hc, Trans.trans hab hbc⟩

end Cursor
