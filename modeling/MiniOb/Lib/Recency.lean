import Mathlib.Data.List.Nodup
import Mathlib.Tactic.Common

/-! # Lists in the order of recency

A list whose elements are moved to the front when they are touched. A history is the list of the touches, the latest
first. -/

namespace MiniOb.Recency
open List
variable {α : Type} [DecidableEq α]

/-- `a` has been touched after `b`; two elements that were never touched are not told apart. -/
def NotOlder (history : List α) (a b : α) : Prop := history.idxOf a < history.idxOf b ∨ (a ∉ history ∧ b ∉ history)

def Ordered (history l : List α) : Prop := l.Pairwise (NotOlder history)

theorem ordered_nil (l : List α) : Ordered [] l :=
  pairwise_of_forall fun _ _ => .inr ⟨not_mem_nil, not_mem_nil⟩

theorem NotOlder.cons {history : List α} {a b x : α} (h : NotOlder history a b) (ha : a ≠ x) (hb : b ≠ x) :
    NotOlder (x :: history) a b := by
  rcases h with h | ⟨ha', hb'⟩
  · left
    rw [idxOf_cons_ne _ (Ne.symm ha), idxOf_cons_ne _ (Ne.symm hb)]
    exact Nat.succ_lt_succ h
  · exact .inr ⟨not_mem_cons_of_ne_of_not_mem ha ha', not_mem_cons_of_ne_of_not_mem hb hb'⟩

theorem Ordered.touch {history l : List α} (ordered : Ordered history l) (nodup : l.Nodup) (x : α) :
    Ordered (x :: history) (x :: l.erase x) := by
  have hne : ∀ {b : α}, b ∈ l.erase x → b ≠ x := fun hb => ((List.Nodup.mem_erase_iff nodup).mp hb).1
  refine pairwise_cons.mpr ⟨fun b hb => .inl ?_, ?_⟩
  · rw [idxOf_cons_self, idxOf_cons_ne _ (Ne.symm (hne hb))]
    exact Nat.succ_pos _
  · exact (List.Pairwise.sublist erase_sublist ordered).imp_of_mem fun ha hb h => h.cons (hne ha) (hne hb)

theorem Ordered.find?_reverse {history l : List α} (ordered : Ordered history l) {p : α → Bool} {a : α}
    (found : l.reverse.find? p = some a) : ∀ b ∈ l, p b = true → b ≠ a → NotOlder history b a := by
  obtain ⟨-, older, newer, hsplit, holder⟩ := find?_eq_some_iff_append.mp found
  have hl : l = newer.reverse ++ a :: older.reverse := by
    have hrev := congrArg List.reverse hsplit
    rw [reverse_reverse] at hrev
    rw [hrev]
    simp
  intro b hb hp hne
  rw [hl] at hb ordered
  rcases mem_append.mp hb with hb | hb
  · exact (pairwise_append.mp ordered).2.2 b hb a mem_cons_self
  · rcases mem_cons.mp hb with rfl | hb
    · exact absurd rfl hne
    · have hnot := holder b (mem_reverse.mp hb)
      rw [hp] at hnot
      cases hnot

end MiniOb.Recency
