import Mathlib.Tactic.Common

/-! # Runs of a system

What is open in an action (what the environment answers, which client moves) is part of the action. -/

namespace MiniOb.Run
variable {S A : Type} (step : S → A → S) (ok : S → A → Prop)

def run (s : S) (as : List A) : S := as.foldl step s

def Meets : S → List A → Prop
  | _, [] => True
  | s, a :: as => ok s a ∧ Meets (step s a) as

instance decidableMeets [∀ s a, Decidable (ok s a)] : ∀ (s : S) (as : List A), Decidable (Meets step ok s as)
  | _, [] => isTrue trivial
  | s, a :: as => @instDecidableAnd (ok s a) (Meets step ok (step s a) as) _ (decidableMeets (step s a) as)

variable {step ok}

/-- What holds at the start and is kept by every step that meets the condition holds at the end. -/
theorem invariant (inv : S → Prop) (keep : ∀ s a, inv s → ok s a → inv (step s a)) :
    ∀ {as : List A} {s : S}, inv s → Meets step ok s as → inv (run step s as) := by
  intro as
  induction as with
  | nil => exact fun start _ => start
  | cons a as ih =>
    intro s start meets
    exact ih (keep s a start meets.1) meets.2

/-- Two conditions that agree wherever an invariant holds, which the steps that meet one of them keep. -/
theorem meets_iff {ok' : S → A → Prop} (inv : S → Prop) (keep : ∀ s a, inv s → ok' s a → inv (step s a))
    (same : ∀ s a, inv s → (ok s a ↔ ok' s a)) : ∀ {as : List A} {s : S}, inv s →
    (Meets step ok s as ↔ Meets step ok' s as)
  | [], _, _ => Iff.rfl
  | a :: _, s, start => by
    rw [Meets, Meets, same s a start]
    exact and_congr_right fun h => meets_iff inv keep same (keep s a start h)

theorem Meets.split : ∀ {before : List A} {a : A} {after : List A} {s : S}, Meets step ok s (before ++ a :: after) →
    Meets step ok s before ∧ ok (run step s before) a
  | [], _, _, _, meets => ⟨trivial, meets.1⟩
  | _ :: _, _, _, _, meets => ⟨⟨meets.1, meets.2.split.1⟩, meets.2.split.2⟩

theorem Meets.and {p : A → Prop} : ∀ {as : List A} {s : S}, Meets step ok s as → (∀ a ∈ as, p a) →
    Meets step (fun s a => ok s a ∧ p a) s as
  | [], _, _, _ => trivial
  | a :: _, _, meets, all =>
    ⟨⟨meets.1, all a List.mem_cons_self⟩, meets.2.and fun b hb => all b (List.mem_cons_of_mem a hb)⟩

/-- A run with a second system beside it that takes the same actions: what relates the two states at the start and is
    kept by every step that meets the condition relates them at the end. -/
theorem simulation {T : Type} {spec : T → A → T} (rel : S → T → Prop)
    (keep : ∀ s t a, rel s t → ok s a → rel (step s a) (spec t a)) :
    ∀ {as : List A} {s : S} {t : T}, rel s t → Meets step ok s as → rel (run step s as) (run spec t as) := by
  intro as
  induction as with
  | nil => exact fun start _ => start
  | cons a as ih =>
    intro s t start meets
    exact ih (keep s t a start meets.1) meets.2

end MiniOb.Run
