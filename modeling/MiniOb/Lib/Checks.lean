import Mathlib.Data.List.Forall2

/-! # Computations that may fail

What the success of a computation in `Except` says of its parts. -/

namespace MiniOb.Checks
open List

universe u

variable {ε : Type*} {α β σ : Type u}

theorem map_eq_ok {x : Except ε α} {f : α → β} {b : β} : x.map f = .ok b ↔ ∃ a, x = .ok a ∧ f a = b := by
  cases x with
  | error e => simp [Except.map]
  | ok a => simp [Except.map]

theorem bind_eq_ok {x : Except ε α} {f : α → Except ε β} {b : β} : x >>= f = .ok b ↔ ∃ a, x = .ok a ∧ f a = .ok b := by
  cases x with
  | error e => simp [bind, Except.bind]
  | ok a => simp [bind, Except.bind]

theorem mapM_eq_ok {f : α → Except ε β} : ∀ {l : List α} {bs : List β},
    l.mapM f = .ok bs ↔ List.Forall₂ (fun a b => f a = .ok b) l bs
  | [], bs => by
    rw [mapM_nil, forall₂_nil_left_iff]
    exact ⟨fun h => (Except.ok.inj h).symm, fun h => h ▸ rfl⟩
  | a :: l, bs => by
    rw [mapM_cons, bind_eq_ok, forall₂_cons_left_iff]
    refine exists_congr fun b => ?_
    constructor
    · rintro ⟨hb, hrest⟩
      obtain ⟨bs', hbs', hcons⟩ := bind_eq_ok.mp hrest
      exact ⟨bs', hb, mapM_eq_ok.mp hbs', (Except.ok.inj hcons).symm⟩
    · rintro ⟨bs', hb, hbs', rfl⟩
      exact ⟨hb, bind_eq_ok.mpr ⟨bs', mapM_eq_ok.mpr hbs', rfl⟩⟩

theorem mapM_succeeds_iff {f : α → Except ε β} : ∀ {l : List α}, (∃ bs, l.mapM f = .ok bs) ↔ ∀ a ∈ l, ∃ b, f a = .ok b
  | [] => by simp [pure, Except.pure]
  | a :: l => by
    rw [forall_mem_cons, ← mapM_succeeds_iff]
    simp only [mapM_cons, bind_eq_ok]
    exact ⟨fun ⟨bs, b, hb, bs', hbs', _⟩ => ⟨⟨b, hb⟩, bs', hbs'⟩, fun ⟨⟨b, hb⟩, bs', hbs'⟩ =>
      ⟨b :: bs', b, hb, bs', hbs', rfl⟩⟩

theorem mapM_eq_some {f : α → Option β} : ∀ {l : List α} {bs : List β},
    l.mapM f = some bs ↔ List.Forall₂ (fun a b => f a = some b) l bs
  | [], bs => by
    rw [mapM_nil, forall₂_nil_left_iff]
    exact ⟨fun h => (Option.some.inj h).symm, fun h => h ▸ rfl⟩
  | a :: l, bs => by
    simp only [mapM_cons, Option.bind_eq_bind, Option.bind_eq_some_iff, mapM_eq_some, Option.pure_def,
      Option.some.injEq, forall₂_cons_left_iff]
    exact ⟨fun ⟨b, hb, bs', hbs', h⟩ => ⟨b, bs', hb, hbs', h.symm⟩, fun ⟨b, bs', hb, hbs', h⟩ =>
      ⟨b, hb, bs', hbs', h.symm⟩⟩

theorem exists_right {R : α → β → Prop} {l : List α} {l' : List β} (h : List.Forall₂ R l l') {a : α} (ha : a ∈ l) :
    ∃ b ∈ l', R a b := by
  induction h with
  | nil => cases ha
  | cons hab _ ih =>
    rcases mem_cons.mp ha with rfl | ha
    · exact ⟨_, mem_cons_self, hab⟩
    · obtain ⟨b, hb, hR⟩ := ih ha
      exact ⟨b, mem_cons_of_mem _ hb, hR⟩

end MiniOb.Checks
