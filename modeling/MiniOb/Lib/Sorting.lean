import Mathlib.Data.List.Sort
import Mathlib.Order.Defs.LinearOrder

/-! # Sorting by a comparison

What a sort with a comparison may make of a list, and the lexicographic order of a list of keys. -/

namespace MiniOb.Sorting
open List
variable {α : Type*}

structure StrictWeakOn (lt : α → α → Prop) (l : List α) : Prop where
  asymm : ∀ a ∈ l, ∀ b ∈ l, lt a b → ¬lt b a
  cotrans : ∀ a ∈ l, ∀ b ∈ l, ∀ c ∈ l, lt a c → lt a b ∨ lt b c

/-- A permutation of the list in which nothing stands behind something greater. -/
structure Sorts (lt : α → α → Prop) (l result : List α) : Prop where
  perm : result.Perm l
  ordered : result.Pairwise fun a b => ¬lt b a

variable {lt spec : α → α → Prop} {l : List α}

theorem StrictWeakOn.congr (h : StrictWeakOn spec l) (same : ∀ a ∈ l, ∀ b ∈ l, (lt a b ↔ spec a b)) :
    StrictWeakOn lt l where
  asymm a ha b hb hab hba := h.asymm a ha b hb ((same a ha b hb).mp hab) ((same b hb a ha).mp hba)
  cotrans a ha b hb c hc hac :=
    (h.cotrans a ha b hb c hc ((same a ha c hc).mp hac)).imp (same a ha b hb).mpr (same b hb c hc).mpr

open Classical in
/-- Of two elements that are not in the one order, a sort may put them in the other. -/
theorem StrictWeakOn.exists_sorts (h : StrictWeakOn lt l) {a b : α} (ha : a ∈ l) (hb : b ∈ l) (hne : a ≠ b)
    (hlt : ¬lt a b) : ∃ result, Sorts lt l result ∧ [b, a].Sublist result := by
  -- What is not in the list stands below everything, so that the relation is total and transitive.
  let le (x y : α) : Bool := decide (x ∉ l ∨ y ∈ l ∧ ¬lt y x)
  have hle : ∀ {x y}, le x y = true ↔ x ∉ l ∨ y ∈ l ∧ ¬lt y x := decide_eq_true_iff
  have htrans : ∀ x y z, le x y = true → le y z = true → le x z = true := by
    intro x y z hxy hyz
    rw [hle] at hxy hyz ⊢
    rcases hxy with hx | ⟨hy, hxy⟩
    · exact .inl hx
    · obtain ⟨hz, hyz⟩ := hyz.resolve_left (not_not.mpr hy)
      by_cases hx : x ∈ l
      · refine .inr ⟨hz, fun hzx => ?_⟩
        rcases h.cotrans z hz y hy x hx hzx with hzy | hyx
        · exact hyz hzy
        · exact hxy hyx
      · exact .inl hx
  have htotal : ∀ x y, (le x y || le y x) = true := by
    intro x y
    rw [Bool.or_eq_true, hle, hle]
    by_cases hx : x ∈ l
    · by_cases hy : y ∈ l
      · by_cases hyx : lt y x
        · exact .inr (.inr ⟨hx, h.asymm y hy x hx hyx⟩)
        · exact .inl (.inr ⟨hy, hyx⟩)
      · exact .inr (.inl hy)
    · exact .inl (.inl hx)
  have ha' : a ∈ l.erase b := (mem_erase_of_ne hne).mpr ha
  have hperm : l.Perm (b :: a :: (l.erase b).erase a) := (perm_cons_erase hb).trans ((perm_cons_erase ha').cons b)
  have hsorted := (mergeSort_perm (b :: a :: (l.erase b).erase a) le).trans hperm.symm
  refine ⟨_, ⟨hsorted, ?_⟩, pair_sublist_mergeSort htrans htotal (hle.mpr (.inr ⟨ha, hlt⟩)) ?_⟩
  · refine (pairwise_mergeSort htrans htotal _).imp_of_mem fun hx _ hxy => ?_
    exact ((hle.mp hxy).resolve_left (not_not.mpr (hsorted.subset hx))).2
  · exact ((nil_sublist _).cons_cons a).cons_cons b

/-- A sort with `lt` sorts by an order exactly if `lt` is that order on the elements of the list; ties are no
    obstacle. -/
theorem sorts_by_iff (order : ∀ l, StrictWeakOn spec l) (tie : ∀ a ∈ l, ∀ b ∈ l, ¬spec a b → ¬spec b a → ¬lt a b) :
    (StrictWeakOn lt l ∧ ∀ result, Sorts lt l result → result.IsChain fun a b => ¬spec b a) ↔
      ∀ a ∈ l, ∀ b ∈ l, (lt a b ↔ spec a b) := by
  constructor
  · rintro ⟨weak, sorted⟩
    have hspec : ∀ a ∈ l, ∀ b ∈ l, spec a b → lt a b := by
      intro a ha b hb hab
      by_contra hlt
      have hne : a ≠ b := by
        rintro rfl
        exact (order [a]).asymm a (by simp) a (by simp) hab hab
      obtain ⟨result, hresult, hsub⟩ := weak.exists_sorts ha hb hne hlt
      have : Trans (fun a b : α => ¬spec b a) (fun a b => ¬spec b a) fun a b => ¬spec b a :=
        ⟨fun {x y z} hxy hyz hzx => ((order [x, y, z]).cotrans z (by simp) y (by simp) x (by simp) hzx).elim hyz hxy⟩
      have hpair := (isChain_iff_pairwise.mp (sorted result hresult)).sublist hsub
      exact rel_of_pairwise_cons hpair (mem_singleton_self a) hab
    intro a ha b hb
    refine ⟨fun hlt => ?_, hspec a ha b hb⟩
    by_contra hab
    by_cases hba : spec b a
    · exact weak.asymm a ha b hb hlt (hspec b hb a ha hba)
    · exact tie a ha b hb hab hba hlt
  · intro same
    refine ⟨(order l).congr same, fun result hresult => ?_⟩
    refine (hresult.ordered.imp_of_mem fun ha hb hlt hspec => hlt ?_).isChain
    exact (same _ (hresult.perm.subset hb) _ (hresult.perm.subset ha)).mpr hspec

section Keys
variable {κ : Type*} [LinearOrder κ]

def Before (descending : Bool) (x y : κ) : Prop := if descending then y < x else x < y

variable {descending : Bool} {x y z : κ}

theorem Before.ne (h : Before descending x y) : x ≠ y := by
  cases descending with
  | false => exact ne_of_lt h
  | true => exact ne_of_gt h

theorem Before.asymm (h : Before descending x y) : ¬Before descending y x := by
  cases descending with
  | false => exact lt_asymm (α := κ) h
  | true => exact lt_asymm (α := κ) h

theorem before_or_before (h : x ≠ y) : Before descending x y ∨ Before descending y x := by
  cases descending with
  | false => exact lt_or_gt_of_ne h
  | true => exact (lt_or_gt_of_ne h).symm

theorem Before.cotrans (h : Before descending x z) (y : κ) : Before descending x y ∨ Before descending y z := by
  cases descending with
  | false =>
    rcases lt_or_ge x y with hxy | hyx
    · exact .inl hxy
    · exact .inr (lt_of_le_of_lt hyx h)
  | true =>
    rcases lt_or_ge y x with hyx | hxy
    · exact .inl hyx
    · exact .inr (lt_of_lt_of_le h hxy)

/-- By the first key, upwards or downwards, and where that is the same by the other keys. -/
def Lexicographic : List ((α → κ) × Bool) → α → α → Prop
  | [], _, _ => False
  | (key, descending) :: keys, a, b => Before descending (key a) (key b) ∨ key a = key b ∧ Lexicographic keys a b

theorem lexicographic_asymm : ∀ {keys : List ((α → κ) × Bool)} {a b : α}, Lexicographic keys a b →
    ¬Lexicographic keys b a
  | [], _, _, h => h.elim
  | (key, descending) :: keys, a, b, hab => by
    rintro (hba | ⟨hkey, hba⟩)
    · rcases hab with hab | ⟨hkey, -⟩
      · exact hab.asymm hba
      · exact hba.ne hkey.symm
    · rcases hab with hab | ⟨-, hab⟩
      · exact hab.ne hkey.symm
      · exact lexicographic_asymm hab hba

theorem lexicographic_cotrans : ∀ {keys : List ((α → κ) × Bool)} {a b c : α}, Lexicographic keys a c →
    Lexicographic keys a b ∨ Lexicographic keys b c
  | [], _, _, _, h => h.elim
  | (key, descending) :: keys, a, b, c, hac => by
    rcases hac with hac | ⟨hkey, hac⟩
    · exact (hac.cotrans (key b)).imp .inl .inl
    · by_cases hab : key a = key b
      · exact (lexicographic_cotrans hac).imp (fun h => .inr ⟨hab, h⟩) fun h => .inr ⟨hab.symm.trans hkey, h⟩
      · rw [Lexicographic, Lexicographic, ← hkey]
        exact (before_or_before hab).imp .inl .inl

theorem lexicographic_strictWeakOn (keys : List ((α → κ) × Bool)) (l : List α) :
    StrictWeakOn (Lexicographic keys) l where
  asymm _ _ _ _ := lexicographic_asymm
  cotrans _ _ _ _ _ _ := lexicographic_cotrans

end Keys

section Best
variable {beats : α → α → Prop} [DecidableRel beats] {l : List α} {a m : α}

/-- What is kept when `x` comes: `x` if it beats the element that was kept. -/
def keepBest (beats : α → α → Prop) [DecidableRel beats] : Option α → α → Option α
  | none, x => some x
  | some a, x => if beats a x then some x else some a

theorem foldl_keepBest_mem : ∀ {l : List α} {a : α}, ∃ b ∈ a :: l, l.foldl (keepBest beats) (some a) = some b
  | [], a => ⟨a, mem_singleton_self a, rfl⟩
  | x :: l, a => by
    rw [foldl_cons, keepBest]
    split
    · obtain ⟨b, hb, hrun⟩ := @foldl_keepBest_mem l x
      exact ⟨b, mem_cons_of_mem a hb, hrun⟩
    · obtain ⟨b, hb, hrun⟩ := @foldl_keepBest_mem l a
      refine ⟨b, ?_, hrun⟩
      rcases mem_cons.mp hb with rfl | hb
      · exact mem_cons_self
      · exact mem_cons_of_mem a (mem_cons_of_mem x hb)

theorem foldl_keepBest_stays (stays : ∀ x ∈ l, x ≠ a → ¬beats a x) : l.foldl (keepBest beats) (some a) = some a := by
  induction l with
  | nil => rfl
  | cons x l ih =>
    have hstep : keepBest beats (some a) x = some a := by
      rw [keepBest]
      by_cases hx : x = a
      · rw [hx, ite_self]
      · rw [if_neg (stays x mem_cons_self hx)]
    rw [foldl_cons, hstep]
    exact ih fun y hy => stays y (mem_cons_of_mem x hy)

theorem foldl_keepBest_reaches (best : ∀ a ∈ l, a ≠ m → beats a m ∧ ¬beats m a) : ∀ {k : List α} {s : Option α},
    (∀ x ∈ k, x ∈ l) → (∀ x, s = some x → x ∈ l) → m ∈ k → k.foldl (keepBest beats) s = some m
  | [], _, _, _, hmem => absurd hmem not_mem_nil
  | x :: k, s, hk, hs, hmem => by
    have hk' : ∀ y ∈ k, y ∈ l := fun y hy => hk y (mem_cons_of_mem x hy)
    rw [foldl_cons]
    by_cases hx : x = m
    · subst hx
      have hstep : keepBest beats s x = some x := by
        cases s with
        | none => rfl
        | some a =>
          rw [keepBest]
          by_cases ha : a = x
          · rw [ha, ite_self]
          · rw [if_pos (best a (hs a rfl) ha).1]
      rw [hstep]
      exact foldl_keepBest_stays fun y hy hne => (best y (hk' y hy) hne).2
    · refine foldl_keepBest_reaches best hk' (fun y hy => ?_) ((mem_cons.mp hmem).resolve_left fun h => hx h.symm)
      cases s with
      | none => exact Option.some.inj hy ▸ hk x mem_cons_self
      | some a =>
        rw [keepBest] at hy
        split at hy
        · exact Option.some.inj hy ▸ hk x mem_cons_self
        · exact hs y hy

/-- One element is kept from the list in whatever order it comes exactly if it beats every other one and is beaten by
    none. -/
theorem foldl_keepBest_perm_iff [DecidableEq α] (hm : m ∈ l) :
    (∀ l' : List α, l'.Perm l → l'.foldl (keepBest beats) none = some m) ↔ ∀ a ∈ l, a ≠ m → beats a m ∧ ¬beats m a := by
  constructor
  · intro kept a ha hne
    -- What comes behind `a` and the copies of `m` cannot bring `m` back.
    obtain ⟨copies, rest, hperm, hcopies, hrest⟩ : ∃ copies rest, l.Perm (copies ++ a :: rest) ∧ (∀ x ∈ copies, x = m) ∧
        m ∉ rest := by
      refine ⟨l.filter fun x => decide (x = m), (l.filter fun x => !decide (x = m)).erase a, ?_, by simp, fun h => ?_⟩
      · refine (filter_append_perm _ l).symm.trans (List.Perm.append_left _ (perm_cons_erase ?_))
        simpa using ⟨ha, hne⟩
      · simpa using mem_of_mem_erase h
    have hlost : rest.foldl (keepBest beats) (some a) ≠ some m := by
      obtain ⟨b, hb, hrun⟩ := @foldl_keepBest_mem α beats _ rest a
      rw [hrun]
      rintro ⟨rfl⟩
      exact (mem_cons.mp hb).elim (fun h => hne h.symm) hrest
    constructor
    · by_contra unbeaten
      refine hlost ?_
      have hrun := kept (a :: (copies ++ rest)) ((hperm.trans perm_middle).symm)
      rwa [foldl_cons, foldl_append, keepBest, foldl_keepBest_stays fun x hx _ => hcopies x hx ▸ unbeaten] at hrun
    · intro beaten
      refine hlost ?_
      have hrun := kept (copies ++ a :: rest) hperm.symm
      cases copies with
      | nil =>
        rcases mem_cons.mp (hperm.subset hm) with h | h
        · exact absurd h.symm hne
        · exact absurd h hrest
      | cons x copies =>
        obtain rfl := hcopies x mem_cons_self
        have hcopy : copies.foldl (keepBest beats) (some x) = some x :=
          foldl_keepBest_stays fun y hy hyx => absurd (hcopies y (mem_cons_of_mem x hy)) hyx
        rwa [cons_append, foldl_cons, foldl_append, keepBest, hcopy, foldl_cons, keepBest, if_pos beaten] at hrun
  · intro best l' hperm
    exact foldl_keepBest_reaches best (fun x hx => hperm.subset hx) (fun _ h => nomatch h) (hperm.symm.subset hm)

end Best

end MiniOb.Sorting
