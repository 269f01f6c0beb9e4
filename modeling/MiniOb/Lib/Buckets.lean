import Mathlib.Data.List.Nodup
import Mathlib.Data.List.Perm.Basic

/-! # Maps whose keys count as equal by their class

A map in which an entry is found by a class of its key, such as a hash, with one entry for each class. -/

namespace MiniOb.Buckets
open List
variable {κ γ α β : Type*} [DecidableEq γ] (cls : κ → γ)

/-- The value of the entry with the class of the key is updated; without one there is a new entry. -/
def upsert (key : κ) (fresh : β) (update : β → β) : List (κ × β) → List (κ × β)
  | [] => [(key, fresh)]
  | e :: es => if cls e.1 = cls key then (e.1, update e.2) :: es else e :: upsert key fresh update es

def classes (es : List (κ × β)) : List γ := es.map fun e => cls e.1

variable {cls} {key : κ} {fresh : β} {update : β → β} {es : List (κ × β)}

theorem classes_upsert : classes cls (upsert cls key fresh update es) =
    if cls key ∈ classes cls es then classes cls es else classes cls es ++ [cls key] := by
  induction es with
  | nil => simp [upsert, classes]
  | cons e es ih =>
    rw [upsert]
    split
    · rename_i same
      simp [classes, same]
    · rename_i other
      have hcons : classes cls (e :: upsert cls key fresh update es) =
        cls e.1 :: classes cls (upsert cls key fresh update es) := rfl
      have hmem : cls key ∈ classes cls (e :: es) ↔ cls key ∈ classes cls es := by
        simp [classes, Ne.symm other]
      rw [hcons, ih]
      by_cases hin : cls key ∈ classes cls es
      · rw [if_pos hin, if_pos (hmem.mpr hin)]
        rfl
      · rw [if_neg hin, if_neg (mt hmem.mp hin)]
        rfl

theorem nodup_upsert (nodup : (classes cls es).Nodup) : (classes cls (upsert cls key fresh update es)).Nodup := by
  rw [classes_upsert]
  split
  · exact nodup
  · rename_i habsent
    exact nodup.append (nodup_singleton _) (disjoint_singleton.mpr habsent)

theorem mem_upsert (nodup : (classes cls es).Nodup) {e' : κ × β} : e' ∈ upsert cls key fresh update es ↔
    (e' ∈ es ∧ cls e'.1 ≠ cls key) ∨ (∃ e ∈ es, cls e.1 = cls key ∧ e' = (e.1, update e.2)) ∨
      (cls key ∉ classes cls es ∧ e' = (key, fresh)) := by
  induction es with
  | nil => simp [upsert, classes]
  | cons e es ih =>
    obtain ⟨hnew, hrest⟩ := nodup_cons.mp nodup
    have others : ∀ e'' ∈ es, cls e''.1 ≠ cls e.1 := fun e'' h'' heq => hnew (mem_map.mpr ⟨e'', h'', heq⟩)
    rw [upsert]
    split
    · rename_i same
      rw [mem_cons]
      constructor
      · rintro (rfl | hmem)
        · exact .inr (.inl ⟨e, mem_cons_self, same, rfl⟩)
        · exact .inl ⟨mem_cons_of_mem e hmem, same ▸ others e' hmem⟩
      · rintro (⟨hmem, hne⟩ | ⟨e'', hmem, hcls, rfl⟩ | ⟨habsent, -⟩)
        · rcases mem_cons.mp hmem with rfl | hmem
          · exact absurd same hne
          · exact .inr hmem
        · rcases mem_cons.mp hmem with rfl | hmem
          · exact .inl rfl
          · exact absurd (hcls.trans same.symm) (others e'' hmem)
        · exact absurd (mem_map.mpr ⟨e, mem_cons_self, same⟩) habsent
    · rename_i other
      rw [mem_cons, ih hrest]
      have habsent : cls key ∉ classes cls (e :: es) ↔ cls key ∉ classes cls es := by
        simp [classes, Ne.symm other]
      rw [habsent]
      constructor
      · rintro (rfl | ⟨hmem, hne⟩ | ⟨e'', hmem, hcls⟩ | hfresh)
        · exact .inl ⟨mem_cons_self, other⟩
        · exact .inl ⟨mem_cons_of_mem e hmem, hne⟩
        · exact .inr (.inl ⟨e'', mem_cons_of_mem e hmem, hcls⟩)
        · exact .inr (.inr hfresh)
      · rintro (⟨hmem, hne⟩ | ⟨e'', hmem, hcls, heq⟩ | hfresh)
        · rcases mem_cons.mp hmem with rfl | hmem
          · exact .inl rfl
          · exact .inr (.inl ⟨hmem, hne⟩)
        · rcases mem_cons.mp hmem with rfl | hmem
          · exact absurd hcls other
          · exact .inr (.inr (.inl ⟨e'', hmem, hcls, heq⟩))
        · exact .inr (.inr (.inr hfresh))

theorem perm_flatMap_filter (f : α → γ) : ∀ {es : List (κ × β)} {l : List α}, (classes cls es).Nodup →
    (∀ a ∈ l, f a ∈ classes cls es) → (es.flatMap fun e => l.filter fun a => decide (f a = cls e.1)).Perm l
  | [], [], _, _ => .nil
  | [], a :: _, _, cover => absurd (cover a mem_cons_self) not_mem_nil
  | e :: es, l, nodup, cover => by
    obtain ⟨hnew, hrest⟩ := nodup_cons.mp nodup
    have hothers : (es.flatMap fun e' => l.filter fun a => decide (f a = cls e'.1)) =
        es.flatMap fun e' => (l.filter fun a => !decide (f a = cls e.1)).filter fun a => decide (f a = cls e'.1) := by
      refine flatMap_congr fun e' he' => ?_
      rw [filter_filter]
      refine filter_congr fun a _ => ?_
      have hne : cls e'.1 ≠ cls e.1 := fun heq => hnew (mem_map.mpr ⟨e', he', heq⟩)
      by_cases ha : f a = cls e'.1
      · simp [ha, hne]
      · simp [ha]
    rw [flatMap_cons, hothers]
    refine ((perm_flatMap_filter f hrest fun a ha => ?_).append_left _).trans (filter_append_perm _ l)
    obtain ⟨hmem, hne⟩ := mem_filter.mp ha
    refine (mem_cons.mp (cover a hmem)).resolve_left fun heq => ?_
    simp [heq] at hne

end MiniOb.Buckets
