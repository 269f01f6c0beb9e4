import MiniOb.Types

/-! # Blanks around a text -/

namespace MiniOb
open List

theorem stripTail_blank {str : Bytes} (hblank : ∀ c ∈ str, isspace c) {tail : Nat} (h : tail < str.length) :
    stripTail str str.length tail = none := by
  have hc := hblank _ (getElem_mem h)
  induction tail with
  | zero => simp [stripTail, h, hc, h.ne]
  | succ tail ih =>
    have h' := Nat.lt_of_succ_lt h
    simp [stripTail, h, hc, h.ne, ih h' (hblank _ (getElem_mem h'))]

theorem stripTail_found {P T : Bytes} {y : UInt8} {head : Nat} (hy : isspace y = false) (hT : ∀ c ∈ T, isspace c)
    (hhead : head ≤ P.length) {k : Nat} (hk : k ≤ T.length) :
    stripTail (P ++ y :: T) head (P.length + k) = some P.length := by
  induction k with
  | zero =>
    rw [Nat.add_zero, stripTail.eq_def]
    simp [hy]
  | succ k ih =>
    have hlt : k < T.length := hk
    have hc := hT _ (getElem_mem hlt)
    have hne : P.length + k + 1 ≠ head := by omega
    rw [← Nat.add_assoc, stripTail, if_pos ⟨by simpa [Nat.add_assoc, getElem?_append_right, hlt] using hc, hne⟩]
    exact ih hlt.le

theorem exists_last {str : Bytes} {c : UInt8} (hc : c ∈ str) (hspace : isspace c = false) :
    ∃ P y T, str = P ++ y :: T ∧ isspace y = false ∧ ∀ c ∈ T, isspace c := by
  have hsome : (str.reverse.find? (!isspace ·)).isSome := find?_isSome.mpr ⟨c, mem_reverse.mpr hc, by simp [hspace]⟩
  obtain ⟨y, hy⟩ := Option.isSome_iff_exists.mp hsome
  obtain ⟨hy, T, P, heq, hT⟩ := find?_eq_some_iff_append.mp hy
  exact ⟨P.reverse, y, T.reverse, by simpa using congrArg reverse heq, by simpa using hy, by simpa using hT⟩

/-- `strip` stays inside a string and leaves it without the blanks around it if and only if the string is more than
    blanks. -/
theorem strip_iff (str : Bytes) :
    strip str = some ((str.dropWhile isspace).rdropWhile isspace) ↔ ∃ c ∈ str, isspace c = false := by
  constructor
  · intro h
    by_contra! hblank
    simp only [ne_eq, Bool.not_eq_false] at hblank
    have hhead : str.findIdx (!isspace ·) = str.length := findIdx_eq_length.mpr (by simpa using hblank)
    rw [strip] at h
    split at h
    · cases h
    · rename_i tail hlen
      rw [hhead, stripTail_blank hblank (by omega)] at h
      cases h
  · rintro ⟨c, hc, hspace⟩
    obtain ⟨P, y, T, rfl, hy, hT⟩ := exists_last hc hspace
    have hlen : (P ++ y :: T).length = P.length + T.length + 1 := by simp [Nat.add_assoc]
    rw [strip, dropWhile_eq_drop_findIdx_not, hlen]
    generalize hh : (P ++ y :: T).findIdx (!isspace ·) = head
    have hhead : head ≤ P.length := by
      by_contra! hlt
      have := not_of_lt_findIdx (hh ▸ hlt)
      simp [hy] at this
    have hblank : T.reverse.dropWhile isspace = [] := dropWhile_eq_nil_iff.mpr (by simpa using hT)
    have htrim : (P.drop head ++ y :: T).rdropWhile isspace = P.drop head ++ [y] := by
      simp [rdropWhile, dropWhile_append, hblank, hy]
    simp only [stripTail_found hy hT hhead le_rfl, Option.map_some, drop_append_of_le_length hhead, htrim]
    rw [take_append, take_of_length_le (by simp)]
    simp

/-- On the empty string and on a blank it reads in front of the string. -/
theorem strip_blank : strip [] = none ∧ strip [32] = none := by decide

end MiniOb
