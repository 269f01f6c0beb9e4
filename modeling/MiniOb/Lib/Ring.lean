import Mathlib.Data.List.Nodup
import Mathlib.Logic.Function.Basic

/-! # Circular lists with links in their nodes

`Seg` says that the links lead from one node to another through given nodes and back, `Rep` that the ring at a head
holds a list. -/

namespace MiniOb
open List Function

structure Ring (N : Type) where
  prev : N → N
  next : N → N

namespace Ring
variable {N : Type} [DecidableEq N]

def init (r : Ring N) (list : N) : Ring N where
  prev := update r.prev list list
  next := update r.next list list

def add (r : Ring N) (pos element : N) : Ring N where
  prev := update (update r.prev (r.next pos) element) element pos
  next := update (update r.next pos element) element (r.next pos)

def addPrev (r : Ring N) (pos element : N) : Ring N where
  prev := update (update r.prev pos element) element (r.prev pos)
  next := update (update r.next (r.prev pos) element) element pos

def delete (r : Ring N) (element : N) : Ring N where
  prev := update (update r.prev (r.next element) (r.prev element)) element element
  next := update (update r.next (r.prev element) (r.next element)) element element

/-- The loop from `cur` backwards to the head, for the first node that passes the test. -/
def findBack (r : Ring N) (head : N) (p : N → Bool) : Nat → N → Option N
  | 0, _ => none
  | fuel + 1, cur => if cur = head then none else if p cur then some cur else findBack r head p fuel (r.prev cur)

omit [DecidableEq N] in
def flip (r : Ring N) : Ring N := ⟨r.next, r.prev⟩

omit [DecidableEq N] in
/-- The links lead from `a` through the nodes of the list to `b`, and back. -/
def Seg (r : Ring N) : N → List N → N → Prop
  | a, [], b => r.next a = b ∧ r.prev b = a
  | a, x :: l, b => r.next a = x ∧ r.prev x = a ∧ Seg r x l b

section Seg

omit [DecidableEq N]

variable {r r' : Ring N} {a b x : N} {l l' : List N}

theorem seg_append : r.Seg a (l ++ x :: l') b ↔ r.Seg a l x ∧ r.Seg x l' b := by
  induction l generalizing a with
  | nil => exact ⟨fun ⟨hn, hp, rest⟩ => ⟨⟨hn, hp⟩, rest⟩, fun ⟨⟨hn, hp⟩, rest⟩ => ⟨hn, hp, rest⟩⟩
  | cons y l ih =>
    simp only [cons_append, Seg, ih, and_assoc]

theorem Seg.flip (seg : r.Seg a l b) : r.flip.Seg b l.reverse a := by
  induction l generalizing a with
  | nil => exact ⟨seg.2, seg.1⟩
  | cons x l ih =>
    obtain ⟨hn, hp, rest⟩ := seg
    rw [reverse_cons]
    exact seg_append.mpr ⟨ih rest, hp, hn⟩

theorem Seg.congr (seg : r.Seg a l b) (hnext : ∀ y ∈ a :: l, r'.next y = r.next y)
    (hprev : ∀ y ∈ l ++ [b], r'.prev y = r.prev y) : r'.Seg a l b := by
  induction l generalizing a with
  | nil => exact ⟨(hnext a mem_cons_self).trans seg.1, (hprev b mem_cons_self).trans seg.2⟩
  | cons x l ih =>
    obtain ⟨hn, hp, rest⟩ := seg
    refine ⟨(hnext a mem_cons_self).trans hn, (hprev x mem_cons_self).trans hp, ih rest ?_ ?_⟩
    · exact fun y hy => hnext y (mem_cons_of_mem a hy)
    · exact fun y hy => hprev y (mem_cons_of_mem x hy)

theorem Seg.next_mem (seg : r.Seg a l b) : r.next a ∈ l ++ [b] := by
  cases l with
  | nil =>
    rw [seg.1]
    exact mem_cons_self
  | cons x l =>
    rw [seg.1]
    exact mem_cons_self

theorem Seg.prev_mem (seg : r.Seg a l b) : r.prev b ∈ a :: l := by
  induction l generalizing a with
  | nil =>
    rw [seg.2]
    exact mem_cons_self
  | cons x l ih => exact mem_cons_of_mem a (ih seg.2.2)

structure Bypasses (r r' : Ring N) (x : N) : Prop where
  next : r'.next (r.prev x) = r.next x
  prev : r'.prev (r.next x) = r.prev x
  nextElse : ∀ y, y ≠ x → y ≠ r.prev x → r'.next y = r.next y
  prevElse : ∀ y, y ≠ x → y ≠ r.next x → r'.prev y = r.prev y

theorem Seg.bypass (bypasses : Bypasses r r' x) (front : r.Seg a l x) (back : r.Seg x l' b)
    (nodup : (l ++ x :: l').Nodup) (ha : a ∉ l ++ x :: l') (hb : b ∉ l ++ x :: l') : r'.Seg a (l ++ l') b := by
  induction l generalizing a with
  | nil =>
    -- `x` is the first node: its successor comes behind `a`.
    obtain ⟨hn, hp⟩ := front
    rw [nil_append] at nodup ha hb ⊢
    have hnext := bypasses.next
    have hprev := bypasses.prev
    rw [hp] at hnext hprev
    cases l' with
    | nil =>
      rw [back.1] at hnext hprev
      exact ⟨hnext, hprev⟩
    | cons y l' =>
      obtain ⟨hxy, -, rest⟩ := back
      rw [hxy] at hnext hprev
      obtain ⟨hx, hl⟩ := nodup_cons.mp nodup
      refine ⟨hnext, hprev, rest.congr (fun z hz => ?_) fun z hz => ?_⟩
      · refine bypasses.nextElse z (fun h => hx (h ▸ hz)) fun h => ha ?_
        rw [← hp, ← h]
        exact mem_cons_of_mem x hz
      · have prevElse := bypasses.prevElse z
        rw [hxy] at prevElse
        rcases mem_append.mp hz with hz | hz
        · exact prevElse (fun h => hx (h ▸ mem_cons_of_mem y hz)) fun h => (nodup_cons.mp hl).1 (h ▸ hz)
        · rw [mem_singleton.mp hz] at prevElse ⊢
          exact prevElse (fun h => hb (h ▸ mem_cons_self)) fun h => hb (h ▸ mem_cons_of_mem x mem_cons_self)
  | cons y l ih =>
    obtain ⟨hn, hp, rest⟩ := front
    obtain ⟨hy, hl⟩ := nodup_cons.mp nodup
    have apart : a ≠ r.prev x := by
      intro h
      refine ha ?_
      rw [h]
      exact mem_append_left _ rest.prev_mem
    have apart' : y ≠ r.next x := by
      intro h
      have hmem := back.next_mem
      rw [← h] at hmem
      rcases mem_append.mp hmem with hmem | hmem
      · exact hy (mem_append_right l (mem_cons_of_mem x hmem))
      · rw [mem_singleton.mp hmem] at hb
        exact hb mem_cons_self
    refine ⟨?_, ?_, ih rest hl hy fun h => hb (mem_cons_of_mem y h)⟩
    · rw [bypasses.nextElse a (fun h => ha (h ▸ mem_append_right _ mem_cons_self)) apart]
      exact hn
    · rw [bypasses.prevElse y (fun h => hy (h ▸ mem_append_right l mem_cons_self)) apart']
      exact hp

end Seg

omit [DecidableEq N] in
structure Rep (r : Ring N) (head : N) (l : List N) : Prop where
  nodup : (head :: l).Nodup
  seg : r.Seg head l head

variable {r : Ring N} {head x : N} {l : List N}

omit [DecidableEq N] in
theorem Rep.flip (rep : r.Rep head l) : r.flip.Rep head l.reverse where
  nodup := by
    obtain ⟨hhead, hl⟩ := nodup_cons.mp rep.nodup
    exact nodup_cons.mpr ⟨fun h => hhead (mem_reverse.mp h), nodup_reverse.mpr hl⟩
  seg := rep.seg.flip

theorem rep_init (r : Ring N) (head : N) : (r.init head).Rep head [] where
  nodup := nodup_singleton head
  seg := ⟨update_self _ _ _, update_self _ _ _⟩

theorem Rep.add (rep : r.Rep head l) (fresh : x ∉ head :: l) : (r.add head x).Rep head (x :: l) where
  nodup := ((nodup_cons.mpr ⟨fresh, rep.nodup⟩).perm (List.Perm.swap head x l))
  seg := by
    obtain ⟨hx, hxl⟩ := not_or.mp (mt mem_cons.mpr fresh)
    obtain ⟨hhead, hl⟩ := nodup_cons.mp rep.nodup
    unfold Ring.add
    refine ⟨?_, update_self _ _ _, ?_⟩
    · dsimp only
      rw [update_of_ne (Ne.symm hx), update_self]
    · have seg := rep.seg
      cases l with
      | nil =>
        rw [seg.1]
        refine ⟨update_self _ _ _, ?_⟩
        dsimp only
        rw [update_of_ne (Ne.symm hx), update_self]
      | cons y l =>
        obtain ⟨hn, -, rest⟩ := seg
        obtain ⟨hxy, hxl⟩ := not_or.mp (mt mem_cons.mpr hxl)
        rw [hn]
        refine ⟨update_self _ _ _, ?_, rest.congr (fun z hz => ?_) fun z hz => ?_⟩
        · dsimp only
          rw [update_of_ne (Ne.symm hxy), update_self]
        · have hzx : z ≠ x := fun h => fresh (h ▸ mem_cons_of_mem head hz)
          have hzh : z ≠ head := fun h => hhead (h ▸ hz)
          dsimp only
          rw [update_of_ne hzx, update_of_ne hzh]
        · have hzx : z ≠ x := by
            rintro rfl
            rcases mem_append.mp hz with hz | hz
            · exact hxl hz
            · exact hx (mem_singleton.mp hz)
          have hzy : z ≠ y := by
            rintro rfl
            rcases mem_append.mp hz with hz | hz
            · exact (nodup_cons.mp hl).1 hz
            · exact hhead (mem_singleton.mp hz ▸ mem_cons_self)
          dsimp only
          rw [update_of_ne hzx, update_of_ne hzy]

theorem Rep.addPrev (rep : r.Rep head l) (fresh : x ∉ head :: l) : (r.addPrev head x).Rep head (l ++ [x]) := by
  have fresh' : x ∉ head :: l.reverse := by simpa using fresh
  have added := (rep.flip.add fresh').flip
  rwa [reverse_cons, reverse_reverse] at added

theorem Rep.delete {l₁ l₂ : List N} (rep : r.Rep head (l₁ ++ x :: l₂)) : (r.delete x).Rep head (l₁ ++ l₂) := by
  obtain ⟨hhead, hl⟩ := nodup_cons.mp rep.nodup
  obtain ⟨front, back⟩ := seg_append.mp rep.seg
  have hx₁ : x ∉ l₁ := fun h => (nodup_append.mp hl).2.2 x h x mem_cons_self rfl
  have hx₂ : x ∉ l₂ := (nodup_cons.mp (nodup_append.mp hl).2.1).1
  have hxh : x ≠ head := fun h => hhead (h ▸ mem_append_right l₁ mem_cons_self)
  have hsub : (l₁ ++ l₂).Sublist (l₁ ++ x :: l₂) := (sublist_cons_self x l₂).append_left l₁
  refine ⟨List.Nodup.sublist (hsub.cons_cons head) rep.nodup, front.bypass ?_ back hl hhead hhead⟩
  -- Neither neighbour is the node itself.
  have hprev : r.prev x ≠ x := by
    intro h
    have hmem := front.prev_mem
    rw [h] at hmem
    exact (mem_cons.mp hmem).elim hxh hx₁
  have hnext : r.next x ≠ x := by
    intro h
    have hmem := back.next_mem
    rw [h] at hmem
    exact (mem_append.mp hmem).elim hx₂ fun h => hxh (mem_singleton.mp h)
  refine ⟨?_, ?_, fun y hyx hy => ?_, fun y hyx hy => ?_⟩
  · exact (update_of_ne hprev _ _).trans (update_self _ _ _)
  · exact (update_of_ne hnext _ _).trans (update_self _ _ _)
  · exact (update_of_ne hyx _ _).trans (update_of_ne hy _ _)
  · exact (update_of_ne hyx _ _).trans (update_of_ne hy _ _)

theorem findBack_seg {a : N} (p : N → Bool) {fuel : Nat} (seg : r.flip.Seg a l head) (hhead : head ∉ l)
    (enough : l.length < fuel) : r.findBack head p fuel (r.prev a) = l.find? p := by
  induction l generalizing a fuel with
  | nil =>
    obtain ⟨fuel, rfl⟩ := Nat.exists_eq_succ_of_ne_zero (Nat.ne_of_gt enough)
    have hend : r.prev a = head := seg.1
    rw [hend, Ring.findBack, if_pos rfl, find?_nil]
  | cons x l ih =>
    obtain ⟨fuel, rfl⟩ := Nat.exists_eq_succ_of_ne_zero (Nat.ne_of_gt (Nat.zero_lt_of_lt enough))
    obtain ⟨hn, -, rest⟩ := seg
    obtain ⟨hx, hl⟩ := not_or.mp (mt mem_cons.mpr hhead)
    have hfirst : r.prev a = x := hn
    rw [hfirst, Ring.findBack, if_neg (Ne.symm hx), find?_cons, ih rest hl (Nat.lt_of_succ_lt_succ enough)]
    cases p x with
    | true => rfl
    | false => rfl

theorem Rep.findBack (rep : r.Rep head l) (p : N → Bool) {fuel : Nat} (enough : l.length < fuel) :
    r.findBack head p fuel (r.prev head) = l.reverse.find? p := by
  refine findBack_seg p rep.seg.flip (fun h => ?_) (by rwa [length_reverse])
  exact (nodup_cons.mp rep.nodup).1 (mem_reverse.mp h)

end Ring

end MiniOb
