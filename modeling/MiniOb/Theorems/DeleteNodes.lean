import MiniOb.Theorems.InsertNodes

/-! # The nodes that a deletion writes

Two of the four ways of `redistribute_nodes` leave a slot of `rids` as it was, so their results depend on what that slot
held. -/

namespace MiniOb
open Slots BTree IndexNode
open List hiding zip next
variable {L R : List (Key × RID)} {K K' : List Key} {C C' : List PageNum}

variable {node left right : IndexNode} {par par' : PageNum} {order : Nat}

section
variable {A B : List (Key × RID)} {e : Key × RID} (hnode : LeafNode node par (A ++ e :: B))
include hnode

theorem LeafNode.removeAt : LeafNode (node.removeAt A.length) par (A ++ B) where
  isLeaf := hnode.isLeaf
  parent := hnode.parent
  entries := by
    have hrids : (node.removeAt A.length).rids = shiftDown node.rids A.length (node.keyNum - 1 - A.length) :=
      if_pos hnode.isLeaf
    show firstN (zip (shiftDown node.keys A.length (node.keyNum - 1 - A.length)) (node.removeAt A.length).rids)
      (node.keyNum - 1) = _
    rw [hrids, zip_shiftDown]
    exact firstN_shiftDown hnode.entries

theorem LeafNode.removeAt_next (hmost : node.keyNum ≤ order - 1) :
    (node.removeAt A.length).next order = node.next order := by
  have hlen := congrArg List.length hnode.entries
  simp only [entryList, firstN_length, length_append, length_cons] at hlen
  have hrids : (node.removeAt A.length).rids = shiftDown node.rids A.length (node.keyNum - 1 - A.length) :=
    if_pos hnode.isLeaf
  rw [next, hrids, shiftDown_apply, if_neg (by omega)]
  rfl

theorem LeafNode.removeAt_rid : some ((node.removeAt A.length).rids 0) = ((A ++ B ++ [e]).map Prod.snd).head? := by
  have hlen := congrArg List.length hnode.entries
  simp only [entryList, firstN_length, length_append, length_cons] at hlen
  have hget := (firstN_eq_iff.mp hnode.entries).2
  have hrids : (node.removeAt A.length).rids = shiftDown node.rids A.length (node.keyNum - 1 - A.length) :=
    if_pos hnode.isLeaf
  rw [hrids, shiftDown_apply]
  cases A with
  | cons a A =>
    have hslot : a = zip node.keys node.rids 0 := by simpa using hget 0 (by omega)
    rw [if_neg (by simp)]
    simp [hslot, zip]
  | nil =>
    cases B with
    | nil =>
      have hslot : e = zip node.keys node.rids 0 := by simpa using hget 0 (by omega)
      simp only [length_nil] at hlen
      rw [if_neg (by simp only [length_nil]; omega)]
      simp [hslot, zip]
    | cons b B =>
      have hslot : b = zip node.keys node.rids 1 := by
        simp only [length_cons] at hlen
        simpa using hget 1 (by omega)
      simp only [length_nil, length_cons] at hlen
      rw [if_pos (by simp only [length_nil]; omega)]
      simp [hslot, zip]

end

section
variable {ks₁ ks₂ : List Key} {k : Key} {ps₁ ps₂ : List PageNum} {p q : PageNum}
  (hnode : InternNode node par (ks₁ ++ k :: ks₂) (ps₁ ++ p :: q :: ps₂)) (hlen : ps₁.length = ks₁.length)
include hnode hlen

theorem InternNode.removeAt : InternNode (node.removeAt ks₁.length) par (ks₁ ++ ks₂) (ps₁ ++ p :: ps₂) where
  isLeaf := hnode.isLeaf
  parent := hnode.parent
  keys := firstN_shiftDown hnode.keys
  children := by
    have hcount := hnode.keyNum_eq
    simp only [length_cons] at hcount
    have hsplit : firstN (fun i => (node.rids i).pageNum) (node.keyNum + 1) = (ps₁ ++ [p]) ++ q :: ps₂ := by
      have := hnode.children
      simpa [childList] using this
    have hdown := firstN_shiftDown hsplit
    have hrids : (node.removeAt ks₁.length).rids =
        shiftDown node.rids (ks₁.length + 1) (node.keyNum - (ks₁.length + 1)) := if_neg (by simp [hnode.isLeaf])
    have hkeys : (node.removeAt ks₁.length).keyNum + 1 = node.keyNum + 1 - 1 := by
      show node.keyNum - 1 + 1 = _
      omega
    have hshift : node.keyNum + 1 - 1 - (ps₁ ++ [p]).length = node.keyNum - (ks₁.length + 1) := by
      simp [hlen]
    rw [hshift, length_append, hlen, length_singleton] at hdown
    rw [childList, hkeys, hrids, map_shiftDown RID.pageNum, hdown]
    simp

theorem InternNode.removeAt_stale :
    ((node.removeAt ks₁.length).rids ((node.removeAt ks₁.length).keyNum + 1)).pageNum =
      (q :: ps₂).getLast (cons_ne_nil _ _) := by
  have hcount := hnode.keyNum_eq
  have hcount' := congrArg List.length hnode.children
  simp only [childList, firstN_length, length_append, length_cons] at hcount hcount'
  have hrids : (node.removeAt ks₁.length).rids =
      shiftDown node.rids (ks₁.length + 1) (node.keyNum - (ks₁.length + 1)) := if_neg (by simp [hnode.isLeaf])
  have hslot : (node.removeAt ks₁.length).keyNum + 1 = node.keyNum := by
    show node.keyNum - 1 + 1 = node.keyNum
    omega
  have hget := (firstN_eq_iff.mp hnode.children).2 node.keyNum (by omega)
  rw [hslot, hrids, shiftDown_apply, if_neg (by omega), getLast_eq_getElem]
  rw [getElem?_append_right (by omega), getElem?_cons, if_neg (by omega)] at hget
  have hidx : node.keyNum - ps₁.length - 1 = (q :: ps₂).length - 1 := by
    simp only [length_cons]
    omega
  rw [hidx] at hget
  exact (List.getElem?_eq_some_iff.mp hget).2.symm

end

theorem LeafNode.length_eq {es : List (Key × RID)} (hnode : LeafNode node par es) : node.keyNum = es.length := by
  rw [← hnode.entries]
  simp [entryList]

theorem LeafNode.merge (hleft : LeafNode left par L) (hright : LeafNode right par' R)
    (hmost : L.length + R.length ≤ order - 1) (sep : Key) :
    LeafNode (left.merge order sep right) par (L ++ R) ∧
      (left.merge order sep right).next order = right.next order := by
  have hl := hleft.length_eq
  have hr := hright.length_eq
  rw [IndexNode.merge, if_pos hleft.isLeaf]
  refine ⟨⟨hleft.isLeaf, hleft.parent, ?_⟩, ?_⟩
  · show firstN (zip (copy left.keys left.keyNum right.keys 0 right.keyNum)
      (set (copy left.rids left.keyNum right.rids 0 right.keyNum) (order - 1) _)) (left.keyNum + right.keyNum) = _
    rw [firstN_zip_set_unused _ _ _ (by omega), zip_copy, firstN_copy_append, ← hleft.entries, ← hright.entries]
    congr 1
    exact firstN_congr fun i _ => by rw [Nat.zero_add]
  · show (set _ (order - 1) (right.rids (order - 1)) (order - 1)).pageNum = _
    rw [set_same]
    rfl

theorem InternNode.length_eq {ks : List Key} {ps : List PageNum} (hnode : InternNode node par ks ps) :
    node.keyNum = ks.length ∧ ps.length = ks.length + 1 := by
  have hkeys := congrArg List.length hnode.keys
  have hchildren := congrArg List.length hnode.children
  simp only [keyList, childList, firstN_length] at hkeys hchildren
  exact ⟨hkeys, by omega⟩

theorem firstN_set_next {α : Type} (a : Nat → α) (n : Nat) (x : α) :
    firstN (set a n x) (n + 1) = firstN a n ++ [x] := by
  rw [firstN_succ, set_same]
  congr 1
  exact firstN_congr fun i hi => set_ne (by omega)

theorem InternNode.merge (hleft : InternNode left par K C) (hright : InternNode right par' K' C') (sep : Key) :
    InternNode (left.merge order sep right) par (K ++ sep :: K') (C ++ C') := by
  have hmerge : left.merge order sep right = { left with
      keys := copy (set left.keys left.keyNum sep) (left.keyNum + 1) right.keys 0 right.keyNum
      rids := set (copy left.rids (left.keyNum + 1) right.rids 0 right.keyNum) (left.keyNum + 1 + right.keyNum)
        (right.rids right.keyNum)
      keyNum := left.keyNum + 1 + right.keyNum } := by
    rw [IndexNode.merge, if_neg (by simp [hleft.isLeaf])]
  rw [hmerge]
  refine ⟨hleft.isLeaf, hleft.parent, ?_, ?_⟩
  · show firstN (copy (set left.keys left.keyNum sep) (left.keyNum + 1) right.keys 0 right.keyNum)
      (left.keyNum + 1 + right.keyNum) = _
    rw [firstN_copy_append, firstN_set_next, ← hleft.keys, ← hright.keys, append_assoc, singleton_append]
    congr 2
    exact firstN_congr fun i _ => by rw [Nat.zero_add]
  · show firstN (fun i => (set (copy left.rids (left.keyNum + 1) right.rids 0 right.keyNum)
      (left.keyNum + 1 + right.keyNum) (right.rids right.keyNum) i).pageNum) (left.keyNum + 1 + right.keyNum + 1) = _
    rw [map_set RID.pageNum, firstN_set_next, map_copy RID.pageNum, firstN_copy_append, ← hleft.children,
      ← hright.children, append_assoc, childList, childList, firstN_succ _ right.keyNum]
    congr 2
    exact firstN_congr fun i _ => by rw [Nat.zero_add]

theorem InternNode.merge_moved (hleft : InternNode left par K C) (hright : InternNode right par' K' C') (sep : Key) :
    firstN (fun i => ((left.merge order sep right).rids (left.keyNum + 1 + i)).pageNum) (right.keyNum + 1) = C' := by
  have hl := hleft.length_eq
  have hr := hright.length_eq
  have hmerge : InternNode (left.merge order sep right) par (K ++ sep :: K') (C ++ C') := hleft.merge hright sep
  have hchildren := (firstN_eq_iff.mp hmerge.children).2
  have hcount : (left.merge order sep right).keyNum + 1 = C.length + C'.length := by
    have := congrArg List.length hmerge.children
    simpa [childList] using this
  refine firstN_eq_iff.mpr ⟨by omega, fun i hi => ?_⟩
  have hget := hchildren (left.keyNum + 1 + i) (by omega)
  rw [getElem?_append_right (by omega)] at hget
  rw [← hget]
  congr 1
  omega

section
variable {parent : IndexNode} {ks₁ ks₂ : List Key} {k : Key} {ps : List PageNum}

theorem InternNode.setKey (hnode : InternNode parent par (ks₁ ++ k :: ks₂) ps) (k' : Key) :
    InternNode { parent with keys := set parent.keys ks₁.length k' } par (ks₁ ++ k' :: ks₂) ps where
  isLeaf := hnode.isLeaf
  parent := hnode.parent
  keys := by
    have hlen := hnode.length_eq.1
    have hget := (firstN_eq_iff.mp hnode.keys).2
    simp only [length_append, length_cons] at hlen
    refine firstN_eq_iff.mpr ⟨by simp [hlen], fun i hi => ?_⟩
    have hi' : i < parent.keyNum := hi
    by_cases heq : i = ks₁.length
    · rw [heq]
      simp [set_same]
    · show (ks₁ ++ k' :: ks₂)[i]? = some (set parent.keys ks₁.length k' i)
      rw [set_ne heq, ← hget i hi']
      rcases Nat.lt_or_gt_of_ne heq with hlt | hgt
      · rw [getElem?_append_left hlt, getElem?_append_left hlt]
      · rw [getElem?_append_right hgt.le, getElem?_append_right hgt.le, getElem?_cons, getElem?_cons,
          if_neg (by omega), if_neg (by omega)]
  children := hnode.children

theorem InternNode.sepPos {ps₁ ps₂ : List PageNum} {p q : PageNum}
    (hnode : InternNode parent par (ks₁ ++ k :: ks₂) (ps₁ ++ p :: q :: ps₂)) (hlen : ps₁.length = ks₁.length)
    (hp : p ∉ ps₁) : parent.sepPos p = ks₁.length := by
  have hcount := hnode.length_eq.1
  have hget := (firstN_eq_iff.mp hnode.children).2
  simp only [length_append, length_cons] at hcount
  refine firstIdx_eq (by omega) (fun _ => ?_) fun j hj => ?_
  · have hslot := hget ks₁.length (by omega)
    rw [← hlen, getElem?_append_right (le_refl _), Nat.sub_self] at hslot
    rw [← hlen]
    exact decide_eq_true (Option.some.inj hslot).symm
  · have hslot := hget j (by omega)
    rw [getElem?_append_left (by omega)] at hslot
    refine decide_eq_false fun heq => hp ?_
    rw [← heq]
    exact mem_of_getElem? hslot

end

section
variable (parent : IndexNode) (k : Nat)

theorem leafFromRight_nodes {e : Key × RID} (hleft : LeafNode left par L) (hright : LeafNode right par' (e :: R)) :
    LeafNode (leafFromRight left right parent k).left par (L ++ [e]) ∧
      LeafNode (leafFromRight left right parent k).right par' R := by
  have hfirst : zip right.keys right.rids 0 = e := eq_of_firstN_split (A := []) hright.entries
  refine ⟨⟨hleft.isLeaf, hleft.parent, ?_⟩, ⟨hright.isLeaf, hright.parent, ?_⟩⟩
  · show firstN (zip (set left.keys left.keyNum (right.keys 0)) (set left.rids left.keyNum (right.rids 0)))
      (left.keyNum + 1) = _
    rw [zip_set, firstN_set_next, ← hfirst, ← hleft.entries]
    rfl
  · show firstN (zip (shiftDown right.keys 0 (right.keyNum - 1)) (shiftDown right.rids 0 (right.keyNum - 1)))
      (right.keyNum - 1) = _
    rw [zip_shiftDown]
    exact firstN_shiftDown (A := []) hright.entries

theorem leafFromRight_next (hleft : left.keyNum < order - 1) (hright : right.keyNum ≤ order - 1) :
    (leafFromRight left right parent k).left.next order = left.next order ∧
      (leafFromRight left right parent k).right.next order = right.next order := by
  constructor
  · show (set left.rids left.keyNum (right.rids 0) (order - 1)).pageNum = _
    rw [set_ne (by omega)]
    rfl
  · show (shiftDown right.rids 0 (right.keyNum - 1) (order - 1)).pageNum = _
    rw [shiftDown_apply, if_neg (by omega)]
    rfl

theorem leafFromLeft_nodes {e : Key × RID} (hleft : LeafNode left par (L ++ [e])) (hright : LeafNode right par' R) :
    LeafNode (leafFromLeft left right parent k).left par L ∧
      LeafNode (leafFromLeft left right parent k).right par' ((e.1, right.rids 0) :: R) := by
  have hcount := hleft.length_eq
  rw [length_append, length_singleton] at hcount
  have hlast : left.keys (left.keyNum - 1) = e.1 := by
    rw [hcount]
    exact congrArg Prod.fst (eq_of_firstN_split hleft.entries)
  refine ⟨⟨hleft.isLeaf, hleft.parent, ?_⟩, ⟨hright.isLeaf, hright.parent, ?_⟩⟩
  · show firstN (zip left.keys left.rids) (left.keyNum - 1) = _
    have htake := firstN_take (zip left.keys left.rids) (show left.keyNum - 1 ≤ left.keyNum by omega)
    rw [← htake]
    have hentries : firstN (zip left.keys left.rids) left.keyNum = L ++ [e] := hleft.entries
    rw [hentries, show left.keyNum - 1 = L.length by omega]
    simp
  · have hrids : shiftUp right.rids 0 right.keyNum = set (shiftUp right.rids 0 right.keyNum) 0 (right.rids 0) := by
      funext j
      by_cases hj : j = 0
      · rw [hj, set_same, shiftUp_apply, if_neg (by omega)]
      · rw [set_ne hj]
    show firstN (zip (set (shiftUp right.keys 0 right.keyNum) 0 (left.keys (left.keyNum - 1)))
      (shiftUp right.rids 0 right.keyNum)) (right.keyNum + 1) = _
    rw [hrids, zip_set, zip_shiftUp, hlast]
    exact firstN_shiftUp_set (A := []) _ hright.entries

theorem leafFromLeft_next (hright : right.keyNum < order - 1) :
    (leafFromLeft left right parent k).left.next order = left.next order ∧
      (leafFromLeft left right parent k).right.next order = right.next order := by
  refine ⟨rfl, ?_⟩
  show (shiftUp right.rids 0 right.keyNum (order - 1)).pageNum = _
  rw [shiftUp_apply, if_neg (by omega)]
  rfl

/-- The right node gets the last child of the left one; its own last child is the one that the slot behind the
    slots in use held. -/
theorem internFromLeft_nodes {k₀ : Key} {c z : PageNum}
    (hleft : InternNode left par (K ++ [k₀]) (C ++ [c])) (hright : InternNode right par' K' (C' ++ [z])) :
    InternNode (internFromLeft left right parent k).left par K C ∧
      InternNode (internFromLeft left right parent k).right par' (parent.keys k :: K')
        (c :: C' ++ [(right.rids (right.keyNum + 1)).pageNum]) ∧
      (internFromLeft left right parent k).parent = { parent with keys := set parent.keys k k₀ } ∧
      ((internFromLeft left right parent k).right.rids 0).pageNum = c := by
  obtain ⟨hl, hlc⟩ := hleft.length_eq
  obtain ⟨hr, hrc⟩ := hright.length_eq
  simp only [length_append, length_singleton] at hl hlc hrc
  have hkeys : firstN left.keys left.keyNum = K ++ [k₀] := hleft.keys
  have hchildren : firstN (fun i => (left.rids i).pageNum) (left.keyNum + 1) = C ++ [c] := hleft.children
  have hlast : (left.rids left.keyNum).pageNum = c := by
    have := eq_of_firstN_split hchildren
    rwa [show C.length = left.keyNum by omega] at this
  have hlastKey : left.keys (left.keyNum - 1) = k₀ := by
    have := eq_of_firstN_split hkeys
    rwa [show K.length = left.keyNum - 1 by omega] at this
  refine ⟨⟨hleft.isLeaf, hleft.parent, ?_, ?_⟩, ⟨hright.isLeaf, hright.parent, ?_, ?_⟩, ?_, hlast⟩
  · show firstN left.keys (left.keyNum - 1) = K
    rw [← firstN_take left.keys (show left.keyNum - 1 ≤ left.keyNum by omega), hkeys,
      show left.keyNum - 1 = K.length by omega]
    simp
  · show firstN (fun i => (left.rids i).pageNum) (left.keyNum - 1 + 1) = C
    rw [← firstN_take _ (show left.keyNum - 1 + 1 ≤ left.keyNum + 1 by omega), hchildren,
      show left.keyNum - 1 + 1 = C.length by omega]
    simp
  · exact firstN_shiftUp_set (A := []) _ hright.keys
  · -- The loop moves the children before the last one; the last slot is the one it does not write.
    have hfront : firstN (fun i => (right.rids i).pageNum) right.keyNum = C' := by
      have hall : firstN (fun i => (right.rids i).pageNum) (right.keyNum + 1) = C' ++ [z] := hright.children
      rw [← firstN_take _ (show right.keyNum ≤ right.keyNum + 1 by omega), hall, show right.keyNum = C'.length by omega]
      simp
    have hins := @firstN_shiftUp_set _ _ _ [] C' c hfront
    show firstN (fun i => (set (shiftUp right.rids 0 right.keyNum) 0 (left.rids left.keyNum) i).pageNum)
      (right.keyNum + 1 + 1) = _
    rw [map_set RID.pageNum, map_shiftUp RID.pageNum, firstN_succ, hlast]
    have hslot : set (shiftUp (fun i => (right.rids i).pageNum) 0 right.keyNum) 0 c (right.keyNum + 1) =
        (right.rids (right.keyNum + 1)).pageNum := by
      rw [set_ne (by omega), shiftUp_apply, if_neg (by omega)]
    rw [hslot]
    congr 1
  · rw [← hlastKey]
    rfl

/-- After the node on the left has taken its first child, the last child but one of the right node stands there twice
    and the last one is gone. -/
theorem internFromRight_children {c y z : PageNum} (hright : InternNode right par' K' (c :: C' ++ [y, z])) :
    (internFromRight left right parent k).right.childList = C' ++ [y, y] ∧
      ((internFromRight left right parent k).left.rids (internFromRight left right parent k).left.keyNum).pageNum =
        c := by
  obtain ⟨hr, hrc⟩ := hright.length_eq
  simp only [length_append, length_cons, length_nil] at hrc
  have hget := (firstN_eq_iff.mp hright.children).2
  have hfirst : (right.rids 0).pageNum = c := eq_of_firstN_split (A := []) hright.children
  refine ⟨?_, ?_⟩
  swap
  · show (set left.rids (left.keyNum + 1) (right.rids 0) (left.keyNum + 1)).pageNum = c
    rw [set_same, hfirst]
  show firstN (fun i => (shiftDown right.rids 0 (right.keyNum - 1) i).pageNum) (right.keyNum - 1 + 1) = _
  rw [map_shiftDown RID.pageNum]
  refine firstN_eq_iff.mpr ⟨by simp; omega, fun i hi => ?_⟩
  rw [shiftDown_apply]
  by_cases hlast : i = right.keyNum - 1
  · rw [if_neg (by omega), hlast, ← hget (right.keyNum - 1) (by omega)]
    have hidx : right.keyNum - 1 = C'.length + 1 := by omega
    rw [hidx, getElem?_append_right (by omega)]
    simp
  · rw [if_pos (by omega), ← hget (i + 1) (by omega)]
    rcases Nat.lt_or_ge i C'.length with hlt | hge
    · rw [getElem?_append_left hlt, getElem?_append_left (by simp; omega)]
      simp
    · have hidx : i = C'.length := by omega
      simp [hidx]

end

end MiniOb
