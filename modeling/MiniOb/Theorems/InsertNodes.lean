import MiniOb.Theorems.TreeRep

/-! # The nodes that an insertion writes

A split is an insertion into the list followed by a cut. -/

namespace MiniOb
open Slots BTree List
variable {node page : IndexNode} {par : PageNum}

theorem LeafNode.insertPair {A B : List (Key × RID)} (hnode : LeafNode node par (A ++ B)) (pkey : Key) (rid : RID) :
    LeafNode (node.insertPair A.length pkey rid) par (A ++ (pkey, rid) :: B) where
  isLeaf := hnode.isLeaf
  parent := hnode.parent
  entries := by
    show firstN (zip (set (shiftUp node.keys A.length node.keyNum) A.length pkey)
      (set (shiftUp node.rids A.length node.keyNum) A.length rid)) (node.keyNum + 1) = _
    rw [zip_set, zip_shiftUp]
    exact firstN_shiftUp_set _ hnode.entries

theorem LeafNode.temp_entries {A B : List (Key × RID)} (hnode : LeafNode node par (A ++ B)) (pkey : Key) (rid : RID) :
    firstN (zip (set (spread (fun _ => pkey) node.keys A.length node.keyNum) A.length pkey)
      (set (spread (fun _ => rid) node.rids A.length node.keyNum) A.length rid)) (node.keyNum + 1) =
      A ++ (pkey, rid) :: B := by
  have hlen : node.keyNum = A.length + B.length := by
    have := congrArg List.length hnode.entries
    simpa [IndexNode.entryList] using this
  rw [zip_set, zip_spread _ _ _ _ (by omega)]
  exact firstN_spread_set _ hnode.entries

theorem firstN_zip_set_unused {α β : Type} (a : Nat → α) (b : Nat → β) {i n : Nat} (y : β) (h : n ≤ i) :
    firstN (zip a (set b i y)) n = firstN (zip a b) n := by
  refine firstN_congr fun j hj => ?_
  show (a j, set b i y j) = (a j, b j)
  rw [set_ne (by omega)]

section
variable {order : Nat} {A B : List (Key × RID)} (horder : 3 ≤ order) (hnode : LeafNode node par (A ++ B))
  (hfull : node.keyNum + 1 = order) (newPage : PageNum) (pkey : Key) (rid : RID)
include horder hnode hfull

theorem LeafNode.splitLeaf_left :
    LeafNode (splitLeaf order node page newPage A.length pkey rid).left par ((A ++ (pkey, rid) :: B).take
      (order / 2)) where
  isLeaf := hnode.isLeaf
  parent := hnode.parent
  entries := by
    rw [← hnode.temp_entries pkey rid, firstN_take _ (by omega)]
    show firstN (zip (copy node.keys 0 _ 0 (order / 2)) (set (copy node.rids 0 _ 0 (order / 2)) (order - 1) _))
      (order / 2) = _
    rw [firstN_zip_set_unused _ _ _ (by omega), zip_copy, firstN_copy]
    exact firstN_congr fun i _ => by rw [Nat.zero_add]

theorem LeafNode.splitLeaf_right :
    LeafNode (splitLeaf order node page newPage A.length pkey rid).right par ((A ++ (pkey, rid) :: B).drop
      (order / 2)) where
  isLeaf := rfl
  parent := hnode.parent
  entries := by
    rw [← hnode.temp_entries pkey rid, firstN_drop _ (by omega), hfull]
    show firstN (zip (copy page.keys 0 _ (order / 2) (order - order / 2))
      (set (copy page.rids 0 _ (order / 2) (order - order / 2)) (order - 1) _)) (order - order / 2) = _
    rw [firstN_zip_set_unused _ _ _ (by omega), zip_copy, firstN_copy]

theorem LeafNode.splitLeaf_newKey :
    ∃ e rest, (A ++ (pkey, rid) :: B).drop (order / 2) = e :: rest ∧
      (splitLeaf order node page newPage A.length pkey rid).newKey = e.1 := by
  have hentries : (splitLeaf order node page newPage A.length pkey rid).right.entryList = _ :=
    (hnode.splitLeaf_right horder hfull newPage pkey rid).entries
  have hpos : order - order / 2 = (order - order / 2 - 1) + 1 := by omega
  cases hdrop : (A ++ (pkey, rid) :: B).drop (order / 2) with
  | nil =>
    rw [hdrop] at hentries
    have := congrArg List.length hentries
    simp only [IndexNode.entryList, firstN_length, length_nil] at this
    have : order - order / 2 = 0 := this
    omega
  | cons e rest =>
    rw [hdrop] at hentries
    refine ⟨e, rest, rfl, ?_⟩
    have hhead := eq_of_firstN_split (A := []) hentries
    exact congrArg Prod.fst hhead

omit hnode hfull in
theorem splitLeaf_next (pos : Nat) :
    (splitLeaf order node page newPage pos pkey rid).left.next order = newPage ∧
      (splitLeaf order node page newPage pos pkey rid).right.next order = node.next order := by
  constructor
  · show (set _ (order - 1) (⟨newPage, -1⟩ : RID) (order - 1)).pageNum = newPage
    rw [set_same]
  · show RID.pageNum (set _ (order - 1) _ (order - 1)) = (node.rids (order - 1)).pageNum
    rw [set_same, copy_apply, if_neg (by omega)]

end

theorem insertPair_next {order pos : Nat} (hlt : node.keyNum + 1 < order) (hpos : pos ≤ node.keyNum) (pkey : Key)
    (rid : RID) : (node.insertPair pos pkey rid).next order = node.next order := by
  show (set (shiftUp node.rids pos node.keyNum) pos rid (order - 1)).pageNum = (node.rids (order - 1)).pageNum
  rw [set_ne (by omega), shiftUp_apply, if_neg (by omega)]

section
variable {ks₁ ks₂ : List Key} {ps₁ ps₂ : List PageNum} {p : PageNum}
  (hnode : InternNode node par (ks₁ ++ ks₂) (ps₁ ++ p :: ps₂)) (hlen : ps₁.length = ks₁.length)
include hnode

theorem InternNode.childPos (hp : p ∉ ps₁) : node.childPos p = ps₁.length := by
  have hchildren : firstN (fun i => (node.rids i).pageNum) (node.keyNum + 1) = ps₁ ++ p :: ps₂ := hnode.children
  rw [IndexNode.childPos, firstIdx_eq_findIdx (fun i => (node.rids i).pageNum) (node.keyNum + 1) fun q =>
    decide (q = p), hchildren, findIdx_append]
  have hfront : ps₁.findIdx (fun q => decide (q = p)) = ps₁.length :=
    findIdx_eq_length.mpr fun q hq => decide_eq_false fun h => hp (h ▸ hq)
  rw [hfront, if_neg (Nat.lt_irrefl _)]
  simp [findIdx_cons]

theorem InternNode.keyNum_eq : node.keyNum = ks₁.length + ks₂.length := by
  have := congrArg List.length hnode.keys
  simpa [IndexNode.keyList] using this

theorem InternNode.children_split :
    firstN (fun i => (node.rids i).pageNum) (node.keyNum + 1) = (ps₁ ++ [p]) ++ ps₂ := by
  have hchildren : firstN (fun i => (node.rids i).pageNum) (node.keyNum + 1) = ps₁ ++ p :: ps₂ := hnode.children
  simpa using hchildren

include hlen

theorem InternNode.insertChild (pkey : Key) (q : PageNum) :
    InternNode (node.insertChild ps₁.length pkey q) par (ks₁ ++ pkey :: ks₂) (ps₁ ++ p :: q :: ps₂) where
  isLeaf := hnode.isLeaf
  parent := hnode.parent
  keys := by
    rw [hlen]
    exact firstN_shiftUp_set pkey hnode.keys
  children := by
    have hins := firstN_shiftUp_set q hnode.children_split
    have hpos : (ps₁ ++ [p]).length = ps₁.length + 1 := by simp
    rw [hpos] at hins
    show firstN (fun i => (set (shiftUp node.rids (ps₁.length + 1) (node.keyNum + 1)) (ps₁.length + 1)
      (⟨q, bpInvalidPageNum⟩ : RID) i).pageNum) (node.keyNum + 1 + 1) = _
    rw [map_set RID.pageNum, map_shiftUp RID.pageNum, hins]
    simp

theorem InternNode.temp_keys (pkey : Key) :
    firstN (set (spread (fun _ => pkey) node.keys ps₁.length node.keyNum) ps₁.length pkey) (node.keyNum + 1) =
      ks₁ ++ pkey :: ks₂ := by
  rw [hlen]
  exact firstN_spread_set pkey hnode.keys

omit hlen in
theorem InternNode.temp_children (hlen : ps₁.length = ks₁.length) (q : PageNum) :
    firstN (fun i => (set (spread (fun _ => (⟨q, -1⟩ : RID)) node.rids (ps₁.length + 1) (node.keyNum + 1))
      (ps₁.length + 1) ⟨q, -1⟩ i).pageNum) (node.keyNum + 1 + 1) = ps₁ ++ p :: q :: ps₂ := by
  have hkeys := hnode.keyNum_eq
  have hpos : (ps₁ ++ [p]).length = ps₁.length + 1 := by simp
  have hins := @firstN_spread_set _ _ _ (fun _ => q) _ _ q hnode.children_split
  rw [hpos] at hins
  rw [map_set RID.pageNum, map_spread RID.pageNum _ _ (by omega), hins]
  simp

section
variable {order : Nat} (horder : 3 ≤ order) (hfull : node.keyNum + 1 = order) (pkey : Key) (q : PageNum)
include horder hfull

theorem InternNode.splitIntern_left (page : IndexNode) :
    InternNode (splitIntern order node page ps₁.length pkey q).left par
      ((ks₁ ++ pkey :: ks₂).take ((order + 1) / 2 - 1)) ((ps₁ ++ p :: q :: ps₂).take ((order + 1) / 2)) where
  isLeaf := hnode.isLeaf
  parent := hnode.parent
  keys := by
    rw [← hnode.temp_keys hlen pkey, firstN_take _ (by omega)]
    show firstN (copy node.keys 0 _ 0 ((order + 1) / 2 - 1)) ((order + 1) / 2 - 1) = _
    rw [firstN_copy]
    exact firstN_congr fun i _ => by rw [Nat.zero_add]
  children := by
    rw [← hnode.temp_children hlen q, firstN_take _ (by omega)]
    have hcount : (order + 1) / 2 - 1 + 1 = (order + 1) / 2 := by omega
    show firstN (fun i => (copy node.rids 0 _ 0 ((order + 1) / 2) i).pageNum) ((order + 1) / 2 - 1 + 1) = _
    rw [map_copy RID.pageNum, hcount, firstN_copy]
    exact firstN_congr fun i _ => by rw [Nat.zero_add]

theorem InternNode.splitIntern_right (page : IndexNode) :
    InternNode (splitIntern order node page ps₁.length pkey q).right par
      ((ks₁ ++ pkey :: ks₂).drop ((order + 1) / 2)) ((ps₁ ++ p :: q :: ps₂).drop ((order + 1) / 2)) where
  isLeaf := rfl
  parent := hnode.parent
  keys := by
    rw [← hnode.temp_keys hlen pkey, firstN_drop _ (by omega), hfull]
    exact firstN_copy _ _ _ _
  children := by
    rw [← hnode.temp_children hlen q, firstN_drop _ (by omega)]
    have hcount : node.keyNum + 1 + 1 - (order + 1) / 2 = order - (order + 1) / 2 + 1 := by omega
    show firstN (fun i => (copy page.rids 0 _ ((order + 1) / 2) (order - (order + 1) / 2 + 1) i).pageNum)
      (order - (order + 1) / 2 + 1) = _
    rw [map_copy RID.pageNum, hcount, firstN_copy]

theorem InternNode.splitIntern_newKey (page : IndexNode) :
    ks₁ ++ pkey :: ks₂ = (ks₁ ++ pkey :: ks₂).take ((order + 1) / 2 - 1) ++
      (splitIntern order node page ps₁.length pkey q).newKey :: (ks₁ ++ pkey :: ks₂).drop ((order + 1) / 2) := by
  have htemp := hnode.temp_keys hlen pkey
  have hget := (firstN_eq_iff.mp htemp).2 ((order + 1) / 2 - 1) (by omega)
  have hlt : (order + 1) / 2 - 1 < (ks₁ ++ pkey :: ks₂).length :=
    (List.getElem?_eq_some_iff.mp hget).1
  have hnext : (order + 1) / 2 - 1 + 1 = (order + 1) / 2 := by omega
  have hcut := drop_eq_getElem_cons hlt
  rw [(List.getElem?_eq_some_iff.mp hget).2, hnext] at hcut
  calc ks₁ ++ pkey :: ks₂
      = (ks₁ ++ pkey :: ks₂).take ((order + 1) / 2 - 1) ++ (ks₁ ++ pkey :: ks₂).drop ((order + 1) / 2 - 1) :=
        (take_append_drop _ _).symm
    _ = _ := by rw [hcut]; rfl

end

end

theorem newRoot_internNode (p q : PageNum) (pkey : Key) : InternNode (newRoot page p pkey q) (-1) [pkey] [p, q] where
  isLeaf := rfl
  parent := rfl
  keys := rfl
  children := rfl

end MiniOb
