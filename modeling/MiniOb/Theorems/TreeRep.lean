import MiniOb.Index.Insert
import MiniOb.Index.Delete
import MiniOb.Lib.BTree

/-! # The tree in the pages

`Rep` says that the nodes reachable from a page are a given tree, `Linked` that the leaf chain passes through given
pages. `Holds` is the well-formedness of an index. -/

namespace MiniOb
open Slots BTree List
variable {order : Nat} {last : PageNum}

variable {L : Type} [LinearOrder L] {σ σ' : Pages} {par p : PageNum} {n : Nat}

abbrev IndexTree (n : Nat) := Tree PageNum Key RID n

/-- The occupancy that the code keeps: `min_key` to `order - 1` keys. -/
def shape (order : Nat) : Shape where
  minKeys n := minKey order (n == 0)
  maxKeys := order - 1

abbrev Full {L : Type} [LinearOrder L] (rank : Key → L) (order : Nat) {n : Nat} :
    WithBot L → WithTop L → IndexTree n → Prop :=
  WF rank (shape order) n ((shape order).minKeys n)

structure LeafNode (node : IndexNode) (par : PageNum) (entries : List (Key × RID)) : Prop where
  isLeaf : node.isLeaf = true
  parent : node.parent = par
  entries : node.entryList = entries

structure InternNode (node : IndexNode) (par : PageNum) (keys : List Key) (children : List PageNum) : Prop where
  isLeaf : node.isLeaf = false
  parent : node.parent = par
  keys : node.keyList = keys
  children : node.childList = children

/-- The pages hold the tree, and its root node names `par` as its parent. -/
def Rep (σ : Pages) : {n : Nat} → PageNum → IndexTree n → Prop
  | 0, par, t => ∃ node, σ.get (Leaf.page t) = some node ∧ LeafNode node par (Leaf.entries t)
  | _ + 1, par, t =>
    (∃ node, σ.get (Branch.page t) = some node ∧
      InternNode node par (Branch.keys t) ((Branch.children t).map Tree.page)) ∧
    ∀ c ∈ Branch.children t, Rep σ (Branch.page t) c

theorem rep_leaf {es : List (Key × RID)} :
    Rep σ par (Tree.leaf p es) ↔ ∃ node, σ.get p = some node ∧ LeafNode node par es := Iff.rfl

theorem rep_branch {ks : List Key} {cs : List (IndexTree n)} :
    Rep σ par (Tree.branch p ks cs) ↔
      (∃ node, σ.get p = some node ∧ InternNode node par ks (cs.map Tree.page)) ∧ ∀ c ∈ cs, Rep σ p c := Iff.rfl

/-- The pages follow one another by the links of their leaves; the last one links to `last`. -/
def Linked (σ : Pages) (order : Nat) : List PageNum → PageNum → Prop
  | [], _ => True
  | p :: ps, last => (∃ node, σ.get p = some node ∧ node.next order = ps.headD last) ∧ Linked σ order ps last

/-- The handler's pages hold the well-formed tree `t`; `rank` is an order of the keys. -/
structure Holds (rank : Key → L) (h : BplusTreeHandler) {n : Nat} (t : IndexTree n) : Prop where
  root : h.fileHeader.rootPage = t.page
  rep : Rep h.pages (-1) t
  wf : WFRoot rank (shape h.fileHeader.order) n t
  nodup : t.pages.Nodup
  positive : ∀ p ∈ t.pages, 0 < p
  linked : Linked h.pages h.fileHeader.order t.leaves 0

theorem Rep.congr : ∀ {n : Nat} {par : PageNum} {t : IndexTree n},
    (∀ p ∈ t.pages, σ'.get p = σ.get p) → Rep σ par t → Rep σ' par t
  | 0, _, t, same, ⟨node, hget, hnode⟩ => ⟨node, (same _ t.page_mem_pages).trans hget, hnode⟩
  | _ + 1, _, t, same, ⟨⟨node, hget, hnode⟩, hchildren⟩ => by
    refine ⟨⟨node, (same _ t.page_mem_pages).trans hget, hnode⟩, fun c hc => ?_⟩
    exact (hchildren c hc).congr fun p hp => same p (mem_cons_of_mem _ (mem_flatMap.mpr ⟨c, hc, hp⟩))

theorem Linked.congr_next : ∀ {ps : List PageNum},
    (∀ p ∈ ps, ∀ node, σ.get p = some node → ∃ node', σ'.get p = some node' ∧ node'.next order = node.next order) →
    Linked σ order ps last → Linked σ' order ps last
  | [], _, _ => trivial
  | p :: _, same, ⟨⟨node, hget, hnext⟩, htail⟩ => by
    obtain ⟨node', hget', hnext'⟩ := same p mem_cons_self node hget
    exact ⟨⟨node', hget', hnext'.trans hnext⟩, htail.congr_next fun q hq => same q (mem_cons_of_mem _ hq)⟩

theorem Linked.congr {ps : List PageNum}
    (same : ∀ p ∈ ps, σ'.get p = σ.get p) (h : Linked σ order ps last) : Linked σ' order ps last :=
  h.congr_next fun p hp node hget => ⟨node, (same p hp).trans hget, rfl⟩

theorem linked_append {σ : Pages} {qs : List PageNum} : ∀ {ps : List PageNum},
    Linked σ order (ps ++ qs) last ↔ Linked σ order ps (qs.headD last) ∧ Linked σ order qs last
  | [] => by simp [Linked]
  | p :: ps => by
    have hhead : (ps ++ qs).headD last = ps.headD (qs.headD last) := by cases ps <;> simp
    simp only [cons_append, Linked, linked_append, hhead, and_assoc]

theorem Rep.get_isSome : ∀ {n : Nat} {par : PageNum} {t : IndexTree n}, Rep σ par t →
    ∀ p ∈ t.pages, (σ.get p).isSome
  | 0, _, t, ⟨node, hget, _⟩, p, hp => by
    obtain rfl : p = Leaf.page t := mem_singleton.mp hp
    rw [hget]
    rfl
  | _ + 1, _, t, ⟨⟨node, hget, _⟩, hchildren⟩, p, hp => by
    rcases mem_cons.mp hp with rfl | hp
    · rw [hget]
      rfl
    · obtain ⟨c, hc, hpc⟩ := mem_flatMap.mp hp
      exact (hchildren c hc).get_isSome p hpc

theorem Rep.not_mem_of_get_eq_none {t : IndexTree n} (h : Rep σ par t) (hp : σ.get p = none) : p ∉ t.pages := by
  intro hmem
  have := h.get_isSome p hmem
  rw [hp] at this
  cases this

def IndexNode.withParent (q : PageNum) (node : IndexNode) : IndexNode := { node with parent := q }

theorem Rep.reparent {q : PageNum} {t : IndexTree n} (h : Rep σ par t)
    (nodup : t.pages.Nodup) (hroot : σ'.get t.page = (σ.get t.page).map (IndexNode.withParent q))
    (same : ∀ p ∈ t.pages, p ≠ t.page → σ'.get p = σ.get p) : Rep σ' q t := by
  cases n with
  | zero =>
    obtain ⟨node, hget, hnode⟩ := h
    refine ⟨node.withParent q, ?_, ⟨hnode.isLeaf, rfl, hnode.entries⟩⟩
    exact hroot.trans (by rw [show σ.get t.page = some node from hget]; rfl)
  | succ n =>
    obtain ⟨⟨node, hget, hnode⟩, hchildren⟩ := h
    refine ⟨⟨node.withParent q, ?_, ⟨hnode.isLeaf, rfl, hnode.keys, hnode.children⟩⟩, fun c hc => ?_⟩
    · exact hroot.trans (by rw [show σ.get t.page = some node from hget]; rfl)
    · refine (hchildren c hc).congr fun p hp => ?_
      have hmem : p ∈ (Branch.children t).flatMap Tree.pages := mem_flatMap.mpr ⟨c, hc, hp⟩
      refine same p (mem_cons_of_mem _ hmem) fun heq => ?_
      obtain rfl : p = Branch.page t := heq
      exact (nodup_cons.mp nodup).1 hmem

theorem setParents_run {q : PageNum} : ∀ {ps : List PageNum} {h : BplusTreeHandler},
    (∀ p ∈ ps, (h.pages.get p).isSome) →
    ∃ σ', setParents q ps h = some (.ok (), { h with pages := σ' }) ∧
      ∀ p, σ'.get p = if p ∈ ps then (h.pages.get p).map (IndexNode.withParent q) else h.pages.get p
  | [], h, _ => ⟨h.pages, rfl, fun p => by simp⟩
  | p :: ps, h, hsome => by
    obtain ⟨node, hget⟩ := Option.isSome_iff_exists.mp (hsome p mem_cons_self)
    have hsome' : ∀ r ∈ ps, ((h.pages.set p (node.withParent q)).get r).isSome := by
      intro r hr
      by_cases hrp : r = p
      · simp [hrp]
      · rw [Pages.get_set_ne hrp]
        exact hsome r (mem_cons_of_mem _ hr)
    obtain ⟨σ', hrun, hσ'⟩ := setParents_run (q := q) (h := { h with pages := h.pages.set p (node.withParent q) })
      hsome'
    refine ⟨σ', ?_, fun r => ?_⟩
    · rw [setParents, Op.bind_ok (setParent_of_get hget)]
      exact hrun
    · rw [hσ' r]
      by_cases hrp : r = p
      · subst hrp
        simp [hget, IndexNode.withParent]
      · simp only [Pages.get_set_ne hrp, mem_cons, hrp, false_or]

section FindLeaf
variable {h : BplusTreeHandler} {pkey : Key}

/-- The test of the loop of `find_leaf`: the key is to the left of `k`. -/
def before (header : IndexFileHeader) (pkey k : Key) : Bool := decide (cmpKey header pkey k < 0)

theorem InternNode.child_page {node : IndexNode} {par : PageNum} {ks : List Key} {ps : List PageNum}
    (hnode : InternNode node par ks ps) :
    ps[ks.findIdx (before h.fileHeader pkey)]? = some (node.rids (firstIdx node.keyNum fun i =>
        decide (cmpKey h.fileHeader pkey (node.keys i) < 0))).pageNum := by
  have hkeys : firstN node.keys node.keyNum = ks := hnode.keys
  have hidx := firstIdx_eq_findIdx node.keys node.keyNum (before h.fileHeader pkey)
  rw [hkeys] at hidx
  have hle := firstIdx_le node.keyNum fun i => before h.fileHeader pkey (node.keys i)
  rw [← hnode.children, ← hidx, IndexNode.childList, firstN_getElem?, if_pos (by omega)]
  rfl

theorem findLeafLoop_spec : ∀ {n fuel : Nat} {par : PageNum} {t : IndexTree n} {node : IndexNode},
    n < fuel → Rep h.pages par t → h.pages.get t.page = some node →
    ∃ leaf, find (before h.fileHeader pkey) t = some leaf ∧
      findLeafLoop pkey fuel t.page node { h with pins := addPins h.pins t.page 1 } = some (.ok leaf.page, h)
  | 0, fuel + 1, _, t, node, _, ⟨node', hget', hnode⟩, hget => by
    obtain rfl : node' = node := Option.some.inj (hget'.symm.trans hget)
    refine ⟨t, rfl, ?_⟩
    rw [findLeafLoop, if_pos hnode.isLeaf, Op.bind_ok unpinPage_apply]
    simp [Tree.page]
  | n + 1, fuel + 1, par, t, node, hfuel, hrep, hget => by
    obtain ⟨page, keys, children, rfl⟩ := t.eq_branch
    obtain ⟨⟨node', hget', hnode⟩, hchildren⟩ := rep_branch.mp hrep
    obtain rfl : node' = node := Option.some.inj (hget'.symm.trans hget)
    have hchild := @InternNode.child_page h pkey _ _ _ _ hnode
    rw [getElem?_map] at hchild
    obtain ⟨c, hc, hcpage⟩ := Option.map_eq_some_iff.mp hchild
    have hcrep : Rep h.pages page c := hchildren c (mem_of_getElem? hc)
    obtain ⟨cnode, hcget⟩ := Option.isSome_iff_exists.mp (hcrep.get_isSome _ c.page_mem_pages)
    obtain ⟨leaf, hfind, hrun⟩ := findLeafLoop_spec (Nat.lt_of_succ_lt_succ hfuel) hcrep hcget
    refine ⟨leaf, ?_, ?_⟩
    · show (children[keys.findIdx (before h.fileHeader pkey)]?).bind (find _) = some leaf
      rw [hc]
      exact hfind
    rw [findLeafLoop, if_neg (by simp [hnode.isLeaf]), Op.bind_fileHeader,
      Op.bind_ok unpinPage_apply]
    simp only [← hcpage, Tree.page_branch, addPins_addPins_neg]
    rw [bind_getThisPage hcget]
    exact hrun

theorem findLeaf_spec {n fuel : Nat} {t : IndexTree n} (hroot : h.fileHeader.rootPage = t.page)
    (hrep : Rep h.pages (-1) t) (hfuel : n < fuel) :
    ∃ leaf, find (before h.fileHeader pkey) t = some leaf ∧ findLeaf fuel pkey h = some (.ok leaf.page, h) := by
  obtain ⟨node, hget⟩ := Option.isSome_iff_exists.mp (hrep.get_isSome _ t.page_mem_pages)
  obtain ⟨leaf, hfind, hrun⟩ := findLeafLoop_spec hfuel hrep hget
  refine ⟨leaf, hfind, ?_⟩
  rw [findLeaf, Op.bind_fileHeader, hroot, bind_getThisPage hget]
  exact hrun

end FindLeaf

end MiniOb
