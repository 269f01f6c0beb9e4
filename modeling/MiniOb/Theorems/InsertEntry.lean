import MiniOb.Theorems.Insert

/-! # `insert_entry` at the top of the tree

The runs of `insert_into_parent` and `insert_into_new_root`, and the induction on the height. -/

namespace MiniOb
open Slots BTree List Pages Tree Op
variable {fuel : Nat} {leafPage : PageNum}

variable {L : Type} [LinearOrder L] {rank : Key → L}

section Runs
variable {h : BplusTreeHandler} {page left right par : PageNum} {node : IndexNode} {k : Key}

theorem insertIntoParent_room (fuel : Nat) (hpage : page ≠ -1) (hget : h.pages.get page = some node)
    (hroom : node.keyNum < h.order - 1) :
    insertIntoParent (fuel + 1) page left k right h =
      some (.ok (), { h with pages := h.pages.set page (node.insertChild (node.childPos left) k right) }) := by
  rw [insertIntoParent, if_neg hpage, bind_fileHeader, bind_getThisPage hget,
    bind_ok unpinPage_apply, if_pos hroom]
  simp only [addPins_addPins_neg]
  rw [insertInternNode, bind_getThisPage hget, bind_ok putNode_apply, unpinPage_apply]
  simp

/-- The pages between the split of an internal node and the change of its children's parent. -/
def splitPages (h : BplusTreeHandler) (page : PageNum) (r : SplitNodes) : Pages :=
  ((h.pages.set (h.alloc h.pages).1 (h.alloc h.pages).2).set page r.left).set (h.alloc h.pages).1 r.right

theorem insertIntoParent_split (fuel : Nat) (hpage : page ≠ -1) (hget : h.pages.get page = some node)
    (hpar : node.parent = par) (hfull : ¬node.keyNum < h.order - 1) :
    let np := (h.alloc h.pages).1
    let r := splitIntern h.order node (h.alloc h.pages).2 (node.childPos left) k right
    (∀ q ∈ r.right.childList, ((splitPages h page r).get q).isSome) →
    ∃ σ', insertIntoParent (fuel + 1) page left k right h =
      insertIntoParent fuel par page r.newKey np { h with pages := σ' } ∧
      ∀ q, σ'.get q = if q ∈ r.right.childList then ((splitPages h page r).get q).map (IndexNode.withParent np)
        else (splitPages h page r).get q := by
  intro np r hsome
  let h' : BplusTreeHandler := { h with
    pages := splitPages h page r
    pins := addPins (addPins h.pins page 1) np 1 }
  obtain ⟨σ', hrun, hσ'⟩ := @setParents_run np r.right.childList h' hsome
  refine ⟨σ', ?_, hσ'⟩
  rw [insertIntoParent, if_neg hpage, bind_fileHeader, bind_getThisPage hget,
    bind_ok unpinPage_apply, if_neg hfull]
  simp only [addPins_addPins_neg]
  rw [insertInternNodeAfterSplit, bind_fileHeader, bind_getThisPage hget,
    bind_ok (allocatePage_apply _)]
  simp only [hpar]
  rw [bind_ok putNode_apply, bind_ok putNode_apply]
  refine (bind_ok hrun).trans ?_
  rw [bind_ok unpinPage_apply, bind_ok unpinPage_apply]
  show insertIntoParent fuel par page r.newKey np { h with
    pages := σ'
    pins := addPins (addPins (addPins (addPins h.pins page 1) np 1) page (-1)) np (-1) } = _
  rw [addPins_two]

theorem insertIntoNewRoot_run {lnode rnode : IndexNode} (fuel : Nat) (hne : left ≠ right)
    (hleft : h.pages.get left = some lnode) (hright : h.pages.get right = some rnode) (halloc : h.alloc.Fresh) :
    let np := (h.alloc h.pages).1
    insertIntoParent (fuel + 1) (-1) left k right h = some (.ok (), { h with
      pages := (((h.pages.set np (h.alloc h.pages).2).set np (newRoot (h.alloc h.pages).2 left k right)).set left
        (lnode.withParent np)).set right (rnode.withParent np)
      fileHeader := { h.fileHeader with rootPage := np } }) := by
  intro np
  have hunused : h.pages.get np = none := (halloc h.pages).1
  have hlnp : left ≠ np := fun heq => by rw [heq, hunused] at hleft; cases hleft
  have hrnp : right ≠ np := fun heq => by rw [heq, hunused] at hright; cases hright
  have hl : ((h.pages.set np (h.alloc h.pages).2).set np (newRoot (h.alloc h.pages).2 left k right)).get left =
      some lnode := by
    rw [get_set_ne hlnp, get_set_ne hlnp, hleft]
  have hr : (((h.pages.set np (h.alloc h.pages).2).set np (newRoot (h.alloc h.pages).2 left k right)).set left
      (lnode.withParent np)).get right = some rnode := by
    rw [get_set_ne hne.symm, get_set_ne hrnp, get_set_ne hrnp, hright]
  rw [insertIntoParent, if_pos rfl, insertIntoNewRoot, bind_ok (allocatePage_apply _)]
  show (do
    putNode np (newRoot (h.alloc h.pages).2 left k right)
    unpinPage np
    setParent left np
    setParent right np
    setRootPage np : Op Unit)
      { h with pages := h.pages.set np (h.alloc h.pages).2, pins := addPins h.pins np 1 } = _
  rw [bind_ok putNode_apply, bind_ok unpinPage_apply]
  simp only [addPins_addPins_neg]
  rw [bind_ok (setParent_of_get hl), bind_ok (setParent_of_get hr), setRootPage_apply]
  rfl

end Runs

section Outcome
variable {h : BplusTreeHandler} {key : Key} {rid : RID}

/-- What inserting into the leaf `leafPage` below `t` comes to: it is done, or it goes on in the parent. -/
def InsertOutcome (rank : Key → L) (h : BplusTreeHandler) (fuel : Nat) (leafPage par : PageNum) (least : Nat)
    (lo : WithBot L) (hi : WithTop L) (key : Key) (rid : RID) {n : Nat} (t : IndexTree n) : Prop :=
  (∃ σ t', Grown rank h σ par least lo hi key rid t [] [t'] ∧ t'.page = t.page ∧
    insertIntoFoundLeaf fuel leafPage key rid h = some (.ok (), { h with pages := σ })) ∨
  ∃ σ t₁ t₂ k, Grown rank h σ par ((shape h.fileHeader.order).minKeys n) lo hi key rid t [k] [t₁, t₂] ∧
    t₁.page = t.page ∧ insertIntoFoundLeaf fuel leafPage key rid h =
      ignoreRC (insertIntoParent (fuel - n) par t.page k t₂.page) { h with pages := σ }

theorem insertIntoFoundLeaf_room {node : IndexNode}
    (hget : h.pages.get leafPage = some node) (hroom : node.keyNum < h.order - 1) :
    insertIntoFoundLeaf fuel leafPage key rid h = insertIntoLeaf leafPage key rid h := by
  rw [insertIntoFoundLeaf, bind_fileHeader, bind_getThisPage hget,
    bind_ok unpinPage_apply, if_pos hroom]
  simp

theorem insertIntoFoundLeaf_full {node : IndexNode}
    (hget : h.pages.get leafPage = some node) (hfull : ¬node.keyNum < h.order - 1) :
    insertIntoFoundLeaf fuel leafPage key rid h = ignoreRC (insertIntoLeafAfterSplit fuel leafPage key rid) h := by
  rw [insertIntoFoundLeaf, bind_fileHeader, bind_getThisPage hget,
    bind_ok unpinPage_apply, if_neg hfull]
  simp

theorem insertOutcome_leaf (horder : 3 ≤ h.order) (halloc : h.alloc.Fresh)
    {least : Nat} {par p : PageNum} {lo : WithBot L} {hi : WithTop L} {es : List (Key × RID)}
    (hwf : WF rank (shape h.order) 0 least lo hi (leaf p es))
    (hlo : lo ≤ rank key) (hhi : rank key < hi) (hrep : Rep h.pages par (leaf p es))
    (hord : ∀ e ∈ es, Agrees (cmpKey h.fileHeader key e.1) (rank key) (rank e.1))
    (habsent : ∀ e ∈ es, rank e.1 ≠ rank key) : InsertOutcome rank h fuel p par least lo hi key rid (leaf p es) := by
  obtain ⟨node, hget, hnode⟩ := rep_leaf.mp hrep
  obtain ⟨A, B, rfl, hA, hB⟩ := exists_split (wf_leaf.mp hwf).1 habsent
  by_cases hroom : node.keyNum < h.order - 1
  · refine .inl ⟨_, _, grown_leaf hwf hlo hhi hget hnode hA hB hroom, rfl, ?_⟩
    rw [insertIntoFoundLeaf_room hget hroom, insertIntoLeaf_run hget hnode hord hA hB]
  · refine .inr ⟨_, _, _, _, grown_leaf_split horder halloc hwf hlo hhi hget hnode hA hB hroom, rfl, ?_⟩
    rw [insertIntoFoundLeaf_full hget hroom]
    exact ignoreRC_congr (insertIntoLeafAfterSplit_run fuel hget hnode hord hA hB)

theorem splitPages_get {page : PageNum} {r : SplitNodes} (hne : page ≠ (h.alloc h.pages).1) :
    (splitPages h page r).get page = some r.left ∧ (splitPages h page r).get (h.alloc h.pages).1 = some r.right ∧
      ∀ q, q ≠ page → q ≠ (h.alloc h.pages).1 → (splitPages h page r).get q = h.pages.get q := by
  refine ⟨?_, get_set_same, fun q hq hq' => ?_⟩
  · rw [splitPages, get_set_ne hne, get_set_same]
  · rw [splitPages, get_set_ne hq', get_set_ne hq, get_set_ne hq']

theorem insertOutcome_branch (horder : 3 ≤ h.order) (halloc : h.alloc.Fresh) {n least : Nat}
    {par page : PageNum} {ks₁ ks₂ : List Key} {ts₁ ts₂ : List (IndexTree n)} {c : IndexTree n}
    {a lo : WithBot L} {b hi : WithTop L} (hrep : Rep h.pages par (branch page (ks₁ ++ ks₂) (ts₁ ++ c :: ts₂)))
    (hnodup : (branch page (ks₁ ++ ks₂) (ts₁ ++ c :: ts₂)).pages.Nodup) (hpositive : 0 < page)
    (hlen : ts₁.length = ks₁.length) (hctx : ∀ ks' ts', Chain rank (Full rank h.order) a ks' ts' b →
      Chain rank (Full rank h.order) lo (ks₁ ++ ks' ++ ks₂) (ts₁ ++ ts' ++ ts₂) hi)
    (hleast : least ≤ (ks₁ ++ ks₂).length) (hmost : (ks₁ ++ ks₂).length ≤ h.order - 1) (hfuel : n + 1 ≤ fuel)
    (hc : InsertOutcome rank h fuel leafPage page ((shape h.order).minKeys n) a b key rid c) :
    InsertOutcome rank h fuel leafPage par least lo hi key rid (branch page (ks₁ ++ ks₂) (ts₁ ++ c :: ts₂)) := by
  obtain ⟨⟨node, hget, hnode⟩, hchildren⟩ := rep_branch.mp hrep
  rw [pages_branch] at hnodup
  have hpage : page ≠ -1 := by
    rintro rfl
    exact absurd hpositive (by decide)
  rcases hc with ⟨σ, c', g, hc', hrun⟩ | ⟨σ, c₁, c₂, k, g, hc₁, hrun⟩
  · exact .inl ⟨σ, _, grown_branch hget hnode hchildren hnodup hctx hleast hmost g hc', rfl, hrun⟩
  -- The child has split: the rest of the run is `insert_into_parent` at this node.
  obtain ⟨r, hrep'⟩ := g.children hchildren hnodup
  obtain ⟨hnew, hσ⟩ := g.root_page hchildren hnodup (by rw [hget]; rfl)
  have hget' : σ.get page = some node := hσ.trans hget
  have hmap : InternNode node par (ks₁ ++ ks₂) (ts₁.map Tree.page ++ c.page :: ts₂.map Tree.page) := by
    simpa using hnode
  have hpos : node.childPos c.page = ts₁.length := by
    have hnotin : c.page ∉ ts₁.map Tree.page := by
      intro hmem
      obtain ⟨x, hx, hxp⟩ := mem_map.mp hmem
      have hpages := (nodup_cons.mp hnodup).2
      rw [flatMap_append] at hpages
      obtain ⟨-, -, hd⟩ := nodup_append.mp hpages
      refine hd x.page (mem_flatMap.mpr ⟨x, hx, x.page_mem_pages⟩) c.page ?_ hxp
      exact mem_flatMap.mpr ⟨c, mem_cons_self, c.page_mem_pages⟩
    rw [hmap.childPos hnotin, length_map]
  have hfuel' : fuel - n = fuel - (n + 1) + 1 := by omega
  rw [hfuel'] at hrun
  by_cases hroom : node.keyNum < h.order - 1
  · refine .inl ⟨_, _, grown_branch_room hget hnode hchildren hnodup hlen hctx hleast g hc₁ hroom, rfl, ?_⟩
    rw [hrun]
    have hrun' := @insertIntoParent_room { h with pages := σ } page c.page c₂.page node k
      (fuel - (n + 1)) hpage hget' hroom
    rw [hpos] at hrun'
    exact ignoreRC_ok hrun'
  · have hlen' : (ts₁.map Tree.page).length = ks₁.length := by simpa using hlen
    have horder' : node.keyNum + 1 = h.order := by
      have hcount := hmap.keyNum_eq
      rw [length_append] at hmost
      omega
    obtain ⟨hunused, hpositive'⟩ := halloc σ
    have hnp : page ≠ (h.alloc σ).1 := fun heq => by
      rw [heq, hunused] at hget'
      cases hget'
    set moved := ((ts₁ ++ c₁ :: c₂ :: ts₂).drop ((h.order + 1) / 2)).map Tree.page with hmove
    have hD : (splitIntern h.order node (h.alloc σ).2 ts₁.length k c₂.page).right.childList = moved := by
      have hright := (hmap.splitIntern_right hlen' horder horder' k c₂.page (h.alloc σ).2).children
      rw [length_map] at hright
      rw [hmove, hright, map_drop]
      simp [hc₁]
    -- The children that move are in use and are neither of the two nodes.
    have hmoved : ∀ q ∈ moved, (σ.get q).isSome ∧ q ≠ page ∧ q ≠ (h.alloc σ).1 := by
      intro q hq
      obtain ⟨x, hx, rfl⟩ := mem_map.mp hq
      have hx' : x ∈ ts₁ ++ ([c₁, c₂] ++ ts₂) := by simpa using mem_of_mem_drop hx
      have hsome := (hrep' x hx').get_isSome _ x.page_mem_pages
      refine ⟨hsome, fun heq => hnew (heq ▸ mem_flatMap.mpr ⟨x, hx', x.page_mem_pages⟩), fun heq => ?_⟩
      rw [heq, hunused] at hsome
      cases hsome
    obtain ⟨hgl, hgr, hgo⟩ := @splitPages_get { h with pages := σ } page
      (splitIntern h.order node (h.alloc σ).2 ts₁.length k c₂.page) hnp
    have hsplit := @insertIntoParent_split { h with pages := σ } page c.page c₂.page par node k (fuel - (n + 1)) hpage
      hget' hnode.parent hroom
    simp only [hpos, hD] at hsplit
    obtain ⟨σ', hrun', hσ'⟩ := hsplit fun q hq => by
      obtain ⟨hsome, h₁, h₂⟩ := hmoved q hq
      rwa [hgo q h₁ h₂]
    have st : SplitStore σ σ' page (h.alloc σ).1 (splitIntern h.order node (h.alloc σ).2 ts₁.length k c₂.page).left
        (splitIntern h.order node (h.alloc σ).2 ts₁.length k c₂.page).right moved := by
      refine ⟨hunused, hpositive', ?_, ?_, fun q hq => ?_, fun q h₁ h₂ hq => ?_⟩
      · rw [hσ', if_neg fun hq => (hmoved page hq).2.1 rfl, hgl]
      · rw [hσ', if_neg fun hq => (hmoved _ hq).2.2 rfl, hgr]
      · obtain ⟨-, h₁, h₂⟩ := hmoved q hq
        rw [hσ', if_pos hq, hgo q h₁ h₂]
      · rw [hσ', if_neg hq, hgo q h₁ h₂]
    refine .inr ⟨σ', _, _, _, grown_branch_split hget hnode hchildren hnodup hlen hctx hmost horder g hc₁ hroom st,
      rfl, ?_⟩
    rw [hrun]
    exact ignoreRC_congr hrun'

theorem insertOutcome (horder : 3 ≤ h.order) (halloc : h.alloc.Fresh) :
    ∀ {n least : Nat} {par : PageNum} {lo : WithBot L} {hi : WithTop L} {t : IndexTree n}
    {leaf : Leaf PageNum Key RID}, WF rank (shape h.order) n least lo hi t → lo ≤ rank key →
    rank key < hi → Rep h.pages par t → t.pages.Nodup → (∀ p ∈ t.pages, 0 < p) →
    (∀ k ∈ t.allKeys, Agrees (cmpKey h.fileHeader key k) (rank key) (rank k)) →
    (∀ e ∈ t.entries, rank e.1 ≠ rank key) → find (before h.fileHeader key) t = some leaf → n ≤ fuel →
    InsertOutcome rank h fuel leaf.page par least lo hi key rid t
  | 0, _, _, _, _, t, leaf, hwf, hlo, hhi, hrep, _, _, hord, habsent, hfind, _ => by
    obtain ⟨p, es, rfl⟩ := t.eq_leaf
    obtain rfl : Leaf.mk p es = leaf := Option.some.inj hfind
    exact insertOutcome_leaf horder halloc hwf hlo hhi hrep (fun e he => hord e.1 (mem_map_of_mem he)) habsent
  | n + 1, least, par, lo, hi, t, leaf, hwf, hlo, hhi, hrep, hnodup, hpositive, hord, habsent, hfind, hfuel => by
    obtain ⟨page, keys, children, rfl⟩ := t.eq_branch
    obtain ⟨hchain, hleast, hmost⟩ := wf_branch.mp hwf
    obtain ⟨ks₁, ks₂, ts₁, c, ts₂, a, b, rfl, rfl, hlen, h₁, h₂, ha, hb, hc, hctx⟩ := hchain.route hlo hhi
    have hkey : ∀ k ∈ ks₁ ++ ks₂, Agrees (cmpKey h.fileHeader key k) (rank key) (rank k) :=
      fun k hk => hord k (mem_append_left _ hk)
    have hleft : ∀ k ∈ ks₁, before h.fileHeader key k = false := fun k hk =>
      decide_eq_false fun hlt => not_lt.mpr (h₁ k hk) ((hkey k (mem_append_left _ hk)).1.mp hlt)
    have hright : ∀ k ∈ ks₂, before h.fileHeader key k = true := fun k hk =>
      decide_eq_true ((hkey k (mem_append_right _ hk)).1.mpr (h₂ k hk))
    rw [find_branch hlen hleft hright] at hfind
    have hcmem : c ∈ ts₁ ++ c :: ts₂ := mem_append_right _ mem_cons_self
    have hcpages : ∀ p ∈ c.pages, p ∈ (ts₁ ++ c :: ts₂).flatMap pages :=
      fun p hp => mem_flatMap.mpr ⟨c, hcmem, hp⟩
    have hcnodup : c.pages.Nodup := (nodup_flatMap.mp (nodup_cons.mp hnodup).2).1 c hcmem
    have hchild : InsertOutcome rank h fuel leaf.page page _ a b key rid c :=
      insertOutcome horder halloc hc ha hb ((rep_branch.mp hrep).2 c hcmem) hcnodup
        (fun p hp => hpositive p (mem_cons_of_mem _ (hcpages p hp)))
        (fun k hk => hord k (mem_append_right _ (mem_flatMap.mpr ⟨c, hcmem, hk⟩)))
        (fun e he => habsent e (mem_flatMap.mpr ⟨c, hcmem, he⟩)) hfind (Nat.le_of_succ_le hfuel)
    exact insertOutcome_branch horder halloc hrep hnodup (hpositive page mem_cons_self) hlen hctx hleast hmost
      hfuel hchild

end Outcome

structure SameIndex (h h' : BplusTreeHandler) : Prop where
  opened : h'.opened = h.opened
  alloc : h'.alloc = h.alloc
  attrs : h'.fileHeader.attrs = h.fileHeader.attrs
  order : h'.fileHeader.order = h.fileHeader.order

section Top
variable {h : BplusTreeHandler} {key : Key} {rid : RID} {n : Nat} {t : IndexTree n}

theorem holds_of_grown (ht : Holds rank h t) {σ : Pages} {t' : IndexTree n}
    (g : Grown rank h σ (-1) (if n = 0 then 0 else 1) ⊥ ⊤ key rid t [] [t']) (hpage : t'.page = t.page) :
    Holds rank { h with pages := σ } t' where
  root := ht.root.trans hpage.symm
  rep := g.rep t' (mem_singleton_self _)
  wf := chain_nil.mp g.chain
  nodup := by simpa using g.nodup
  positive := by
    intro p hp
    rcases g.fresh p (by simpa using hp) with hold | ⟨-, hpos⟩
    · exact ht.positive p hold
    · exact hpos
  linked := by simpa using g.linked 0 ht.linked

theorem holds_of_newRoot (ht : Holds rank h t) (horder : 3 ≤ h.order) (halloc : h.alloc.Fresh) {σ : Pages}
    {t₁ t₂ : IndexTree n} {k : Key} (fuel : Nat)
    (g : Grown rank h σ (-1) ((shape h.order).minKeys n) ⊥ ⊤ key rid t [k] [t₁, t₂]) :
    ∃ σ', insertIntoParent (fuel + 1) (-1) t₁.page k t₂.page { h with pages := σ } = some (.ok (), { h with
        pages := σ', fileHeader := { h.fileHeader with rootPage := (h.alloc σ).1 } }) ∧
      Holds rank { h with pages := σ', fileHeader := { h.fileHeader with rootPage := (h.alloc σ).1 } }
        (branch (h.alloc σ).1 [k] [t₁, t₂]) := by
  have hrep₁ := g.rep t₁ mem_cons_self
  have hrep₂ := g.rep t₂ (mem_cons_of_mem _ mem_cons_self)
  have hnodup : (t₁.pages ++ t₂.pages).Nodup := by simpa using g.nodup
  obtain ⟨hnodup₁, hnodup₂, hdisjoint⟩ := nodup_append.mp hnodup
  obtain ⟨lnode, hl⟩ := Option.isSome_iff_exists.mp (hrep₁.get_isSome _ t₁.page_mem_pages)
  obtain ⟨rnode, hr⟩ := Option.isSome_iff_exists.mp (hrep₂.get_isSome _ t₂.page_mem_pages)
  have hne : t₁.page ≠ t₂.page := fun heq => hdisjoint _ t₁.page_mem_pages _ t₂.page_mem_pages heq
  obtain ⟨hunused, hpositive⟩ := halloc σ
  have hrun := @insertIntoNewRoot_run { h with pages := σ } t₁.page t₂.page k lnode rnode fuel hne hl hr halloc
  refine ⟨_, hrun, ?_⟩
  generalize hσ' : (((σ.set (h.alloc σ).1 (h.alloc σ).2).set (h.alloc σ).1
    (newRoot (h.alloc σ).2 t₁.page k t₂.page)).set t₁.page (lnode.withParent (h.alloc σ).1)).set t₂.page
    (rnode.withParent (h.alloc σ).1) = σ'
  have hfresh₁ := hrep₁.not_mem_of_get_eq_none hunused
  have hfresh₂ := hrep₂.not_mem_of_get_eq_none hunused
  have hnp₁ : (h.alloc σ).1 ≠ t₁.page := fun heq => hfresh₁ (heq ▸ t₁.page_mem_pages)
  have hnp₂ : (h.alloc σ).1 ≠ t₂.page := fun heq => hfresh₂ (heq ▸ t₂.page_mem_pages)
  have hgetRoot : σ'.get (h.alloc σ).1 = some (newRoot (h.alloc σ).2 t₁.page k t₂.page) := by
    rw [← hσ', get_set_ne hnp₂, get_set_ne hnp₁, get_set_same]
  have hgetLeft : σ'.get t₁.page = (σ.get t₁.page).map (IndexNode.withParent (h.alloc σ).1) := by
    rw [← hσ', get_set_ne hne, get_set_same, hl]
    rfl
  have hgetRight : σ'.get t₂.page = (σ.get t₂.page).map (IndexNode.withParent (h.alloc σ).1) := by
    rw [← hσ', get_set_same, hr]
    rfl
  have hgetOther : ∀ q ∈ t₁.pages ++ t₂.pages, q ≠ t₁.page → q ≠ t₂.page → σ'.get q = σ.get q := by
    intro q hq h₁ h₂
    have hnp : q ≠ (h.alloc σ).1 := by
      rintro rfl
      rcases mem_append.mp hq with hq | hq
      · exact hfresh₁ hq
      · exact hfresh₂ hq
    rw [← hσ', get_set_ne h₂, get_set_ne h₁, get_set_ne hnp, get_set_ne hnp]
  refine ⟨rfl, ?_, ?_, ?_, ?_, ?_⟩
  · refine rep_branch.mpr ⟨⟨_, hgetRoot, newRoot_internNode _ _ _⟩, fun x hx => ?_⟩
    rcases mem_cons.mp hx with rfl | hx
    · refine hrep₁.reparent hnodup₁ hgetLeft fun q hq hqne => ?_
      refine hgetOther q (mem_append_left _ hq) hqne fun heq => ?_
      exact hdisjoint q hq _ t₂.page_mem_pages heq
    · obtain rfl := mem_singleton.mp hx
      refine hrep₂.reparent hnodup₂ hgetRight fun q hq hqne => ?_
      refine hgetOther q (mem_append_right _ hq) (fun heq => ?_) hqne
      exact hdisjoint _ t₁.page_mem_pages q hq heq.symm
  · refine wf_branch.mpr ⟨g.chain, ?_, ?_⟩
    · simp
    · show 1 ≤ h.order - 1
      omega
  · rw [pages_branch]
    refine nodup_cons.mpr ⟨fun hmem => ?_, g.nodup⟩
    have hmem' : (h.alloc σ).1 ∈ t₁.pages ++ t₂.pages := by simpa using hmem
    rcases mem_append.mp hmem' with hm | hm
    · exact hfresh₁ hm
    · exact hfresh₂ hm
  · intro p hp
    rcases mem_cons.mp hp with rfl | hp
    · exact hpositive
    · rcases g.fresh p hp with hold | ⟨-, hpos⟩
      · exact ht.positive p hold
      · exact hpos
  · refine (g.linked 0 ht.linked).congr_next fun q hq node hget => ?_
    have hmem : q ∈ t₁.pages ++ t₂.pages := by simpa using leaves_subset_flatMap [t₁, t₂] hq
    by_cases h₁ : q = t₁.page
    · exact ⟨node.withParent (h.alloc σ).1, by rw [h₁, hgetLeft, ← h₁, hget]; rfl, rfl⟩
    · by_cases h₂ : q = t₂.page
      · exact ⟨node.withParent (h.alloc σ).1, by rw [h₂, hgetRight, ← h₂, hget]; rfl, rfl⟩
      · exact ⟨node, (hgetOther q hmem h₁ h₂).trans hget, rfl⟩

end Top

end MiniOb
