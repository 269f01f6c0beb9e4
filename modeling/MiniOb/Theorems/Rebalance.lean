import MiniOb.Theorems.DeleteRuns
import MiniOb.Theorems.Siblings

/-! # Redistributing and merging two siblings

The runs of `redistribute_nodes` and `coalesce_node` on a window of the tree, with the tree they leave. -/

namespace MiniOb
open Slots BTree List Tree Pages
variable {L : Type} [LinearOrder L] {rank : Key → L}

section
variable {h : BplusTreeHandler} {least least₁ least₂ : Nat} {par page lp rp : PageNum} {node : IndexNode}
  {K₁ K₂ : List Key} {s : Key} {a lo : WithBot L} {b hi : WithTop L}

section Leaves
variable {T₁ T₂ : List (IndexTree 0)} {A B A' B' : List (Key × RID)} {e : Key × RID}

theorem Window.leaves_trimmed {order : Nat} {σ : Pages} {x : Redistributed} {left right : IndexNode} {f : Key × RID}
    (w : Window rank order σ par page node K₁ s K₂ T₁ (leaf lp A) (leaf rp B) T₂ a lo b hi)
    (hwl : WF rank (shape order) 0 least₁ a (rank s) (leaf lp A))
    (hwr : WF rank (shape order) 0 least₂ (rank s) b (leaf rp B)) (hgetl : σ.get lp = some left)
    (hgetr : σ.get rp = some right) (hl : LeafNode x.left page A') (hr : LeafNode x.right page (f :: B'))
    (hnl : x.left.next order = left.next order) (hnr : x.right.next order = right.next order)
    (hp : x.parent = { node with keys := set node.keys K₁.length (x.right.keys 0) })
    (hsame : (A' ++ f :: B').map Prod.fst = (A ++ B).map Prod.fst) (hpos : 0 < A'.length)
    (hsizel : (shape order).minKeys 0 ≤ A'.length ∧ A'.length ≤ (shape order).maxKeys)
    (hsizer : (shape order).minKeys 0 ≤ B'.length + 1 ∧ B'.length + 1 ≤ (shape order).maxKeys)
    (hleast : least ≤ (K₁ ++ s :: K₂).length) (hmost : (K₁ ++ s :: K₂).length ≤ order - 1) :
    Trimmed rank order σ (((σ.set lp x.left).set rp x.right).set page x.parent) par least lo hi
      (branch page (K₁ ++ s :: K₂) (T₁ ++ leaf lp A :: leaf rp B :: T₂))
      (branch page (K₁ ++ ([f.1] ++ K₂)) (T₁ ++ ([leaf lp A', leaf rp (f :: B')] ++ T₂))) := by
  have hne : lp ≠ rp := w.left_ne_right
  have hgetl' : ((σ.set lp x.left).set rp x.right).get lp = some x.left := by
    rw [get_set_ne hne, get_set_same]
  have hrw : Rewritten order σ ((σ.set lp x.left).set rp x.right) [lp, rp] [lp, rp] [lp, rp] [lp, rp] := by
    refine rewritten_leaves hne hgetl hgetr hgetl' (get_set_same) (fun q hql hqr => ?_) hnl hnr
    rw [get_set_ne hqr, get_set_ne hql]
  have hkey : x.right.keys 0 = f.1 := congrArg Prod.fst (eq_of_firstN_split (A := []) hr.entries)
  -- The RIDs do not matter to the order.
  have hchain : Chain rank (Full rank order) a [f.1]
      [leaf lp A', leaf rp (f :: B')] b := by
    obtain ⟨hsort, hbound⟩ := wf_leaf_join hwl hwr w.bounds
    have hsort' : (A' ++ f :: B').Pairwise (fun e e' => rank e.1 < rank e'.1) := by
      have hmap : ((A ++ B).map Prod.fst).Pairwise (fun k k' => rank k < rank k') := pairwise_map.mpr hsort
      rw [← hsame] at hmap
      exact (pairwise_map (f := Prod.fst)).mp hmap
    have hbound' : ∀ e ∈ A' ++ f :: B', a ≤ rank e.1 ∧ rank e.1 < b := by
      intro e he
      have hmem : e.1 ∈ (A ++ B).map Prod.fst := hsame ▸ mem_map_of_mem he
      obtain ⟨e', he', heq⟩ := mem_map.mp hmem
      exact heq ▸ hbound e' he'
    have hlen : (A' ++ f :: B').length - A'.length = B'.length + 1 := by
      rw [length_append, Nat.add_sub_cancel_left, length_cons]
    have hcut := chain_leaf_cut (p := lp) (q := rp) hsort' hbound' hpos drop_left hsizel (hlen ▸ hsizer)
    rwa [take_left, drop_left] at hcut
  have hcount : (K₁ ++ ([f.1] ++ K₂)).length = (K₁ ++ s :: K₂).length := by simp
  refine w.trimmed (by simpa using hrw) (fun y hy => ?_) (fun q hq => get_set_ne hq) (get_set_same)
    ?_ hchain (hcount ▸ hleast) (hcount ▸ hmost) (fun k hk => ?_)
  · rcases mem_cons.mp hy with rfl | hy
    · exact rep_leaf.mpr ⟨_, hgetl', hl⟩
    · obtain rfl := mem_singleton.mp hy
      exact rep_leaf.mpr ⟨_, get_set_same, hr⟩
  · rw [hp, hkey]
    have hset := w.node.setKey f.1
    simpa using hset
  · have hk' : k ∈ (A' ++ f :: B').map Prod.fst := by
      rcases mem_cons.mp hk with rfl | hk
      · exact mem_map_of_mem (mem_append_right _ mem_cons_self)
      · simpa using hk
    rw [hsame] at hk'
    exact mem_cons_of_mem _ (by simpa using hk')

theorem redistribute_leaf_right {e₂ : Key × RID} (w : Window rank h.order h.pages par page node K₁ s K₂ T₁ (leaf lp A)
      (leaf rp (e :: e₂ :: B)) T₂ a lo b hi) (hwl : WF rank (shape h.order) 0 least₁ a (rank s) (leaf lp A))
    (hwr : WF rank (shape h.order) 0 least₂ (rank s) b (leaf rp (e :: e₂ :: B)))
    (hshort : A.length + 1 = minKey h.order true) (hmore : minKey h.order true < (e :: e₂ :: B).length)
    (hleast : least ≤ (K₁ ++ s :: K₂).length) (hmost : (K₁ ++ s :: K₂).length ≤ h.order - 1) :
    ∃ σ', redistributeNodes lp rp h = some (.ok (), { h with pages := σ' }) ∧
      Trimmed rank h.order h.pages σ' par least lo hi
        (branch page (K₁ ++ s :: K₂) (T₁ ++ leaf lp A :: leaf rp (e :: e₂ :: B) :: T₂))
        (branch page (K₁ ++ ([e₂.1] ++ K₂)) (T₁ ++ ([leaf lp (A ++ [e]), leaf rp (e₂ :: B)] ++ T₂))) := by
  obtain ⟨left, hgetl, hl⟩ := rep_leaf.mp w.rep_left
  obtain ⟨right, hgetr, hr⟩ := rep_leaf.mp w.rep_right
  obtain ⟨hsep, -⟩ := w.sepPos
  have hcountl := hl.length_eq
  have hcountr := hr.length_eq
  obtain ⟨hl', hr'⟩ := leafFromRight_nodes node K₁.length hl hr
  have hmin : (shape h.order).minKeys 0 = minKey h.order true := rfl
  have hmax : (shape h.order).maxKeys = h.order - 1 := rfl
  have hfull := (wf_leaf.mp hwr).2.2.2
  rw [length_cons, length_cons] at hcountr hmore hfull
  obtain ⟨hnl, hnr⟩ := @leafFromRight_next left right h.order node K₁.length (by omega) (by omega)
  have hx : redistribute h.order lp rp left right node (node.sepPos lp) =
      (leafFromRight left right node K₁.length, none) := by
    rw [redistribute, if_pos hl.isLeaf, if_pos (by omega), show node.sepPos lp = K₁.length from hsep]
  refine ⟨_, redistributeNodes_run hgetl hgetr w.get hl.parent hx, ?_⟩
  have hlen : (A ++ [e]).length = A.length + 1 := length_append
  exact w.leaves_trimmed hwl hwr hgetl hgetr hl' hr' hnl hnr rfl (by simp) (by omega) (by omega) (by omega) hleast hmost

theorem redistribute_leaf_left {right : IndexNode} {r₀ : RID}
    (w : Window rank h.order h.pages par page node K₁ s K₂ T₁ (leaf lp (A ++ [e]))
      (leaf rp B) T₂ a lo b hi) (hwl : WF rank (shape h.order) 0 least₁ a (rank s) (leaf lp (A ++ [e])))
    (hwr : WF rank (shape h.order) 0 least₂ (rank s) b (leaf rp B)) (hshort : B.length + 1 = minKey h.order true)
    (hmore : minKey h.order true < (A ++ [e]).length) (hgetr : h.pages.get rp = some right) (hr₀ : right.rids 0 = r₀)
    (hleast : least ≤ (K₁ ++ s :: K₂).length) (hmost : (K₁ ++ s :: K₂).length ≤ h.order - 1) :
    ∃ σ', redistributeNodes lp rp h = some (.ok (), { h with pages := σ' }) ∧
      Trimmed rank h.order h.pages σ' par least lo hi
        (branch page (K₁ ++ s :: K₂) (T₁ ++ leaf lp (A ++ [e]) :: leaf rp B :: T₂))
        (branch page (K₁ ++ ([e.1] ++ K₂)) (T₁ ++ ([leaf lp A, leaf rp ((e.1, r₀) :: B)] ++ T₂))) := by
  obtain ⟨left, hgetl, hl⟩ := rep_leaf.mp w.rep_left
  obtain ⟨right', hgetr', hr⟩ := rep_leaf.mp w.rep_right
  obtain rfl : right' = right := Option.some.inj (hgetr'.symm.trans hgetr)
  obtain ⟨hsep, -⟩ := w.sepPos
  have hcountl := hl.length_eq
  have hcountr := hr.length_eq
  have hmin : (shape h.order).minKeys 0 = minKey h.order true := rfl
  have hmax : (shape h.order).maxKeys = h.order - 1 := rfl
  have hfull := (wf_leaf.mp hwl).2.2.2
  rw [length_append, length_singleton] at hcountl hmore hfull
  obtain ⟨hl', hr'⟩ := leafFromLeft_nodes node K₁.length hl hr
  obtain ⟨hnl, hnr⟩ := @leafFromLeft_next left right' h.order node K₁.length (by omega)
  have hx : redistribute h.order lp rp left right' node (node.sepPos lp) =
      (leafFromLeft left right' node K₁.length, none) := by
    rw [redistribute, if_pos hl.isLeaf, if_neg (by omega), show node.sepPos lp = K₁.length from hsep]
  rw [hr₀] at hr'
  refine ⟨_, redistributeNodes_run hgetl hgetr w.get hl.parent hx, ?_⟩
  exact w.leaves_trimmed hwl hwr hgetl hgetr hl' hr' hnl hnr rfl (by simp) (by omega) (by omega) (by omega) hleast hmost

end Leaves

section Intern
variable {n : Nat} {T₁ T₂ : List (IndexTree (n + 1))} {KL KR : List Key} {CL CR : List (IndexTree n)}
  (w : Window rank h.order h.pages par page node K₁ s K₂ T₁ (branch lp KL CL) (branch rp KR CR) T₂
    a lo b hi)
include w

omit w in
theorem branch_pages_perm (lp rp : PageNum) (KL KR : List Key) (CL CR : List (IndexTree n)) :
    ((branch lp KL CL).pages ++ (branch rp KR CR).pages).Perm (lp :: rp :: (CL ++ CR).flatMap pages) := by
  simp only [pages_branch, flatMap_append, cons_append]
  exact List.Perm.cons _ perm_middle

theorem Window.branch_pages : (lp :: rp :: (CL ++ CR).flatMap pages).Nodup ∧
    page ∉ lp :: rp :: (CL ++ CR).flatMap pages := by
  have hperm := branch_pages_perm lp rp KL KR CL CR
  exact ⟨hperm.nodup_iff.mp w.pages_nodup, fun hmem => w.page_notMem (hperm.mem_iff.mpr hmem)⟩

theorem Window.children_apart : ∀ q ∈ (CL ++ CR).flatMap pages, q ∉ [lp, rp] ∧ q ≠ page := by
  obtain ⟨hnodup, hpage⟩ := w.branch_pages
  obtain ⟨hlp, hrest⟩ := nodup_cons.mp hnodup
  intro q hq
  refine ⟨fun hmem => ?_, fun heq => hpage (heq ▸ mem_cons_of_mem _ (mem_cons_of_mem _ hq))⟩
  rcases mem_pair.mp hmem with rfl | rfl
  · exact hlp (mem_cons_of_mem _ hq)
  · exact (nodup_cons.mp hrest).1 hq

theorem Window.redistribute_run {left right : IndexNode} {x : Redistributed} {c np : PageNum}
    (hgetl : h.pages.get lp = some left) (hgetr : h.pages.get rp = some right) (hpar : left.parent = page)
    (hx : redistribute h.order lp rp left right node (node.sepPos lp) = (x, some (c, np)))
    (hc : c ∈ (CL ++ CR).map Tree.page) :
    ∃ σ', redistributeNodes lp rp h = some (.ok (), { h with pages := σ' }) ∧ σ'.get lp = some x.left ∧
      σ'.get rp = some x.right ∧ σ'.get page = some x.parent ∧
      σ'.get c = (h.pages.get c).map (IndexNode.withParent np) ∧
      ∀ q, q ≠ lp → q ≠ rp → q ≠ page → q ≠ c → σ'.get q = h.pages.get q := by
  obtain ⟨t, ht, rfl⟩ := mem_map.mp hc
  obtain ⟨hW, hcp⟩ := w.children_apart t.page (mem_flatMap.mpr ⟨t, ht, t.page_mem_pages⟩)
  have hcl : t.page ≠ lp := fun heq => hW (mem_pair.mpr (.inl heq))
  have hcr : t.page ≠ rp := fun heq => hW (mem_pair.mpr (.inr heq))
  have hlr : lp ≠ rp := w.left_ne_right
  have hlpage : lp ≠ page := w.left_ne_page
  have hrpage : rp ≠ page := w.right_ne_page
  have hsome : (h.pages.get t.page).isSome := by
    rcases mem_append.mp ht with ht | ht
    · exact ((rep_branch.mp w.rep_left).2 t ht).get_isSome _ t.page_mem_pages
    · exact ((rep_branch.mp w.rep_right).2 t ht).get_isSome _ t.page_mem_pages
  obtain ⟨cnode, hcget⟩ := Option.isSome_iff_exists.mp hsome
  have hcget' : (((h.pages.set lp x.left).set rp x.right).set page x.parent).get t.page = some cnode := by
    rw [get_set_ne hcp, get_set_ne hcr, get_set_ne hcl, hcget]
  refine ⟨_, redistributeNodes_run_moved hgetl hgetr w.get hpar hx hcget', ?_, ?_, ?_, ?_, fun q h₁ h₂ h₃ h₄ => ?_⟩
  · rw [get_set_ne hcl.symm, get_set_ne hlpage, get_set_ne hlr, get_set_same]
  · rw [get_set_ne hcr.symm, get_set_ne hrpage, get_set_same]
  · rw [get_set_ne hcp.symm, get_set_same]
  · rw [get_set_same, hcget]
    rfl
  · rw [get_set_ne h₄, get_set_ne h₃, get_set_ne h₂, get_set_ne h₁]

omit w in
theorem frame_of_other {σ' : Pages} {c : PageNum} (hc : c ∈ (CL ++ CR).map Tree.page)
    (hother : ∀ q, q ≠ lp → q ≠ rp → q ≠ page → q ≠ c → σ'.get q = h.pages.get q) (q : PageNum)
    (hq : q ∉ (branch page (K₁ ++ s :: K₂) (T₁ ++ branch lp KL CL :: branch rp KR CR :: T₂)).pages) :
    σ'.get q = h.pages.get q := by
  obtain ⟨t, ht, rfl⟩ := mem_map.mp hc
  have htmem : t.page ∈ (CL ++ CR).flatMap pages := mem_flatMap.mpr ⟨t, ht, t.page_mem_pages⟩
  simp only [pages_branch, flatMap_append, flatMap_cons, mem_cons, mem_append, not_or,
    cons_append] at hq htmem
  refine hother q hq.2.2.1 (fun heq => ?_) hq.1 fun heq => ?_
  · exact hq.2.2.2.2.1 heq
  · subst heq
    exact htmem.elim hq.2.2.2.1 hq.2.2.2.2.2.1

theorem redistribute_intern_right (hKL : KL.length < minKey h.order false) (hKR : 2 ≤ KR.length) :
    ∃ σ', redistributeNodes lp rp h = some (.ok (), { h with pages := σ' }) ∧ Broken σ' page ∧
      ∀ q, q ∉ (branch page (K₁ ++ s :: K₂)
        (T₁ ++ branch lp KL CL :: branch rp KR CR :: T₂)).pages → σ'.get q = h.pages.get q := by
  obtain ⟨⟨left, hgetl, hl⟩, -⟩ := rep_branch.mp w.rep_left
  obtain ⟨⟨right, hgetr, hr⟩, -⟩ := rep_branch.mp w.rep_right
  obtain ⟨hsep, -⟩ := w.sepPos
  obtain ⟨hcountr, hchildren⟩ := hr.length_eq
  have hcountl := hl.length_eq.1
  rw [length_map] at hchildren
  obtain ⟨c, C, y, z, hCR⟩ : ∃ c C y z, CR = c :: C ++ [y, z] := by
    obtain ⟨c, CR', rfl⟩ := exists_cons_of_length_eq_add_one hchildren
    rw [length_cons] at hchildren
    have hne : CR' ≠ [] := fun hnil => by rw [hnil, length_nil] at hchildren; omega
    obtain ⟨CR'', z, rfl⟩ : ∃ CR'' z, CR' = CR'' ++ [z] := ⟨_, _, (dropLast_append_getLast hne).symm⟩
    rw [length_append, length_singleton] at hchildren
    have hne' : CR'' ≠ [] := fun hnil => by rw [hnil, length_nil] at hchildren; omega
    obtain ⟨C, y, rfl⟩ : ∃ C y, CR'' = C ++ [y] := ⟨_, _, (dropLast_append_getLast hne').symm⟩
    exact ⟨c, C, y, z, by simp⟩
  have hr' : InternNode right page KR (c.page :: C.map Tree.page ++ [y.page, z.page]) := by
    rw [hCR] at hr
    simpa using hr
  obtain ⟨hlist, hmoved⟩ := @internFromRight_children _ _ left right page node K₁.length _ _ _ hr'
  have hx : redistribute h.order lp rp left right node (node.sepPos lp) =
      (internFromRight left right node K₁.length, some (c.page, lp)) := by
    rw [redistribute, if_neg (by simp [hl.isLeaf]), if_pos (by omega), show node.sepPos lp = K₁.length from hsep]
    simp only [hmoved]
  have hc : c.page ∈ (CL ++ CR).map Tree.page := by
    rw [hCR]
    simp
  obtain ⟨σ', hrun, -, hgetr', hgetp', -, hother⟩ := w.redistribute_run hgetl hgetr hl.parent hx hc
  refine ⟨σ', hrun, ?_, fun q hq => frame_of_other hc hother q hq⟩
  have hbroken : Broken σ' rp := by
    refine broken_of_twice hgetr' hr.isLeaf ?_
    rw [hlist]
    simp [nodup_append]
  refine hbroken.parent hgetp' w.node.isLeaf ?_
  have hmem : rp ∈ node.childList := by
    rw [w.node_map.children]
    simp
  exact hmem

end Intern

section InternLeft
variable {n : Nat} {T₁ T₂ : List (IndexTree (n + 1))} {KL KR : List Key} {k₀ : Key} {CL CR : List (IndexTree n)}
  {c z : IndexTree n} {right : IndexNode} {y : PageNum}
  (w : Window rank h.order h.pages par page node K₁ s K₂ T₁ (branch lp (KL ++ [k₀]) (CL ++ [c]))
    (branch rp KR (CR ++ [z])) T₂ a lo b hi)
  (hgetr : h.pages.get rp = some right) (hy : (right.rids (right.keyNum + 1)).pageNum = y)
  (hKL : ¬(KL ++ [k₀]).length < minKey h.order false)
include w hgetr hy hKL

/-- What the redistribution writes when an internal node takes the last child of its left sibling: the last child of
    the right node is then the page `y` that stood behind its children. -/
theorem redistribute_intern_left_run :
    ∃ σ' left' right' node', redistributeNodes lp rp h = some (.ok (), { h with pages := σ' }) ∧
      σ'.get lp = some left' ∧ InternNode left' page KL (CL.map Tree.page) ∧
      σ'.get rp = some right' ∧ InternNode right' page (s :: KR) (c.page :: CR.map Tree.page ++ [y]) ∧
      σ'.get page = some node' ∧
      InternNode node' par (K₁ ++ k₀ :: K₂)
        ((T₁ ++ Tree.branch lp (KL ++ [k₀]) (CL ++ [c]) :: Tree.branch rp KR (CR ++ [z]) :: T₂).map Tree.page) ∧
      σ'.get c.page = (h.pages.get c.page).map (IndexNode.withParent rp) ∧
      ∀ q, q ≠ lp → q ≠ rp → q ≠ page → q ≠ c.page → σ'.get q = h.pages.get q := by
  obtain ⟨⟨left, hgetl, hl⟩, -⟩ := rep_branch.mp w.rep_left
  obtain ⟨⟨right', hgetr', hr⟩, -⟩ := rep_branch.mp w.rep_right
  obtain rfl : right' = right := Option.some.inj (hgetr'.symm.trans hgetr)
  obtain ⟨hsep, hkey⟩ := w.sepPos
  have hcountl := hl.length_eq.1
  rw [map_append, map_singleton] at hl hr
  obtain ⟨hl', hr', hp', hmoved⟩ := internFromLeft_nodes node K₁.length hl hr
  rw [hkey, hy] at hr'
  have hx : redistribute h.order lp rp left right' node (node.sepPos lp) =
      (internFromLeft left right' node K₁.length, some (c.page, rp)) := by
    rw [redistribute, if_neg (by simp [hl.isLeaf]), if_neg (by omega), show node.sepPos lp = K₁.length from hsep]
    simp only [hmoved]
  have hc : c.page ∈ ((CL ++ [c]) ++ (CR ++ [z])).map Tree.page := by simp
  obtain ⟨σ', hrun, hgl, hgr, hgp, hgc, hother⟩ := w.redistribute_run hgetl hgetr hl.parent hx hc
  refine ⟨σ', _, _, _, hrun, hgl, hl', hgr, hr', hgp, ?_, hgc, hother⟩
  rw [hp']
  exact w.node.setKey k₀

theorem redistribute_intern_left_broken (hunused : h.pages.get y = none) :
    ∃ σ', redistributeNodes lp rp h = some (.ok (), { h with pages := σ' }) ∧ Broken σ' page ∧
      ∀ q, q ∉ (branch page (K₁ ++ s :: K₂) (T₁ ++ branch lp (KL ++ [k₀]) (CL ++ [c]) ::
        Tree.branch rp KR (CR ++ [z]) :: T₂)).pages → σ'.get q = h.pages.get q := by
  obtain ⟨σ', left', right', node', hrun, -, -, hgr, hr', hgp, hp', -, hother⟩ :=
    redistribute_intern_left_run w hgetr hy hKL
  have hused : ∀ {q : PageNum}, (h.pages.get q).isSome → y ≠ q := fun hq heq => by
    rw [← heq, hunused] at hq
    cases hq
  have hcrep : Rep h.pages lp c := (rep_branch.mp w.rep_left).2 c (mem_append_right _ (mem_singleton_self _))
  have hy' : σ'.get y = none := by
    rw [hother y (hused (w.rep_left.get_isSome _ (page_mem_pages _)))
      (hused (by rw [hgetr]; rfl)) (hused (by rw [w.get]; rfl)) (hused (hcrep.get_isSome _ c.page_mem_pages)), hunused]
  refine ⟨σ', hrun, ?_, fun q hq => frame_of_other (c := c.page) (by simp) hother q hq⟩
  have hbroken : Broken σ' rp := by
    refine broken_of_unused hgr hr'.isLeaf hy' ?_
    rw [hr'.children]
    simp
  refine hbroken.parent hgp hp'.isLeaf ?_
  rw [hp'.children]
  simp

theorem redistribute_intern_left (hyz : y = z.page)
    (hwl : WF rank (shape h.order) (n + 1) least₁ a (rank s) (branch lp (KL ++ [k₀]) (CL ++ [c])))
    (hwr : WF rank (shape h.order) (n + 1) least₂ (rank s) b (branch rp KR (CR ++ [z])))
    (hmore : minKey h.order false < (KL ++ [k₀]).length) (hshort : KR.length + 1 = minKey h.order false)
    (hleast : least ≤ (K₁ ++ s :: K₂).length) (hmost : (K₁ ++ s :: K₂).length ≤ h.order - 1) :
    ∃ σ', redistributeNodes lp rp h = some (.ok (), { h with pages := σ' }) ∧
      Trimmed rank h.order h.pages σ' par least lo hi
        (branch page (K₁ ++ s :: K₂) (T₁ ++ branch lp (KL ++ [k₀]) (CL ++ [c]) ::
          branch rp KR (CR ++ [z]) :: T₂))
        (branch page (K₁ ++ ([k₀] ++ K₂))
            (T₁ ++ ([branch lp KL CL, branch rp (s :: KR) (c :: (CR ++ [z]))] ++ T₂))) := by
  obtain ⟨σ', left', right', node', hrun, hgl, hl', hgr, hr', hgp, hp', hgc, hother⟩ :=
    redistribute_intern_left_run w hgetr hy hKL
  have hX := w.branch_pages.1.of_cons.of_cons
  refine ⟨σ', hrun, ?_⟩
  -- The pages with the parent put back: the window alone.
  have hσ₁ : ∀ q, q ≠ page → (σ'.set page node).get q = σ'.get q := fun q hq => get_set_ne hq
  have hmoved : Reparented h.pages (σ'.set page node) [lp, rp] ([c].map Tree.page) rp := by
    refine ⟨fun q hq => ?_, fun q hq hqc => ?_⟩
    · obtain rfl := mem_singleton.mp hq
      rw [hσ₁ _ (w.children_apart _ (mem_flatMap.mpr ⟨c, by simp, c.page_mem_pages⟩)).2, hgc]
    · simp only [mem_cons, not_mem_nil, or_false, not_or] at hq
      by_cases hqp : q = page
      · rw [hqp, get_set_same, w.get]
      · rw [hσ₁ q hqp]
        exact hother q hq.1 hq.2 hqp fun heq => hqc (heq ▸ mem_singleton_self _)
  have hsub : [c] ⊆ (CL ++ [c]) ++ (CR ++ [z]) := by simp
  have hW := fun p hp => (w.children_apart p hp).1
  have hchildl := (rep_branch.mp w.rep_left).2
  have hchildr := (rep_branch.mp w.rep_right).2
  have hlen := (wf_branch.mp hwl).1.length
  simp only [length_append, length_singleton] at hlen hmore
  have hcl : ∀ x ∈ CL, x ∉ [c] := by
    intro x hx
    refine notMem_of_nodup_append (X := CL) ?_ hx
    rw [flatMap_append] at hX
    exact (nodup_append.mp hX).1
  have hcr : ∀ x ∈ CR ++ [z], x ∉ [c] := by
    intro x hx hxc
    exact notMem_of_nodup_append hX (mem_append_right _ hxc) hx
  have hperm : ([branch lp KL CL, branch rp (s :: KR) (c :: (CR ++ [z]))].flatMap pages).Perm
      ((branch lp (KL ++ [k₀]) (CL ++ [c])).pages ++ (branch rp KR (CR ++ [z])).pages) := by
    simp only [flatMap_cons, flatMap_nil, pages_branch, flatMap_append, append_nil,
      cons_append, append_assoc]
    exact (List.Perm.append_left _ (perm_middle.symm)).cons _
  have hrw := @rewritten_moved h.order _ _ _ _ _ _ _ _ _ _ hmoved hsub (branch_pages_perm ..) w.pages_nodup
    (hperm.nodup_iff.mpr w.pages_nodup) hperm.subset
  have hcount : (K₁ ++ ([k₀] ++ K₂)).length = (K₁ ++ s :: K₂).length := by simp
  refine w.trimmed (by simpa using hrw) (fun x hx => ?_) (fun q hq => (hσ₁ q hq).symm) hgp (by simpa using hp') ?_
    (hcount ▸ hleast) (hcount ▸ hmost) (fun k hk => ?_)
  · rcases mem_cons.mp hx with rfl | hx
    · refine rep_branch.mpr ⟨⟨left', (hσ₁ lp w.left_ne_page).trans hgl, hl'⟩, fun x hx => ?_⟩
      have hxl : x ∈ CL ++ [c] := mem_append_left _ hx
      exact hmoved.rep_other hsub hX hW (mem_append_left _ hxl) (hcl x hx) (hchildl x hxl)
    · obtain rfl := mem_singleton.mp hx
      refine rep_branch.mpr ⟨⟨right', (hσ₁ rp w.right_ne_page).trans hgr, ?_⟩, fun x hx => ?_⟩
      · rw [hyz] at hr'
        simpa using hr'
      · rcases mem_cons.mp hx with rfl | hx
        · exact hmoved.rep_moved hsub hX hW (mem_singleton_self _)
            (hchildl x (mem_append_right _ (mem_singleton_self _)))
        · exact hmoved.rep_other hsub hX hW (mem_append_right _ hx) (hcr x hx) (hchildr x hx)
  · have hjoin := wf_branch_join hwl hwr w.bounds
    simp only [append_assoc, singleton_append] at hjoin
    have hmin : (shape h.order).minKeys (n + 1) = minKey h.order false := rfl
    have hfull : (KL ++ [k₀]).length ≤ (shape h.order).maxKeys := (wf_branch.mp hwl).2.2
    rw [length_append, length_singleton] at hfull
    refine chain_branch_cut hjoin (by omega) (by omega) ?_
    rw [length_cons]
    omega
  · simp only [allKeys_branch, flatMap_cons, flatMap_nil, flatMap_append, append_nil,
      mem_append, mem_cons, cons_append, nil_append] at hk ⊢
    grind

end InternLeft

/-- The keys of a node, with the key `s` that goes when the children on its two sides are merged. -/
structure Separator (header : IndexFileHeader) (least : Nat) (K₁ : List Key) (s : Key) (K₂ : List Key) : Prop where
  least : least ≤ (K₁ ++ s :: K₂).length
  most : (K₁ ++ s :: K₂).length ≤ header.order - 1
  -- What the code's comparison makes of the key.
  other : ∀ k ∈ K₁, cmpKey header s k ≠ 0
  self : cmpKey header s s = 0

/-- `coalesce_node` on `l` and `r`, once it has given `r` back, deletes `s` from the parent and leaves the pages
    `σ'`. -/
def Merges (h : BplusTreeHandler) (l r page : PageNum) (s : Key) (σ' : Pages) : Prop :=
  ∃ σ, Coalesces h l r page s σ ∧
    deleteEntryFromNode page s { h with pages := σ.erase r } = some (.ok (), { h with pages := σ' })

theorem Merges.run {l r : PageNum} {σ' : Pages} (merges : Merges h l r page s σ') (free : h.Free r) (fuel : Nat) :
    coalesceNode (deleteEntryInternal (fuel + 1)) l r h =
      rebalance (deleteEntryInternal fuel) page { h with pages := σ' } := by
  obtain ⟨σ, hmerge, hremove⟩ := merges
  rw [hmerge, if_pos free]
  exact Op.bind_ok hremove

section Merge
variable {n : Nat} {T₁ T₂ : List (IndexTree n)} {l r m : IndexTree n} {σ₁ : Pages}

/-- After two siblings have been merged into `m`, the key between them is deleted from the parent. The slot behind the
    parent's children then holds the child that was its last one. -/
theorem Window.merged (w : Window rank h.order h.pages par page node K₁ s K₂ T₁ l r T₂ a lo b hi)
    (hgetp : σ₁.get page = some node)
    (hrw : Rewritten h.order h.pages σ₁ (l.pages ++ r.pages) m.pages (l.leaves ++ r.leaves) m.leaves)
    (hm : Rep σ₁ page m) (hmpage : m.page = l.page) (hwf : Full rank h.order a b m)
    (hkeys : ∀ k ∈ m.allKeys, k ∈ s :: (l.allKeys ++ r.allKeys)) (sep : Separator h.fileHeader least K₁ s K₂) :
    ∃ σ' node', deleteEntryFromNode page s { h with pages := σ₁ } = some (.ok (), { h with pages := σ' }) ∧
      Trimmed rank h.order h.pages σ' par (least - 1) lo hi
        (branch page (K₁ ++ s :: K₂) (T₁ ++ l :: r :: T₂)) (branch page (K₁ ++ K₂) (T₁ ++ m :: T₂)) ∧
      σ'.get page = some node' ∧ (∀ q, q ≠ page → σ'.get q = σ₁.get q) ∧
      (node'.rids (node'.keyNum + 1)).pageNum = ((r :: T₂).getLast (cons_ne_nil _ _)).page := by
  obtain ⟨hidx, hlt⟩ := @firstIdx_key h node s K₁ K₂ s w.node.keys sep.other sep.self
  have hlen : (T₁.map Tree.page).length = K₁.length := by simpa using w.length
  have hnode' := w.node_map.removeAt hlen
  have hstale := w.node_map.removeAt_stale hlen
  refine ⟨σ₁.set page (node.removeAt K₁.length), node.removeAt K₁.length, ?_, ?_, get_set_same,
    fun q hq => get_set_ne hq, ?_⟩
  · exact @deleteEntryFromNode_run { h with pages := σ₁ } page node s _ hgetp hidx hlt
  · have hone : Rewritten h.order h.pages σ₁ (l.pages ++ r.pages) ([m].flatMap pages)
        (l.leaves ++ r.leaves) ([m].flatMap leaves) := by simpa using hrw
    have hmap : InternNode (node.removeAt K₁.length) par (K₁ ++ ([] ++ K₂)) ((T₁ ++ ([m] ++ T₂)).map Tree.page) := by
      simpa [hmpage] using hnode'
    have hleast := sep.least
    have hmost : (K₁ ++ s :: K₂).length ≤ h.order - 1 := sep.most
    simp only [length_append, length_cons] at hleast hmost
    have htrim : Trimmed rank h.order h.pages (σ₁.set page (node.removeAt K₁.length)) par (least - 1) lo hi
        (branch page (K₁ ++ s :: K₂) (T₁ ++ l :: r :: T₂))
        (branch page (K₁ ++ ([] ++ K₂)) (T₁ ++ ([m] ++ T₂))) := by
      refine w.trimmed hone (fun x hx => mem_singleton.mp hx ▸ hm) (fun q hq => get_set_ne hq)
        (get_set_same) hmap (chain_nil.mpr hwf) ?_ ?_ (by simpa using hkeys)
      · simp only [nil_append, length_append]
        omega
      · simp only [nil_append, length_append]
        omega
    simpa using htrim
  · rw [hstale]
    have := getLast_map (f := Tree.page) (l := r :: T₂) (by simp)
    simpa using this

end Merge

theorem coalesce_leaf {T₁ T₂ : List (IndexTree 0)} {A B : List (Key × RID)}
    (w : Window rank h.order h.pages par page node K₁ s K₂ T₁ (leaf lp A) (leaf rp B) T₂ a lo b hi)
    (hwl : WF rank (shape h.order) 0 least₁ a (rank s) (leaf lp A))
    (hwr : WF rank (shape h.order) 0 least₂ (rank s) b (leaf rp B))
    (hmin : minKey h.order true ≤ A.length + B.length) (hroom : A.length + B.length ≤ h.order - 1)
    (sep : Separator h.fileHeader least K₁ s K₂) :
    ∃ σ' node', Merges h lp rp page s σ' ∧
      Trimmed rank h.order h.pages σ' par (least - 1) lo hi (branch page (K₁ ++ s :: K₂)
        (T₁ ++ leaf lp A :: leaf rp B :: T₂)) (branch page (K₁ ++ K₂) (T₁ ++ leaf lp (A ++ B) :: T₂)) ∧
      σ'.get page = some node' ∧ σ'.get rp = none ∧
      (node'.rids (node'.keyNum + 1)).pageNum = ((leaf rp B :: T₂).getLast (cons_ne_nil _ _)).page := by
  obtain ⟨left, hgetl, hl⟩ := rep_leaf.mp w.rep_left
  obtain ⟨right, hgetr, hr⟩ := rep_leaf.mp w.rep_right
  obtain ⟨hsep, hkey⟩ := w.sepPos
  have hsep' : node.sepPos lp = K₁.length := hsep
  have hlr : lp ≠ rp := w.left_ne_right
  have hlpage : lp ≠ page := w.left_ne_page
  have hrpage : rp ≠ page := w.right_ne_page
  obtain ⟨hm, hnext⟩ := hl.merge hr hroom s
  have hrun := coalesceNode_run_leaf hgetl hgetr w.get hl.parent hl.isLeaf hlr.symm hrpage
  rw [hsep', hkey] at hrun
  have hgetl' : ((h.pages.set lp (left.merge h.order s right)).erase rp).get lp =
      some (left.merge h.order s right) := by
    rw [get_erase, if_neg hlr, get_set_same]
  have hother : ∀ q, q ≠ lp → q ≠ rp →
      ((h.pages.set lp (left.merge h.order s right)).erase rp).get q = h.pages.get q := by
    intro q hql hqr
    rw [get_erase, if_neg hqr, get_set_ne hql]
  obtain ⟨hsort, hbound⟩ := wf_leaf_join hwl hwr w.bounds
  obtain ⟨σ', node', hrun', htrim, hgetp, hsame, hstale⟩ := w.merged (m := leaf lp (A ++ B))
    ((hother page hlpage.symm hrpage.symm).trans w.get) (rewritten_leaves_merge hgetr hgetl' hother hnext)
    (rep_leaf.mpr ⟨_, hgetl', hm⟩) rfl
    (wf_leaf.mpr ⟨hsort, hbound, by rwa [length_append], by rwa [length_append]⟩)
    (fun k hk => mem_cons_of_mem _ (by simpa using hk)) sep
  refine ⟨σ', node', ⟨_, hrun, hrun'⟩, htrim, hgetp, ?_, hstale⟩
  rw [hsame rp hrpage, get_erase, if_pos rfl]

theorem coalesce_intern {n : Nat} {T₁ T₂ : List (IndexTree (n + 1))} {KL KR : List Key} {CL CR : List (IndexTree n)}
    (w : Window rank h.order h.pages par page node K₁ s K₂ T₁ (branch lp KL CL) (branch rp KR CR) T₂
      a lo b hi) (hwl : WF rank (shape h.order) (n + 1) least₁ a (rank s) (branch lp KL CL))
    (hwr : WF rank (shape h.order) (n + 1) least₂ (rank s) b (branch rp KR CR))
    (hmin : minKey h.order false ≤ KL.length + 1 + KR.length) (hroom : KL.length + 1 + KR.length ≤ h.order - 1)
    (sep : Separator h.fileHeader least K₁ s K₂) :
    ∃ σ' node', Merges h lp rp page s σ' ∧
      Trimmed rank h.order h.pages σ' par (least - 1) lo hi
        (branch page (K₁ ++ s :: K₂) (T₁ ++ branch lp KL CL :: branch rp KR CR :: T₂))
        (branch page (K₁ ++ K₂) (T₁ ++ branch lp (KL ++ s :: KR) (CL ++ CR) :: T₂)) ∧
      σ'.get page = some node' ∧ σ'.get rp = none ∧
      (node'.rids (node'.keyNum + 1)).pageNum = ((branch rp KR CR :: T₂).getLast (cons_ne_nil _ _)).page := by
  obtain ⟨⟨left, hgetl, hl⟩, hchildl⟩ := rep_branch.mp w.rep_left
  obtain ⟨⟨right, hgetr, hr⟩, hchildr⟩ := rep_branch.mp w.rep_right
  obtain ⟨hsep, hkey⟩ := w.sepPos
  have hsep' : node.sepPos lp = K₁.length := hsep
  have hlr : lp ≠ rp := w.left_ne_right
  have hlpage : lp ≠ page := w.left_ne_page
  have hrpage : rp ≠ page := w.right_ne_page
  have hnodup := w.branch_pages.1
  have hX := hnodup.of_cons.of_cons
  have hW := fun p hp => (w.children_apart p hp).1
  have hne : ∀ {q}, q ∈ CR.map Tree.page → q ≠ lp ∧ q ≠ rp ∧ q ≠ page := by
    intro q hq
    obtain ⟨x, hx, rfl⟩ := mem_map.mp hq
    obtain ⟨hwin, hpage⟩ := w.children_apart x.page (mem_flatMap.mpr ⟨x, mem_append_right _ hx, x.page_mem_pages⟩)
    exact ⟨fun heq => hwin (mem_pair.mpr (.inl heq)), fun heq => hwin (mem_pair.mpr (.inr heq)), hpage⟩
  have hm : InternNode (left.merge h.order s right) page (KL ++ s :: KR)
      (CL.map Tree.page ++ CR.map Tree.page) := hl.merge hr s
  have hmoved : firstN (fun i => ((left.merge h.order s right).rids (left.keyNum + 1 + i)).pageNum)
      (right.keyNum + 1) = CR.map Tree.page := hl.merge_moved hr s
  have hrun := coalesceNode_run_intern (C := CR.map Tree.page) hgetl hgetr w.get hl.parent hl.isLeaf hlr.symm hrpage
    (fun hq => (hne hq).2.1 rfl)
  rw [hsep', hkey] at hrun
  obtain ⟨σ, hrun, hσ⟩ := hrun hmoved fun q hq => by
    obtain ⟨x, hx, rfl⟩ := mem_map.mp hq
    rw [get_set_ne (hne hq).1]
    exact (hchildr x hx).get_isSome _ x.page_mem_pages
  let σ₁ := σ.erase rp
  have hσ₁ : ∀ q, σ₁.get q = if q = rp then none else if q ∈ CR.map Tree.page then
      ((h.pages.set lp (left.merge h.order s right)).get q).map (IndexNode.withParent lp)
      else (h.pages.set lp (left.merge h.order s right)).get q := fun q => by rw [get_erase, hσ]
  have hgetl' : σ₁.get lp = some (left.merge h.order s right) := by
    rw [hσ₁, if_neg hlr, if_neg fun hq => (hne hq).1 rfl, get_set_same]
  have hreparented : Reparented h.pages σ₁ [lp, rp] (CR.map Tree.page) lp := by
    refine ⟨fun q hq => ?_, fun q hq hqC => ?_⟩
    · rw [hσ₁, if_neg (hne hq).2.1, if_pos hq, get_set_ne (hne hq).1]
    · simp only [mem_cons, not_mem_nil, or_false, not_or] at hq
      rw [hσ₁, if_neg hq.2, if_neg hqC, get_set_ne hq.1]
  have hsub : CR ⊆ CL ++ CR := subset_append_right _ _
  have hps := branch_pages_perm lp rp KL KR CL CR
  have hless : (lp :: (CL ++ CR).flatMap pages).Sublist (lp :: rp :: (CL ++ CR).flatMap pages) :=
    (sublist_cons_self _ _).cons_cons _
  have hrw := @rewritten_moved h.order _ _ _ _ _ _ _ _ _ _ hreparented hsub hps w.pages_nodup (hnodup.sublist hless)
    (List.Subset.trans hless.subset hps.symm.subset)
  have hpageW : page ∉ [lp, rp] := by simp [hlpage.symm, hrpage.symm]
  have hgetp : σ₁.get page = some node :=
    (hreparented.other page hpageW fun hq => (hne hq).2.2 rfl).trans w.get
  have hrep : Rep σ₁ page (branch lp (KL ++ s :: KR) (CL ++ CR)) := by
    refine rep_branch.mpr ⟨⟨_, hgetl', by simpa using hm⟩, fun x hx => ?_⟩
    by_cases hxR : x ∈ CR
    · exact hreparented.rep_moved hsub hX hW hxR (hchildr x hxR)
    · have hxL : x ∈ CL := (mem_append.mp hx).resolve_right hxR
      exact hreparented.rep_other hsub hX hW hx hxR (hchildl x hxL)
  have hlen : (KL ++ s :: KR).length = KL.length + 1 + KR.length := by
    simp only [length_append, length_cons]
    omega
  obtain ⟨σ', node', hrun', htrim, hgetp', hsame, hstale⟩ :=
    w.merged (m := branch lp (KL ++ s :: KR) (CL ++ CR)) hgetp (by simpa using hrw) hrep rfl
      (wf_branch.mpr ⟨wf_branch_join hwl hwr w.bounds, hlen ▸ hmin, hlen ▸ hroom⟩)
      (fun k hk => by
        simp only [allKeys_branch, flatMap_append, mem_append, mem_cons] at hk ⊢
        grind) sep
  refine ⟨σ', node', ⟨σ, hrun, hrun'⟩, htrim, hgetp', ?_, hstale⟩
  rw [hsame rp hrpage, hσ₁, if_pos rfl]

end

end MiniOb
