import MiniOb.Theorems.TreeRep

/-! # Rewriting a stretch of the tree

`Rewritten` says what the rest of the tree has to know about an operation on some neighbouring subtrees. It composes,
and it extends to the node above. -/

namespace MiniOb
open Slots BTree List Tree
variable {p par : PageNum}

/-- The pages `ps` of `σ` turn into the pages `ps'` of `σ'`, and the stretch `ls` of the leaf chain into `ls'`. -/
structure Rewritten (order : Nat) (σ σ' : Pages) (ps ps' ls ls' : List PageNum) : Prop where
  nodup : ps'.Nodup
  fresh : ∀ p ∈ ps', p ∈ ps ∨ σ.get p = none ∧ 0 < p
  frame : ∀ p, p ∉ ps → (σ.get p).isSome → σ'.get p = σ.get p
  head : ls'.head? = ls.head?
  linked : ∀ last, Linked σ order ls last → Linked σ' order ls' last

theorem linked_replace {σ σ' : Pages} {order : Nat} {last : PageNum} {l₁ ls ls' l₂ : List PageNum}
    (hls : ∀ last, Linked σ order ls last → Linked σ' order ls' last) (hhead : ls'.head? = ls.head?)
    (same : ∀ p ∈ l₁ ++ l₂, σ'.get p = σ.get p) (h : Linked σ order (l₁ ++ (ls ++ l₂)) last) :
    Linked σ' order (l₁ ++ (ls' ++ l₂)) last := by
  obtain ⟨h₁, hrest⟩ := linked_append.mp h
  obtain ⟨hmid, h₂⟩ := linked_append.mp hrest
  have hheadD : (ls' ++ l₂).headD last = (ls ++ l₂).headD last := by
    rw [headD_eq_head?_getD, headD_eq_head?_getD, head?_append, head?_append, hhead]
  refine linked_append.mpr ⟨?_, linked_append.mpr ⟨hls _ hmid, h₂.congr fun p hp => same p (mem_append_right _ hp)⟩⟩
  rw [hheadD]
  exact h₁.congr fun p hp => same p (mem_append_left _ hp)

section
variable {order : Nat} {σ σ' σ'' : Pages} {ps ps' ps'' ls ls' ls'' : List PageNum}

section
variable (r : Rewritten order σ σ' ps ps' ls ls')
include r

theorem Rewritten.trans (r' : Rewritten order σ' σ'' ps' ps'' ls' ls'') :
    Rewritten order σ σ'' ps ps'' ls ls'' where
  nodup := r'.nodup
  fresh := by
    intro p hp
    rcases r'.fresh p hp with hp | ⟨hnone, hpos⟩
    · exact r.fresh p hp
    · by_cases hps : p ∈ ps
      · exact .inl hps
      · refine .inr ⟨?_, hpos⟩
        by_contra hsome
        have hsame := r.frame p hps (Option.isSome_iff_ne_none.mpr hsome)
        exact hsome (hsame.symm.trans hnone)
  frame := by
    intro p hp hsome
    have hsame := r.frame p hp hsome
    have hp' : p ∉ ps' := by
      intro hmem
      rcases r.fresh p hmem with hold | ⟨hnone, -⟩
      · exact hp hold
      · rw [hnone] at hsome
        cases hsome
    exact (r'.frame p hp' (by rw [hsame]; exact hsome)).trans hsame
  head := r'.head.trans r.head
  linked := fun last hlinked => r'.linked last (r.linked last hlinked)

theorem Rewritten.context {p₁ p₂ l₁ l₂ : List PageNum}
    (hnodup : (p₁ ++ (ps ++ p₂)).Nodup) (hused : ∀ p ∈ p₁ ++ p₂, (σ.get p).isSome) (hl : l₁ ++ l₂ ⊆ p₁ ++ p₂) :
    Rewritten order σ σ' (p₁ ++ (ps ++ p₂)) (p₁ ++ (ps' ++ p₂)) (l₁ ++ (ls ++ l₂)) (l₁ ++ (ls' ++ l₂)) := by
  obtain ⟨hn₁, hnrest, hd₁⟩ := nodup_append.mp hnodup
  obtain ⟨-, hn₂, hd₂⟩ := nodup_append.mp hnrest
  -- The neighbours are in use and outside the stretch, so the new pages are none of them.
  have houtside : ∀ p ∈ p₁ ++ p₂, p ∉ ps := by
    intro p hp hps
    rcases mem_append.mp hp with hp | hp
    · exact hd₁ p hp p (mem_append_left _ hps) rfl
    · exact hd₂ p hps p hp rfl
  have hdisjoint : ∀ p ∈ p₁ ++ p₂, p ∉ ps' := by
    intro p hp hps'
    rcases r.fresh p hps' with hps | ⟨hnone, -⟩
    · exact houtside p hp hps
    · have := hused p hp
      rw [hnone] at this
      cases this
  refine ⟨?_, ?_, ?_, ?_, ?_⟩
  · refine nodup_append.mpr ⟨hn₁, nodup_append.mpr ⟨r.nodup, hn₂, ?_⟩, ?_⟩
    · rintro p hp q hq rfl
      exact hdisjoint p (mem_append_right _ hq) hp
    · rintro p hp q hq rfl
      rcases mem_append.mp hq with hq | hq
      · exact hdisjoint p (mem_append_left _ hp) hq
      · exact hd₁ p hp p (mem_append_right _ hq) rfl
  · intro p hp
    simp only [mem_append] at hp ⊢
    rcases hp with hp | hp | hp
    · exact .inl (.inl hp)
    · exact (r.fresh p hp).imp_left fun hps => .inr (.inl hps)
    · exact .inl (.inr (.inr hp))
  · intro p hp
    exact r.frame p fun hps => hp (mem_append_right _ (mem_append_left _ hps))
  · rw [head?_append, head?_append, head?_append, head?_append, r.head]
  · intro last hlinked
    exact linked_replace r.linked r.head (fun p hp => r.frame p (houtside p (hl hp)) (hused p (hl hp))) hlinked

theorem Rewritten.root (hp : p ∉ ps') (hl : ls' ⊆ ps')
    (hσ' : ∀ q, q ≠ p → σ''.get q = σ'.get q) : Rewritten order σ σ'' (p :: ps) (p :: ps') ls ls' where
  nodup := nodup_cons.mpr ⟨hp, r.nodup⟩
  fresh := by
    intro q hq
    rcases mem_cons.mp hq with rfl | hq
    · exact .inl mem_cons_self
    · exact (r.fresh q hq).imp_left (mem_cons_of_mem _)
  frame := by
    intro q hq hsome
    have hqp : q ≠ p := fun heq => hq (heq ▸ mem_cons_self)
    exact (hσ' q hqp).trans (r.frame q (fun hmem => hq (mem_cons_of_mem _ hmem)) hsome)
  head := r.head
  linked := fun last hlinked => (r.linked last hlinked).congr fun q hq => hσ' q fun heq => hp (heq ▸ hl hq)

end

end

section
variable {n : Nat}

theorem leaves_subset_flatMap (cs : List (IndexTree n)) : cs.flatMap leaves ⊆ cs.flatMap pages := by
  intro p hp
  obtain ⟨c, hc, hpc⟩ := mem_flatMap.mp hp
  exact mem_flatMap.mpr ⟨c, hc, c.leaves_subset_pages hpc⟩

variable {order : Nat} {σ σ' : Pages} {page : PageNum} {ts₁ ts₂ cs cs' : List (IndexTree n)}

theorem Rewritten.children (r : Rewritten order σ σ' (cs.flatMap pages) (cs'.flatMap pages) (cs.flatMap leaves)
      (cs'.flatMap leaves)) (hrep' : ∀ x ∈ cs', Rep σ' page x) (hrep : ∀ x ∈ ts₁ ++ (cs ++ ts₂), Rep σ page x)
    (hnodup : ((ts₁ ++ (cs ++ ts₂)).flatMap pages).Nodup) :
    Rewritten order σ σ' ((ts₁ ++ (cs ++ ts₂)).flatMap pages) ((ts₁ ++ (cs' ++ ts₂)).flatMap pages)
      ((ts₁ ++ (cs ++ ts₂)).flatMap leaves) ((ts₁ ++ (cs' ++ ts₂)).flatMap leaves) ∧
    ∀ x ∈ ts₁ ++ (cs' ++ ts₂), Rep σ' page x := by
  simp only [flatMap_append] at hnodup
  have hsibling : ∀ x ∈ ts₁ ++ ts₂, Rep σ page x := by
    intro x hx
    refine hrep x ?_
    simp only [mem_append] at hx ⊢
    tauto
  have hused : ∀ p ∈ ts₁.flatMap pages ++ ts₂.flatMap pages, (σ.get p).isSome := by
    intro p hp
    rw [← flatMap_append] at hp
    obtain ⟨x, hx, hpx⟩ := mem_flatMap.mp hp
    exact (hsibling x hx).get_isSome p hpx
  have houtside : ∀ p ∈ ts₁.flatMap pages ++ ts₂.flatMap pages, p ∉ cs.flatMap pages := by
    obtain ⟨-, hrest, hd₁⟩ := nodup_append.mp hnodup
    obtain ⟨-, -, hd₂⟩ := nodup_append.mp hrest
    intro p hp hpc
    rcases mem_append.mp hp with hp | hp
    · exact hd₁ p hp p (mem_append_left _ hpc) rfl
    · exact hd₂ p hpc p hp rfl
  constructor
  · simp only [flatMap_append]
    refine r.context hnodup hused ?_
    rw [← flatMap_append, ← flatMap_append]
    exact leaves_subset_flatMap _
  · intro x hx
    by_cases hx' : x ∈ cs'
    · exact hrep' x hx'
    · have hxs : x ∈ ts₁ ++ ts₂ := by
        simp only [mem_append] at hx ⊢
        tauto
      refine (hsibling x hxs).congr fun p hp => ?_
      have hmem : p ∈ ts₁.flatMap pages ++ ts₂.flatMap pages := by
        rw [← flatMap_append]
        exact mem_flatMap.mpr ⟨x, hxs, hp⟩
      exact r.frame p (houtside p hmem) (hused p hmem)

theorem Rewritten.outside {ps ps' ls ls' : List PageNum} (r : Rewritten order σ σ' ps ps' ls ls') (hpage : page ∉ ps)
    (hused : (σ.get page).isSome) : page ∉ ps' ∧ σ'.get page = σ.get page := by
  refine ⟨fun hmem => ?_, r.frame page hpage hused⟩
  rcases r.fresh page hmem with hold | ⟨hnone, -⟩
  · exact hpage hold
  · rw [hnone] at hused
    cases hused

end

/-- The nodes of the pages `D` get the parent `q`; of the other pages only `W` may change. -/
structure Reparented (σ σ' : Pages) (W D : List PageNum) (q : PageNum) : Prop where
  moved : ∀ p ∈ D, σ'.get p = (σ.get p).map (IndexNode.withParent q)
  other : ∀ p, p ∉ W → p ∉ D → σ'.get p = σ.get p

theorem mem_of_page_mem {n : Nat} {X Y : List (IndexTree n)} (hYX : Y ⊆ X) (hnodup : (X.flatMap pages).Nodup)
    {x : IndexTree n} (hx : x ∈ X) (hp : p ∈ x.pages) (hpY : p ∈ Y.map page) : x ∈ Y ∧ p = x.page := by
  obtain ⟨y, hy, rfl⟩ := mem_map.mp hpY
  obtain rfl := eq_of_mem_pages hnodup hx (hYX hy) hp y.page_mem_pages
  exact ⟨hy, rfl⟩

theorem notMem_of_nodup_append {n : Nat} {X Y : List (IndexTree n)} (hnodup : ((X ++ Y).flatMap pages).Nodup)
    {x : IndexTree n} (hx : x ∈ X) : x ∉ Y := by
  intro hy
  rw [flatMap_append] at hnodup
  exact (nodup_append.mp hnodup).2.2 x.page (mem_flatMap.mpr ⟨x, hx, x.page_mem_pages⟩) x.page
    (mem_flatMap.mpr ⟨x, hy, x.page_mem_pages⟩) rfl

section
variable {n order : Nat} {σ σ' : Pages} {W : List PageNum} {q : PageNum} {X Y : List (IndexTree n)}
  (m : Reparented σ σ' W (Y.map page) q) (hYX : Y ⊆ X) (hnodup : (X.flatMap pages).Nodup)
  (hW : ∀ p ∈ X.flatMap pages, p ∉ W)
include m hW

theorem Reparented.same {x : IndexTree n} (hx : x ∈ X) (hp : p ∈ x.pages) (hpD : p ∉ Y.map page) :
    σ'.get p = σ.get p := m.other p (hW p (mem_flatMap.mpr ⟨x, hx, hp⟩)) hpD

theorem Reparented.linked {last : PageNum} (hlinked : Linked σ order (X.flatMap leaves) last) :
    Linked σ' order (X.flatMap leaves) last := by
  refine hlinked.congr_next fun p hp node hget => ?_
  obtain ⟨x, hx, hpx⟩ := mem_flatMap.mp (leaves_subset_flatMap _ hp)
  by_cases hpD : p ∈ Y.map page
  · exact ⟨node.withParent q, by rw [m.moved p hpD, hget]; rfl, rfl⟩
  · exact ⟨node, (m.same hW hx hpx hpD).trans hget, rfl⟩

include hYX hnodup

theorem Reparented.rep_moved {x : IndexTree n} (hx : x ∈ Y) (hrep : Rep σ par x) : Rep σ' q x := by
  have hxnodup : x.pages.Nodup := (nodup_flatMap.mp hnodup).1 x (hYX hx)
  refine hrep.reparent hxnodup (m.moved _ (mem_map_of_mem hx)) fun p hp hne => ?_
  exact m.same hW (hYX hx) hp fun hpD => hne (mem_of_page_mem hYX hnodup (hYX hx) hp hpD).2

theorem Reparented.rep_other {x : IndexTree n} (hx : x ∈ X) (hxY : x ∉ Y) (hrep : Rep σ par x) :
    Rep σ' par x :=
  hrep.congr fun _ hp => m.same hW hx hp fun hpD => hxY (mem_of_page_mem hYX hnodup hx hp hpD).1

end

theorem Rewritten.branch {n order : Nat} {σ σ₁ σ' : Pages} {page : PageNum} {ks' : List Key}
    {T₁ T₂ cs cs' : List (IndexTree n)} {node' : IndexNode} (ks : List Key) (hused : (σ.get page).isSome)
    (hrep : ∀ x ∈ T₁ ++ (cs ++ T₂), Rep σ page x) (hnodup : (page :: (T₁ ++ (cs ++ T₂)).flatMap pages).Nodup)
    (r : Rewritten order σ σ₁ (cs.flatMap pages) (cs'.flatMap pages) (cs.flatMap leaves)
      (cs'.flatMap leaves)) (hrep' : ∀ x ∈ cs', Rep σ₁ page x) (hσ' : ∀ q, q ≠ page → σ'.get q = σ₁.get q)
    (hget' : σ'.get page = some node') (hnode' : InternNode node' par ks' ((T₁ ++ (cs' ++ T₂)).map Tree.page)) :
    Rewritten order σ σ' (branch page ks (T₁ ++ (cs ++ T₂))).pages (branch page ks' (T₁ ++ (cs' ++ T₂))).pages
      (branch page ks (T₁ ++ (cs ++ T₂))).leaves (branch page ks' (T₁ ++ (cs' ++ T₂))).leaves ∧
    Rep σ' par (branch page ks' (T₁ ++ (cs' ++ T₂))) := by
  obtain ⟨hpage, hchildren⟩ := nodup_cons.mp hnodup
  obtain ⟨r', hrep''⟩ := r.children hrep' hrep hchildren
  obtain ⟨hnew, -⟩ := r'.outside hpage hused
  refine ⟨r'.root hnew (leaves_subset_flatMap _) hσ', rep_branch.mpr ⟨⟨node', hget', hnode'⟩, fun x hx => ?_⟩⟩
  refine (hrep'' x hx).congr fun p hp => hσ' p fun heq => hnew ?_
  exact heq ▸ mem_flatMap.mpr ⟨x, hx, hp⟩

end MiniOb
