import MiniOb.Theorems.DeleteNodes
import MiniOb.Theorems.Rewritten

/-! # Two siblings and their parent

`Trimmed` is the result of `redistribute_nodes` and `coalesce_node` when it is a tree again; `Broken` says that a page
is the root of no tree with distinct pages. -/

namespace MiniOb
open Slots BTree List Tree
variable {L : Type} [LinearOrder L] {rank : Key → L}

/-- The tree `t'` of `σ'` stands where the tree `t` of `σ` stood, between the same bounds. -/
structure Trimmed (rank : Key → L) (order : Nat) (σ σ' : Pages) (par : PageNum) (least : Nat) (lo : WithBot L)
    (hi : WithTop L) {n : Nat} (t t' : IndexTree n) : Prop extends
    Rewritten order σ σ' t.pages t'.pages t.leaves t'.leaves where
  wf : WF rank (shape order) n least lo hi t'
  rep : Rep σ' par t'
  page : t'.page = t.page
  keys : ∀ k ∈ t'.allKeys, k ∈ t.allKeys

def Broken (σ : Pages) (p : PageNum) : Prop :=
  ∀ (m : Nat) (t : IndexTree m) (par : PageNum), t.page = p → Rep σ par t → ¬t.pages.Nodup

theorem Rep.of_intern {σ : Pages} {p par : PageNum} {node : IndexNode} (hget : σ.get p = some node)
    (hintern : node.isLeaf = false) : ∀ {m : Nat} {t : IndexTree m}, t.page = p → Rep σ par t →
    ∃ (m' : Nat) (cs : List (IndexTree m')), cs.map page = node.childList ∧ (∀ c ∈ cs, Rep σ p c) ∧
      t.pages = p :: cs.flatMap pages
  | 0, t, hpage, ⟨node', hget', hnode'⟩ => by
    have hp : σ.get (Leaf.page t) = some node := (congrArg σ.get hpage).trans hget
    obtain rfl : node' = node := Option.some.inj (hget'.symm.trans hp)
    have := hintern.symm.trans hnode'.isLeaf
    cases this
  | m + 1, t, hpage, hrep => by
    obtain ⟨page, ks, cs, rfl⟩ := t.eq_branch
    obtain rfl : page = p := hpage
    obtain ⟨⟨node', hget', hnode'⟩, hchildren⟩ := rep_branch.mp hrep
    obtain rfl : node' = node := Option.some.inj (hget'.symm.trans hget)
    exact ⟨m, cs, hnode'.children.symm, hchildren, rfl⟩

section
variable {σ : Pages} {p q : PageNum} {node : IndexNode} (hget : σ.get p = some node) (hintern : node.isLeaf = false)
include hget hintern

theorem Broken.parent (hb : Broken σ q) (hq : q ∈ node.childList) : Broken σ p := by
  intro m t par hpage hrep hnodup
  obtain ⟨m', cs, hcs, hchildren, hpages⟩ := hrep.of_intern hget hintern hpage
  rw [← hcs] at hq
  obtain ⟨c, hc, rfl⟩ := mem_map.mp hq
  rw [hpages] at hnodup
  exact hb m' c p rfl (hchildren c hc) ((nodup_flatMap.mp (nodup_cons.mp hnodup).2).1 c hc)

theorem broken_of_unused (hnone : σ.get q = none) (hq : q ∈ node.childList) : Broken σ p := by
  intro m t par hpage hrep _
  obtain ⟨m', cs, hcs, hchildren, -⟩ := hrep.of_intern hget hintern hpage
  rw [← hcs] at hq
  obtain ⟨c, hc, rfl⟩ := mem_map.mp hq
  have := (hchildren c hc).get_isSome _ c.page_mem_pages
  rw [hnone] at this
  cases this

theorem broken_of_twice (htwice : ¬node.childList.Nodup) : Broken σ p := by
  intro m t par hpage hrep hnodup
  obtain ⟨m', cs, hcs, -, hpages⟩ := hrep.of_intern hget hintern hpage
  rw [hpages] at hnodup
  refine htwice (hcs ▸ ?_)
  have hsub : (cs.map page).Sublist (cs.flatMap pages) := by
    clear hcs hpages hnodup
    induction cs with
    | nil => exact List.Sublist.refl _
    | cons c cs ih =>
      have hone : [c.page].Sublist c.pages := singleton_sublist.mpr c.page_mem_pages
      exact hone.append ih
  exact (nodup_cons.mp hnodup).2.sublist hsub

end

section
variable {order : Nat} {σ σ' : Pages} {l r : PageNum}

theorem rewritten_leaf {node node' : IndexNode} (hl : σ.get l = some node) (hl' : σ'.get l = some node')
    (hother : ∀ q, q ≠ l → σ'.get q = σ.get q) (hnext : node'.next order = node.next order) :
    Rewritten order σ σ' [l] [l] [l] [l] where
  nodup := nodup_singleton _
  fresh := fun p hp => .inl hp
  frame := fun p hp _ => hother p fun heq => hp (mem_singleton.mpr heq)
  head := rfl
  linked := by
    rintro last ⟨⟨node₀, hget, hnext₀⟩, -⟩
    obtain rfl : node₀ = node := Option.some.inj (hget.symm.trans hl)
    exact ⟨⟨node', hl', hnext.trans hnext₀⟩, trivial⟩

theorem rewritten_leaves {left right left' right' : IndexNode} (hne : l ≠ r) (hl : σ.get l = some left)
    (hr : σ.get r = some right) (hl' : σ'.get l = some left') (hr' : σ'.get r = some right')
    (hother : ∀ q, q ≠ l → q ≠ r → σ'.get q = σ.get q) (hnl : left'.next order = left.next order)
    (hnr : right'.next order = right.next order) : Rewritten order σ σ' [l, r] [l, r] [l, r] [l, r] where
  nodup := by simpa using hne
  fresh := fun p hp => .inl hp
  frame := by
    intro p hp _
    simp only [mem_cons, not_mem_nil, or_false, not_or] at hp
    exact hother p hp.1 hp.2
  head := rfl
  linked := by
    rintro last ⟨⟨node, hget, hnext⟩, ⟨node', hget', hnext'⟩, -⟩
    obtain rfl : node = left := Option.some.inj (hget.symm.trans hl)
    obtain rfl : node' = right := Option.some.inj (hget'.symm.trans hr)
    exact ⟨⟨left', hl', hnl.trans hnext⟩, ⟨right', hr', hnr.trans hnext'⟩, trivial⟩

theorem rewritten_leaves_merge {right merged : IndexNode} (hr : σ.get r = some right)
    (hl' : σ'.get l = some merged) (hother : ∀ q, q ≠ l → q ≠ r → σ'.get q = σ.get q)
    (hnext : merged.next order = right.next order) : Rewritten order σ σ' [l, r] [l] [l, r] [l] where
  nodup := nodup_singleton _
  fresh := fun p hp => .inl (mem_singleton.mp hp ▸ mem_cons_self)
  frame := by
    intro p hp _
    simp only [mem_cons, not_mem_nil, or_false, not_or] at hp
    exact hother p hp.1 hp.2
  head := rfl
  linked := by
    rintro last ⟨-, ⟨node', hget', hnext'⟩, -⟩
    obtain rfl : node' = right := Option.some.inj (hget'.symm.trans hr)
    exact ⟨⟨merged, hl', hnext.trans hnext'⟩, trivial⟩

theorem rewritten_moved {n : Nat} {q : PageNum} {X Y : List (IndexTree n)} {ps ps' : List PageNum}
    (m : Reparented σ σ' [l, r] (Y.map page) q) (hYX : Y ⊆ X) (hps : ps.Perm (l :: r :: X.flatMap pages))
    (hnodup : ps.Nodup) (hnodup' : ps'.Nodup) (hsub : ps' ⊆ ps) :
    Rewritten order σ σ' ps ps' (X.flatMap leaves) (X.flatMap leaves) where
  nodup := hnodup'
  fresh := fun p hp => .inl (hsub hp)
  frame := by
    intro p hp _
    rw [hps.mem_iff, mem_cons, mem_cons, not_or, not_or] at hp
    refine m.other p (by simp [hp.1, hp.2.1]) fun hpY => hp.2.2 ?_
    obtain ⟨y, hy, rfl⟩ := mem_map.mp hpY
    exact mem_flatMap.mpr ⟨y, hYX hy, y.page_mem_pages⟩
  head := rfl
  linked := by
    intro last
    refine m.linked fun p hp hW => ?_
    obtain ⟨hl, hrest⟩ := nodup_cons.mp (hps.nodup_iff.mp hnodup)
    simp only [mem_cons, not_mem_nil, or_false] at hW
    rcases hW with rfl | rfl
    · exact hl (mem_cons_of_mem _ hp)
    · exact (nodup_cons.mp hrest).1 hp

end

theorem page_notMem_map {n : Nat} {X Y : List (IndexTree n)} {c : IndexTree n}
    (hnodup : ((X ++ c :: Y).flatMap pages).Nodup) : c.page ∉ X.map page := by
  intro hmem
  obtain ⟨x, hx, hxp⟩ := mem_map.mp hmem
  rw [flatMap_append] at hnodup
  refine (nodup_append.mp hnodup).2.2 x.page (mem_flatMap.mpr ⟨x, hx, x.page_mem_pages⟩) c.page ?_ hxp
  exact mem_flatMap.mpr ⟨c, mem_cons_self, c.page_mem_pages⟩

/-- Two neighbouring children `l` and `r` of the branch at `page`, with the key `s` between them; `a` and `b` are the
    bounds of the two, `lo` and `hi` those of the branch. -/
structure Window (rank : Key → L) (order : Nat) (σ : Pages) (par page : PageNum) (node : IndexNode) (K₁ : List Key)
    (s : Key) (K₂ : List Key) {n : Nat} (T₁ : List (IndexTree n)) (l r : IndexTree n) (T₂ : List (IndexTree n))
    (a lo : WithBot L) (b hi : WithTop L) : Prop where
  get : σ.get page = some node
  node : InternNode node par (K₁ ++ s :: K₂) ((T₁ ++ l :: r :: T₂).map Tree.page)
  rep : ∀ x ∈ T₁ ++ l :: r :: T₂, Rep σ page x
  nodup : (page :: (T₁ ++ l :: r :: T₂).flatMap pages).Nodup
  length : T₁.length = K₁.length
  bounds : a < rank s ∧ rank s < b
  context : ∀ ks' ts', Chain rank (Full rank order) a ks' ts' b →
    Chain rank (Full rank order) lo (K₁ ++ ks' ++ K₂) (T₁ ++ ts' ++ T₂) hi

section Window
variable {n order least : Nat} {σ σ₁ σ' : Pages} {par page : PageNum} {K₁ K₂ ks' : List Key} {s : Key}
  {T₁ T₂ cs' : List (IndexTree n)} {l r : IndexTree n} {a lo : WithBot L} {b hi : WithTop L} {node node' : IndexNode}
  (w : Window rank order σ par page node K₁ s K₂ T₁ l r T₂ a lo b hi)
include w

theorem Window.rep_left : Rep σ page l := w.rep l (mem_append_right _ mem_cons_self)

theorem Window.rep_right : Rep σ page r := w.rep r (mem_append_right _ (mem_cons_of_mem _ mem_cons_self))

theorem Window.pages_nodup : (l.pages ++ r.pages).Nodup := by
  have hpages := (nodup_cons.mp w.nodup).2
  simp only [flatMap_append, flatMap_cons] at hpages
  have hwin := (nodup_append.mp hpages).2.1
  rw [← append_assoc] at hwin
  exact (nodup_append.mp hwin).1

theorem Window.page_notMem : page ∉ l.pages ++ r.pages := by
  intro hmem
  refine (nodup_cons.mp w.nodup).1 ?_
  simp only [flatMap_append, flatMap_cons, mem_append] at hmem ⊢
  tauto

theorem Window.left_ne_right : l.page ≠ r.page := fun heq =>
  (nodup_append.mp w.pages_nodup).2.2 _ l.page_mem_pages _ r.page_mem_pages heq

theorem Window.left_ne_page : l.page ≠ page := fun heq =>
  w.page_notMem (heq ▸ mem_append_left _ l.page_mem_pages)

theorem Window.right_ne_page : r.page ≠ page := fun heq =>
  w.page_notMem (heq ▸ mem_append_right _ r.page_mem_pages)

theorem Window.node_map :
    InternNode node par (K₁ ++ s :: K₂) (T₁.map Tree.page ++ l.page :: r.page :: T₂.map Tree.page) := by
  simpa using w.node

theorem Window.left_notMem : l.page ∉ T₁.map Tree.page := page_notMem_map (nodup_cons.mp w.nodup).2

theorem Window.right_notMem : r.page ∉ (T₁ ++ [l]).map Tree.page := by
  refine page_notMem_map (Y := T₂) ?_
  simpa using (nodup_cons.mp w.nodup).2

theorem Window.sepPos : node.sepPos l.page = K₁.length ∧ node.keys K₁.length = s := by
  refine ⟨w.node_map.sepPos (by simpa using w.length) w.left_notMem, ?_⟩
  exact eq_of_firstN_split w.node.keys

theorem Window.trimmed (rw' : Rewritten order σ σ₁ (l.pages ++ r.pages) (cs'.flatMap pages) (l.leaves ++ r.leaves)
      (cs'.flatMap leaves)) (hrep' : ∀ x ∈ cs', Rep σ₁ page x) (hσ' : ∀ q, q ≠ page → σ'.get q = σ₁.get q)
    (hget' : σ'.get page = some node')
    (hnode' : InternNode node' par (K₁ ++ (ks' ++ K₂)) ((T₁ ++ (cs' ++ T₂)).map Tree.page))
    (hchain : Chain rank (Full rank order) a ks' cs' b) (hleast : least ≤ (K₁ ++ (ks' ++ K₂)).length)
    (hmost : (K₁ ++ (ks' ++ K₂)).length ≤ order - 1)
    (hkeys : ∀ k ∈ ks' ++ cs'.flatMap allKeys, k ∈ s :: (l.allKeys ++ r.allKeys)) :
    Trimmed rank order σ σ' par least lo hi (branch page (K₁ ++ s :: K₂) (T₁ ++ l :: r :: T₂))
      (branch page (K₁ ++ (ks' ++ K₂)) (T₁ ++ (cs' ++ T₂))) := by
  have hpair : Rewritten order σ σ₁ ([l, r].flatMap pages) (cs'.flatMap pages) ([l, r].flatMap leaves)
      (cs'.flatMap leaves) := by simpa using rw'
  obtain ⟨hrw, hrep''⟩ := hpair.branch (K₁ ++ s :: K₂) (by rw [w.get]; rfl) w.rep w.nodup hrep' hσ' hget' hnode'
  refine ⟨hrw, wf_branch.mpr ⟨?_, hleast, hmost⟩, hrep'', rfl, fun k hk => ?_⟩
  · simpa [append_assoc] using w.context ks' cs' hchain
  · have hk' := hkeys k
    simp only [allKeys_branch, flatMap_append, flatMap_cons, mem_append, mem_cons] at hk hk' ⊢
    tauto

end Window

end MiniOb
