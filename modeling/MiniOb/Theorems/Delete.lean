import MiniOb.Theorems.DeleteOutcome
import MiniOb.Theorems.InsertEntry

/-! # `delete_entry`

The induction along the path of the key, the collapse of the root, and exactly when `delete_entry` leaves a well-formed
tree. -/

namespace MiniOb
open Slots BTree List Tree Option
variable {A B : List (Key × RID)} {page : PageNum}

variable {L : Type} [LinearOrder L] {rank : Key → L}

def without (header : IndexFileHeader) (key : Key) (es : List (Key × RID)) : List (Key × RID) :=
  es.filter fun e => decide (cmpKey header key e.1 ≠ 0)

section
variable {header : IndexFileHeader} {key : Key} {es fs : List (Key × RID)}

theorem without_append : without header key (es ++ fs) = without header key es ++ without header key fs :=
  filter_append ..

theorem without_of_ne (hne : ∀ e ∈ es, cmpKey header key e.1 ≠ 0) : without header key es = es :=
  filter_eq_self.mpr fun e he => decide_eq_true (hne e he)

theorem without_split {e : Key × RID} (hA : ∀ a ∈ A, cmpKey header key a.1 ≠ 0)
    (he : cmpKey header key e.1 = 0) (hB : ∀ b ∈ B, cmpKey header key b.1 ≠ 0) :
    without header key (A ++ e :: B) = A ++ B := by
  have hdrop : without header key (e :: B) = without header key B :=
    filter_cons_of_neg (by simp [he])
  rw [without_append, hdrop, without_of_ne hA, without_of_ne hB]

theorem ne_around {e : Key × RID} (hsorted : (A ++ e :: B).Pairwise fun e e' => rank e.1 < rank e'.1)
    (hord : ∀ x ∈ A ++ e :: B, cmpKey header key x.1 = 0 → rank key = rank x.1) (hz : cmpKey header key e.1 = 0) :
    (∀ x ∈ A, cmpKey header key x.1 ≠ 0) ∧ ∀ x ∈ B, cmpKey header key x.1 ≠ 0 := by
  obtain ⟨-, hright, hleft⟩ := pairwise_append.mp hsorted
  have hkey := hord e (mem_append_right _ mem_cons_self) hz
  refine ⟨fun x hx hzx => ?_, fun x hx hzx => ?_⟩
  · exact (hleft x hx e mem_cons_self).ne ((hord x (mem_append_left _ hx) hzx).symm.trans hkey)
  · have hx' : x ∈ A ++ e :: B := mem_append_right _ (mem_cons_of_mem _ hx)
    exact ((pairwise_cons.mp hright).1 x hx).ne (hkey.symm.trans (hord x hx' hzx))

theorem Orders.rank_eq {n : Nat} {t : IndexTree n} (ho : Orders header rank (key :: t.allKeys)) (x : Key × RID)
    (hx : x ∈ t.entries) (hz : cmpKey header key x.1 = 0) : rank key = rank x.1 :=
  (ho key mem_cons_self x.1 (mem_cons_of_mem _ (mem_allKeys_of_mem_entries hx))).2.mp hz

end

section
variable {h : BplusTreeHandler} {key : Key} {fuel n : Nat}

theorem above_pair {par : PageNum} {least : Nat} {K₁ K₂ : List Key} {s : Key} {T₁ T₂ : List (IndexTree n)}
    {l r : IndexTree n} {lo : WithBot L} {hi : WithTop L} (horder : 3 ≤ h.order)
    (hrep : Rep h.pages par (branch page (K₁ ++ s :: K₂) (T₁ ++ l :: r :: T₂)))
    (hwf : WF rank (shape h.order) (n + 1) least lo hi (branch page (K₁ ++ s :: K₂) (T₁ ++ l :: r :: T₂)))
    (hnodup : (branch page (K₁ ++ s :: K₂) (T₁ ++ l :: r :: T₂)).pages.Nodup) (hpage : 0 < page)
    (free : h.Free r.page) (ho : Orders h.fileHeader rank (K₁ ++ s :: K₂)) (hlen : T₁.length = K₁.length) :
    ∃ (a : WithBot L) (b : WithTop L), Above rank h par page least K₁ s K₂ T₁ l r T₂ a lo b hi := by
  obtain ⟨hchain, hleast, hmost⟩ := wf_branch.mp hwf
  obtain ⟨a, b, hbounds, hl, hr, hctx⟩ := hchain.pair hlen
  have hs : s ∈ K₁ ++ s :: K₂ := mem_append_right _ mem_cons_self
  refine ⟨a, b, horder, fun heq => ?_, hrep, hnodup, hlen, hbounds, hl, hr, hctx, hleast, hmost, free,
    fun k hk hz => ?_, ?_⟩
  · rw [heq] at hpage
    cases hpage
  · have hlt := (pairwise_append.mp hchain.keys_sorted).2.2 k hk s mem_cons_self
    exact hlt.ne' ((ho s hs k (mem_append_left _ hk)).2.mp hz)
  · exact (ho s hs s hs).2.mpr rfl

/-- The child of a branch in which the key is, and where the search goes on; the other children have no equal key. -/
theorem exists_path {header : IndexFileHeader} {ks : List Key} {cs : List (IndexTree n)} {s : Shape}
    {least : Nat} {lo : WithBot L} {hi : WithTop L} {e : Key × RID} (hz : cmpKey header key e.1 = 0)
    (hwf : WF rank s (n + 1) least lo hi (branch page ks cs))
    (ho : Orders header rank (key :: (branch page ks cs).allKeys)) (he : e ∈ (branch page ks cs).entries) :
    ∃ ks₁ ks₂ ts₁ c ts₂, ks = ks₁ ++ ks₂ ∧ cs = ts₁ ++ c :: ts₂ ∧ ts₁.length = ks₁.length ∧
      childIdx header key ks = ks₁.length ∧
      find (before header key) (branch page ks cs) = find (before header key) c ∧ e ∈ c.entries ∧
      without header key (branch page ks cs).entries =
        ts₁.flatMap entries ++ (without header key c.entries ++ ts₂.flatMap entries) := by
  obtain ⟨hchain, -, -⟩ := wf_branch.mp hwf
  have hord : ∀ k ∈ (branch page ks cs).allKeys, Agrees (cmpKey header key k) (rank key) (rank k) :=
    fun k hk => ho key mem_cons_self k (mem_cons_of_mem _ hk)
  have hkey : rank key = rank e.1 := (hord e.1 (mem_allKeys_of_mem_entries he)).2.mp hz
  obtain ⟨hlo, hhi⟩ := hwf.entries_sorted.2 e he
  rw [← hkey] at hlo hhi
  obtain ⟨ks₁, ks₂, ts₁, c, ts₂, -, -, rfl, rfl, hlen, hle, hlt, -⟩ := hchain.route hlo hhi
  have hbefore₁ : ∀ k ∈ ks₁, before header key k = false := fun k hk => decide_eq_false fun hneg =>
    (hle k hk).not_gt ((hord k (mem_append_left _ (mem_append_left _ hk))).1.mp hneg)
  have hbefore₂ : ∀ k ∈ ks₂, before header key k = true := fun k hk => decide_eq_true
    ((hord k (mem_append_left _ (mem_append_right _ hk))).1.mpr (hlt k hk))
  obtain ⟨hout₁, hout₂⟩ := hchain.outside (f := entries) (fun a b x hx => hx.entries_sorted) hlt hlen hle
  have hne : ∀ ts : List (IndexTree n), (∀ x ∈ ts, x ∈ ts₁ ++ c :: ts₂) →
      (∀ x ∈ ts.flatMap entries, rank x.1 ≠ rank key) →
      ∀ x ∈ ts.flatMap entries, cmpKey header key x.1 ≠ 0 := by
    intro ts hsub hrank x hx hzx
    obtain ⟨y, hy, hxy⟩ := mem_flatMap.mp hx
    have hmem : x ∈ (branch page (ks₁ ++ ks₂) (ts₁ ++ c :: ts₂)).entries :=
      mem_flatMap.mpr ⟨y, hsub y hy, hxy⟩
    exact hrank x hx ((hord x.1 (mem_allKeys_of_mem_entries hmem)).2.mp hzx).symm
  have hne₁ := hne ts₁ (fun x hx => mem_append_left _ hx) fun x hx => (hout₁ x hx).ne
  have hne₂ := hne ts₂ (fun x hx => mem_append_right _ (mem_cons_of_mem _ hx)) fun x hx => (hout₂ x hx).ne'
  refine ⟨ks₁, ks₂, ts₁, c, ts₂, rfl, rfl, hlen, findIdx_split hbefore₁ hbefore₂, find_branch hlen hbefore₁ hbefore₂,
    ?_, ?_⟩
  · rw [entries_branch, flatMap_append, flatMap_cons] at he
    rcases mem_append.mp he with hmem₁ | hrest
    · exact absurd hz (hne₁ e hmem₁)
    rcases mem_append.mp hrest with hc | hmem₂
    · exact hc
    · exact absurd hz (hne₂ e hmem₂)
  · rw [entries_branch, flatMap_append, flatMap_cons, without_append, without_append,
      without_of_ne hne₁, without_of_ne hne₂]

theorem deleteOutcome_tree (horder : 3 ≤ h.order) {e : Key × RID} (hz : cmpKey h.fileHeader key e.1 = 0) :
    ∀ {n : Nat} {t : IndexTree n} {par : PageNum} {least : Nat} {lo : WithBot L} {hi : WithTop L}, n < fuel →
    (n ≠ 0 → 0 < least) → Rep h.pages par t → WF rank (shape h.order) n least lo hi t → t.pages.Nodup →
    (∀ p ∈ t.pages, 0 < p ∧ h.Free p) → Orders h.fileHeader rank (key :: t.allKeys) → e ∈ t.entries →
    ∃ leaf, find (before h.fileHeader key) t = some leaf ∧
      DeleteOutcome rank h key fuel leaf.page par least lo hi (without h.fileHeader key t.entries) t
  | 0, t, par, least, lo, hi, hfuel, _, hrep, hwf, _, _, ho, he => by
    obtain ⟨page, es, rfl⟩ := t.eq_leaf
    obtain ⟨A, B, rfl⟩ : ∃ A B, es = A ++ e :: B := append_of_mem he
    obtain ⟨hA, hB⟩ := ne_around (wf_leaf.mp hwf).1 ho.rank_eq hz
    refine ⟨leaf page (A ++ e :: B), rfl, ?_⟩
    rw [entries_leaf, without_split hA hz hB]
    exact deleteOutcome_leaf hfuel hrep hwf hA hz hB
  | n + 1, t, par, least, lo, hi, hfuel, hleast, hrep, hwf, hnodup, hpos, ho, he => by
    obtain ⟨page, ks, cs, rfl⟩ := t.eq_branch
    obtain ⟨ks₁, ks₂, ts₁, c, ts₂, rfl, rfl, hlen, hidx, hfind, hec, hwithout⟩ := exists_path hz hwf ho he
    obtain ⟨hchain, hmin, -⟩ := wf_branch.mp hwf
    have hmem : c ∈ ts₁ ++ c :: ts₂ := mem_append_right _ mem_cons_self
    have hkeys : ∀ k ∈ key :: c.allKeys, k ∈ key :: (branch page (ks₁ ++ ks₂) (ts₁ ++ c :: ts₂)).allKeys := by
      intro k hk
      rcases mem_cons.mp hk with rfl | hk
      · exact mem_cons_self
      · exact mem_cons_of_mem _ (mem_append_right _ (mem_flatMap.mpr ⟨c, hmem, hk⟩))
    have ih : ∀ (a : WithBot L) (b : WithTop L),
        Full rank h.order a b c →
        ∃ leaf, find (before h.fileHeader key) c = some leaf ∧
          DeleteOutcome rank h key fuel leaf.page page ((shape h.order).minKeys n) a b
            (without h.fileHeader key c.entries) c := by
      intro a b hc
      exact deleteOutcome_tree horder hz (by omega) (fun _ => (minKeys_bounds horder n).1) (hrep.2 c hmem) hc
        ((nodup_flatMap.mp (nodup_cons.mp hnodup).2).1 c hmem)
        (fun p hp => hpos p (mem_cons_of_mem _ (mem_flatMap.mpr ⟨c, hmem, hp⟩))) (ho.subset rfl hkeys) hec
    have hpage : 0 < page := (hpos page mem_cons_self).1
    have hfree : ∀ x ∈ ts₁ ++ c :: ts₂, h.Free x.page := fun x hx =>
      (hpos x.page (mem_cons_of_mem _ (mem_flatMap.mpr ⟨x, hx, x.page_mem_pages⟩))).2
    have hoks : Orders h.fileHeader rank (ks₁ ++ ks₂) :=
      ho.subset rfl fun k hk => mem_cons_of_mem _ (mem_append_left _ hk)
    rw [hwithout, hfind]
    rcases eq_nil_or_concat' ts₁ with rfl | ⟨T₁, l, rfl⟩
    · -- The first child, with its sibling to the right.
      obtain rfl := length_eq_zero_iff.mp hlen.symm
      obtain ⟨s, K₂, rfl⟩ : ∃ s K₂, ks₂ = s :: K₂ := exists_cons_of_length_pos ((hleast n.succ_ne_zero).trans_le hmin)
      obtain ⟨r, T₂, rfl⟩ : ∃ r T₂, ts₂ = r :: T₂ := by
        have := hchain.length
        exact exists_cons_of_length_pos (by simp at this; omega)
      obtain ⟨a, b, up⟩ := above_pair horder hrep hwf hnodup hpage (hfree r (by simp)) hoks rfl
      obtain ⟨leaf, hleaf, out⟩ := ih a (rank s) up.left
      have step : PathStep h.fileHeader key (s :: K₂) (c :: r :: T₂) 0 c r := ⟨hidx, rfl, rfl⟩
      refine ⟨leaf, hleaf, out.above step hrep hnodup up.used up.least up.most (fun c' hc' => ?_)
        fun σ c' sh hshort => sh.first up step hfuel hshort⟩
      exact up.context [s] [c', r] (chain_cons.mpr ⟨up.bounds, hc', chain_nil.mpr up.right⟩)
    · -- Another child, with its sibling to the left.
      obtain ⟨K₁, s, rfl⟩ : ∃ K₁ s, ks₁ = K₁ ++ [s] := by
        rcases eq_nil_or_concat' ks₁ with rfl | hks
        · simp at hlen
        · exact hks
      have hlen' : T₁.length = K₁.length := by simpa using hlen
      have hks : K₁ ++ [s] ++ ks₂ = K₁ ++ s :: ks₂ := by simp
      have hcs : ∀ x, T₁ ++ [l] ++ x :: ts₂ = T₁ ++ l :: x :: ts₂ := by simp
      rw [hks] at hrep hwf hnodup hoks hidx ⊢
      have step : PathStep h.fileHeader key (K₁ ++ s :: ks₂) (T₁ ++ l :: c :: ts₂) (T₁.length + 1) c l :=
        ⟨by simpa [hlen'] using hidx, by simp, by simp [siblingIdx]⟩
      obtain ⟨a, b, up⟩ :=
        above_pair horder (hcs c ▸ hrep) (hcs c ▸ hwf) (hcs c ▸ hnodup) hpage (hfree c hmem) hoks hlen'
      obtain ⟨leaf, hleaf, out⟩ := ih (rank s) b up.right
      refine ⟨leaf, hleaf, out.above (hcs c ▸ step) hrep hnodup up.used up.least up.most (fun c' hc' => ?_)
        fun σ c' sh hshort => hcs c ▸ sh.later up step hfuel hshort⟩
      have hctx := up.context [s] [l, c'] (chain_cons.mpr ⟨up.bounds, up.left, chain_nil.mpr hc'⟩)
      simpa using hctx

end
/-- The tree `t'` of `h'` is the tree `t` of `h`, less some pairs: those in `rest` are left. -/
structure Deleted (rank : Key → L) (h h' : BplusTreeHandler) (rest : List (Key × RID)) {n n' : Nat} (t : IndexTree n)
    (t' : IndexTree n') : Prop where
  holds : Holds rank h' t'
  same : SameIndex h h'
  keys : ∀ k ∈ t'.allKeys, k ∈ t.allKeys
  entries : t'.entries = rest

section
variable {h : BplusTreeHandler} {n least : Nat} {t t' : IndexTree n} {σ : Pages}

theorem Trimmed.holds (ht : Holds rank h t) (trim : Trimmed rank h.order h.pages σ (-1) least ⊥ ⊤ t t')
    (hleast : (if n = 0 then 0 else 1) ≤ t'.keyCount) : Holds rank { h with pages := σ } t' where
  root := ht.root.trans trim.page.symm
  rep := trim.rep
  wf := trim.wf.of_le_keyCount hleast
  nodup := trim.nodup
  positive := by
    intro p hp
    rcases trim.fresh p hp with hold | ⟨-, hpos⟩
    · exact ht.positive p hold
    · exact hpos
  linked := trim.linked 0 ht.linked

theorem Trimmed.collapse {t : IndexTree (n + 1)} {c : IndexTree n} (dei : PageNum → Key → Op Unit)
    (horder : 3 ≤ h.order) (ht : Holds rank h t) (free : h.Free t.page)
    (trim : Trimmed rank h.order h.pages σ (-1) least ⊥ ⊤ t (branch page [] [c])) :
    ∃ h', rebalance dei page { h with pages := σ } = some (.ok (), h') ∧ Holds rank h' c ∧ SameIndex h h' ∧
      h'.pins = h.pins := by
  obtain ⟨⟨node, hget, hnode⟩, hchildren⟩ := rep_branch.mp trim.rep
  have hrep := hchildren c mem_cons_self
  obtain ⟨cnode, hcget⟩ := isSome_iff_exists.mp (hrep.get_isSome _ c.page_mem_pages)
  obtain ⟨hpage, hcnodup⟩ : page ∉ c.pages ∧ c.pages.Nodup := by simpa using trim.nodup
  have hroot : t.page = page := trim.page.symm
  have hne : page ≠ c.page := fun heq => hpage (heq ▸ c.page_mem_pages)
  have hrun : rebalance dei page { h with pages := σ } = _ := rebalance_collapse hget hnode.parent
    ⟨hnode.length_eq.1, hnode.isLeaf⟩ (hnode.rid_page rfl) hcget hne (hroot ▸ free)
  have hgetc : ((σ.set c.page (cnode.withParent (-1))).erase page).get c.page =
      (σ.get c.page).map (IndexNode.withParent (-1)) := by
    rw [Pages.get_erase, if_neg hne.symm, Pages.get_set_same, hcget]
    rfl
  have hsame : ∀ p ∈ c.pages, p ≠ c.page → ((σ.set c.page (cnode.withParent (-1))).erase page).get p = σ.get p := by
    intro p hp hpc
    rw [Pages.get_erase, if_neg (fun heq : p = page => hpage (heq ▸ hp)), Pages.get_set_ne hpc]
  have hpos : ∀ p ∈ c.pages, 0 < p := by
    intro p hp
    rcases trim.fresh p (mem_cons_of_mem _ (mem_flatMap.mpr ⟨c, mem_cons_self, hp⟩)) with hold | ⟨-, hpos⟩
    · exact ht.positive p hold
    · exact hpos
  refine ⟨_, hrun, ⟨rfl, hrep.reparent hcnodup hgetc hsame, ?_, hcnodup, hpos, ?_⟩, ⟨rfl, rfl, rfl, rfl⟩, rfl⟩
  · have hwf := chain_nil.mp (wf_branch.mp trim.wf).1
    refine hwf.weaken ?_
    have := (minKeys_bounds horder n).1
    split <;> omega
  · have hlinked : Linked σ h.order c.leaves 0 := by simpa using trim.linked 0 ht.linked
    refine hlinked.congr_next fun p hp node' hget' => ?_
    by_cases hpc : p = c.page
    · subst hpc
      obtain rfl : node' = cnode := some.inj (hget'.symm.trans hcget)
      exact ⟨node'.withParent (-1), hgetc.trans (by rw [hcget]; rfl), rfl⟩
    · exact ⟨node', (hsame p (c.leaves_subset_pages hp) hpc).trans hget', rfl⟩

theorem Rep.entries_eq : ∀ {m m' : Nat} {par par' : PageNum} {t : IndexTree m} {t' : IndexTree m'},
    Rep σ par t → Rep σ par' t' → t.page = t'.page → t.entries = t'.entries
  | 0, 0, _, _, t, t', ⟨stored, hget, hnode⟩, ⟨stored', hget', hnode'⟩, hpage => by
    have hp : Leaf.page t = Leaf.page t' := hpage
    obtain rfl : stored = stored' := some.inj (hget.symm.trans ((congrArg σ.get hp).trans hget'))
    exact hnode.entries.symm.trans hnode'.entries
  | 0, _ + 1, _, _, t, t', ⟨stored, hget, hnode⟩, ⟨⟨stored', hget', hnode'⟩, _⟩, hpage => by
    have hp : Leaf.page t = Branch.page t' := hpage
    obtain rfl : stored = stored' := some.inj (hget.symm.trans ((congrArg σ.get hp).trans hget'))
    have := hnode.isLeaf.symm.trans hnode'.isLeaf
    cases this
  | _ + 1, 0, _, _, t, t', ⟨⟨stored, hget, hnode⟩, _⟩, ⟨stored', hget', hnode'⟩, hpage => by
    have hp : Branch.page t = Leaf.page t' := hpage
    obtain rfl : stored = stored' := some.inj (hget.symm.trans ((congrArg σ.get hp).trans hget'))
    have := hnode.isLeaf.symm.trans hnode'.isLeaf
    cases this
  | m + 1, m' + 1, _, _, t, t', ⟨⟨stored, hget, hnode⟩, hch⟩, ⟨⟨stored', hget', hnode'⟩, hch'⟩, hpage => by
    have hp : Branch.page t = Branch.page t' := hpage
    obtain rfl : stored = stored' := some.inj (hget.symm.trans ((congrArg σ.get hp).trans hget'))
    have hmap : (Branch.children t).map page = (Branch.children t').map page :=
      hnode.children.symm.trans hnode'.children
    -- The children are compared one by one.
    have hall : ∀ (cs : List (IndexTree m)) (cs' : List (IndexTree m')), cs.map page = cs'.map page →
        (∀ c ∈ cs, Rep σ (Branch.page t) c) → (∀ c ∈ cs', Rep σ (Branch.page t') c) →
        cs.flatMap entries = cs'.flatMap entries := by
      intro cs
      induction cs with
      | nil =>
        intro cs' hm _ _
        obtain rfl : cs' = [] := by simpa using hm.symm
        rfl
      | cons c cs ih =>
        intro cs' hm hr hr'
        cases cs' with
        | nil => cases hm
        | cons c' cs' =>
          obtain ⟨hc, hcs⟩ := List.cons.inj hm
          rw [flatMap_cons, flatMap_cons,
            Rep.entries_eq (hr c mem_cons_self) (hr' c' mem_cons_self) hc,
            ih cs' hcs (fun x hx => hr x (mem_cons_of_mem _ hx)) fun x hx => hr' x (mem_cons_of_mem _ hx)]
    exact hall _ _ hmap hch hch'

end

section
variable {h : BplusTreeHandler} {n fuel : Nat} {t t' : IndexTree n} {σ : Pages} {data : Bytes} {rid : RID}
  {e : Key × RID}

theorem Trimmed.settle {least : Nat} (dei : PageNum → Key → Op Unit) (horder : 3 ≤ h.order)
    (ht : Holds rank h t) (free : h.Free t.page) (trim : Trimmed rank h.order h.pages σ (-1) least ⊥ ⊤ t t') :
    ∃ (h' : BplusTreeHandler) (n' : Nat) (t'' : IndexTree n'),
      rebalance dei t.page { h with pages := σ } = some (.ok (), h') ∧ Deleted rank h h' t'.entries t t'' ∧
        h'.pins = h.pins := by
  obtain ⟨node, hget, hleaf, hcount, hpar⟩ := trim.rep.root_node
  rw [← trim.page]
  by_cases hstay : node.keyNum = 0 ∧ node.isLeaf = false
  · cases n with
    | zero =>
      have := hleaf.symm.trans hstay.2
      cases this
    | succ n =>
      obtain ⟨page, ks, cs, rfl⟩ := t'.eq_branch
      obtain rfl : ks = [] := length_eq_zero_iff.mp (hcount.symm.trans hstay.1)
      obtain ⟨c, rfl⟩ := length_eq_one_iff.mp (wf_branch.mp trim.wf).1.length
      obtain ⟨h', hrun, hholds, hsame, hpins⟩ := trim.collapse dei horder ht free
      exact ⟨h', n, c, hrun, ⟨hholds, hsame, fun k hk => trim.keys k (by simpa using hk), by simp⟩, hpins⟩
  · refine ⟨_, n, t', rebalance_root hget hpar hstay, ⟨trim.holds ht ?_, ⟨rfl, rfl, rfl, rfl⟩, trim.keys, rfl⟩, rfl⟩
    cases n with
    | zero => exact Nat.zero_le _
    | succ n =>
      have hpos : node.keyNum ≠ 0 := fun heq => hstay ⟨heq, hleaf⟩
      rw [if_neg n.succ_ne_zero]
      omega

section
variable (horder : 3 ≤ h.order) (ht : Holds rank h t) (free : ∀ p ∈ t.pages, h.Free p)
  (ho : Orders h.fileHeader rank (h.keyOf data rid :: t.allKeys)) (he : e ∈ t.entries)
  (hz : cmpKey h.fileHeader (h.keyOf data rid) e.1 = 0) (hfuel : n < fuel)
include horder ht free ho he hz hfuel

theorem deleteEntry_outcome :
    ∃ leaf : Leaf PageNum Key RID, deleteEntry fuel data rid h =
      deleteEntryInternal fuel leaf.page (h.keyOf data rid) h ∧
      DeleteOutcome rank h (h.keyOf data rid) fuel leaf.page (-1) (if n = 0 then 0 else 1) ⊥ ⊤
        (without h.fileHeader (h.keyOf data rid) t.entries) t := by
  have hleast : n ≠ 0 → 0 < if n = 0 then 0 else 1 := fun hn => by rw [if_neg hn]; exact Nat.one_pos
  obtain ⟨leaf, hfind, out⟩ := deleteOutcome_tree horder hz hfuel hleast ht.rep ht.wf ht.nodup
    (fun p hp => ⟨ht.positive p hp, free p hp⟩) ho he
  obtain ⟨leaf', hfind', hleaf⟩ := @findLeaf_spec h (h.keyOf data rid) n fuel t ht.root ht.rep hfuel
  obtain rfl : leaf' = leaf := some.inj (hfind'.symm.trans hfind)
  refine ⟨leaf', ?_, out⟩
  exact Op.bind_ok hleaf

theorem deleteEntry_pins : ∃ h', deleteEntry fuel data rid h = some (.ok (), h') ∧ h'.pins = h.pins := by
  obtain ⟨leaf, hrun, out⟩ := deleteEntry_outcome horder ht free ho he hz hfuel
  cases out with
  | shrunk σ t' sh =>
    obtain ⟨h', n', t'', hsettle, -, hpins⟩ :=
      sh.trim.settle (deleteEntryInternal (fuel - (n + 1))) horder ht (free _ t.page_mem_pages)
    exact ⟨h', (hrun.trans sh.run).trans hsettle, hpins⟩
  | done σ t' trim loses entries run => exact ⟨_, hrun.trans run, rfl⟩
  | broken σ broken loses safe frame run => exact ⟨_, hrun.trans run, rfl⟩

/-- A stored key is deleted as it should be exactly when no node on its path takes from a sibling in a way that
    `redistribute_nodes` gets wrong. -/
theorem deleteEntry_found :
    (∃ (h' : BplusTreeHandler) (n' : Nat) (t' : IndexTree n'), deleteEntry fuel data rid h = some (.ok (), h') ∧
      Deleted rank h h' (without h.fileHeader (h.keyOf data rid) t.entries) t t') ↔
    safeDelete h.fileHeader (h.keyOf data rid) t = true := by
  obtain ⟨leaf, hrun, out⟩ := deleteEntry_outcome horder ht free ho he hz hfuel
  cases out with
  | shrunk σ t' sh =>
    obtain ⟨h', n', t'', hsettle, hdel, -⟩ :=
      sh.trim.settle (deleteEntryInternal (fuel - (n + 1))) horder ht (free _ t.page_mem_pages)
    rw [sh.entries] at hdel
    exact iff_of_true ⟨h', n', t'', (hrun.trans sh.run).trans hsettle, hdel⟩ sh.safe
  | done σ t' trim loses entries run =>
    rw [← entries]
    have hholds := trim.holds ht trim.wf.least_le.1
    constructor
    · rintro ⟨h', n', t'', hrun', hdel⟩
      obtain rfl : { h with pages := σ } = h' :=
        (Prod.mk.inj (some.inj ((hrun.trans run).symm.trans hrun'))).2
      rw [← hdel.entries]
      exact hholds.rep.entries_eq hdel.holds.rep (hholds.root.symm.trans hdel.holds.root)
    · exact fun hentries => ⟨_, n, t', hrun.trans run, hholds, ⟨rfl, rfl, rfl, rfl⟩, trim.keys, hentries⟩
  | broken σ broken loses safe frame run =>
    refine iff_of_false ?_ (by simp [safe])
    rintro ⟨h', n', t'', hrun', hdel⟩
    obtain rfl : { h with pages := σ } = h' :=
      (Prod.mk.inj (some.inj ((hrun.trans run).symm.trans hrun'))).2
    exact broken n' t'' (-1) (hdel.holds.root.symm.trans ht.root) hdel.holds.rep hdel.holds.nodup

end

theorem Rep.find_leaf {after : Key → Bool} : ∀ {n : Nat} {par : PageNum} {t : IndexTree n}
    {leaf : Leaf PageNum Key RID}, Rep σ par t → find after t = some leaf →
    ∃ stored par', σ.get leaf.page = some stored ∧ LeafNode stored par' leaf.entries ∧ ∀ e ∈ leaf.entries, e ∈ t.entries
  | 0, par, t, leaf, ⟨stored, hget, hnode⟩, hfind => by
    obtain rfl : t = leaf := some.inj hfind
    exact ⟨stored, par, hget, hnode, fun e he => he⟩
  | n + 1, par, t, leaf, hrep, hfind => by
    obtain ⟨c, hc, hfindc⟩ := bind_eq_some_iff.mp hfind
    have hmem := mem_of_getElem? hc
    obtain ⟨stored, par', hget, hnode, hsub⟩ := (hrep.2 c hmem).find_leaf hfindc
    exact ⟨stored, par', hget, hnode, fun e he => mem_flatMap.mpr ⟨c, hmem, hsub e he⟩⟩

theorem Holds.without_eq {key : Key} (ht : Holds rank h t) (ho : Orders h.fileHeader rank (key :: t.allKeys))
    (hentries : t.entries = A ++ e :: B) (hz : cmpKey h.fileHeader key e.1 = 0) :
    without h.fileHeader key t.entries = A ++ B := by
  have hord := ho.rank_eq
  have hsorted := ht.wf.entries_sorted.1
  rw [hentries] at hord hsorted ⊢
  obtain ⟨hA, hB⟩ := ne_around hsorted hord hz
  exact without_split hA hz hB

theorem deleteEntry_absent (ht : Holds rank h t)
    (habsent : ∀ e ∈ t.entries, cmpKey h.fileHeader (h.keyOf data rid) e.1 ≠ 0) (hfuel : n < fuel) :
    ∃ page, deleteEntry fuel data rid h = some (.error .recordInvalidKey,
      { h with pins := addPins h.pins page 1 }) := by
  obtain ⟨leaf, hfind, hleaf⟩ := @findLeaf_spec h (h.keyOf data rid) n fuel t ht.root ht.rep hfuel
  obtain ⟨node, par, hget, hnode, hsub⟩ := ht.rep.find_leaf hfind
  have hkeys : ∀ k ∈ node.keyList, cmpKey h.fileHeader (h.keyOf data rid) k ≠ 0 := by
    rw [hnode.keyList_eq]
    intro k hk
    obtain ⟨e, he, rfl⟩ := mem_map.mp hk
    exact habsent e (hsub e he)
  obtain ⟨f, rfl⟩ : ∃ f, fuel = f + 1 := ⟨fuel - 1, by omega⟩
  refine ⟨leaf.page, ?_⟩
  rw [deleteEntry, Op.bind_fileHeader, Op.bind_ok hleaf, deleteEntryInternal]
  exact Op.bind_error (deleteEntryFromNode_absent hget hkeys)

end

/-- `delete_entry` on a well-formed tree. A key that is equal to no stored one is refused. For a stored key the call
    succeeds, leaves a well-formed tree and takes out exactly the pair of the key, if and only if `safeDelete` says so;
    where the buffer pool refuses to dispose of pinned pages, no page of the tree is pinned. Without floats `CmpKey`
    orders all keys. -/
theorem deleteEntry_refines (rank : Key → L) :
    (∀ (h : BplusTreeHandler) (n : Nat) (t : IndexTree n) (data : Bytes) (rid : RID) (fuel : Nat),
      3 ≤ h.fileHeader.order → Holds rank h t → n < fuel →
      ((∀ e ∈ t.entries, cmpKey h.fileHeader (h.fileHeader.keyOf data rid) e.1 ≠ 0) →
        ∃ h', deleteEntry fuel data rid h = some (.error .recordInvalidKey, h') ∧ h'.pages = h.pages ∧
          h'.fileHeader = h.fileHeader) ∧
      ((h.refusesPinned = true → ∀ p ∈ t.pages, h.pins p = 0) →
        Orders h.fileHeader rank (h.fileHeader.keyOf data rid :: t.allKeys) →
          ∀ (A B : List (Key × RID)) (e : Key × RID), t.entries = A ++ e :: B →
        cmpKey h.fileHeader (h.fileHeader.keyOf data rid) e.1 = 0 →
        ((∃ (h' : BplusTreeHandler) (n' : Nat) (t' : IndexTree n'), deleteEntry fuel data rid h = some (.ok (), h') ∧
          Deleted rank h h' (A ++ B) t t') ↔
        safeDelete h.fileHeader (h.fileHeader.keyOf data rid) t = true))) ∧
    ∀ (header : IndexFileHeader) (ks : List Key), header.NoFloats → Orders header (Key.rank header) ks := by
  refine ⟨fun h n t data rid fuel horder ht hfuel => ⟨fun habsent => ?_, ?_⟩,
    fun header ks hf => orders_of_noFloats hf ks⟩
  · obtain ⟨page, hrun⟩ := deleteEntry_absent ht habsent hfuel
    exact ⟨_, hrun, rfl, rfl⟩
  intro hpins ho A B e hentries hz
  have he : e ∈ t.entries := hentries ▸ mem_append_right _ mem_cons_self
  rw [← ht.without_eq ho hentries hz]
  exact deleteEntry_found horder ht (fun p hp hrefuses => hpins hrefuses p hp) ho he hz hfuel

def fourLeaf (next : PageNum) (es : List (Bytes × RID)) : IndexNode where
  isLeaf := true
  keyNum := es.length
  parent := 3
  keys i := es[i]?.elim ⟨[], ⟨0, 0⟩⟩ fun e => ⟨e.1, e.2⟩
  rids i := if i = 3 then ⟨next, 0⟩ else es[i]?.elim ⟨0, 0⟩ fun e => e.2

def twoLeafIndex (sep : Bytes × RID) (left right : List (Bytes × RID)) : BplusTreeHandler where
  opened := true
  fileHeader := { attrs := [⟨.ints, 4⟩], rootPage := 3, order := 4 }
  pages := ((Pages.empty.set 1 (fourLeaf 2 left)).set 2 (fourLeaf 0 right)).set 3 {
    isLeaf := false
    keyNum := 1
    parent := -1
    keys _ := ⟨sep.1, sep.2⟩
    rids i := if i = 0 then ⟨1, 0⟩ else ⟨2, 0⟩ }
  pins _ := 0
  alloc := fun _ => (0, fourLeaf 0 [])

def twoLeafTree (sep : Bytes × RID) (left right : List (Bytes × RID)) : IndexTree 1 :=
  branch 3 [⟨sep.1, sep.2⟩] [leaf 1 (left.map fun p => (⟨p.1, p.2⟩, p.2)),
    leaf 2 (right.map fun p => (⟨p.1, p.2⟩, p.2))]

theorem twoLeafIndex_rep {sep : Bytes × RID} {left right : List (Bytes × RID)}
    (hleft : (fourLeaf 2 left).entryList = left.map fun p => (⟨p.1, p.2⟩, p.2))
    (hright : (fourLeaf 0 right).entryList = right.map fun p => (⟨p.1, p.2⟩, p.2)) :
    Rep (twoLeafIndex sep left right).pages (-1) (twoLeafTree sep left right) := by
  refine rep_branch.mpr ⟨⟨_, rfl, ⟨rfl, rfl, rfl, rfl⟩⟩, ?_⟩
  simp only [mem_cons, not_mem_nil, or_false, forall_eq_or_imp, forall_eq]
  exact ⟨rep_leaf.mpr ⟨_, rfl, rfl, rfl, hleft⟩, rep_leaf.mpr ⟨_, rfl, rfl, rfl, hright⟩⟩

theorem twoLeafIndex_holds {rank : Key → L} {sep : Bytes × RID} {left right : List (Bytes × RID)}
    (hwl : WF rank (shape 4) 0 ((shape 4).minKeys 0) ⊥ (rank ⟨sep.1, sep.2⟩)
      (leaf (1 : PageNum) (left.map fun p => ((⟨p.1, p.2⟩ : Key), p.2))))
    (hwr : WF rank (shape 4) 0 ((shape 4).minKeys 0) (rank ⟨sep.1, sep.2⟩) ⊤
      (leaf (2 : PageNum) (right.map fun p => ((⟨p.1, p.2⟩ : Key), p.2))))
    (hleft : (fourLeaf 2 left).entryList = left.map fun p => (⟨p.1, p.2⟩, p.2))
    (hright : (fourLeaf 0 right).entryList = right.map fun p => (⟨p.1, p.2⟩, p.2)) :
    Holds rank (twoLeafIndex sep left right) (twoLeafTree sep left right) where
  root := rfl
  rep := twoLeafIndex_rep hleft hright
  wf := by
    have hroom : 1 ≤ (shape 4).maxKeys := by decide
    exact wf_branch.mpr ⟨chain_cons.mpr ⟨⟨WithBot.bot_lt_coe _, WithTop.coe_lt_top _⟩, hwl, chain_nil.mpr hwr⟩,
      Nat.le_refl 1, hroom⟩
  nodup := by simp [twoLeafTree]
  positive := by simp [twoLeafTree]
  linked := ⟨⟨_, rfl, rfl⟩, ⟨_, rfl, rfl⟩, trivial⟩

def intPair (i : UInt8) : Bytes × RID := ([i, 0, 0, 0], ⟨1, i.toNat⟩)

theorem deleteEntry_refines_twoLeafIndex :
    (∃ (h' : BplusTreeHandler) (n' : Nat) (t' : IndexTree n'),
      deleteEntry 2 [5, 0, 0, 0] ⟨1, 5⟩ (twoLeafIndex (intPair 4) [intPair 1, intPair 2] [intPair 4, intPair 5]) =
        some (.ok (), h') ∧
      Deleted (fun k : Key => k.rid.slotNum) (twoLeafIndex (intPair 4) [intPair 1, intPair 2] [intPair 4, intPair 5]) h'
        ([intPair 1, intPair 2, intPair 4].map fun p => (⟨p.1, p.2⟩, p.2))
        (twoLeafTree (intPair 4) [intPair 1, intPair 2] [intPair 4, intPair 5]) t') ∧
    ∃ h', deleteEntry 2 [9, 0, 0, 0] ⟨1, 9⟩
        (twoLeafIndex (intPair 4) [intPair 1, intPair 2] [intPair 4, intPair 5]) =
          some (.error .recordInvalidKey, h') := by
  have ht := @twoLeafIndex_holds _ _ (fun k : Key => k.rid.slotNum) (intPair 4) [intPair 1, intPair 2]
    [intPair 4, intPair 5] (wf_leaf.mpr (by decide)) (wf_leaf.mpr (by decide)) (by decide) (by decide)
  obtain ⟨main, -⟩ := deleteEntry_refines (fun k : Key => k.rid.slotNum)
  refine ⟨?_, ?_⟩
  · have hdel := ((main _ 1 _ [5, 0, 0, 0] ⟨1, 5⟩ 2 (by decide) ht (by decide)).2 (fun _ _ _ => rfl) (by decide)
      ([intPair 1, intPair 2, intPair 4].map fun p => (⟨p.1, p.2⟩, p.2)) [] (⟨[5, 0, 0, 0], ⟨1, 5⟩⟩, ⟨1, 5⟩) rfl
      (by decide)).mpr (by decide)
    rwa [append_nil] at hdel
  · obtain ⟨h', hrun, -⟩ := (main _ 1 _ [9, 0, 0, 0] ⟨1, 9⟩ 2 (by decide) ht (by decide)).1 (by decide)
    exact ⟨h', hrun⟩

/-- Deleting `5` from `1, 2, 3 | 4, 5` moves `3` to the right leaf with the RID of `4`. -/
theorem deleteEntry_misdirects :
    Holds (fun k : Key => k.rid.slotNum) (twoLeafIndex (intPair 4) [intPair 1, intPair 2, intPair 3]
      [intPair 4, intPair 5]) (twoLeafTree (intPair 4) [intPair 1, intPair 2, intPair 3] [intPair 4, intPair 5]) ∧
    Orders (twoLeafIndex (intPair 4) [intPair 1, intPair 2, intPair 3] [intPair 4, intPair 5]).fileHeader
      (fun k : Key => k.rid.slotNum)
      (twoLeafTree (intPair 4) [intPair 1, intPair 2, intPair 3] [intPair 4, intPair 5]).allKeys ∧
    (⟨[5, 0, 0, 0], ⟨1, 5⟩⟩, ⟨1, 5⟩) ∈
      (twoLeafTree (intPair 4) [intPair 1, intPair 2, intPair 3] [intPair 4, intPair 5]).entries ∧
    (∃ h' node, deleteEntry 2 [5, 0, 0, 0] ⟨1, 5⟩
        (twoLeafIndex (intPair 4) [intPair 1, intPair 2, intPair 3] [intPair 4, intPair 5]) = some (.ok (), h') ∧
      h'.pages.get 2 = some node ∧
      node.entryList = [(⟨[3, 0, 0, 0], ⟨1, 3⟩⟩, ⟨1, 4⟩), (⟨[4, 0, 0, 0], ⟨1, 4⟩⟩, ⟨1, 4⟩)]) ∧
    ¬∃ (h' : BplusTreeHandler) (n' : Nat) (t' : IndexTree n'), deleteEntry 2 [5, 0, 0, 0] ⟨1, 5⟩
        (twoLeafIndex (intPair 4) [intPair 1, intPair 2, intPair 3] [intPair 4, intPair 5]) = some (.ok (), h') ∧
      Deleted (fun k : Key => k.rid.slotNum)
        (twoLeafIndex (intPair 4) [intPair 1, intPair 2, intPair 3] [intPair 4, intPair 5]) h'
        ([intPair 1, intPair 2, intPair 3, intPair 4].map fun p => (⟨p.1, p.2⟩, p.2))
        (twoLeafTree (intPair 4) [intPair 1, intPair 2, intPair 3] [intPair 4, intPair 5]) t' := by
  have ht := @twoLeafIndex_holds _ _ (fun k : Key => k.rid.slotNum) (intPair 4) [intPair 1, intPair 2, intPair 3]
    [intPair 4, intPair 5]
    (wf_leaf.mpr (by decide)) (wf_leaf.mpr (by decide)) (by decide) (by decide)
  have hrun : ((deleteEntry 2 [5, 0, 0, 0] ⟨1, 5⟩
      (twoLeafIndex (intPair 4) [intPair 1, intPair 2, intPair 3] [intPair 4, intPair 5])).any fun r =>
      r.1.isOk && (r.2.pages.get 2).any fun node => decide
        (node.entryList = [(⟨[3, 0, 0, 0], ⟨1, 3⟩⟩, ⟨1, 4⟩), (⟨[4, 0, 0, 0], ⟨1, 4⟩⟩, ⟨1, 4⟩)])) = true := by
    decide +kernel
  refine ⟨ht, by decide, by decide, ?_, ?_⟩
  · simp only [Option.any_eq_true, Bool.and_eq_true, decide_eq_true_eq] at hrun
    obtain ⟨⟨result, h'⟩, hresult, hok, node, hget, hpairs⟩ := hrun
    cases result with
    | error rc => cases hok
    | ok u => exact ⟨h', node, hresult, hget, hpairs⟩
  · have hfound := @deleteEntry_found _ _ _ _ 1 2 _ [5, 0, 0, 0] ⟨1, 5⟩
      (⟨[5, 0, 0, 0], ⟨1, 5⟩⟩, ⟨1, 5⟩) (by decide) ht (fun _ _ _ => rfl) (by decide) (by decide) (by decide) (by decide)
    intro hdel
    have hsafe := hfound.mp hdel
    revert hsafe
    decide

/-- Of two siblings one has a key too few, the other none to spare. `coalesce_node` puts them into one node, with the
    key between them if they are no leaves, gives the right page back, takes that key and child from the parent and goes
    on to balance it, if and only if nobody else has pinned the right page. -/
theorem coalesce_conserves_iff (rank : Key → L) {h : BplusTreeHandler} {n : Nat} {par : PageNum}
    (K₁ K₂ : List Key) {s : Key} (T₁ T₂ : List (IndexTree n)) {l r : IndexTree n} (lo : WithBot L) (hi : WithTop L)
    (horder : 3 ≤ h.fileHeader.order) (hrep : Rep h.pages par (branch page (K₁ ++ s :: K₂) (T₁ ++ l :: r :: T₂)))
    (hnodup : (branch page (K₁ ++ s :: K₂) (T₁ ++ l :: r :: T₂)).pages.Nodup) (hlen : T₁.length = K₁.length)
    (horders : Orders h.fileHeader rank (K₁ ++ s :: K₂)) (hmost : (K₁ ++ s :: K₂).length ≤ h.fileHeader.order - 1)
    (hchain : Chain rank (WF rank (shape h.fileHeader.order) n ((shape h.fileHeader.order).minKeys n - 1)) lo
      (K₁ ++ s :: K₂) (T₁ ++ l :: r :: T₂) hi)
    (hfull : ∀ c ∈ T₁ ++ T₂, (shape h.fileHeader.order).minKeys n ≤ c.keyCount)
    (hshort : l.keyCount = (shape h.fileHeader.order).minKeys n - 1 ∧
      r.keyCount = (shape h.fileHeader.order).minKeys n ∨
      l.keyCount = (shape h.fileHeader.order).minKeys n ∧ r.keyCount = (shape h.fileHeader.order).minKeys n - 1) :
    (∃ σ σ', (∀ dei, coalesceNode dei l.page r.page h = dei page s { h with pages := σ }) ∧
      deleteEntryFromNode page s { h with pages := σ } = some (.ok (), { h with pages := σ' }) ∧
      Trimmed rank h.fileHeader.order h.pages σ' par (K₁ ++ K₂).length lo hi
        (branch page (K₁ ++ s :: K₂) (T₁ ++ l :: r :: T₂)) (branch page (K₁ ++ K₂) (T₁ ++ joined s l r :: T₂)) ∧
      (joined s l r).entries = l.entries ++ r.entries ∧ (joined s l r).keyCount ≤ h.fileHeader.order - 1 ∧
      σ'.get r.page = none) ↔ (h.refusesPinned = true → h.pins r.page = 0) := by
  obtain ⟨a, b, hbounds, hwl, hwr, hctx⟩ := hchain.pair hlen
  -- The other children are full, so a full chain in place of the two makes the whole chain full.
  have hcontext : ∀ ks' ts', Chain rank (Full rank h.order) a ks' ts' b →
      Chain rank (Full rank h.order) lo (K₁ ++ ks' ++ K₂)
        (T₁ ++ ts' ++ T₂) hi := by
    intro ks' ts' hmid
    have hrelaxed := hctx ks' ts' (hmid.imp fun c _ _ _ hwf => hwf.weaken (Nat.sub_le _ _))
    refine hrelaxed.imp fun c hc _ _ hwf => hwf.of_le_keyCount ?_
    rcases mem_append.mp hc with hc | hc
    · rcases mem_append.mp hc with hc | hc
      · exact hfull c (mem_append_left _ hc)
      · obtain ⟨_, _, hwf⟩ := hmid.exists_of_mem hc
        exact hwf.least_le.1
    · exact hfull c (mem_append_right _ hc)
  obtain ⟨node, w⟩ := Window.of_rep hrep hnodup hlen hbounds hcontext
  have hpos := (minKeys_bounds horder n).1
  have hsum : l.keyCount + r.keyCount + 1 = 2 * (shape h.fileHeader.order).minKeys n := by omega
  have hs : s ∈ K₁ ++ s :: K₂ := mem_append_right _ mem_cons_self
  have hother : ∀ k ∈ K₁, cmpKey h.fileHeader s k ≠ 0 := by
    intro k hk hzero
    have hlt := (pairwise_append.mp hchain.keys_sorted).2.2 k hk s mem_cons_self
    exact hlt.ne' ((horders s hs k (mem_append_left _ hk)).2.mp hzero)
  obtain ⟨σ', node', ⟨σ, hmerge, hremove⟩, htrim, -, hnone, -⟩ :=
    w.coalesce horder hwl hwr hsum ⟨le_rfl, hmost, hother, (horders s hs s hs).2.mpr rfl⟩
  have hlength : (K₁ ++ s :: K₂).length - 1 = (K₁ ++ K₂).length := by simp
  obtain ⟨_, _, hwf⟩ := (wf_branch.mp htrim.wf).1.exists_of_mem (mem_append_right T₁ mem_cons_self)
  constructor
  · rintro ⟨σ₁, -, hrun, -⟩
    -- A merge that stops never gets to the parent, so it would return where deleting from the parent does not.
    by_contra hpinned
    replace hpinned : ¬h.Free r.page := hpinned
    have hstop := (hmerge fun _ _ => Op.diverge).symm.trans (hrun fun _ _ => Op.diverge)
    rw [if_neg hpinned] at hstop
    cases hstop
  · intro free
    exact ⟨σ.erase r.page, σ', fun dei => (hmerge dei).trans (if_pos free), hremove, hlength ▸ htrim, entries_joined,
      hwf.least_le.2, hnone⟩

theorem coalesce_conserves_twoLeafIndex : ∃ σ σ',
    coalesceNode (deleteEntryInternal 1) 1 2 (twoLeafIndex (intPair 4) [intPair 1] [intPair 4, intPair 5]) =
      deleteEntryInternal 1 3 ⟨[4, 0, 0, 0], ⟨1, 4⟩⟩
        { twoLeafIndex (intPair 4) [intPair 1] [intPair 4, intPair 5] with pages := σ } ∧
    deleteEntryFromNode 3 ⟨[4, 0, 0, 0], ⟨1, 4⟩⟩
        { twoLeafIndex (intPair 4) [intPair 1] [intPair 4, intPair 5] with pages := σ } =
      some (.ok (), { twoLeafIndex (intPair 4) [intPair 1] [intPair 4, intPair 5] with pages := σ' }) ∧
    σ'.get 2 = none := by
  obtain ⟨σ, σ', hrun, hremove, -, -, -, hnone⟩ := (coalesce_conserves_iff (fun k : Key => k.rid.slotNum)
    (h := twoLeafIndex (intPair 4) [intPair 1] [intPair 4, intPair 5]) [] [] [] [] ⊥ ⊤ (by decide)
    (twoLeafIndex_rep (by decide) (by decide)) (by simp) rfl (by decide) (by decide)
    (chain_cons.mpr ⟨⟨WithBot.bot_lt_coe _, WithTop.coe_lt_top _⟩, wf_leaf.mpr (by decide),
      chain_nil.mpr (wf_leaf.mpr (by decide))⟩)
    (fun c hc => nomatch hc) (.inl ⟨rfl, rfl⟩)).mpr fun _ => rfl
  exact ⟨σ, σ', hrun _, hremove, hnone⟩

/-- Looking for `4` leaves its leaf pinned. Deleting `5` then merges `1, 2 | 4`, is refused the right page and stops:
    `4` is in both leaves, the parent has its two children, and is pinned. -/
theorem coalesce_refused : ∃ rid h₁ h₂,
    getEntry 2 [4, 0, 0, 0] ⟨1, 4⟩ (twoLeafIndex (intPair 4) [intPair 1, intPair 2] [intPair 4, intPair 5]) =
      some (.ok rid, h₁) ∧
    deleteEntry 2 [5, 0, 0, 0] ⟨1, 5⟩ h₁ = some (.error .bufferpoolPagePinned, h₂) ∧
    (h₂.pages.get 1).map IndexNode.entryList =
      some ([intPair 1, intPair 2, intPair 4].map fun p => (⟨p.1, p.2⟩, p.2)) ∧
    (h₂.pages.get 2).map IndexNode.entryList = some ([intPair 4].map fun p => (⟨p.1, p.2⟩, p.2)) ∧
    (h₂.pages.get 3).map IndexNode.childList = some [1, 2] ∧ h₂.pins 3 = 1 := by
  have hrun : ((getEntry 2 [4, 0, 0, 0] ⟨1, 4⟩
      (twoLeafIndex (intPair 4) [intPair 1, intPair 2] [intPair 4, intPair 5])).any fun found =>
      found.1.isOk && (deleteEntry 2 [5, 0, 0, 0] ⟨1, 5⟩ found.2).any fun r =>
        decide (r.1 = .error .bufferpoolPagePinned ∧
          (r.2.pages.get 1).map IndexNode.entryList =
            some ([intPair 1, intPair 2, intPair 4].map fun p => (⟨p.1, p.2⟩, p.2)) ∧
          (r.2.pages.get 2).map IndexNode.entryList = some ([intPair 4].map fun p => (⟨p.1, p.2⟩, p.2)) ∧
          (r.2.pages.get 3).map IndexNode.childList = some [1, 2] ∧ r.2.pins 3 = 1)) = true := by
    decide +kernel
  simp only [Option.any_eq_true, Bool.and_eq_true, decide_eq_true_eq] at hrun
  obtain ⟨⟨found, h₁⟩, hfound, hok, ⟨result, h₂⟩, hresult, rfl, hleft⟩ := hrun
  cases found with
  | error rc => cases hok
  | ok rid => exact ⟨rid, h₁, h₂, hfound, hresult, hleft⟩

end MiniOb
