import MiniOb.Theorems.Rebalance

/-! # What a deletion comes to

Deleting below a node is done, or has taken a key out of the node itself, or has left pages that are no tree. `losesKey`
and `safeDelete` read this off the tree beforehand. -/

namespace MiniOb
open Slots BTree List Tree

def childIdx (header : IndexFileHeader) (key : Key) (ks : List Key) : Nat := ks.findIdx (before header key)

/-- The sibling that a short child `j` is balanced with: the right one for the first child, otherwise the left one. -/
def siblingIdx (j : Nat) : Nat := if j = 0 then 1 else j - 1

def droppedIdx (j : Nat) : Nat := if j = 0 then 1 else j

/-- The RID in the first slot of a leaf once the key is gone: the first that is left, or that of the key itself. -/
def firstRidAfter (header : IndexFileHeader) (key : Key) (es : List (Key × RID)) : Option RID :=
  let isKey (e : Key × RID) : Bool := cmpKey header key e.1 == 0
  ((es.eraseP isKey ++ es.filter isKey).map Prod.snd).head?

/-- The root node loses a key: a leaf always, a branch when its child on the path loses one, gets short by that, and
    its sibling has no key to spare. -/
def losesKey (header : IndexFileHeader) (key : Key) : {n : Nat} → IndexTree n → Bool
  | 0, _ => true
  | n + 1, t =>
    let j := childIdx header key (Branch.keys t)
    match (Branch.children t)[j]?, (Branch.children t)[siblingIdx j]? with
    | some c, some s =>
      losesKey header key c && decide (c.keyCount ≤ (shape header.order).minKeys n) &&
        decide (s.keyCount ≤ (shape header.order).minKeys n)
    | _, _ => false

/-- The short child `c` at position `j` can take from its sibling `s`. A leaf takes from the right, or from the left
    when the RID it should get is the one that its first slot holds anyway; an internal node takes only from the left,
    and only when the child it has lost was not its last one. -/
def borrowSafe (header : IndexFileHeader) (key : Key) : {n : Nat} → Nat → IndexTree n → IndexTree n → Bool
  | 0, j, c, s =>
    decide (j = 0) ||
      decide ((Leaf.entries s).getLast?.map Prod.snd = firstRidAfter header key (Leaf.entries c))
  | _ + 1, j, c, _ =>
    decide (j ≠ 0) && decide (droppedIdx (childIdx header key (Branch.keys c)) ≠ (Branch.keys c).length)

/-- No node on the path has to take from a sibling in a way that `redistribute_nodes` gets wrong. -/
def safeDelete (header : IndexFileHeader) (key : Key) : {n : Nat} → IndexTree n → Bool
  | 0, _ => true
  | n + 1, t =>
    let j := childIdx header key (Branch.keys t)
    match (Branch.children t)[j]?, (Branch.children t)[siblingIdx j]? with
    | some c, some s =>
      safeDelete header key c &&
        (!(losesKey header key c && decide (c.keyCount ≤ (shape header.order).minKeys n) &&
            decide ((shape header.order).minKeys n < s.keyCount)) ||
          borrowSafe header key j c s)
    | _, _ => false

/-- The path goes from a branch to its child `c`, the one at position `j`, whose sibling is `s`. -/
structure PathStep (header : IndexFileHeader) (key : Key) (ks : List Key) {n : Nat} (cs : List (IndexTree n)) (j : Nat)
    (c s : IndexTree n) : Prop where
  idx : childIdx header key ks = j
  child : cs[j]? = some c
  sibling : cs[siblingIdx j]? = some s

section
variable {header : IndexFileHeader} {key : Key} {n : Nat} {page : PageNum} {ks : List Key} {cs : List (IndexTree n)}
  {c s : IndexTree n} {j : Nat} (step : PathStep header key ks cs j c s)
include step

theorem PathStep.losesKey : losesKey header key (branch page ks cs) =
    (losesKey header key c && decide (c.keyCount ≤ (shape header.order).minKeys n) &&
      decide (s.keyCount ≤ (shape header.order).minKeys n)) := by
  obtain ⟨rfl, hc, hs⟩ := step
  rw [MiniOb.losesKey, branch]
  simp only [hc, hs]

theorem PathStep.safeDelete : safeDelete header key (branch page ks cs) =
    (safeDelete header key c &&
      (!(MiniOb.losesKey header key c && decide (c.keyCount ≤ (shape header.order).minKeys n) &&
          decide ((shape header.order).minKeys n < s.keyCount)) || borrowSafe header key j c s)) := by
  obtain ⟨rfl, hc, hs⟩ := step
  rw [MiniOb.safeDelete, branch]
  simp only [hc, hs]

end

theorem firstRidAfter_eq {header : IndexFileHeader} {key : Key} {A B : List (Key × RID)} {e : Key × RID}
    (hA : ∀ a ∈ A, cmpKey header key a.1 ≠ 0) (he : cmpKey header key e.1 = 0)
    (hB : ∀ b ∈ B, cmpKey header key b.1 ≠ 0) :
    firstRidAfter header key (A ++ e :: B) = ((A ++ B ++ [e]).map Prod.snd).head? := by
  have herase : (A ++ e :: B).eraseP (fun e => cmpKey header key e.1 == 0) = A ++ B := by
    rw [eraseP_append_right _ fun a ha => by simpa using hA a ha]
    simp [he]
  have hfilter : (A ++ e :: B).filter (fun e => cmpKey header key e.1 == 0) = [e] := by
    rw [filter_append, filter_cons_of_pos (by simpa using he)]
    have h₁ : A.filter (fun e => cmpKey header key e.1 == 0) = [] :=
      filter_eq_nil_iff.mpr fun a ha => by simpa using hA a ha
    have h₂ : B.filter (fun e => cmpKey header key e.1 == 0) = [] :=
      filter_eq_nil_iff.mpr fun b hb => by simpa using hB b hb
    rw [h₁, h₂]
    rfl
  simp only [firstRidAfter, herase, hfilter]

variable {L : Type} [LinearOrder L] {rank : Key → L} {σ : Pages} {n order : Nat} {par : PageNum} {ks : List Key}

/-- What is left behind the entries of the root node after it has lost a key: in a leaf the RID of its first slot, in a
    branch the page behind its children, which is out of use or the last child's. -/
def Stale (header : IndexFileHeader) (key : Key) (σ : Pages) : {n : Nat} → (t t' : IndexTree n) → Prop
  | 0, t, _ => ∃ node, σ.get (Leaf.page t) = some node ∧
      some (node.rids 0) = firstRidAfter header key (Leaf.entries t)
  | _ + 1, t, t' => ∃ node, σ.get (Branch.page t) = some node ∧
      if droppedIdx (childIdx header key (Branch.keys t)) = (Branch.keys t).length then
        σ.get (node.rids (node.keyNum + 1)).pageNum = none
      else (Branch.children t').getLast?.map page = some (node.rids (node.keyNum + 1)).pageNum

/-- The subtree `t` has lost the deleted entry and a key of its root node, which is still to be rebalanced; `rest` are
    the other entries. -/
structure Shrunk (rank : Key → L) (h : BplusTreeHandler) (key : Key) (fuel : Nat) (leafPage par : PageNum)
    (least : Nat) (lo : WithBot L) (hi : WithTop L) (rest : List (Key × RID)) {n : Nat} (t t' : IndexTree n)
    (σ : Pages) : Prop where
  trim : Trimmed rank h.fileHeader.order h.pages σ par (least - 1) lo hi t t'
  loses : losesKey h.fileHeader key t = true
  safe : safeDelete h.fileHeader key t = true
  count : t'.keyCount + 1 = t.keyCount
  entries : t'.entries = rest
  stale : Stale h.fileHeader key σ t t'
  run : deleteEntryInternal fuel leafPage key h =
    rebalance (deleteEntryInternal (fuel - (n + 1))) t.page { h with pages := σ }

/-- What the deletion of `key` from the leaf `leafPage` comes to in the subtree `t` above it. -/
inductive DeleteOutcome (rank : Key → L) (h : BplusTreeHandler) (key : Key) (fuel : Nat) (leafPage par : PageNum)
    (least : Nat) (lo : WithBot L) (hi : WithTop L) (rest : List (Key × RID)) {n : Nat} (t : IndexTree n) : Prop
  | shrunk (σ : Pages) (t' : IndexTree n) (s : Shrunk rank h key fuel leafPage par least lo hi rest t t' σ)
  | done (σ : Pages) (t' : IndexTree n)
      (trim : Trimmed rank h.fileHeader.order h.pages σ par least lo hi t t')
      (loses : losesKey h.fileHeader key t = false)
      (entries : t'.entries = rest ↔ safeDelete h.fileHeader key t = true)
      (run : deleteEntryInternal fuel leafPage key h = some (.ok (), { h with pages := σ }))
  | broken (σ : Pages) (broken : Broken σ t.page) (loses : losesKey h.fileHeader key t = false)
      (safe : safeDelete h.fileHeader key t = false)
      (frame : ∀ q ∉ t.pages, (h.pages.get q).isSome → σ.get q = h.pages.get q)
      (run : deleteEntryInternal fuel leafPage key h = some (.ok (), { h with pages := σ }))

section
variable {h : BplusTreeHandler} {key : Key} {fuel least : Nat} {leafPage par page : PageNum} {lo : WithBot L}
  {hi : WithTop L}

theorem deleteOutcome_leaf {A B : List (Key × RID)} {e : Key × RID} (hfuel : 0 < fuel)
    (hrep : Rep h.pages par (leaf page (A ++ e :: B)))
    (hwf : WF rank (shape h.order) 0 least lo hi (leaf page (A ++ e :: B)))
    (hA : ∀ x ∈ A, cmpKey h.fileHeader key x.1 ≠ 0) (he : cmpKey h.fileHeader key e.1 = 0)
    (hB : ∀ x ∈ B, cmpKey h.fileHeader key x.1 ≠ 0) :
    DeleteOutcome rank h key fuel page par least lo hi (A ++ B) (leaf page (A ++ e :: B)) := by
  obtain ⟨node, hget, hnode⟩ := rep_leaf.mp hrep
  obtain ⟨hsorted, hbounds, hleast, hmost⟩ := wf_leaf.mp hwf
  have hsub : (A ++ B).Sublist (A ++ e :: B) := (List.Sublist.refl A).append (sublist_cons_self e B)
  obtain ⟨hd, hlt⟩ : _ ∧ (A.map Prod.fst).length < node.keyNum :=
    firstIdx_key (h := h) (by rw [hnode.keyList_eq, map_append, map_cons])
      (fun k hk => by obtain ⟨x, hx, rfl⟩ := mem_map.mp hk; exact hA x hx) he
  rw [length_map] at hd hlt
  have hrun := deleteEntryFromNode_run hget hd hlt
  obtain ⟨f, rfl⟩ : ∃ f, fuel = f + 1 := ⟨fuel - 1, by omega⟩
  have hget' := Pages.get_set_same (s := h.pages) (p := page) (n := node.removeAt A.length)
  have hnext : (node.removeAt A.length).next h.order = node.next h.order :=
    hnode.removeAt_next (hnode.length_eq ▸ hmost)
  refine .shrunk (h.pages.set page (node.removeAt A.length)) (leaf page (A ++ B)) ⟨?_, rfl, rfl, ?_, rfl, ?_, ?_⟩
  · refine ⟨rewritten_leaf hget hget' (fun q hq => Pages.get_set_ne hq) hnext,
      wf_leaf.mpr ⟨hsorted.sublist hsub, fun x hx => hbounds x (hsub.subset hx), ?_, hsub.length_le.trans hmost⟩,
      rep_leaf.mpr ⟨_, hget', hnode.removeAt⟩, rfl, fun k hk => (hsub.map Prod.fst).subset hk⟩
    simp only [length_append, length_cons] at hleast ⊢
    omega
  · simp only [keyCount_leaf, length_append, length_cons]
    omega
  · exact ⟨_, hget', hnode.removeAt_rid.trans (firstRidAfter_eq hA he hB).symm⟩
  · exact Op.bind_ok hrun

end

theorem Rep.root_node {t : IndexTree n} (hrep : Rep σ par t) :
    ∃ node, σ.get t.page = some node ∧ node.isLeaf = (n == 0) ∧ node.keyNum = t.keyCount ∧ node.parent = par := by
  cases n with
  | zero =>
    obtain ⟨node, hget, hnode⟩ := hrep
    exact ⟨node, hget, hnode.isLeaf, hnode.length_eq, hnode.parent⟩
  | succ n =>
    obtain ⟨⟨node, hget, hnode⟩, -⟩ := hrep
    exact ⟨node, hget, hnode.isLeaf, hnode.length_eq.1, hnode.parent⟩

theorem InternNode.deleteIndex {node : IndexNode} {p : PageNum} {ps₁ ps₂ : List PageNum}
    (hnode : InternNode node par ks (ps₁ ++ p :: ps₂)) (hp : p ∉ ps₁) : node.deleteIndex p = ps₁.length := by
  obtain ⟨hcount, hchildren⟩ := hnode.length_eq
  have hget := (firstN_eq_iff.mp hnode.children).2
  simp only [length_append, length_cons] at hchildren
  refine firstIdx_eq (by omega) (fun _ => ?_) fun j hj => ?_
  · have hslot := hget ps₁.length (by omega)
    rw [getElem?_append_right (le_refl _), Nat.sub_self] at hslot
    exact decide_eq_true (Option.some.inj hslot).symm
  · have hslot := hget j (by omega)
    rw [getElem?_append_left hj] at hslot
    refine decide_eq_false fun heq => hp ?_
    rw [← heq]
    exact mem_of_getElem? hslot

theorem InternNode.rid_page {node : IndexNode} {p : PageNum} {ps : List PageNum} {i : Nat}
    (hnode : InternNode node par ks ps) (hp : ps[i]? = some p) : (node.rids i).pageNum = p := by
  have hlt : i < node.keyNum + 1 := by
    have hi := (List.getElem?_eq_some_iff.mp hp).1
    obtain ⟨hcount, hchildren⟩ := hnode.length_eq
    omega
  exact Option.some.inj (((firstN_eq_iff.mp hnode.children).2 i hlt).symm.trans hp)

section Short
variable {h : BplusTreeHandler} {n : Nat} {par page : PageNum} {node : IndexNode} {K₁ K₂ : List Key} {s : Key}
  {T₁ T₂ : List (IndexTree n)} {l r : IndexTree n} {a lo : WithBot L} {b hi : WithTop L}
  {dei : PageNum → Key → Op Unit}
  (w : Window rank h.order h.pages par page node K₁ s K₂ T₁ l r T₂ a lo b hi) (hpage : page ≠ -1)
include w hpage

theorem Window.rebalance_left (hfirst : T₁ = []) (hshort : l.keyCount < (shape h.order).minKeys n) :
    rebalance dei l.page h = if (shape h.order).minKeys n < r.keyCount then redistributeNodes l.page r.page h
      else coalesceNode dei l.page r.page h := by
  obtain ⟨left, hgetl, hleafl, hcountl, hparl⟩ := w.rep_left.root_node
  obtain ⟨right, hgetr, -, hcountr, -⟩ := w.rep_right.root_node
  subst hfirst
  have hmin : minKey h.order left.isLeaf = (shape h.order).minKeys n := by rw [hleafl]; rfl
  have hidx : node.deleteIndex l.page = 0 := w.node_map.deleteIndex not_mem_nil
  have hright : (node.rids 1).pageNum = r.page := w.node_map.rid_page rfl
  rw [rebalance_sibling hgetl (hparl ▸ hpage) (by omega) (hparl ▸ w.get) hgetr (.inl ⟨hidx, hright.symm, rfl, rfl⟩),
    hmin, hcountr]

theorem Window.rebalance_right (hshort : r.keyCount < (shape h.order).minKeys n) :
    rebalance dei r.page h = if (shape h.order).minKeys n < l.keyCount then redistributeNodes l.page r.page h
      else coalesceNode dei l.page r.page h := by
  obtain ⟨left, hgetl, -, hcountl, -⟩ := w.rep_left.root_node
  obtain ⟨right, hgetr, hleafr, hcountr, hparr⟩ := w.rep_right.root_node
  have hmin : minKey h.order right.isLeaf = (shape h.order).minKeys n := by rw [hleafr]; rfl
  have hidx : node.deleteIndex r.page = T₁.length + 1 := by
    have hmap : (T₁ ++ l :: r :: T₂).map Tree.page = (T₁ ++ [l]).map Tree.page ++ r.page :: T₂.map Tree.page := by simp
    have := (hmap ▸ w.node).deleteIndex w.right_notMem
    simpa using this
  have hleft : (node.rids T₁.length).pageNum = l.page := w.node_map.rid_page (by simp)
  rw [rebalance_sibling hgetr (hparr ▸ hpage) (by omega) (hparr ▸ w.get) hgetl
    (.inr ⟨by omega, by rw [hidx]; exact hleft.symm, rfl, rfl⟩), hmin, hcountl]

end Short

theorem minKeys_bounds (horder : 3 ≤ order) (n : Nat) : 1 ≤ (shape order).minKeys n ∧
    (n = 0 → 2 * (shape order).minKeys n ≤ order) ∧ (n ≠ 0 → 2 * (shape order).minKeys n ≤ order - 1) := by
  cases n with
  | zero =>
    have hmin : (shape order).minKeys 0 = order / 2 := rfl
    omega
  | succ n =>
    have hmin : (shape order).minKeys (n + 1) = (order + 1) / 2 - 1 := rfl
    omega

/-- The node that takes over what two siblings with the key `s` between them hold. -/
def joined (s : Key) : {n : Nat} → IndexTree n → IndexTree n → IndexTree n
  | 0, l, r => leaf l.page (Leaf.entries l ++ Leaf.entries r)
  | _ + 1, l, r => branch l.page (Branch.keys l ++ s :: Branch.keys r) (Branch.children l ++ Branch.children r)

theorem entries_joined {s : Key} : ∀ {n : Nat} {l r : IndexTree n}, (joined s l r).entries = l.entries ++ r.entries
  | 0, _, _ => rfl
  | _ + 1, _, _ => flatMap_append

section Merge
variable {h : BplusTreeHandler} {n least least₁ least₂ : Nat} {par page : PageNum} {node : IndexNode}
  {K₁ K₂ : List Key} {s : Key} {T₁ T₂ : List (IndexTree n)} {l r : IndexTree n} {a lo : WithBot L} {b hi : WithTop L}

theorem Window.coalesce (horder : 3 ≤ h.order)
    (w : Window rank h.order h.pages par page node K₁ s K₂ T₁ l r T₂ a lo b hi)
    (hwl : WF rank (shape h.order) n least₁ a (rank s) l) (hwr : WF rank (shape h.order) n least₂ (rank s) b r)
    (hsum : l.keyCount + r.keyCount + 1 = 2 * (shape h.order).minKeys n) (sep : Separator h.fileHeader least K₁ s K₂) :
    ∃ σ' node', Merges h l.page r.page page s σ' ∧
      Trimmed rank h.order h.pages σ' par (least - 1) lo hi
        (branch page (K₁ ++ s :: K₂) (T₁ ++ l :: r :: T₂)) (branch page (K₁ ++ K₂) (T₁ ++ joined s l r :: T₂)) ∧
      σ'.get page = some node' ∧ σ'.get r.page = none ∧
      (node'.rids (node'.keyNum + 1)).pageNum = ((r :: T₂).getLast (cons_ne_nil _ _)).page := by
  obtain ⟨hpos, hleaf, hintern⟩ := minKeys_bounds horder n
  cases n with
  | zero =>
    obtain ⟨lp, A, rfl⟩ := l.eq_leaf
    obtain ⟨rp, B, rfl⟩ := r.eq_leaf
    have hmin : minKey h.order true = (shape h.order).minKeys 0 := rfl
    simp only [keyCount_leaf] at hsum
    exact coalesce_leaf w hwl hwr (by omega) (by omega) sep
  | succ n =>
    obtain ⟨lp, KL, CL, rfl⟩ := l.eq_branch
    obtain ⟨rp, KR, CR, rfl⟩ := r.eq_branch
    have hmin : minKey h.order false = (shape h.order).minKeys (n + 1) := rfl
    simp only [keyCount_branch] at hsum
    exact coalesce_intern w hwl hwr (by omega) (by omega) sep

theorem Trimmed.after {order : Nat} {σ σ₁ σ' : Pages} {t t₁ t' : IndexTree n}
    (r : Rewritten order σ σ₁ t.pages t₁.pages t.leaves t₁.leaves) (hpage : t₁.page = t.page)
    (hkeys : ∀ k ∈ t₁.allKeys, k ∈ t.allKeys) (trim : Trimmed rank order σ₁ σ' par least lo hi t₁ t') :
    Trimmed rank order σ σ' par least lo hi t t' :=
  ⟨r.trans trim.toRewritten, trim.wf, trim.rep, trim.page.trans hpage, fun k hk => hkeys k (trim.keys k hk)⟩

end Merge

theorem Trimmed.child {least : Nat} {σ' : Pages} {page : PageNum}
    {T₁ T₂ : List (IndexTree n)} {c c' : IndexTree n} {a : WithBot L} {b : WithTop L}
    (trim : Trimmed rank order σ σ' page least a b c c') (hrep : Rep σ par (branch page ks (T₁ ++ c :: T₂)))
    (hnodup : (branch page ks (T₁ ++ c :: T₂)).pages.Nodup) :
    Rewritten order σ σ' (branch page ks (T₁ ++ c :: T₂)).pages (branch page ks (T₁ ++ c' :: T₂)).pages
      (branch page ks (T₁ ++ c :: T₂)).leaves (branch page ks (T₁ ++ c' :: T₂)).leaves ∧
    Rep σ' par (branch page ks (T₁ ++ c' :: T₂)) ∧
    ∀ k ∈ (Tree.branch page ks (T₁ ++ c' :: T₂)).allKeys, k ∈ (Tree.branch page ks (T₁ ++ c :: T₂)).allKeys := by
  obtain ⟨⟨node, hget, hnode⟩, hchildren⟩ := rep_branch.mp hrep
  have hone : Rewritten order σ σ' ([c].flatMap pages) ([c'].flatMap pages) ([c].flatMap leaves)
      ([c'].flatMap leaves) := by simpa using trim.toRewritten
  have hpage : page ∉ c.pages := by
    intro hmem
    refine (nodup_cons.mp hnodup).1 (mem_flatMap.mpr ⟨c, ?_, hmem⟩)
    exact mem_append_right _ mem_cons_self
  have hget' : σ'.get page = some node := (trim.frame page hpage (by rw [hget]; rfl)).trans hget
  have hmap : (T₁ ++ ([c'] ++ T₂)).map Tree.page = (T₁ ++ c :: T₂).map Tree.page := by simp [trim.page]
  have hnodup' : (page :: (T₁ ++ ([c] ++ T₂)).flatMap pages).Nodup := hnodup
  obtain ⟨hrw, hrep'⟩ := hone.branch ks (by rw [hget]; rfl) hchildren hnodup'
    (fun x hx => mem_singleton.mp hx ▸ trim.rep) (fun _ _ => rfl) hget' (hmap ▸ hnode)
  refine ⟨hrw, hrep', fun k hk => ?_⟩
  have hk' := trim.keys k
  simp only [allKeys_branch, flatMap_append, flatMap_cons, mem_append] at hk ⊢
  tauto

theorem Window.of_rep {page : PageNum} {K₁ K₂ : List Key} {s : Key}
    {T₁ T₂ : List (IndexTree n)} {l r : IndexTree n} {a lo : WithBot L} {b hi : WithTop L}
    (hrep : Rep σ par (branch page (K₁ ++ s :: K₂) (T₁ ++ l :: r :: T₂)))
    (hnodup : (branch page (K₁ ++ s :: K₂) (T₁ ++ l :: r :: T₂)).pages.Nodup) (hlen : T₁.length = K₁.length)
    (hbounds : a < rank s ∧ rank s < b) (hctx : ∀ ks' ts', Chain rank (Full rank order) a ks' ts' b →
      Chain rank (Full rank order) lo (K₁ ++ ks' ++ K₂) (T₁ ++ ts' ++ T₂) hi) :
    ∃ node, Window rank order σ par page node K₁ s K₂ T₁ l r T₂ a lo b hi := by
  obtain ⟨⟨node, hget, hnode⟩, hchildren⟩ := rep_branch.mp hrep
  exact ⟨node, hget, hnode, hchildren, hnodup, hlen, hbounds, hctx⟩

section Above
variable {h : BplusTreeHandler} {key : Key} {n fuel least : Nat} {leafPage par page : PageNum} {lo a : WithBot L}
  {hi b : WithTop L} {rest : List (Key × RID)}

theorem DeleteOutcome.above {ks : List Key} {T₁ T₂ : List (IndexTree n)} {c sib : IndexTree n} {j : Nat}
    (step : PathStep h.fileHeader key ks (T₁ ++ c :: T₂) j c sib)
    (hrep : Rep h.pages par (branch page ks (T₁ ++ c :: T₂))) (hnodup : (branch page ks (T₁ ++ c :: T₂)).pages.Nodup)
    (hpage : page ≠ -1) (hleast : least ≤ ks.length) (hmost : ks.length ≤ h.order - 1)
    (hctx : ∀ c', Full rank h.order a b c' →
      Chain rank (Full rank h.order) lo ks (T₁ ++ c' :: T₂) hi)
    (hshort : ∀ σ c', Shrunk rank h key fuel leafPage page ((shape h.order).minKeys n) a b rest c c' σ →
      c'.keyCount < (shape h.order).minKeys n →
      DeleteOutcome rank h key fuel leafPage par least lo hi
        (T₁.flatMap entries ++ (rest ++ T₂.flatMap entries)) (branch page ks (T₁ ++ c :: T₂)))
    (out : DeleteOutcome rank h key fuel leafPage page ((shape h.order).minKeys n) a b rest c) :
    DeleteOutcome rank h key fuel leafPage par least lo hi
      (T₁.flatMap entries ++ (rest ++ T₂.flatMap entries)) (branch page ks (T₁ ++ c :: T₂)) := by
  have hwrap : ∀ {σ c' least'}, Trimmed rank h.order h.pages σ page least' a b c c' →
      (shape h.order).minKeys n ≤ c'.keyCount →
      Trimmed rank h.order h.pages σ par least lo hi (branch page ks (T₁ ++ c :: T₂))
        (branch page ks (T₁ ++ c' :: T₂)) := by
    intro σ c' least' trim hcount
    obtain ⟨hrw, hrep', hkeys⟩ := trim.child hrep hnodup
    exact ⟨hrw, wf_branch.mpr ⟨hctx c' (trim.wf.of_le_keyCount hcount), hleast, hmost⟩, hrep', rfl, hkeys⟩
  have hentries : ∀ c' : IndexTree n, (branch page ks (T₁ ++ c' :: T₂)).entries =
      T₁.flatMap entries ++ (rest ++ T₂.flatMap entries) ↔ c'.entries = rest := by
    intro c'
    simp
  cases out with
  | shrunk σ c' sh =>
    by_cases hcount : (shape h.order).minKeys n ≤ c'.keyCount
    · have hmany : ¬c.keyCount ≤ (shape h.order).minKeys n := by
        have := sh.count
        omega
      obtain ⟨cnode, hget, hleaf, hnum, hpar⟩ := sh.trim.rep.root_node
      refine .done σ _ (hwrap sh.trim hcount) ?_ ?_ ?_
      · simp [step.losesKey, hmany]
      · rw [hentries, step.safeDelete]
        simp [hmany, sh.safe, sh.entries]
      · rw [sh.run, ← sh.trim.page]
        refine rebalance_enough hget (hpar ▸ hpage) ?_
        rw [hnum, hleaf]
        exact hcount
    · exact hshort σ c' sh (by omega)
  | done σ c' trim loses entries run =>
    refine .done σ _ (hwrap trim trim.wf.least_le.1) ?_ ?_ run
    · simp [step.losesKey, loses]
    · rw [hentries, step.safeDelete, entries]
      simp [loses]
  | broken σ broken loses safe frame run =>
    obtain ⟨⟨node, hget, hnode⟩, -⟩ := rep_branch.mp hrep
    have hmem : c ∈ T₁ ++ c :: T₂ := mem_append_right _ mem_cons_self
    have hsub : ∀ q, q ∈ c.pages → q ∈ (T₁ ++ c :: T₂).flatMap pages :=
      fun q hq => mem_flatMap.mpr ⟨c, hmem, hq⟩
    have hget' : σ.get page = some node := by
      rw [frame page (fun hq => (nodup_cons.mp hnodup).1 (hsub page hq)) (by rw [hget]; rfl), hget]
    refine .broken σ (broken.parent hget' hnode.isLeaf ?_) ?_ ?_ ?_ run
    · rw [hnode.children]
      exact mem_map_of_mem hmem
    · simp [step.losesKey, loses]
    · simp [step.safeDelete, safe]
    · exact fun q hq => frame q fun hqc => hq (mem_cons_of_mem _ (hsub q hqc))

end Above

/-- The branch over two neighbouring children `l` and `r`, in one of which the deletion goes on. -/
structure Above (rank : Key → L) (h : BplusTreeHandler) (par page : PageNum) (least : Nat) (K₁ : List Key) (s : Key)
    (K₂ : List Key) {n : Nat} (T₁ : List (IndexTree n)) (l r : IndexTree n) (T₂ : List (IndexTree n))
    (a lo : WithBot L) (b hi : WithTop L) : Prop where
  order : 3 ≤ h.fileHeader.order
  used : page ≠ -1
  rep : Rep h.pages par (branch page (K₁ ++ s :: K₂) (T₁ ++ l :: r :: T₂))
  nodup : (branch page (K₁ ++ s :: K₂) (T₁ ++ l :: r :: T₂)).pages.Nodup
  length : T₁.length = K₁.length
  bounds : a < rank s ∧ rank s < b
  left : Full rank h.fileHeader.order a (rank s) l
  right : Full rank h.fileHeader.order (rank s) b r
  context : ∀ ks' ts',
    Chain rank (Full rank h.fileHeader.order) a ks' ts' b →
    Chain rank (Full rank h.fileHeader.order) lo (K₁ ++ ks' ++ K₂)
      (T₁ ++ ts' ++ T₂) hi
  least : least ≤ (K₁ ++ s :: K₂).length
  most : (K₁ ++ s :: K₂).length ≤ h.fileHeader.order - 1
  free : h.Free r.page
  -- What the code's comparison makes of the key between the two.
  other : ∀ k ∈ K₁, cmpKey h.fileHeader s k ≠ 0
  self : cmpKey h.fileHeader s s = 0

section Pair
variable {h : BplusTreeHandler} {key : Key} {n fuel least : Nat} {leafPage par page : PageNum} {K₁ K₂ : List Key}
  {s : Key} {T₁ T₂ : List (IndexTree n)} {l r l' r' : IndexTree n} {lo a : WithBot L} {hi b : WithTop L}
  {rest : List (Key × RID)} {σ : Pages}

theorem Above.merge (up : Above rank h par page least K₁ s K₂ T₁ l r T₂ a lo b hi) {node : IndexNode}
    {least₁ least₂ : Nat} (hrw : Rewritten h.order h.pages σ (branch page (K₁ ++ s :: K₂) (T₁ ++ l :: r :: T₂)).pages
      (branch page (K₁ ++ s :: K₂) (T₁ ++ l' :: r' :: T₂)).pages
      (branch page (K₁ ++ s :: K₂) (T₁ ++ l :: r :: T₂)).leaves
      (branch page (K₁ ++ s :: K₂) (T₁ ++ l' :: r' :: T₂)).leaves)
    (hkeys : ∀ k ∈ (branch page (K₁ ++ s :: K₂) (T₁ ++ l' :: r' :: T₂)).allKeys,
      k ∈ (branch page (K₁ ++ s :: K₂) (T₁ ++ l :: r :: T₂)).allKeys)
    (w : Window rank h.order σ par page node K₁ s K₂ T₁ l' r' T₂ a lo b hi)
    (hwl : WF rank (shape h.order) n least₁ a (rank s) l') (hwr : WF rank (shape h.order) n least₂ (rank s) b r')
    (hrpage : r'.page = r.page) (hsum : l'.keyCount + r'.keyCount + 1 = 2 * (shape h.order).minKeys n)
    (hdropped : droppedIdx (childIdx h.fileHeader key (K₁ ++ s :: K₂)) = T₁.length + 1)
    (hloses : losesKey h.fileHeader key (branch page (K₁ ++ s :: K₂) (T₁ ++ l :: r :: T₂)) = true)
    (hsafe : safeDelete h.fileHeader key (branch page (K₁ ++ s :: K₂) (T₁ ++ l :: r :: T₂)) = true)
    (hfuel : n + 1 < fuel) (hrun : deleteEntryInternal fuel leafPage key h =
      coalesceNode (deleteEntryInternal (fuel - (n + 1))) l'.page r'.page { h with pages := σ }) :
    DeleteOutcome rank h key fuel leafPage par least lo hi
      (T₁.flatMap entries ++ (l'.entries ++ (r'.entries ++ T₂.flatMap entries)))
      (branch page (K₁ ++ s :: K₂) (T₁ ++ l :: r :: T₂)) := by
  obtain ⟨f, hf⟩ : ∃ f, fuel - (n + 1) = f + 1 := ⟨fuel - (n + 2), by omega⟩
  obtain ⟨σ', node', hmerge, htrim, hget, hnone, hstale⟩ :=
    Window.coalesce (h := { h with pages := σ }) up.order w hwl hwr hsum ⟨up.least, up.most, up.other, up.self⟩
  refine .shrunk σ' _ ⟨htrim.after hrw rfl hkeys, hloses, hsafe, ?_, ?_, ⟨node', hget, ?_⟩, ?_⟩
  · simp only [keyCount_branch, length_append, length_cons]
    omega
  · simp [entries_joined]
  · have hlen : (K₁ ++ s :: K₂).length = T₁.length + 1 + K₂.length := by
      rw [length_append, length_cons, up.length]
      omega
    have hT₂ : T₂.length = K₂.length := by
      have hchildren := (w.node.length_eq).2
      simp only [length_map, length_append, length_cons, up.length] at hchildren
      omega
    show if droppedIdx (childIdx h.fileHeader key (K₁ ++ s :: K₂)) = (K₁ ++ s :: K₂).length then _ else
      ((T₁ ++ joined s l' r' :: T₂).getLast?.map Tree.page = some _)
    cases T₂ with
    | nil =>
      rw [if_pos (by simp at hT₂; omega), hstale]
      exact hnone
    | cons x T =>
      rw [if_neg (by simp at hT₂; omega), hstale]
      rw [getLast?_eq_some_getLast (by simp)]
      simp
  · rw [hrun, hf, hmerge.run (hrpage ▸ up.free)]
    have : fuel - (n + 1 + 1) = f := by omega
    rw [this]
    rfl

theorem frame_after {order : Nat} {σ₁ σ' : Pages} {ps ps₁ ls ls₁ : List PageNum}
    (hrw : Rewritten order σ σ₁ ps ps₁ ls ls₁) (hframe : ∀ q, q ∉ ps₁ → σ'.get q = σ₁.get q) (q : PageNum) (hq : q ∉ ps)
    (hused : (σ.get q).isSome) : σ'.get q = σ.get q := by
  obtain ⟨hnew, hsame⟩ := hrw.outside hq hused
  exact (hframe q hnew).trans hsame

theorem Shrunk.one_short (sh : Shrunk rank h key fuel leafPage page ((shape h.order).minKeys n) a b rest l l' σ)
    (hwf : Full rank h.order a b l) (hshort : l'.keyCount < (shape h.order).minKeys n) :
    l'.keyCount + 1 = (shape h.order).minKeys n ∧ l.keyCount ≤ (shape h.order).minKeys n := by
  have hcount := sh.count
  have hleast := hwf.least_le.1
  omega

theorem Shrunk.first (up : Above rank h par page least [] s K₂ [] l r T₂ a lo b hi)
    (step : PathStep h.fileHeader key (s :: K₂) (l :: r :: T₂) 0 l r) (hfuel : n + 1 < fuel)
    (sh : Shrunk rank h key fuel leafPage page ((shape h.order).minKeys n) a (rank s) rest l l' σ)
    (hshort : l'.keyCount < (shape h.order).minKeys n) :
    DeleteOutcome rank h key fuel leafPage par least lo hi (rest ++ (r :: T₂).flatMap Tree.entries)
      (branch page (s :: K₂) (l :: r :: T₂)) := by
  obtain ⟨hrw, hrep, hkeys⟩ : _ ∧ Rep σ par (branch page (s :: K₂) ([] ++ l' :: r :: T₂)) ∧ _ :=
    sh.trim.child up.rep up.nodup
  obtain ⟨node, w⟩ : ∃ node, Window rank h.order σ par page node [] s K₂ [] l' r T₂ a lo b hi :=
    Window.of_rep hrep hrw.nodup rfl up.bounds up.context
  obtain ⟨hone, hfew⟩ := sh.one_short up.left hshort
  have hleastr : (shape h.order).minKeys n ≤ r.keyCount := up.right.least_le.1
  have hrun := sh.run
  rw [← sh.trim.page, w.rebalance_left (h := { h with pages := σ }) up.used rfl hshort] at hrun
  by_cases hmore : (shape h.order).minKeys n < r.keyCount
  · have hloses : losesKey h.fileHeader key (branch page (s :: K₂) (l :: r :: T₂)) = false := by
      simp [step.losesKey, hmore]
    have hsafe : safeDelete h.fileHeader key (branch page (s :: K₂) (l :: r :: T₂)) =
        borrowSafe h.fileHeader key 0 l r := by
      simp [step.safeDelete, sh.safe, sh.loses, hfew, hmore]
    rw [if_pos hmore] at hrun
    cases n with
    | zero =>
      obtain ⟨lp, A, rfl⟩ := l'.eq_leaf
      obtain ⟨rp, es, rfl⟩ := r.eq_leaf
      obtain ⟨e, e₂, B, rfl⟩ : ∃ e e₂ B, es = e :: e₂ :: B := by
        match es, hmore with
        | e :: e₂ :: B, _ => exact ⟨e, e₂, B, rfl⟩
        | [_], hmore => simp at hmore; omega
        | [], hmore => simp at hmore
      obtain ⟨σ', hred, htrim⟩ := redistribute_leaf_right (h := { h with pages := σ }) w sh.trim.wf up.right
        hone hmore up.least up.most
      refine .done σ' _ (htrim.after hrw rfl hkeys) hloses ?_ (hrun.trans hred)
      have hrest : A = rest := sh.entries
      simp [hsafe, borrowSafe, ← hrest]
    | succ n =>
      obtain ⟨lp, KL, CL, rfl⟩ := l'.eq_branch
      obtain ⟨rp, KR, CR, rfl⟩ := r.eq_branch
      obtain ⟨σ', hred, hbroken, hframe⟩ := redistribute_intern_right (h := { h with pages := σ }) w hshort
        (by simp at hmore; omega)
      refine .broken σ' hbroken hloses ?_ (frame_after hrw hframe) (hrun.trans hred)
      simp [hsafe, borrowSafe]
  · have hlow : r.keyCount ≤ (shape h.order).minKeys n := by omega
    rw [if_neg hmore] at hrun
    have hentries : rest ++ (r :: T₂).flatMap Tree.entries = ([] : List (IndexTree n)).flatMap Tree.entries ++
        (l'.entries ++ (r.entries ++ T₂.flatMap Tree.entries)) := by simp [sh.entries]
    rw [hentries]
    refine up.merge hrw hkeys w sh.trim.wf up.right rfl (by omega) ?_ ?_ ?_ hfuel hrun
    · rw [nil_append, step.idx]
      rfl
    · simp [step.losesKey, sh.loses, hfew, hlow]
    · simp [step.safeDelete, sh.safe, hmore]

theorem Shrunk.later (up : Above rank h par page least K₁ s K₂ T₁ l r T₂ a lo b hi)
    (step : PathStep h.fileHeader key (K₁ ++ s :: K₂) (T₁ ++ l :: r :: T₂) (T₁.length + 1) r l) (hfuel : n + 1 < fuel)
    (sh : Shrunk rank h key fuel leafPage page ((shape h.order).minKeys n) (rank s) b rest r r' σ)
    (hshort : r'.keyCount < (shape h.order).minKeys n) :
    DeleteOutcome rank h key fuel leafPage par least lo hi ((T₁ ++ [l]).flatMap Tree.entries ++
      (rest ++ T₂.flatMap Tree.entries)) (branch page (K₁ ++ s :: K₂) (T₁ ++ l :: r :: T₂)) := by
  have hsplit : ∀ x, T₁ ++ l :: x :: T₂ = (T₁ ++ [l]) ++ x :: T₂ := by simp
  have hchild := sh.trim.child (hsplit r ▸ up.rep) (hsplit r ▸ up.nodup)
  rw [← hsplit, ← hsplit] at hchild
  obtain ⟨hrw, hrep, hkeys⟩ := hchild
  obtain ⟨node, w⟩ := Window.of_rep hrep hrw.nodup up.length up.bounds up.context
  obtain ⟨hone, hfew⟩ := sh.one_short up.right hshort
  have hleastl : (shape h.order).minKeys n ≤ l.keyCount := up.left.least_le.1
  have hrun := sh.run
  rw [← sh.trim.page, w.rebalance_right (h := { h with pages := σ }) up.used hshort] at hrun
  by_cases hmore : (shape h.order).minKeys n < l.keyCount
  · have hloses : losesKey h.fileHeader key (branch page (K₁ ++ s :: K₂) (T₁ ++ l :: r :: T₂)) = false := by
      simp [step.losesKey, hmore]
    have hsafe : safeDelete h.fileHeader key (branch page (K₁ ++ s :: K₂) (T₁ ++ l :: r :: T₂)) =
        borrowSafe h.fileHeader key (T₁.length + 1) r l := by
      simp [step.safeDelete, sh.safe, sh.loses, hfew, hmore]
    rw [if_pos hmore] at hrun
    cases n with
    | zero =>
      obtain ⟨lp, es, rfl⟩ := l.eq_leaf
      obtain ⟨rp, B, rfl⟩ := r'.eq_leaf
      obtain ⟨A, e, rfl⟩ : ∃ A e, es = A ++ [e] := by
        rcases eq_nil_or_concat' es with rfl | hes
        · simp at hmore
        · exact hes
      obtain ⟨right, hget, hrid⟩ := sh.stale
      have hpage : rp = Leaf.page r := sh.trim.page
      rw [← hpage] at hget
      obtain ⟨σ', hred, htrim⟩ := redistribute_leaf_left (h := { h with pages := σ }) w up.left sh.trim.wf
        hone hmore hget rfl up.least up.most
      refine .done σ' _ (htrim.after hrw rfl hkeys) hloses ?_ (hrun.trans hred)
      have hrest : B = rest := sh.entries
      have hpair : (e.1, right.rids 0) = e ↔ e.2 = right.rids 0 := by
        constructor
        · rintro heq
          rw [← heq]
        · rintro heq
          rw [← heq]
      have hborrow : borrowSafe h.fileHeader key (T₁.length + 1) r (leaf lp (A ++ [e])) = true ↔
          e.2 = right.rids 0 := by
        show (decide (T₁.length + 1 = 0) || decide ((A ++ [e]).getLast?.map Prod.snd =
          firstRidAfter h.fileHeader key (Leaf.entries r))) = true ↔ _
        rw [← hrid]
        simp
      rw [hsafe, hborrow]
      simp [← hrest, hpair]
    | succ n =>
      obtain ⟨lp, KL, k₀, CL, c, rfl⟩ := up.left.exists_last (by omega)
      obtain ⟨rp, KR, CR, z, rfl⟩ := sh.trim.wf.exists_last_child
      obtain ⟨right, hget, hslot⟩ := sh.stale
      have hpage : rp = Branch.page r := sh.trim.page
      rw [← hpage] at hget
      have hmany : ¬(KL ++ [k₀]).length < minKey h.order false := not_lt.mpr hmore.le
      have hborrow : borrowSafe h.fileHeader key (T₁.length + 1) r (branch lp (KL ++ [k₀]) (CL ++ [c])) =
          decide (droppedIdx (childIdx h.fileHeader key (Branch.keys r)) ≠ (Branch.keys r).length) := by
        show (decide (T₁.length + 1 ≠ 0) && _) = _
        simp
      by_cases hlast : droppedIdx (childIdx h.fileHeader key (Branch.keys r)) = (Branch.keys r).length
      · -- The slot behind the children names the page that the last merge has given up.
        rw [if_pos hlast] at hslot
        obtain ⟨σ', hred, hbroken, hframe⟩ :=
          redistribute_intern_left_broken (h := { h with pages := σ }) w hget rfl hmany hslot
        refine .broken σ' hbroken hloses ?_ (frame_after hrw hframe) (hrun.trans hred)
        rw [hsafe, hborrow]
        simp [hlast]
      · rw [if_neg hlast] at hslot
        have hz : (right.rids (right.keyNum + 1)).pageNum = z.page := by
          have hz' : (CR ++ [z]).getLast?.map Tree.page = some (right.rids (right.keyNum + 1)).pageNum := hslot
          simpa using hz'.symm
        obtain ⟨σ', hred, htrim⟩ := redistribute_intern_left (h := { h with pages := σ }) w hget rfl hmany hz up.left
          sh.trim.wf hmore hone up.least up.most
        refine .done σ' _ (htrim.after hrw rfl hkeys) hloses ?_ (hrun.trans hred)
        rw [hsafe, hborrow]
        simp [hlast, ← sh.entries]
  · have hlow : l.keyCount ≤ (shape h.order).minKeys n := by omega
    rw [if_neg hmore] at hrun
    have hentries : (T₁ ++ [l]).flatMap Tree.entries ++ (rest ++ T₂.flatMap Tree.entries) =
        T₁.flatMap Tree.entries ++ (l.entries ++ (r'.entries ++ T₂.flatMap Tree.entries)) := by simp [sh.entries]
    rw [hentries]
    refine up.merge hrw hkeys w up.left sh.trim.wf sh.trim.page (by omega) ?_ ?_ ?_ hfuel hrun
    · rw [step.idx]
      rfl
    · simp [step.losesKey, sh.loses, hfew, hlow]
    · simp [step.safeDelete, sh.safe, hmore]

end Pair
end MiniOb
