import MiniOb.Theorems.InsertNodes
import MiniOb.Theorems.Rewritten

/-! # `insert_entry` refines insertion

By induction on the height of a subtree: inserting below its root is done, or has split the root node. `Grown` says what
the two cases share. -/

namespace MiniOb
open Slots BTree List Tree Pages
variable {L : Type} [LinearOrder L] {rank : Key → L}

/-- What becomes of a stretch of the tree when the pair `(key, rid)` goes into it: the pairs `es` turn into `es'`, and
    no page goes out of use. -/
structure Replaced (h : BplusTreeHandler) (σ : Pages) (key : Key) (rid : RID) (ps ps' ls ls' : List PageNum)
    (es es' : List (Key × RID)) : Prop extends Rewritten h.fileHeader.order h.pages σ ps ps' ls ls' where
  keep : ∀ p, (h.pages.get p).isSome → (σ.get p).isSome
  entries : ∃ A B, es = A ++ B ∧ es' = A ++ (key, rid) :: B

/-- The trees `ts`, with the keys `ks` between them, stand where `t` stood and hold one more pair. -/
structure Grown (rank : Key → L) (h : BplusTreeHandler) (σ : Pages) (par : PageNum) (least : Nat) (lo : WithBot L)
    (hi : WithTop L) (key : Key) (rid : RID) {n : Nat} (t : IndexTree n) (ks : List Key) (ts : List (IndexTree n)) :
    Prop extends Replaced h σ key rid t.pages (ts.flatMap pages) t.leaves (ts.flatMap leaves)
      t.entries (ts.flatMap entries) where
  chain : Chain rank (WF rank (shape h.fileHeader.order) n least) lo ks ts hi
  rep : ∀ t' ∈ ts, Rep σ par t'
  keys : ∀ k ∈ ks ++ ts.flatMap allKeys, k = key ∨ k ∈ t.allKeys

section
variable {h : BplusTreeHandler} {key : Key} {rid : RID} {node : IndexNode} {par leafPage : PageNum}
  {A B : List (Key × RID)}

theorem LeafNode.insertPos (hnode : LeafNode node par (A ++ B))
    (hord : ∀ e ∈ A ++ B, Agrees (cmpKey h.fileHeader key e.1) (rank key) (rank e.1))
    (hA : ∀ e ∈ A, rank e.1 < rank key) (hB : ∀ e ∈ B, rank key < rank e.1) :
    firstIdx node.keyNum (fun i => decide (cmpKey h.fileHeader key (node.keys i) < 0)) = A.length ∧
      firstIdx node.keyNum (fun i => decide (cmpKey h.fileHeader key (node.keys i) ≤ 0)) = A.length := by
  have hentries : firstN (zip node.keys node.rids) node.keyNum = A ++ B := hnode.entries
  have hpos : ∀ e ∈ A, ¬cmpKey h.fileHeader key e.1 ≤ 0 := fun e he hle =>
    not_le.mpr (hA e he) ((hord e (mem_append_left _ he)).le_iff.mp hle)
  have hneg : ∀ e ∈ B, cmpKey h.fileHeader key e.1 < 0 := fun e he =>
    (hord e (mem_append_right _ he)).1.mpr (hB e he)
  constructor
  · refine (firstIdx_eq_findIdx (zip node.keys node.rids) node.keyNum fun e =>
      decide (cmpKey h.fileHeader key e.1 < 0)).trans ?_
    rw [hentries]
    exact findIdx_split (fun e he => decide_eq_false fun hlt => hpos e he hlt.le) fun e he => decide_eq_true (hneg e he)
  · refine (firstIdx_eq_findIdx (zip node.keys node.rids) node.keyNum fun e =>
      decide (cmpKey h.fileHeader key e.1 ≤ 0)).trans ?_
    rw [hentries]
    exact findIdx_split (fun e he => decide_eq_false (hpos e he)) fun e he => decide_eq_true (hneg e he).le

theorem insertIntoLeaf_run (hget : h.pages.get leafPage = some node) (hnode : LeafNode node par (A ++ B))
    (hord : ∀ e ∈ A ++ B, Agrees (cmpKey h.fileHeader key e.1) (rank key) (rank e.1))
    (hA : ∀ e ∈ A, rank e.1 < rank key) (hB : ∀ e ∈ B, rank key < rank e.1) :
    insertIntoLeaf leafPage key rid h =
      some (.ok (), { h with pages := h.pages.set leafPage (node.insertPair A.length key rid) }) := by
  have hpos := (hnode.insertPos hord hA hB).2
  have hnew : ¬(A.length < node.keyNum ∧ cmpKey h.fileHeader key (node.keys A.length) = 0) := by
    rintro ⟨hlt, heq⟩
    cases B with
    | nil =>
      have hlen := congrArg List.length hnode.entries
      simp only [IndexNode.entryList, firstN_length, append_nil] at hlen
      omega
    | cons e B =>
      have hkey : node.keys A.length = e.1 := congrArg Prod.fst (eq_of_firstN_split hnode.entries)
      rw [hkey] at heq
      have hmem : e ∈ A ++ e :: B := mem_append_right _ mem_cons_self
      exact (hB e mem_cons_self).ne ((hord e hmem).2.mp heq)
  rw [insertIntoLeaf, Op.bind_fileHeader, bind_getThisPage hget]
  simp only [hpos, if_neg hnew]
  rw [Op.bind_ok putNode_apply, unpinPage_apply]
  simp

theorem insertIntoLeafAfterSplit_at (fuel : Nat) {pos : Nat} (hget : h.pages.get leafPage = some node)
    (hpar : node.parent = par)
    (hpos : firstIdx node.keyNum (fun i => decide (cmpKey h.fileHeader key (node.keys i) < 0)) = pos) :
    let newPage := (h.alloc h.pages).1
    let r := splitLeaf h.order node (h.alloc h.pages).2 newPage pos key rid
    insertIntoLeafAfterSplit fuel leafPage key rid h = insertIntoParent fuel par leafPage r.newKey newPage
        { h with pages := ((h.pages.set newPage (h.alloc h.pages).2).set leafPage r.left).set newPage r.right } := by
  intro newPage r
  rw [insertIntoLeafAfterSplit, Op.bind_fileHeader, bind_getThisPage hget,
    Op.bind_ok (allocatePage_apply _)]
  simp only [hpos, hpar]
  show insertIntoParent fuel par leafPage r.newKey newPage
    { h with
      pages := ((h.pages.set newPage (h.alloc h.pages).2).set leafPage r.left).set newPage r.right
      pins := addPins (addPins (addPins (addPins h.pins leafPage 1) newPage 1) leafPage (-1)) newPage (-1) } = _
  rw [addPins_two]

theorem insertIntoLeafAfterSplit_run (fuel : Nat) (hget : h.pages.get leafPage = some node)
    (hnode : LeafNode node par (A ++ B))
    (hord : ∀ e ∈ A ++ B, Agrees (cmpKey h.fileHeader key e.1) (rank key) (rank e.1))
    (hA : ∀ e ∈ A, rank e.1 < rank key) (hB : ∀ e ∈ B, rank key < rank e.1) : let newPage := (h.alloc h.pages).1
    let r := splitLeaf h.order node (h.alloc h.pages).2 newPage A.length key rid
    insertIntoLeafAfterSplit fuel leafPage key rid h = insertIntoParent fuel par leafPage r.newKey newPage
        { h with pages := ((h.pages.set newPage (h.alloc h.pages).2).set leafPage r.left).set newPage r.right } :=
  insertIntoLeafAfterSplit_at fuel hget hnode.parent (hnode.insertPos hord hA hB).1

variable {least : Nat} {lo : WithBot L} {hi : WithTop L}

theorem leaf_entries_insert (rid : RID) (hwf : WF rank (shape h.order) 0 least lo hi
      (leaf leafPage (A ++ B))) (hlo : lo ≤ rank key) (hhi : rank key < hi)
    (hA : ∀ e ∈ A, rank e.1 < rank key) (hB : ∀ e ∈ B, rank key < rank e.1) :
    (A ++ (key, rid) :: B).Pairwise (fun e e' => rank e.1 < rank e'.1) ∧
      ∀ e ∈ A ++ (key, rid) :: B, lo ≤ rank e.1 ∧ rank e.1 < hi := by
  refine ⟨pairwise_insert hwf.1 hA hB, fun e he => ?_⟩
  rcases mem_append.mp he with he | he
  · exact hwf.2.1 e (mem_append_left _ he)
  · rcases mem_cons.mp he with rfl | he
    · exact ⟨hlo, hhi⟩
    · exact hwf.2.1 e (mem_append_right _ he)

theorem LeafNode.keyNum_eq (hnode : LeafNode node par (A ++ B)) : node.keyNum = A.length + B.length := by
  have := congrArg List.length hnode.entries
  simpa [IndexNode.entryList] using this

theorem grown_leaf (hwf : WF rank (shape h.order) 0 least lo hi
      (leaf leafPage (A ++ B))) (hlo : lo ≤ rank key) (hhi : rank key < hi)
    (hget : h.pages.get leafPage = some node) (hnode : LeafNode node par (A ++ B))
    (hA : ∀ e ∈ A, rank e.1 < rank key) (hB : ∀ e ∈ B, rank key < rank e.1) (hroom : node.keyNum < h.order - 1) :
    Grown rank h (h.pages.set leafPage (node.insertPair A.length key rid)) par least lo hi key rid
      (leaf leafPage (A ++ B)) [] [leaf leafPage (A ++ (key, rid) :: B)] where
  chain := by
    obtain ⟨hsort, hbound⟩ := leaf_entries_insert rid hwf hlo hhi hA hB
    have hleast : least ≤ (A ++ B).length := hwf.2.2.1
    have hkeys := hnode.keyNum_eq
    have hlength : (A ++ (key, rid) :: B).length = (A ++ B).length + 1 := by simp [Nat.add_assoc]
    refine chain_nil.mpr (wf_leaf.mpr ⟨hsort, hbound, by omega, ?_⟩)
    rw [hlength, length_append, ← hkeys]
    exact hroom
  rep := by
    intro t' ht'
    obtain rfl := mem_singleton.mp ht'
    exact ⟨_, get_set_same, hnode.insertPair key rid⟩
  nodup := by simp
  fresh := fun p hp => .inl hp
  frame := fun p hp _ => get_set_ne fun heq => hp (heq ▸ mem_singleton_self _)
  keep := by
    intro p hp
    by_cases heq : p = leafPage
    · simp [heq]
    · rwa [get_set_ne heq]
  entries := ⟨A, B, rfl, by simp⟩
  head := rfl
  linked := by
    intro last hlinked
    refine hlinked.congr_next fun p hp node' hget' => ?_
    obtain rfl : p = leafPage := mem_singleton.mp hp
    obtain rfl : node' = node := Option.some.inj (hget'.symm.trans hget)
    have hkeys := hnode.keyNum_eq
    have hspace : h.order = h.fileHeader.order := rfl
    exact ⟨_, get_set_same, insertPair_next (by omega) (by omega) key rid⟩
  keys := by
    intro k hk
    simp only [nil_append, flatMap_cons, flatMap_nil, append_nil, allKeys_leaf,
      map_append, map_cons, mem_append, mem_cons] at hk ⊢
    tauto

theorem grown_leaf_split (horder : 3 ≤ h.order) (halloc : h.alloc.Fresh)
    (hwf : WF rank (shape h.order) 0 least lo hi (leaf leafPage (A ++ B))) (hlo : lo ≤ rank key) (hhi : rank key < hi)
    (hget : h.pages.get leafPage = some node) (hnode : LeafNode node par (A ++ B))
    (hA : ∀ e ∈ A, rank e.1 < rank key) (hB : ∀ e ∈ B, rank key < rank e.1) (hfull : ¬node.keyNum < h.order - 1) :
    let newPage := (h.alloc h.pages).1
    let r := splitLeaf h.order node (h.alloc h.pages).2 newPage A.length key rid
    Grown rank h (((h.pages.set newPage (h.alloc h.pages).2).set leafPage r.left).set newPage r.right) par
      ((shape h.order).minKeys 0) lo hi key rid (leaf leafPage (A ++ B)) [r.newKey]
      [leaf leafPage ((A ++ (key, rid) :: B).take (h.order / 2)),
          leaf newPage ((A ++ (key, rid) :: B).drop (h.order / 2))] := by
  intro newPage r
  obtain ⟨hunused, hpositive⟩ := halloc h.pages
  have hne : leafPage ≠ newPage := fun heq => by
    rw [heq, hunused] at hget
    cases hget
  have hkeys := hnode.keyNum_eq
  have hmost : (A ++ B).length ≤ h.order - 1 := hwf.2.2.2
  have hcount : node.keyNum + 1 = h.order := by
    rw [length_append] at hmost
    omega
  obtain ⟨hsort, hbound⟩ := leaf_entries_insert rid hwf hlo hhi hA hB
  obtain ⟨e, rest, hdrop, hnewKey⟩ : ∃ e rest, (A ++ (key, rid) :: B).drop (h.order / 2) = e :: rest ∧
      r.newKey = e.1 := hnode.splitLeaf_newKey horder hcount newPage key rid
  have hlength : (A ++ (key, rid) :: B).length = h.order := by
    simp only [length_append, length_cons]
    omega
  have hgetLeft : (((h.pages.set newPage (h.alloc h.pages).2).set leafPage r.left).set newPage r.right).get leafPage =
      some r.left := by
    rw [get_set_ne hne, get_set_same]
  have hgetOther : ∀ p, p ≠ leafPage → p ≠ newPage →
      (((h.pages.set newPage (h.alloc h.pages).2).set leafPage r.left).set newPage r.right).get p = h.pages.get p := by
    intro p hp hp'
    rw [get_set_ne hp', get_set_ne hp, get_set_ne hp']
  refine ⟨⟨⟨?_, ?_, ?_, rfl, ?_⟩, ?_, ⟨A, B, rfl, ?_⟩⟩, ?_, ?_, ?_⟩
  · simpa using hne
  · intro p hp
    simp only [flatMap_cons, flatMap_nil, pages_leaf, append_nil, singleton_append,
      mem_cons, not_mem_nil, or_false] at hp
    rcases hp with rfl | rfl
    · exact .inl (mem_singleton_self _)
    · exact .inr ⟨hunused, hpositive⟩
  · intro p hp hsome
    refine hgetOther p (fun heq => hp (heq ▸ mem_singleton_self _)) fun heq => ?_
    rw [heq, hunused] at hsome
    cases hsome
  · intro last ⟨⟨node', hget', hnext⟩, _⟩
    obtain rfl : node' = node := Option.some.inj (hget'.symm.trans hget)
    obtain ⟨hleft, hright⟩ : r.left.next h.order = newPage ∧
        r.right.next h.order = node'.next h.order :=
      splitLeaf_next horder newPage key rid A.length
    exact ⟨⟨_, hgetLeft, hleft⟩, ⟨⟨_, get_set_same, hright.trans hnext⟩, trivial⟩⟩
  · intro p hsome
    by_cases hp : p = leafPage
    · rw [hp, hgetLeft]
      rfl
    · by_cases hp' : p = newPage
      · rw [hp', get_set_same]
        rfl
      · rwa [hgetOther p hp hp']
  · simp [take_append_drop]
  · rw [hnewKey]
    refine chain_leaf_cut hsort hbound (by omega) hdrop ?_ ?_
    · exact ⟨le_refl _, by show h.order / 2 ≤ h.order - 1; omega⟩
    · have hmin : (shape h.order).minKeys 0 = h.order / 2 := rfl
      have hmax : (shape h.fileHeader.order).maxKeys = h.order - 1 := rfl
      omega
  · intro t' ht'
    rcases mem_cons.mp ht' with rfl | ht'
    · exact ⟨_, hgetLeft, hnode.splitLeaf_left horder hcount newPage key rid⟩
    · obtain rfl := mem_singleton.mp ht'
      exact ⟨_, get_set_same, hnode.splitLeaf_right horder hcount newPage key rid⟩
  · -- The key between the leaves is the first one of the right leaf.
    have hmem : ∀ k ∈ (A ++ (key, rid) :: B).map Prod.fst, k = key ∨ k ∈ (A ++ B).map Prod.fst := by
      intro k hk
      simp only [map_append, map_cons, mem_append, mem_cons] at hk ⊢
      tauto
    intro k hk
    refine hmem k ?_
    simp only [singleton_append, mem_cons, flatMap_cons, flatMap_nil, append_nil,
      allKeys_leaf, ← map_append, take_append_drop] at hk
    rcases hk with rfl | hk
    · have he : e ∈ (A ++ (key, rid) :: B).drop (h.order / 2) := hdrop ▸ mem_cons_self
      exact hnewKey ▸ mem_map_of_mem (mem_of_mem_drop he)
    · exact hk

end

theorem Replaced.root {h : BplusTreeHandler} {σ σ' : Pages} {key : Key} {rid : RID} {ps ps' ls ls' : List PageNum}
    {es es' : List (Key × RID)} (r : Replaced h σ key rid ps ps' ls ls' es es') {p : PageNum} (hp : p ∉ ps')
    (hl : ls' ⊆ ps') (hget : (σ'.get p).isSome) (hσ' : ∀ q, q ≠ p → σ'.get q = σ.get q) :
    Replaced h σ' key rid (p :: ps) (p :: ps') ls ls' es es' where
  toRewritten := r.toRewritten.root hp hl hσ'
  keep := by
    intro q hsome
    by_cases hqp : q = p
    · rwa [hqp]
    · rw [hσ' q hqp]
      exact r.keep q hsome
  entries := r.entries

section Branch
variable {h : BplusTreeHandler} {σ : Pages} {key : Key} {rid : RID} {n least : Nat} {par page : PageNum}
  {ks₁ ks₂ ks' : List Key} {ts₁ ts₂ ts' : List (IndexTree n)} {c : IndexTree n}
  {a lo : WithBot L} {b hi : WithTop L}

section
variable (g : Grown rank h σ page least a b key rid c ks' ts')
include g

theorem Grown.children (hrep : ∀ x ∈ ts₁ ++ c :: ts₂, Rep h.pages page x)
    (hnodup : (page :: (ts₁ ++ c :: ts₂).flatMap pages).Nodup) :
    Replaced h σ key rid ((ts₁ ++ c :: ts₂).flatMap pages) ((ts₁ ++ (ts' ++ ts₂)).flatMap pages)
      ((ts₁ ++ c :: ts₂).flatMap leaves) ((ts₁ ++ (ts' ++ ts₂)).flatMap leaves)
      ((ts₁ ++ c :: ts₂).flatMap entries) ((ts₁ ++ (ts' ++ ts₂)).flatMap entries) ∧
    ∀ x ∈ ts₁ ++ (ts' ++ ts₂), Rep σ page x := by
  have hone : Rewritten h.order h.pages σ ([c].flatMap pages) (ts'.flatMap pages)
      ([c].flatMap leaves) (ts'.flatMap leaves) := by simpa using g.toRewritten
  obtain ⟨r, hrep'⟩ := hone.children g.rep hrep (nodup_cons.mp hnodup).2
  obtain ⟨A, B, hold, hnew⟩ := g.entries
  refine ⟨⟨r, g.keep, ts₁.flatMap entries ++ A, B ++ ts₂.flatMap entries, ?_, ?_⟩, hrep'⟩
  · simp [hold]
  · simp only [flatMap_append, hnew, append_assoc, cons_append]

theorem Grown.branch_keys {k : Key}
    (hk : k ∈ (ks₁ ++ (ks' ++ ks₂)) ++ (ts₁ ++ (ts' ++ ts₂)).flatMap allKeys) :
    k = key ∨ k ∈ (branch page (ks₁ ++ ks₂) (ts₁ ++ c :: ts₂)).allKeys := by
  have hchild := g.keys k
  simp only [allKeys_branch, flatMap_append, flatMap_cons, mem_append] at hk hchild ⊢
  tauto

theorem Grown.root_page (hrep : ∀ x ∈ ts₁ ++ c :: ts₂, Rep h.pages page x)
    (hnodup : (page :: (ts₁ ++ c :: ts₂).flatMap pages).Nodup) (hused : (h.pages.get page).isSome) :
    page ∉ (ts₁ ++ (ts' ++ ts₂)).flatMap pages ∧ σ.get page = h.pages.get page := by
  obtain ⟨r, -⟩ := g.children hrep hnodup
  exact r.outside (nodup_cons.mp hnodup).1 hused

end

/-! The three outcomes at a branch whose child `c` has grown: the child is one tree again, or it is two and the
branch has room for one more, or it has not. -/

section Outcomes
variable {node : IndexNode} (hget : h.pages.get page = some node)
  (hnode : InternNode node par (ks₁ ++ ks₂) ((ts₁ ++ c :: ts₂).map Tree.page))
  (hrep : ∀ x ∈ ts₁ ++ c :: ts₂, Rep h.pages page x)
  (hnodup : (page :: (ts₁ ++ c :: ts₂).flatMap pages).Nodup) (hlen : ts₁.length = ks₁.length)
  (hctx : ∀ ks' ts', Chain rank (Full rank h.order) a ks' ts' b →
    Chain rank (Full rank h.order) lo (ks₁ ++ ks' ++ ks₂) (ts₁ ++ ts' ++ ts₂) hi)
  (hleast : least ≤ (ks₁ ++ ks₂).length) (hmost : (ks₁ ++ ks₂).length ≤ h.order - 1)
include hget hnode hrep hnodup hlen hctx hleast hmost

omit hlen in
theorem grown_branch {c' : IndexTree n}
    (g : Grown rank h σ page ((shape h.order).minKeys n) a b key rid c [] [c']) (hpage : c'.page = c.page) :
    Grown rank h σ par least lo hi key rid (branch page (ks₁ ++ ks₂) (ts₁ ++ c :: ts₂)) []
      [branch page (ks₁ ++ ks₂) (ts₁ ++ c' :: ts₂)] := by
  obtain ⟨r, hrep'⟩ := g.children hrep hnodup
  obtain ⟨hnew, hσ⟩ := g.root_page hrep hnodup (by rw [hget]; rfl)
  have hroot := r.root hnew (leaves_subset_flatMap _) (by rw [hσ, hget]; rfl) fun q _ => rfl
  refine ⟨?_, ?_, ?_, fun k hk => g.branch_keys (by simpa using hk)⟩
  · simpa using hroot
  · refine chain_nil.mpr (wf_branch.mpr ⟨?_, hleast, hmost⟩)
    simpa using hctx [] [c'] g.chain
  · intro t' ht'
    obtain rfl := mem_singleton.mp ht'
    refine rep_branch.mpr ⟨⟨node, hσ.trans hget, ?_⟩, by simpa using hrep'⟩
    simpa [hpage] using hnode

omit hmost in
theorem grown_branch_room {c₁ c₂ : IndexTree n} {k : Key}
    (g : Grown rank h σ page ((shape h.order).minKeys n) a b key rid c [k] [c₁, c₂]) (hpage : c₁.page = c.page)
    (hroom : node.keyNum < h.order - 1) :
    Grown rank h (σ.set page (node.insertChild ts₁.length k c₂.page)) par least lo hi key rid
      (branch page (ks₁ ++ ks₂) (ts₁ ++ c :: ts₂)) []
      [branch page (ks₁ ++ k :: ks₂) (ts₁ ++ c₁ :: c₂ :: ts₂)] := by
  obtain ⟨r, hrep'⟩ := g.children hrep hnodup
  obtain ⟨hnew, hσ⟩ := g.root_page hrep hnodup (by rw [hget]; rfl)
  have hother : ∀ q, q ≠ page → (σ.set page (node.insertChild ts₁.length k c₂.page)).get q = σ.get q :=
    fun q hq => get_set_ne hq
  have hroot := r.root hnew (leaves_subset_flatMap _) (by rw [get_set_same]; rfl) hother
  have hmap : InternNode node par (ks₁ ++ ks₂) (ts₁.map Tree.page ++ c.page :: ts₂.map Tree.page) := by
    simpa using hnode
  have hcount := hmap.keyNum_eq
  refine ⟨?_, ?_, ?_, fun k' hk' => g.branch_keys (by simpa using hk')⟩
  · simpa using hroot
  · refine chain_nil.mpr (wf_branch.mpr ⟨?_, ?_, ?_⟩)
    · simpa using hctx [k] [c₁, c₂] g.chain
    · simp only [length_append, length_cons] at hleast ⊢
      omega
    · show (ks₁ ++ k :: ks₂).length ≤ h.order - 1
      simp only [length_append, length_cons]
      omega
  · intro t' ht'
    obtain rfl := mem_singleton.mp ht'
    refine rep_branch.mpr ⟨⟨_, get_set_same, ?_⟩, fun x hx => ?_⟩
    · have hins := hmap.insertChild (by simpa using hlen) k c₂.page
      simpa [hpage] using hins
    · refine (hrep' x (by simpa using hx)).congr fun p hp => hother p fun heq => hnew ?_
      exact mem_flatMap.mpr ⟨x, by simpa using hx, heq ▸ hp⟩

/-- The pages after a branch has been split: `D` are the children that go to the new page `np`. -/
structure SplitStore (σ σ' : Pages) (page np : PageNum) (left right : IndexNode) (D : List PageNum) : Prop where
  unused : σ.get np = none
  positive : 0 < np
  left : σ'.get page = some left
  right : σ'.get np = some right
  moved : ∀ q ∈ D, σ'.get q = (σ.get q).map (IndexNode.withParent np)
  other : ∀ q, q ≠ page → q ≠ np → q ∉ D → σ'.get q = σ.get q

omit hnode hlen hctx hleast hmost in
theorem Replaced.split (K K₁ K₂ : List Key) {k : Key} {c₁ c₂ : IndexTree n} {σ' : Pages} {np : PageNum}
    {left right : IndexNode} {T D : List (IndexTree n)}
    (g : Grown rank h σ page ((shape h.order).minKeys n) a b key rid c [k] [c₁, c₂])
    (st : SplitStore σ σ' page np left right (D.map Tree.page)) (hcut : ts₁ ++ c₁ :: c₂ :: ts₂ = T ++ D) :
    Replaced h σ' key rid (branch page K (ts₁ ++ c :: ts₂)).pages ([branch page K₁ T, branch np K₂ D].flatMap pages)
      (branch page K (ts₁ ++ c :: ts₂)).leaves
      ([branch page K₁ T, branch np K₂ D].flatMap leaves)
      (branch page K (ts₁ ++ c :: ts₂)).entries
      ([Tree.branch page K₁ T, Tree.branch np K₂ D].flatMap Tree.entries) ∧
    (∀ x ∈ T, Rep σ' page x) ∧ ∀ x ∈ D, Rep σ' np x := by
  obtain ⟨r, hrep'⟩ := g.children hrep hnodup
  obtain ⟨hnew, -⟩ := g.root_page hrep hnodup (by rw [hget]; rfl)
  have hcs : ts₁ ++ ([c₁, c₂] ++ ts₂) = T ++ D := by simpa using hcut
  rw [hcs] at r hrep' hnew
  have hinuse : ∀ q ∈ (T ++ D).flatMap pages, (σ.get q).isSome := by
    intro q hq
    obtain ⟨x, hx, hqx⟩ := mem_flatMap.mp hq
    exact (hrep' x hx).get_isSome q hqx
  have hnp : np ∉ (T ++ D).flatMap pages := by
    intro hmem
    have := hinuse np hmem
    rw [st.unused] at this
    cases this
  have hmoved : ∀ q ∈ D.map Tree.page, q ∈ (T ++ D).flatMap Tree.pages := by
    intro q hq
    obtain ⟨x, hx, rfl⟩ := mem_map.mp hq
    exact mem_flatMap.mpr ⟨x, mem_append_right _ hx, x.page_mem_pages⟩
  have hnpOld : h.pages.get np = none := by
    by_contra hsome
    have := r.keep np (Option.isSome_iff_ne_none.mpr hsome)
    rw [st.unused] at this
    cases this
  have hpageNp : page ≠ np := by
    rintro rfl
    rw [hnpOld] at hget
    cases hget
  -- A page of a child is neither of the two root pages.
  have hchild : ∀ q ∈ (T ++ D).flatMap pages, q ≠ page ∧ q ≠ np :=
    fun q hq => ⟨fun heq => hnew (heq ▸ hq), fun heq => hnp (heq ▸ hq)⟩
  have howner : ∀ x ∈ T ++ D, ∀ q ∈ x.pages, q ∈ D.map Tree.page → x ∈ D ∧ q = x.page := by
    intro x hx q hqx hq
    obtain ⟨y, hy, rfl⟩ := mem_map.mp hq
    obtain rfl := eq_of_mem_pages r.nodup hx (mem_append_right _ hy) hqx y.page_mem_pages
    exact ⟨hy, rfl⟩
  have hsame : ∀ x ∈ T ++ D, ∀ q ∈ x.pages, q ∉ D.map Tree.page → σ'.get q = σ.get q := by
    intro x hx q hqx hq
    obtain ⟨h₁, h₂⟩ := hchild q (mem_flatMap.mpr ⟨x, hx, hqx⟩)
    exact st.other q h₁ h₂ hq
  have hTD : ∀ x ∈ T, x ∉ D := by
    intro x hxT hxD
    have hnd := r.nodup
    rw [flatMap_append] at hnd
    obtain ⟨-, -, hd⟩ := nodup_append.mp hnd
    exact hd x.page (mem_flatMap.mpr ⟨x, hxT, x.page_mem_pages⟩) x.page
      (mem_flatMap.mpr ⟨x, hxD, x.page_mem_pages⟩) rfl
  refine ⟨⟨⟨?_, ?_, ?_, ?_, ?_⟩, ?_, ?_⟩, ?_, ?_⟩
  · have hnd := r.nodup
    simp only [flatMap_append] at hnd hnew hnp
    simp only [flatMap_cons, flatMap_nil, pages_branch, append_nil]
    obtain ⟨hT, hD, hd⟩ := nodup_append.mp hnd
    refine nodup_append.mpr ⟨nodup_cons.mpr ⟨fun hm => hnew (mem_append_left _ hm), hT⟩,
      nodup_cons.mpr ⟨fun hm => hnp (mem_append_right _ hm), hD⟩, ?_⟩
    rintro q hq q' hq' rfl
    rcases mem_cons.mp hq with rfl | hq
    · rcases mem_cons.mp hq' with heq | hq'
      · exact hpageNp heq
      · exact hnew (mem_append_right _ hq')
    · rcases mem_cons.mp hq' with rfl | hq'
      · exact hnp (mem_append_left _ hq)
      · exact hd q hq q hq' rfl
  · intro q hq
    have hq' : q = page ∨ q = np ∨ q ∈ (T ++ D).flatMap pages := by
      simp only [flatMap_cons, flatMap_nil, pages_branch, append_nil, flatMap_append,
        mem_append, mem_cons] at hq ⊢
      tauto
    rcases hq' with rfl | rfl | hq'
    · exact .inl mem_cons_self
    · exact .inr ⟨hnpOld, st.positive⟩
    · exact (r.fresh q hq').imp_left fun hm => mem_cons_of_mem _ hm
  · intro q hq hsome
    have hold : q ∉ (ts₁ ++ c :: ts₂).flatMap pages := fun hm => hq (mem_cons_of_mem _ hm)
    have hqD : q ∉ D.map Tree.page := by
      intro hm
      rcases r.fresh q (hmoved q hm) with hm' | ⟨hnone, -⟩
      · exact hold hm'
      · rw [hnone] at hsome
        cases hsome
    have hqnp : q ≠ np := by
      rintro rfl
      rw [hnpOld] at hsome
      cases hsome
    exact (st.other q (fun heq => hq (heq ▸ mem_cons_self)) hqnp hqD).trans (r.frame q hold hsome)
  · simpa using r.head
  · intro last hlinked
    have hlinked' := r.linked last hlinked
    have hleaves : [branch page K₁ T, branch np K₂ D].flatMap leaves = (T ++ D).flatMap leaves := by
      simp
    rw [hleaves]
    refine hlinked'.congr_next fun q hq node' hget' => ?_
    obtain ⟨x, hx, hqx⟩ := mem_flatMap.mp (leaves_subset_flatMap _ hq)
    by_cases hqD : q ∈ D.map Tree.page
    · exact ⟨node'.withParent np, by rw [st.moved q hqD, hget']; rfl, rfl⟩
    · exact ⟨node', (hsame x hx q hqx hqD).trans hget', rfl⟩
  · intro q hsome
    by_cases hq : q = page
    · rw [hq, st.left]
      rfl
    · by_cases hq' : q = np
      · rw [hq', st.right]
        rfl
      · by_cases hqD : q ∈ D.map Tree.page
        · rw [st.moved q hqD, Option.isSome_map]
          exact r.keep q hsome
        · rw [st.other q hq hq' hqD]
          exact r.keep q hsome
  · obtain ⟨A, B, hold, hnew'⟩ := r.entries
    exact ⟨A, B, hold, by simpa using hnew'⟩
  · intro x hx
    have hx' : x ∈ T ++ D := mem_append_left _ hx
    exact (hrep' x hx').congr fun q hq => hsame x hx' q hq fun hqD => hTD x hx (howner x hx' q hq hqD).1
  · intro x hx
    have hx' : x ∈ T ++ D := mem_append_right _ hx
    have hxnodup : x.pages.Nodup := (nodup_flatMap.mp r.nodup).1 x hx'
    refine (hrep' x hx').reparent hxnodup (st.moved _ (mem_map_of_mem hx)) fun q hq hne => ?_
    exact hsame x hx' q hq fun hqD => hne (howner x hx' q hq hqD).2

omit hleast in
theorem grown_branch_split (horder : 3 ≤ h.order) {c₁ c₂ : IndexTree n} {k : Key} {np : PageNum} {pg : IndexNode}
    {σ' : Pages} (g : Grown rank h σ page ((shape h.order).minKeys n) a b key rid c [k] [c₁, c₂])
    (hpage : c₁.page = c.page) (hfull : ¬node.keyNum < h.order - 1)
    (st : SplitStore σ σ' page np (splitIntern h.order node pg ts₁.length k c₂.page).left
      (splitIntern h.order node pg ts₁.length k c₂.page).right
      (((ts₁ ++ c₁ :: c₂ :: ts₂).drop ((h.order + 1) / 2)).map Tree.page)) :
    Grown rank h σ' par ((shape h.order).minKeys (n + 1)) lo hi key rid (branch page (ks₁ ++ ks₂) (ts₁ ++ c :: ts₂))
      [(splitIntern h.order node pg ts₁.length k c₂.page).newKey]
      [branch page ((ks₁ ++ k :: ks₂).take ((h.order + 1) / 2 - 1)) ((ts₁ ++ c₁ :: c₂ :: ts₂).take ((h.order + 1) / 2)),
       branch np ((ks₁ ++ k :: ks₂).drop ((h.order + 1) / 2)) ((ts₁ ++ c₁ :: c₂ :: ts₂).drop ((h.order + 1) / 2))] := by
  have hmap : InternNode node par (ks₁ ++ ks₂) (ts₁.map Tree.page ++ c.page :: ts₂.map Tree.page) := by
    simpa using hnode
  have hlen' : (ts₁.map Tree.page).length = ks₁.length := by simpa using hlen
  have hpos : (ts₁.map Tree.page).length = ts₁.length := by simp
  have hcount := hmap.keyNum_eq
  rw [length_append] at hmost
  have horder' : node.keyNum + 1 = h.order := by omega
  have hpages : ts₁.map Tree.page ++ c.page :: c₂.page :: ts₂.map Tree.page =
      (ts₁ ++ c₁ :: c₂ :: ts₂).map Tree.page := by simp [hpage]
  have hcut := take_append_drop ((h.order + 1) / 2) (ts₁ ++ c₁ :: c₂ :: ts₂)
  obtain ⟨r, hleft, hright⟩ := Replaced.split hget hrep hnodup (ks₁ ++ ks₂)
    ((ks₁ ++ k :: ks₂).take ((h.order + 1) / 2 - 1))
    ((ks₁ ++ k :: ks₂).drop ((h.order + 1) / 2)) g st hcut.symm
  have hkeysLen : (ks₁ ++ k :: ks₂).length = h.order := by
    simp only [length_append, length_cons]
    omega
  have hcsLen : (ts₁ ++ c₁ :: c₂ :: ts₂).length = h.order + 1 := by
    have hchildren := congrArg List.length hmap.children
    simp only [IndexNode.childList, firstN_length, length_append, length_cons, length_map] at hchildren ⊢
    omega
  have hnewKey := hmap.splitIntern_newKey hlen' horder horder' k c₂.page pg
  rw [hpos] at hnewKey
  refine ⟨r, ?_, ?_, fun k' hk' => ?_⟩
  · have hchain := hctx [k] [c₁, c₂] g.chain
    simp only [append_assoc, cons_append, nil_append] at hchain
    rw [hnewKey, ← hcut] at hchain
    have hmin : (shape h.order).minKeys (n + 1) = (h.order + 1) / 2 - 1 := rfl
    have hmax : (shape h.fileHeader.order).maxKeys = h.order - 1 := rfl
    refine chain_branch_cut hchain ?_ ?_ ?_
    · rw [length_take, length_take, hkeysLen, hcsLen]
      omega
    · rw [length_take, hkeysLen]
      omega
    · rw [length_drop, hkeysLen]
      omega
  · intro t' ht'
    rcases mem_cons.mp ht' with rfl | ht'
    · have hl := hmap.splitIntern_left hlen' horder horder' k c₂.page pg
      rw [hpos, hpages, ← map_take] at hl
      exact rep_branch.mpr ⟨⟨_, st.left, hl⟩, hleft⟩
    · obtain rfl := mem_singleton.mp ht'
      have hr := hmap.splitIntern_right hlen' horder horder' k c₂.page pg
      rw [hpos, hpages, ← map_drop] at hr
      exact rep_branch.mpr ⟨⟨_, st.right, hr⟩, hright⟩
  · refine g.branch_keys ?_
    show k' ∈ (ks₁ ++ k :: ks₂) ++ (ts₁ ++ c₁ :: c₂ :: ts₂).flatMap allKeys
    rw [hnewKey, ← hcut]
    simp only [singleton_append, flatMap_cons, flatMap_nil, append_nil, allKeys_branch,
      flatMap_append, mem_append, mem_cons] at hk' ⊢
    tauto

end Outcomes

end Branch

end MiniOb
