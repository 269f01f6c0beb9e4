import MiniOb.Theorems.InsertRefines
import MiniOb.Theorems.ScanExact

/-! # Pins of the index

Every call of an index should leave each page pinned as often as it found it. `Ladder` describes the nodes above a full
leaf. -/

namespace MiniOb
open Slots BTree PagedCursor List BplusTreeScanner Option

/-- The nodes `ps` from the parent of `left` up to the root; each has the one below it among its children. -/
inductive Ladder (σ : Pages) (order : Nat) : PageNum → PageNum → List PageNum → Prop
  | root {left : PageNum} : Ladder σ order left (-1) []
  | rung {left p par : PageNum} {ps qs : List PageNum} {node : IndexNode} {ks : List Key} (used : p ≠ -1)
      (get : σ.get p = some node) (intern : InternNode node par ks qs) (most : ks.length ≤ order - 1)
        (child : left ∈ qs)
      (children : ∀ q ∈ qs, (σ.get q).isSome ∧ q ∉ p :: ps) (apart : p ∉ ps) (up : Ladder σ order p par ps) :
      Ladder σ order left p (p :: ps)

section
variable {σ σ' : Pages} {order : Nat} {left par : PageNum} {ps : List PageNum}

theorem Ladder.get_isSome (ladder : Ladder σ order left par ps) : ∀ p ∈ ps, (σ.get p).isSome := by
  induction ladder with
  | root => simp
  | rung used get intern most child children apart up ih =>
    intro p hp
    rcases mem_cons.mp hp with rfl | hp
    · rw [get]
      rfl
    · exact ih p hp

theorem Ladder.congr (ladder : Ladder σ order left par ps) (same : ∀ p ∈ ps, σ'.get p = σ.get p)
    (keep : ∀ p, (σ.get p).isSome → (σ'.get p).isSome) : Ladder σ' order left par ps := by
  induction ladder with
  | root => exact .root
  | rung used get intern most child children apart up ih =>
    refine .rung used ((same _ mem_cons_self).trans get) intern most child (fun q hq => ?_) apart
      (ih fun p hp => same p (mem_cons_of_mem _ hp))
    exact ⟨keep q (children q hq).1, (children q hq).2⟩

theorem Rep.ladder {L : Type} [LinearOrder L] {rank : Key → L} {n least : Nat} {lo : WithBot L} {hi : WithTop L}
    {t : IndexTree n} {leaf : IndexLeaf} (hrep : Rep σ par t) (hwf : WF rank (shape order) n least lo hi t)
    (nodup : t.pages.Nodup) (positive : ∀ p ∈ t.pages, 0 < p) (ladder : Ladder σ order t.page par ps)
    (outside : ∀ p ∈ t.pages, p ∉ ps) (hleaf : leaf ∈ t.leafNodes) :
    ∃ node par' ps', σ.get leaf.page = some node ∧ LeafNode node par' leaf.entries ∧ Ladder σ order leaf.page par' ps' ∧
      leaf.page ∉ ps' ∧ ps'.length = n + ps.length := by
  induction n generalizing par ps least lo hi with
  | zero =>
    obtain rfl := mem_singleton.mp hleaf
    obtain ⟨node, hget, hnode⟩ := hrep
    exact ⟨node, par, ps, hget, hnode, ladder, outside _ (mem_singleton_self _), (Nat.zero_add _).symm⟩
  | succ n ih =>
    obtain ⟨page, ks, cs, rfl⟩ := t.eq_branch
    obtain ⟨⟨node, hget, hnode⟩, hchildren⟩ := rep_branch.mp hrep
    obtain ⟨hchain, -, hmost⟩ := wf_branch.mp hwf
    obtain ⟨c, hc, hleafc⟩ := mem_flatMap.mp hleaf
    obtain ⟨a, b, hwfc⟩ := hchain.exists_of_mem hc
    obtain ⟨hpage, hnodup⟩ := nodup_cons.mp nodup
    have hin : ∀ c' ∈ cs, ∀ p ∈ c'.pages, p ∈ cs.flatMap Tree.pages :=
      fun c' hc' p hp => mem_flatMap.mpr ⟨c', hc', hp⟩
    have hfar : ∀ c' ∈ cs, ∀ p ∈ c'.pages, p ∉ page :: ps := by
      intro c' hc' p hp hmem
      rcases mem_cons.mp hmem with rfl | hmem
      · exact hpage (hin c' hc' p hp)
      · exact outside p (mem_cons_of_mem _ (hin c' hc' p hp)) hmem
    have hused : page ≠ -1 := by
      rintro rfl
      exact absurd (positive (-1) mem_cons_self) (by decide)
    have hup : Ladder σ order c.page page (page :: ps) := by
      refine .rung hused hget hnode hmost (mem_map_of_mem hc) (fun q hq => ?_) (outside page mem_cons_self) ladder
      obtain ⟨c', hc', rfl⟩ := mem_map.mp hq
      exact ⟨(hchildren c' hc').get_isSome _ c'.page_mem_pages, hfar c' hc' _ c'.page_mem_pages⟩
    obtain ⟨node', par', ps', hget', hnode', ladder', hnot, hlen⟩ := ih (hchildren c hc) hwfc
      ((nodup_flatMap.mp hnodup).1 c hc) (fun p hp => positive p (mem_cons_of_mem _ (hin c hc p hp))) hup
      (hfar c hc) hleafc
    exact ⟨node', par', ps', hget', hnode', ladder', hnot,
      hlen.trans (by rw [length_cons, Nat.add_right_comm, Nat.add_assoc])⟩

end

section
variable {h : BplusTreeHandler}

theorem splitPages_isSome {page q : PageNum} {r : SplitNodes} (hq : (h.pages.get q).isSome) :
    ((splitPages h page r).get q).isSome := by
  simp only [splitPages, Pages.get_set]
  split
  · rfl
  · split
    · rfl
    · exact hq

theorem insertIntoParent_pins (horder : 3 ≤ h.order) (halloc : h.alloc.Fresh) {ps : List PageNum} :
    ∀ {fuel : Nat} {σ : Pages} {left par right : PageNum} {k : Key}, Ladder σ h.order left par ps →
      ps.length < fuel → (σ.get left).isSome → (σ.get right).isSome → left ≠ right → right ∉ ps →
      ∃ h', insertIntoParent fuel par left k right { h with pages := σ } = some (.ok (), h') ∧ h'.pins = h.pins := by
  induction ps with
  | nil =>
    intro fuel σ left par right k ladder hfuel hleft hright hne _
    obtain ⟨fuel, rfl⟩ := Nat.exists_eq_add_of_lt hfuel
    obtain ⟨lnode, hl⟩ := isSome_iff_exists.mp hleft
    obtain ⟨rnode, hr⟩ := isSome_iff_exists.mp hright
    cases ladder with
    | root => exact ⟨_, @insertIntoNewRoot_run { h with pages := σ } left right k lnode rnode _ hne hl hr halloc, rfl⟩
  | cons p ps ih =>
    intro fuel σ left par right k ladder hfuel hleft hright hne hnot
    obtain ⟨fuel, rfl⟩ : ∃ f, fuel = f + 1 := ⟨fuel - 1, by omega⟩
    cases ladder with
    | @rung _ _ gpar _ qs node ks used get intern most child children apart up =>
    by_cases hroom : node.keyNum < h.order - 1
    · exact ⟨_, @insertIntoParent_room { h with pages := σ } p left right node k _ used get hroom, rfl⟩
    obtain ⟨qs₁, qs₂, rfl, hfirst⟩ := eq_append_cons_of_mem child
    obtain ⟨hkeyNum, hqs⟩ := intern.length_eq
    rw [length_append, length_cons] at hqs
    have hnode : InternNode node gpar (ks.take qs₁.length ++ ks.drop qs₁.length) (qs₁ ++ left :: qs₂) := by
      rwa [take_append_drop]
    have hlen : qs₁.length = (ks.take qs₁.length).length := by
      rw [length_take]
      omega
    have hfull : node.keyNum + 1 = h.order := by omega
    set moved := (qs₁ ++ left :: right :: qs₂).drop ((h.order + 1) / 2)
    have hmoved : (splitIntern h.order node (h.alloc σ).2 (node.childPos left) k right).right.childList = moved := by
      rw [hnode.childPos hfirst]
      exact (hnode.splitIntern_right hlen horder hfull k right (h.alloc σ).2).children
    have hin : ∀ q ∈ moved, q = right ∨ q ∈ qs₁ ++ left :: qs₂ := by
      intro q hq
      have hq' := mem_of_mem_drop hq
      simp only [mem_append, mem_cons] at hq' ⊢
      tauto
    have hused : ∀ q ∈ moved, (σ.get q).isSome := by
      intro q hq
      rcases hin q hq with rfl | hq
      · exact hright
      · exact (children q hq).1
    have hsplit := @insertIntoParent_split { h with pages := σ } p left right gpar node k fuel used get
      intern.parent hroom
    simp only [hmoved] at hsplit
    obtain ⟨σ', hrun, hσ'⟩ := hsplit fun q hq => @splitPages_isSome { h with pages := σ } p q _ (hused q hq)
    obtain ⟨hunused, -⟩ := halloc σ
    have hpnp : p ≠ (h.alloc σ).1 := fun heq => by
      rw [heq, hunused] at get
      cases get
    obtain ⟨-, hgr, hgo⟩ := @splitPages_get { h with pages := σ } p
      (splitIntern h.order node (h.alloc σ).2 (node.childPos left) k right) hpnp
    have hkeep : ∀ q, (σ.get q).isSome → (σ'.get q).isSome := by
      intro q hq
      have hsome := @splitPages_isSome { h with pages := σ } p q
        (splitIntern h.order node (h.alloc σ).2 (node.childPos left) k right) hq
      rw [hσ']
      split
      · rw [isSome_map]
        exact hsome
      · exact hsome
    -- The nodes further up are neither of the two nodes nor children that moved.
    have hsame : ∀ q ∈ ps, σ'.get q = σ.get q := by
      intro q hq
      have hnotMoved : q ∉ moved := by
        intro hmem
        rcases hin q hmem with rfl | hmem
        · exact hnot (mem_cons_of_mem _ hq)
        · exact (children q hmem).2 (mem_cons_of_mem _ hq)
      rw [hσ', if_neg hnotMoved]
      refine hgo q (fun heq => apart (heq ▸ hq)) fun heq => ?_
      have hsome := up.get_isSome q hq
      rw [heq, hunused] at hsome
      cases hsome
    have hnp : (σ'.get (h.alloc σ).1).isSome := by
      rw [hσ']
      split
      · rw [isSome_map, hgr]
        rfl
      · rw [hgr]
        rfl
    have hnot' : (h.alloc σ).1 ∉ ps := fun hmem => by
      have hsome := up.get_isSome _ hmem
      rw [hunused] at hsome
      cases hsome
    obtain ⟨h', hup, hpins⟩ := ih (up.congr hsame hkeep) (Nat.lt_of_succ_lt_succ hfuel)
      (hkeep p (by rw [get]; rfl)) hnp hpnp hnot'
    exact ⟨h', hrun.trans hup, hpins⟩

theorem insertIntoLeafAfterSplit_pins (horder : 3 ≤ h.order) (halloc : h.alloc.Fresh) {fuel : Nat}
    {leafPage par : PageNum} {node : IndexNode} {ps : List PageNum} (hget : h.pages.get leafPage = some node)
    (hpar : node.parent = par) (ladder : Ladder h.pages h.order leafPage par ps) (hnot : leafPage ∉ ps)
    (hfuel : ps.length < fuel) (key : Key) (rid : RID) :
    ∃ h', insertIntoLeafAfterSplit fuel leafPage key rid h = some (.ok (), h') ∧ h'.pins = h.pins := by
  obtain ⟨hunused, -⟩ := halloc h.pages
  have hne : leafPage ≠ (h.alloc h.pages).1 := fun heq => by
    rw [heq, hunused] at hget
    cases hget
  have hfresh : (h.alloc h.pages).1 ∉ ps := fun hmem => by
    have hsome := ladder.get_isSome _ hmem
    rw [hunused] at hsome
    cases hsome
  rw [insertIntoLeafAfterSplit_at fuel hget hpar rfl]
  generalize splitLeaf h.order node _ _ _ key rid = r
  refine insertIntoParent_pins horder halloc (ladder.congr (fun p hp => ?_) fun p hp => ?_) hfuel ?_ ?_ hne hfresh
  · have hpl : p ≠ leafPage := fun heq => hnot (heq ▸ hp)
    have hpn : p ≠ (h.alloc h.pages).1 := fun heq => hfresh (heq ▸ hp)
    rw [Pages.get_set_ne hpn, Pages.get_set_ne hpl, Pages.get_set_ne hpn]
  · exact splitPages_isSome (r := r) hp
  · rw [Pages.get_set_ne hne, Pages.get_set_same]
    rfl
  · rw [Pages.get_set_same]
    rfl

variable {L : Type} [LinearOrder L] {rank : Key → L}

def Stores (header : IndexFileHeader) (key : Key) (leaf : IndexLeaf) : Prop :=
  ∃ e ∈ leaf.entries, cmpKey header key e.1 = 0

instance (header : IndexFileHeader) (key : Key) (leaf : IndexLeaf) : Decidable (Stores header key leaf) :=
  inferInstanceAs (Decidable (∃ e ∈ leaf.entries, _))

theorem insertIntoLeaf_pins {leaf : IndexLeaf} {par : PageNum} {node : IndexNode} {key : Key}
    (hget : h.pages.get leaf.page = some node) (hnode : LeafNode node par leaf.entries)
    (hsorted : leaf.entries.Pairwise fun e e' => rank e.1 < rank e'.1)
    (hord : ∀ e ∈ leaf.entries, Agrees (cmpKey h.fileHeader key e.1) (rank key) (rank e.1)) (rid : RID) :
    (Stores h.fileHeader key leaf → insertIntoLeaf leaf.page key rid h =
      some (.error .recordDuplicateKey, { h with pins := addPins h.pins leaf.page 1 })) ∧
    (¬Stores h.fileHeader key leaf → ∃ h', insertIntoLeaf leaf.page key rid h = some (.ok (), h') ∧
        h'.pins = h.pins) := by
  have hentries : firstN (zip node.keys node.rids) node.keyNum = leaf.entries := hnode.entries
  rw [insertIntoLeaf, Op.bind_fileHeader, bind_getThisPage hget]
  constructor
  · rintro ⟨e, he, hzero⟩
    obtain ⟨A, B, hsplit⟩ := append_of_mem he
    rw [hsplit] at hentries hsorted hord
    have hkey : rank key = rank e.1 := (hord e (mem_append_right _ mem_cons_self)).2.mp hzero
    have hA : ∀ a ∈ A, decide (cmpKey h.fileHeader key a.1 ≤ 0) = false := by
      intro a ha
      refine decide_eq_false fun hle => ?_
      have hlt := (pairwise_append.mp hsorted).2.2 a ha e mem_cons_self
      exact not_le.mpr hlt (hkey ▸ (hord a (mem_append_left _ ha)).le_iff.mp hle)
    obtain ⟨hpos, hlt⟩ := firstIdx_of_split (p := fun e : Key × RID => decide (cmpKey h.fileHeader key e.1 ≤ 0))
      hentries hA (decide_eq_true hzero.le)
    have hpos' : firstIdx node.keyNum (fun i => decide (cmpKey h.fileHeader key (node.keys i) ≤ 0)) = A.length := hpos
    have hslot : node.keys A.length = e.1 := congrArg Prod.fst (eq_of_firstN_split hentries)
    simp only [hpos', hslot]
    rw [if_pos ⟨hlt, hzero⟩]
    rfl
  · intro hnone
    have hnew : ¬(firstIdx node.keyNum (fun i => decide (cmpKey h.fileHeader key (node.keys i) ≤ 0)) < node.keyNum ∧
        cmpKey h.fileHeader key (node.keys (firstIdx node.keyNum
          fun i => decide (cmpKey h.fileHeader key (node.keys i) ≤ 0))) = 0) := by
      rintro ⟨hlt, hzero⟩
      refine hnone ⟨zip node.keys node.rids _, ?_, hzero⟩
      rw [← hentries]
      exact mem_firstN.mpr ⟨_, hlt, rfl⟩
    simp only [if_neg hnew]
    exact ⟨_, rfl, addPins_addPins_neg _ _⟩

variable {n fuel : Nat} {t : IndexTree n} {pkey : Bytes} {rid : RID}

theorem Holds.find_leaf_stores (ht : Holds rank h t) {key : Key} (ho : Orders h.fileHeader rank (key :: t.allKeys)) :
    ∃ leaf, find (before h.fileHeader key) t = some leaf ∧ leaf ∈ t.leafNodes ∧ (∀ e ∈ leaf.entries, e ∈ t.entries) ∧
      leaf.entries.Pairwise (fun e e' => rank e.1 < rank e'.1) ∧
      ∀ e ∈ t.entries, cmpKey h.fileHeader key e.1 = 0 → e ∈ leaf.entries := by
  have hafter : ∀ k ∈ t.allKeys, before h.fileHeader key k = true ↔ rank key < rank k := by
    intro k hk
    rw [before, decide_eq_true_eq]
    exact (ho key mem_cons_self k (mem_cons_of_mem _ hk)).1
  obtain ⟨leaf, A, B, hfind, hleaves, hA, hB⟩ := ht.wf.find_split bot_le (WithTop.coe_lt_top _) hafter
  have hentries : t.entries = A.flatMap Leaf.entries ++ (leaf.entries ++ B.flatMap Leaf.entries) := by
    rw [t.entries_eq_flatMap, hleaves, flatMap_append, flatMap_cons]
  have hsorted := ht.wf.entries_sorted.1
  rw [hentries] at hsorted
  refine ⟨leaf, hfind, find_mem_leafNodes hfind, fun e he => ?_, ?_, fun e he hzero => ?_⟩
  · rw [hentries]
    exact mem_append_right _ (mem_append_left _ he)
  · exact (pairwise_append.mp (pairwise_append.mp hsorted).2.1).1
  · have hkey := ho.rank_eq e he hzero
    rw [hentries] at he
    rcases mem_append.mp he with he | he
    · exact absurd hkey (hA e he).ne'
    · rcases mem_append.mp he with he | he
      · exact he
      · exact absurd hkey (hB e he).ne

/-- `insert_entry` on a well-formed tree. An equal key is noticed only in a leaf with room, which then stays pinned; in
    every other case the call succeeds and each page is pinned as before. -/
theorem insertEntry_pins (hopened : h.opened = true) (horder : 3 ≤ h.order) (halloc : h.alloc.Fresh)
    (ht : Holds rank h t) (ho : Orders h.fileHeader rank (h.keyOf pkey rid :: t.allKeys)) (hfuel : n < fuel)
    {leaf : IndexLeaf} (hfind : find (before h.fileHeader (h.keyOf pkey rid)) t = some leaf) :
    (leaf.entries.length < h.order - 1 → Stores h.fileHeader (h.keyOf pkey rid) leaf → insertEntry fuel pkey rid h =
        some (.error .recordDuplicateKey, { h with pins := addPins h.pins leaf.page 1 })) ∧
    (¬(leaf.entries.length < h.order - 1 ∧ Stores h.fileHeader (h.keyOf pkey rid) leaf) →
      ∃ h', insertEntry fuel pkey rid h = some (.ok (), h') ∧ h'.pins = h.pins) := by
  obtain ⟨leaf', hfind', hmem, hsub, hsorted, -⟩ := ht.find_leaf_stores ho
  obtain rfl : leaf' = leaf := some.inj (hfind'.symm.trans hfind)
  obtain ⟨leaf, hfind', hleaf⟩ := @findLeaf_spec h (h.keyOf pkey rid) n fuel t ht.root ht.rep hfuel
  obtain rfl : leaf' = leaf := some.inj (hfind.symm.trans hfind')
  have hrun : insertEntry fuel pkey rid h = insertIntoFoundLeaf fuel leaf'.page (h.keyOf pkey rid) rid h := by
    rw [insertEntry, if_neg (by simp [hopened]), Op.bind_fileHeader, Op.bind_ok hleaf]
  obtain ⟨node, par, ps, hget, hnode, ladder, hnot, hlen⟩ := ht.rep.ladder ht.wf ht.nodup ht.positive .root
    (fun p _ => not_mem_nil) hmem
  have hcount : node.keyNum = leaf'.entries.length := hnode.length_eq
  have hord : ∀ e ∈ leaf'.entries, Agrees (cmpKey h.fileHeader (h.keyOf pkey rid) e.1)
      (rank (h.keyOf pkey rid)) (rank e.1) := fun e he =>
    ho _ mem_cons_self _ (mem_cons_of_mem _ (Tree.mem_allKeys_of_mem_entries (hsub e he)))
  obtain ⟨hstored, hfresh⟩ := insertIntoLeaf_pins hget hnode hsorted hord rid
  rw [hrun]
  refine ⟨fun hroom hstores => ?_, fun hnone => ?_⟩
  · rw [insertIntoFoundLeaf_room hget (hcount ▸ hroom)]
    exact hstored hstores
  · by_cases hroom : node.keyNum < h.order - 1
    · rw [insertIntoFoundLeaf_room hget hroom]
      exact hfresh fun hstores => hnone ⟨hcount ▸ hroom, hstores⟩
    · have hfuel' : ps.length < fuel := hlen.trans_lt hfuel
      obtain ⟨h', hsplit, hpins⟩ := insertIntoLeafAfterSplit_pins horder halloc hget hnode.parent ladder hnot hfuel'
        (h.keyOf pkey rid) rid
      rw [insertIntoFoundLeaf_full hget hroom]
      exact ⟨h', Op.ignoreRC_ok hsplit, hpins⟩

theorem pinAll_eq_self_iff (pins : PageNum → Int) (ps : List PageNum) : pinAll pins ps = pins ↔ ps = [] := by
  constructor
  · intro heq
    cases ps with
    | nil => rfl
    | cons p ps =>
      have hp : pins p + ((p :: ps).count p : Int) = pins p := congrFun heq p
      rw [count_cons_self] at hp
      omega
  · rintro rfl
    exact pinAll_nil pins

theorem addPins_one (pins : PageNum → Int) (p : PageNum) : addPins pins p 1 = pinAll pins [p] :=
  (congrArg (addPins · p 1) (pinAll_nil pins).symm).trans (addPins_pinAll pins [] p)

theorem addPins_one_ne (pins : PageNum → Int) (p : PageNum) : addPins pins p 1 ≠ pins := fun heq =>
  cons_ne_nil p [] ((pinAll_eq_self_iff pins [p]).mp ((addPins_one pins p).symm.trans heq))

end

/-- Inserting a stored entry again never comes to the refusal without effect: in a leaf with room it is refused, but the
    leaf stays pinned, and in a full leaf it is inserted once more. -/
theorem insertEntry_again {L : Type} [LinearOrder L] {rank : Key → L} (h : BplusTreeHandler) (n : Nat) (t : IndexTree n)
    (pkey : Bytes) (rid : RID) (fuel : Nat) (hopened : h.opened = true) (horder : 3 ≤ h.fileHeader.order)
    (halloc : h.alloc.Fresh) (ht : Holds rank h t) (ho : Orders h.fileHeader rank t.allKeys)
    (hstored : (h.fileHeader.keyOf pkey rid, rid) ∈ t.entries) (hfuel : n < fuel) :
    ∃ (leaf : IndexLeaf) (r : Except RC Unit) (h' : BplusTreeHandler),
      find (before h.fileHeader (h.fileHeader.keyOf pkey rid)) t = some leaf ∧
        insertEntry fuel pkey rid h = some (r, h') ∧
      (leaf.entries.length < h.fileHeader.order - 1 →
        r = .error .recordDuplicateKey ∧ h'.pages = h.pages ∧ h'.pins = addPins h.pins leaf.page 1) ∧
      (h.fileHeader.order - 1 ≤ leaf.entries.length → r = .ok () ∧ h'.pins = h.pins) ∧
      ¬(r = .error .recordDuplicateKey ∧ h'.pages.get = h.pages.get ∧ h'.pins = h.pins) := by
  have hkey : h.keyOf pkey rid ∈ t.allKeys := Tree.mem_allKeys_of_mem_entries hstored
  have ho' : Orders h.fileHeader rank (h.keyOf pkey rid :: t.allKeys) := by
    have hmem : ∀ k ∈ h.keyOf pkey rid :: t.allKeys, k ∈ t.allKeys :=
      fun k hk => (mem_cons.mp hk).elim (· ▸ hkey) id
    exact fun a ha b hb => ho a (hmem a ha) b (hmem b hb)
  have hzero : cmpKey h.fileHeader (h.keyOf pkey rid) (h.keyOf pkey rid) = 0 :=
    (ho _ hkey _ hkey).2.mpr rfl
  obtain ⟨leaf, hfind, -, -, -, hall⟩ := ht.find_leaf_stores ho'
  have hstores : Stores h.fileHeader (h.keyOf pkey rid) leaf := ⟨_, hall _ hstored hzero, hzero⟩
  obtain ⟨hrefused, hdone⟩ := insertEntry_pins hopened horder halloc ht ho' hfuel hfind
  by_cases hroom : leaf.entries.length < h.order - 1
  · refine ⟨leaf, _, _, hfind, hrefused hroom hstores, fun _ => ⟨rfl, rfl, rfl⟩,
      fun hfull => absurd hroom (not_lt.mpr hfull), ?_⟩
    rintro ⟨-, -, hpins⟩
    exact addPins_one_ne h.pins leaf.page hpins
  · obtain ⟨h', hrun, hpins⟩ := hdone fun hboth => hroom hboth.1
    refine ⟨leaf, _, h', hfind, hrun, fun hlt => absurd hlt hroom, fun _ => ⟨rfl, hpins⟩, ?_⟩
    rintro ⟨hcode, -⟩
    cases hcode

def intPairs (is : List UInt8) : List (Bytes × RID) := is.map intPair

def intLeafTree (is : List UInt8) : IndexTree 0 := Tree.leaf 1 ((intPairs is).map fun p => (⟨p.1, p.2⟩, p.2))

theorem leafIndex_holds {is : List UInt8} (hwf : WF (fun k : Key => k.rid.slotNum) (shape 4) 0 0 ⊥ ⊤ (intLeafTree is))
    (hentries : ∃ node, (leafIndex .ints (intPairs is)).pages.get 1 = some node ∧ node.isLeaf = true ∧
      node.parent = -1 ∧ node.entryList = (intPairs is).map (fun p => (⟨p.1, p.2⟩, p.2)) ∧ node.next 4 = 0) :
    Holds (fun k : Key => k.rid.slotNum) (leafIndex .ints (intPairs is)) (intLeafTree is) := by
  obtain ⟨node, hget, hleaf, hpar, hlist, hnext⟩ := hentries
  exact ⟨rfl, rep_leaf.mpr ⟨node, hget, hleaf, hpar, hlist⟩, hwf,
    nodup_singleton _, by simp [intLeafTree], ⟨node, hget, hnext⟩, trivial⟩

theorem insertEntry_again_room :
    ∃ (leaf : IndexLeaf) (r : Except RC Unit) (h' : BplusTreeHandler),
      find (before (leafIndex .ints (intPairs [1, 2])).fileHeader ⟨[2, 0, 0, 0], ⟨1, 2⟩⟩) (intLeafTree [1, 2]) =
        some leaf ∧
      insertEntry 1 [2, 0, 0, 0] ⟨1, 2⟩ (leafIndex .ints (intPairs [1, 2])) = some (r, h') ∧
      (leaf.entries.length < 3 → r = .error .recordDuplicateKey ∧
        h'.pages = (leafIndex .ints (intPairs [1, 2])).pages ∧ h'.pins = addPins (fun _ => 0) leaf.page 1) ∧
      (3 ≤ leaf.entries.length → r = .ok () ∧ h'.pins = fun _ => 0) ∧
      ¬(r = .error .recordDuplicateKey ∧ h'.pages.get = (leafIndex .ints (intPairs [1, 2])).pages.get ∧
        h'.pins = fun _ => 0) :=
  insertEntry_again (leafIndex .ints (intPairs [1, 2])) 0 (intLeafTree [1, 2]) [2, 0, 0, 0] ⟨1, 2⟩ 1 rfl (by decide)
    allocateLast_fresh (leafIndex_holds (wf_leaf.mpr (by decide)) ⟨_, rfl, rfl, rfl, rfl, rfl⟩) (by decide) (by decide)
    (by decide)

/-- `2` again in a leaf with `1, 2` is refused and the page is pinned. In a full leaf with `1, 2, 3` it is inserted: the
    leaf is split into `1, 2` and `2, 3`. -/
theorem insertEntry_stores_twice :
    Holds (fun k : Key => k.rid.slotNum) (leafIndex .ints (intPairs [1, 2])) (intLeafTree [1, 2]) ∧
    (∃ h', insertEntry 1 [2, 0, 0, 0] ⟨1, 2⟩ (leafIndex .ints (intPairs [1, 2])) =
      some (.error .recordDuplicateKey, h') ∧ h'.pins 1 = 1) ∧
    Holds (fun k : Key => k.rid.slotNum) (leafIndex .ints (intPairs [1, 2, 3])) (intLeafTree [1, 2, 3]) ∧
    ((insertEntry 1 [2, 0, 0, 0] ⟨1, 2⟩ (leafIndex .ints (intPairs [1, 2, 3]))).map fun r => r.1.isOk) = some true ∧
    ((insertEntry 1 [2, 0, 0, 0] ⟨1, 2⟩ (leafIndex .ints (intPairs [1, 2, 3]))).map fun r =>
        [r.2.pages.get 1, r.2.pages.get 2].map (Option.map IndexNode.entryList)) =
      some [some ((intPairs [1, 2]).map fun p => (⟨p.1, p.2⟩, p.2)),
        some ((intPairs [2, 3]).map fun p => (⟨p.1, p.2⟩, p.2))] := by
  have ht : Holds (fun k : Key => k.rid.slotNum) (leafIndex .ints (intPairs [1, 2])) (intLeafTree [1, 2]) :=
    leafIndex_holds (wf_leaf.mpr (by decide)) ⟨_, rfl, rfl, rfl, rfl, rfl⟩
  have ht' : Holds (fun k : Key => k.rid.slotNum) (leafIndex .ints (intPairs [1, 2, 3])) (intLeafTree [1, 2, 3]) :=
    leafIndex_holds (wf_leaf.mpr (by decide)) ⟨_, rfl, rfl, rfl, rfl, rfl⟩
  have hrefused := (@insertEntry_pins _ _ _ _ 0 1 _ [2, 0, 0, 0] ⟨1, 2⟩ rfl (by decide) allocateLast_fresh ht
    (by decide) (by decide) ⟨1, (intPairs [1, 2]).map fun p => (⟨p.1, p.2⟩, p.2)⟩ rfl).1 (by decide) (by decide)
  exact ⟨ht, ⟨_, hrefused, rfl⟩, ht', by decide +kernel, by decide +kernel⟩

/-- The calls of an index. A scan is the whole life of a scanner with `k` calls of `next_entry`. -/
inductive IndexCall
  | insertEntry (pkey : Bytes) (rid : RID)
  | deleteEntry (data : Bytes) (rid : RID)
  | getEntry (pkey : Bytes) (rid : RID)
  | findFirst (compOp : CompOp) (key : Bytes)
  | scan (locals : Key → DateLocals) (compOp : CompOp) (value : Option Bytes) (k : Nat)

namespace IndexCall

/-- The code that a call returns, with the state it leaves. -/
def run (fuel : Nat) (h : BplusTreeHandler) : IndexCall → Option (Except RC Unit × BplusTreeHandler)
  | .insertEntry pkey rid => MiniOb.insertEntry fuel pkey rid h
  | .deleteEntry data rid => MiniOb.deleteEntry fuel data rid h
  | .getEntry pkey rid => (MiniOb.getEntry fuel pkey rid h).map (Prod.map (Except.map fun _ => ()) id)
  | .findFirst compOp key => (findFirstIndexSatisfied fuel compOp key h).map (Prod.map (Except.map fun _ => ()) id)
  | .scan locals compOp value k => life fuel locals compOp value k h

def keys (header : IndexFileHeader) : IndexCall → List Key
  | .insertEntry pkey rid | .deleteEntry pkey rid => [header.keyOf pkey rid]
  | .getEntry _ _ | .findFirst _ _ | .scan _ _ _ _ => []

/-- A call that may dispose of pages finds no page of the tree pinned. -/
def Unpinned (h : BplusTreeHandler) {n : Nat} (t : IndexTree n) : IndexCall → Prop
  | .deleteEntry _ _ => ∀ p ∈ t.pages, h.Free p
  | .insertEntry _ _ | .getEntry _ _ | .findFirst _ _ | .scan _ _ _ _ => True

def Releases (header : IndexFileHeader) {n : Nat} (t : IndexTree n) : IndexCall → Prop
  -- An equal key is noticed in a leaf with room, which then stays pinned.
  | .insertEntry pkey rid => ∀ leaf ∈ find (before header (header.keyOf pkey rid)) t,
      leaf.entries.length < header.order - 1 → ¬Stores header (header.keyOf pkey rid) leaf
  | .deleteEntry data rid => ∃ e ∈ t.entries, cmpKey header (header.keyOf data rid) e.1 = 0
  | .getEntry _ _ => False
  | .findFirst compOp key => leftPinned header compOp key t = []
  -- A scanner holds a leaf from its first call on until a call finds no more leaf.
  | .scan locals compOp value k =>
    leftPinned header compOp (valueCopy header value) t = [] ∧
      (k = 0 ∨ calls (scanTest header compOp (valueCopy header value) locals) Leaf.entries
        ⟨none, [], ahead header compOp (valueCopy header value) t⟩ < k)

end IndexCall

section
variable {L : Type} [LinearOrder L] {rank : Key → L} {h : BplusTreeHandler} {n fuel : Nat} {t : IndexTree n}

theorem getEntry_pins (ht : Holds rank h t) (pkey : Bytes) (rid : RID) (hfuel : n < fuel) :
    ∃ page r, getEntry fuel pkey rid h = some (r, { h with pins := addPins h.pins page 1 }) ∧
      r ≠ .error .bufferpoolPagePinned := by
  obtain ⟨leaf, hfind, hleaf⟩ := @findLeaf_spec h (h.keyOf pkey rid) n fuel t ht.root ht.rep hfuel
  obtain ⟨node, -, hget, -⟩ := ht.rep.find_leaf hfind
  rw [getEntry, Op.bind_fileHeader, Op.bind_ok hleaf, bind_getThisPage hget]
  by_cases hlt : firstIdx node.keyNum (fun i =>
      decide (cmpKey h.fileHeader (h.keyOf pkey rid) (node.keys i) = 0)) < node.keyNum
  · rw [if_pos hlt]
    exact ⟨leaf.page, _, rfl, nofun⟩
  · rw [if_neg hlt]
    exact ⟨leaf.page, _, rfl, nofun⟩

theorem life_pins (ht : Holds rank h t) (locals : Key → DateLocals) (compOp : CompOp) (value : Option Bytes) (k : Nat)
    (hfuel : n + t.leafNodes.length + 1 < fuel) :
    let key := valueCopy h.fileHeader value
    let held := (after (scanTest h.fileHeader compOp key locals) Leaf.entries k
      ⟨none, [], ahead h.fileHeader compOp key t⟩).held
    life fuel locals compOp value k h =
      some (.ok (), { h with
        pins := pinAll h.pins ((leftPinned h.fileHeader compOp key t ++ held.toList).map Leaf.page) }) := by
  intro key held
  obtain ⟨s, hopen, st, haccepts⟩ := openScan_spec ht locals compOp value hfuel
  obtain ⟨s', hcalls⟩ := @callNext_spec h
    (pinAll h.pins ((leftPinned h.fileHeader compOp key t).map Leaf.page)) k s _ st
  rw [heldPins_none, haccepts] at hcalls
  rw [life, Op.bind_ok hopen, Op.bind_ok hcalls, map_append, ← pinAll_pinAll]
  rfl

theorem map_unit_ne {α : Type} {r : Except RC α} {rc : RC} (hr : r ≠ .error rc) : (r.map fun _ => ()) ≠ .error rc := by
  cases r with
  | error rc' => exact fun heq => hr (congrArg _ (Except.error.inj heq))
  | ok a => exact nofun

/-- A call is not refused a page for being pinned, and leaves every page pinned as it was if and only if it is one of
    those that unpin what they pin. -/
theorem indexCall_pins_iff (h : BplusTreeHandler) (n : Nat) (t : IndexTree n) (call : IndexCall) (fuel : Nat)
    (hopened : h.opened = true) (horder : 3 ≤ h.fileHeader.order) (halloc : h.alloc.Fresh) (ht : Holds rank h t)
    (hunpinned : call.Unpinned h t) (ho : Orders h.fileHeader rank (call.keys h.fileHeader ++ t.allKeys))
    (hfuel : n + t.leafNodes.length + 1 < fuel) :
    ∃ r h', call.run fuel h = some (r, h') ∧ r ≠ .error .bufferpoolPagePinned ∧
      (h'.pins = h.pins ↔ call.Releases h.fileHeader t) := by
  have hn : n < fuel := by omega
  cases call with
  | insertEntry pkey rid =>
    obtain ⟨leaf, hfind, -⟩ := ht.find_leaf_stores ho
    obtain ⟨hrefused, hdone⟩ := insertEntry_pins hopened horder halloc ht ho hn hfind
    by_cases hboth : leaf.entries.length < h.order - 1 ∧ Stores h.fileHeader (h.keyOf pkey rid) leaf
    · refine ⟨_, _, hrefused hboth.1 hboth.2, nofun, iff_of_false (addPins_one_ne _ _) ?_⟩
      exact fun hrel => hrel leaf hfind hboth.1 hboth.2
    · obtain ⟨h', hrun, hpins⟩ := hdone hboth
      refine ⟨_, h', hrun, nofun, iff_of_true hpins fun leaf' hleaf' hroom hstores => ?_⟩
      obtain rfl : leaf = leaf' := some.inj (hfind.symm.trans hleaf')
      exact hboth ⟨hroom, hstores⟩
  | deleteEntry data rid =>
    by_cases hstored : ∃ e ∈ t.entries, cmpKey h.fileHeader (h.keyOf data rid) e.1 = 0
    · obtain ⟨e, he, hzero⟩ := hstored
      obtain ⟨h', hrun, hpins⟩ := deleteEntry_pins horder ht hunpinned ho he hzero hn
      exact ⟨_, h', hrun, nofun, iff_of_true hpins ⟨e, he, hzero⟩⟩
    · obtain ⟨page, hrun⟩ := deleteEntry_absent ht (fun e he hzero => hstored ⟨e, he, hzero⟩) hn
      exact ⟨_, _, hrun, nofun, iff_of_false (addPins_one_ne _ _) hstored⟩
  | getEntry pkey rid =>
    obtain ⟨page, r, hrun, hr⟩ := getEntry_pins ht pkey rid hn
    exact ⟨_, _, congrArg (Option.map _) hrun, map_unit_ne hr, iff_of_false (addPins_one_ne _ _) id⟩
  | findFirst compOp key =>
    obtain ⟨r, hrun, hr⟩ := findFirst_spec ht compOp key hfuel
    refine ⟨_, _, congrArg (Option.map _) hrun, map_unit_ne ?_, ?_⟩
    · rcases hr with ⟨rfl, -⟩ | ⟨l, i, ls, rfl, -⟩ <;> exact nofun
    rw [id_eq, pinAll_eq_self_iff, map_eq_nil_iff]
    rfl
  | scan locals compOp value k =>
    have hrun := life_pins ht locals compOp value k hfuel
    refine ⟨_, _, hrun, nofun, ?_⟩
    rw [pinAll_eq_self_iff, map_eq_nil_iff, append_eq_nil_iff, toList_eq_nil_iff,
      after_held_iff (fun hne => absurd rfl hne)]
    refine and_congr_right fun _ => ?_
    split
    · case isTrue hk => simp [hk]
    · case isFalse hk => simp [hk]

end

theorem indexCall_pins_leaf :
    (∃ r h', (IndexCall.insertEntry [3, 0, 0, 0] ⟨1, 3⟩).run 3 (leafIndex .ints (intPairs [1, 2])) = some (r, h') ∧
      h'.pins = fun _ => 0) ∧
    ∃ r h', (IndexCall.deleteEntry [5, 0, 0, 0] ⟨1, 5⟩).run 5
        { twoLeafIndex (intPair 4) [intPair 1, intPair 2] [intPair 4, intPair 5] with alloc := allocateLast } =
          some (r, h') ∧
      r ≠ .error .bufferpoolPagePinned ∧ h'.pins = fun _ => 0 := by
  have ht : Holds (fun k : Key => k.rid.slotNum) (leafIndex .ints (intPairs [1, 2])) (intLeafTree [1, 2]) :=
    leafIndex_holds (wf_leaf.mpr (by decide)) ⟨_, rfl, rfl, rfl, rfl, rfl⟩
  have ht₂ := @twoLeafIndex_holds _ _ (fun k : Key => k.rid.slotNum) (intPair 4) [intPair 1, intPair 2]
    [intPair 4, intPair 5] (wf_leaf.mpr (by decide)) (wf_leaf.mpr (by decide)) (by decide) (by decide)
  refine ⟨?_, ?_⟩
  · obtain ⟨r, h', hrun, -, hpins⟩ := indexCall_pins_iff _ 0 _ (.insertEntry [3, 0, 0, 0] ⟨1, 3⟩) 3 rfl (by decide)
      allocateLast_fresh ht trivial (by decide) (by decide)
    refine ⟨r, h', hrun, hpins.mpr ?_⟩
    have hnew : ¬Stores (leafIndex .ints (intPairs [1, 2])).fileHeader ⟨[3, 0, 0, 0], ⟨1, 3⟩⟩
        ⟨1, (intPairs [1, 2]).map fun p => (⟨p.1, p.2⟩, p.2)⟩ := by decide
    rintro leaf ⟨⟩ _
    exact hnew
  · obtain ⟨r, h', hrun, hr, hpins⟩ := @indexCall_pins_iff _ _ _
      { twoLeafIndex (intPair 4) [intPair 1, intPair 2] [intPair 4, intPair 5] with alloc := allocateLast } 1 _
      (.deleteEntry [5, 0, 0, 0] ⟨1, 5⟩) 5 rfl (by decide) allocateLast_fresh
      ⟨ht₂.root, ht₂.rep, ht₂.wf, ht₂.nodup, ht₂.positive, ht₂.linked⟩ (fun _ _ _ => rfl) (by decide) (by decide)
    exact ⟨r, h', hrun, hr, hpins.mpr ⟨(⟨[5, 0, 0, 0], ⟨1, 5⟩⟩, ⟨1, 5⟩), by decide, by decide⟩⟩

/-- The pins of the leaves `1, 2` and `4, 5` after a call: looking for `2`, deleting `3`, inserting `2` again, looking
    for the first key above `2`, and a scanner that is closed after its first entry. -/
theorem indexCalls_leave_pins :
    Holds (fun k : Key => k.rid.slotNum) (twoLeafIndex (intPair 4) [intPair 1, intPair 2] [intPair 4, intPair 5])
      (twoLeafTree (intPair 4) [intPair 1, intPair 2] [intPair 4, intPair 5]) ∧
    ([IndexCall.getEntry [2, 0, 0, 0] ⟨1, 2⟩, .deleteEntry [3, 0, 0, 0] ⟨1, 3⟩, .insertEntry [2, 0, 0, 0] ⟨1, 2⟩,
        .findFirst .greatThan [2, 0, 0, 0], .scan (fun _ => (0, 0)) .lessThan (some [5, 0, 0, 0]) 1].map fun call =>
      (call.run 5 (twoLeafIndex (intPair 4) [intPair 1, intPair 2] [intPair 4, intPair 5])).map fun r =>
        (r.2.pins 1, r.2.pins 2)) = List.replicate 5 (some (1, 0)) :=
  ⟨@twoLeafIndex_holds _ _ _ (intPair 4) [intPair 1, intPair 2] [intPair 4, intPair 5] (wf_leaf.mpr (by decide))
    (wf_leaf.mpr (by decide)) (by decide) (by decide), by decide +kernel⟩

end MiniOb
