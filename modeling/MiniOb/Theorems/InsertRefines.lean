import MiniOb.Theorems.InsertEntry

/-! # `insert_entry` refines insertion into a sorted list

`insert_entry` puts the new pair at its place in the list of pairs and keeps the tree well formed. -/

namespace MiniOb
open Slots BTree List
variable {L : Type} [LinearOrder L]

/-- The tree `t'` of `h'` is the tree `t` of `h` with one more pair, at its sorted position. -/
structure Inserted (rank : Key → L) (h h' : BplusTreeHandler) (key : Key) (rid : RID) {n n' : Nat} (t : IndexTree n)
    (t' : IndexTree n') : Prop where
  holds : Holds rank h' t'
  same : SameIndex h h'
  height : n' ≤ n + 1
  keys : ∀ k ∈ t'.allKeys, k = key ∨ k ∈ t.allKeys
  entries : ∃ A B, t.entries = A ++ B ∧ t'.entries = A ++ (key, rid) :: B ∧
    (∀ e ∈ A, rank e.1 < rank key) ∧ ∀ e ∈ B, rank key < rank e.1

section
variable {rank : Key → L} {h : BplusTreeHandler} {n : Nat} {t : IndexTree n}

theorem Holds.sorted_around {t' : IndexTree n} (ht : Holds rank h t') {A B : List (Key × RID)} {e : Key × RID}
    (hentries : t'.entries = A ++ e :: B) : (∀ a ∈ A, rank a.1 < rank e.1) ∧ ∀ b ∈ B, rank e.1 < rank b.1 := by
  have hsorted := ht.wf.entries_sorted.1
  rw [hentries] at hsorted
  obtain ⟨-, htail, hcross⟩ := pairwise_append.mp hsorted
  exact ⟨fun a ha => hcross a ha e mem_cons_self, (pairwise_cons.mp htail).1⟩

theorem insertEntry_spec (hopened : h.opened = true) (horder : 3 ≤ h.fileHeader.order) (halloc : h.alloc.Fresh)
    (ht : Holds rank h t) {pkey : Bytes} {rid : RID}
    (ho : Orders h.fileHeader rank (h.fileHeader.keyOf pkey rid :: t.allKeys))
    (habsent : ∀ e ∈ t.entries, cmpKey h.fileHeader (h.fileHeader.keyOf pkey rid) e.1 ≠ 0) {fuel : Nat}
    (hfuel : n < fuel) :
    ∃ (h' : BplusTreeHandler) (n' : Nat) (t' : IndexTree n'), insertEntry fuel pkey rid h = some (.ok (), h') ∧
      Inserted rank h h' (h.fileHeader.keyOf pkey rid) rid t t' := by
  generalize hkey : h.fileHeader.keyOf pkey rid = key at ho habsent ⊢
  have hord : ∀ k ∈ t.allKeys, Agrees (cmpKey h.fileHeader key k) (rank key) (rank k) :=
    fun k hk => ho key mem_cons_self k (mem_cons_of_mem _ hk)
  have hnew : ∀ e ∈ t.entries, rank e.1 ≠ rank key := fun e he heq =>
    habsent e he ((hord e.1 (Tree.mem_allKeys_of_mem_entries he)).2.mpr heq.symm)
  obtain ⟨leaf, hfind, hleaf⟩ := @findLeaf_spec h key n fuel t ht.root ht.rep hfuel
  have hrun : insertEntry fuel pkey rid h = insertIntoFoundLeaf fuel leaf.page key rid h := by
    rw [insertEntry, if_neg (by simp [hopened]), Op.bind_fileHeader, hkey]
    exact Op.bind_ok hleaf
  have hout : InsertOutcome rank h fuel leaf.page (-1) _ ⊥ ⊤ key rid t :=
    insertOutcome horder halloc ht.wf bot_le (WithTop.coe_lt_top _) ht.rep ht.nodup ht.positive hord hnew hfind hfuel.le
  rcases hout with ⟨σ, t', g, hpage, hdone⟩ | ⟨σ, t₁, t₂, k, g, hpage, hsplit⟩
  · have ht' := holds_of_grown ht g hpage
    obtain ⟨A, B, hold, hentries⟩ := g.entries
    have hentries' : t'.entries = A ++ (key, rid) :: B := by simpa using hentries
    refine ⟨_, n, t', hrun.trans hdone, ht', ⟨rfl, rfl, rfl, rfl⟩, Nat.le_succ n, fun k hk => ?_, ?_⟩
    · exact g.keys k (by simpa using hk)
    · exact ⟨A, B, hold, hentries', ht'.sorted_around hentries'⟩
  · obtain ⟨σ', hroot, ht'⟩ := holds_of_newRoot ht horder halloc (fuel - n - 1) g
    obtain ⟨A, B, hold, hentries⟩ := g.entries
    have hentries' : (Tree.branch (h.alloc σ).1 [k] [t₁, t₂]).entries = A ++ (key, rid) :: B := hentries
    have hfuel' : fuel - n = fuel - n - 1 + 1 := by omega
    refine ⟨_, n + 1, _, ?_, ht', ⟨rfl, rfl, rfl, rfl⟩, le_refl _, g.keys, A, B, hold, hentries',
      ht'.sorted_around hentries'⟩
    rw [hrun, hsplit, hfuel', ← hpage]
    exact Op.ignoreRC_ok hroot

end

def insertAll (fuel : Nat) : List (Bytes × RID) → Op Unit
  | [] => pure ()
  | p :: ps => do
    insertEntry fuel p.1 p.2
    insertAll fuel ps

def storedPairs (header : IndexFileHeader) (ps : List (Bytes × RID)) : List (Key × RID) :=
  ps.map fun p => (header.keyOf p.1 p.2, p.2)

@[simp] theorem storedPairs_cons (header : IndexFileHeader) (p : Bytes × RID) (ps : List (Bytes × RID)) :
    storedPairs header (p :: ps) = (header.keyOf p.1 p.2, p.2) :: storedPairs header ps := rfl

theorem SameIndex.trans {h h' h'' : BplusTreeHandler} (s : SameIndex h h') (s' : SameIndex h' h'') :
    SameIndex h h'' where
  opened := s'.opened.trans s.opened
  alloc := s'.alloc.trans s.alloc
  attrs := s'.attrs.trans s.attrs
  order := s'.order.trans s.order

theorem insertAll_spec {rank : Key → L} {fuel : Nat} : ∀ {ps : List (Bytes × RID)} {h : BplusTreeHandler} {n : Nat}
    {t : IndexTree n}, h.opened = true → 3 ≤ h.fileHeader.order → h.alloc.Fresh → Holds rank h t →
    Orders h.fileHeader rank ((storedPairs h.fileHeader ps).map Prod.fst ++ t.allKeys) →
    (storedPairs h.fileHeader ps ++ t.entries).Pairwise (fun e e' => rank e.1 ≠ rank e'.1) →
    n + ps.length ≤ fuel →
    ∃ (h' : BplusTreeHandler) (n' : Nat) (t' : IndexTree n'), insertAll fuel ps h = some (.ok (), h') ∧
      Holds rank h' t' ∧ SameIndex h h' ∧ t'.entries.Perm (storedPairs h.fileHeader ps ++ t.entries)
  | [], h, n, t, _, _, _, ht, _, _, _ => ⟨h, n, t, rfl, ht, ⟨rfl, rfl, rfl, rfl⟩, List.Perm.refl _⟩
  | (pkey, rid) :: ps, h, n, t, hopened, horder, halloc, ht, ho, hdiff, hfuel => by
    simp only [storedPairs_cons, cons_append, pairwise_cons] at hdiff
    obtain ⟨hhead, htail⟩ := hdiff
    simp only [storedPairs_cons, map_cons, cons_append] at ho
    rw [length_cons] at hfuel
    have ho₁ : Orders h.fileHeader rank (h.fileHeader.keyOf pkey rid :: t.allKeys) := by
      refine ho.subset rfl fun k hk => ?_
      rcases mem_cons.mp hk with rfl | hk
      · exact mem_cons_self
      · exact mem_cons_of_mem _ (mem_append_right _ hk)
    have habsent : ∀ e ∈ t.entries, cmpKey h.fileHeader (h.fileHeader.keyOf pkey rid) e.1 ≠ 0 := fun e he heq =>
      hhead e (mem_append_right _ he) ((ho₁ _ mem_cons_self e.1
        (mem_cons_of_mem _ (Tree.mem_allKeys_of_mem_entries he))).2.mp heq)
    obtain ⟨h₁, n₁, t₁, hrun₁, ins⟩ := insertEntry_spec hopened horder halloc ht ho₁ habsent (by omega : n < fuel)
    obtain ⟨A, B, hold, hnew, -, -⟩ := ins.entries
    have hperm : t₁.entries.Perm ((h.fileHeader.keyOf pkey rid, rid) :: t.entries) := by
      rw [hnew, hold]
      exact perm_middle
    have hstored : storedPairs h₁.fileHeader ps = storedPairs h.fileHeader ps := by
      rw [storedPairs, keyOf_congr ins.same.attrs, storedPairs]
    have hall : (storedPairs h.fileHeader ps ++ t₁.entries).Perm
        ((h.fileHeader.keyOf pkey rid, rid) :: (storedPairs h.fileHeader ps ++ t.entries)) :=
      (hperm.append_left _).trans perm_middle
    have ho₂ : Orders h₁.fileHeader rank ((storedPairs h₁.fileHeader ps).map Prod.fst ++ t₁.allKeys) := by
      refine ho.subset ins.same.attrs fun k hk => ?_
      rw [hstored] at hk
      rcases mem_append.mp hk with hk | hk
      · exact mem_cons_of_mem _ (mem_append_left _ hk)
      · rcases ins.keys k hk with rfl | hk
        · exact mem_cons_self
        · exact mem_cons_of_mem _ (mem_append_right _ hk)
    have hdiff₂ : (storedPairs h.fileHeader ps ++ t₁.entries).Pairwise (fun e e' => rank e.1 ≠ rank e'.1) :=
      (hall.pairwise_iff fun hne => Ne.symm hne).mpr (pairwise_cons.mpr ⟨hhead, htail⟩)
    have hfuel₂ : n₁ + ps.length ≤ fuel := by
      have := ins.height
      omega
    obtain ⟨h₂, n₂, t₂, hrun₂, ht₂, same₂, hperm₂⟩ := insertAll_spec (ins.same.opened.trans hopened)
      (by rw [ins.same.order]; exact horder) (by rw [ins.same.alloc]; exact halloc) ins.holds ho₂
      (by rw [hstored]; exact hdiff₂) hfuel₂
    refine ⟨h₂, n₂, t₂, ?_, ht₂, ins.same.trans same₂, ?_⟩
    · rw [insertAll, Op.bind_ok hrun₁]
      exact hrun₂
    · rw [hstored] at hperm₂
      exact hperm₂.trans hall

theorem create_holds (rank : Key → L) (attrs : List IndexAttr) (alloc : Allocator) :
    Holds rank (create attrs alloc) (Tree.leaf 1 []) where
  root := rfl
  rep := rep_leaf.mpr ⟨_, Pages.get_set_same, ⟨rfl, rfl, rfl⟩⟩
  wf := wf_leaf.mpr ⟨List.Pairwise.nil, by simp, Nat.zero_le _, Nat.zero_le _⟩
  nodup := nodup_singleton _
  positive := by simp
  linked := ⟨⟨_, Pages.get_set_same, rfl⟩, trivial⟩

/-- On keys that `CmpKey` orders, which without floats are all keys, `insert_entry` puts a pair that no stored key
    compares equal to at its sorted position of a well-formed tree; so does any sequence of such insertions into a new
    index. -/
theorem insertEntry_refines (rank : Key → L) :
    (∀ (h : BplusTreeHandler) (n : Nat) (t : IndexTree n) (pkey : Bytes) (rid : RID) (fuel : Nat),
      h.opened = true → 3 ≤ h.fileHeader.order → h.alloc.Fresh → Holds rank h t →
      Orders h.fileHeader rank (h.fileHeader.keyOf pkey rid :: t.allKeys) →
      (∀ e ∈ t.entries, cmpKey h.fileHeader (h.fileHeader.keyOf pkey rid) e.1 ≠ 0) → n < fuel →
      ∃ (h' : BplusTreeHandler) (n' : Nat) (t' : IndexTree n'), insertEntry fuel pkey rid h = some (.ok (), h') ∧
        Inserted rank h h' (h.fileHeader.keyOf pkey rid) rid t t') ∧
    (∀ (attrs : List IndexAttr) (alloc : Allocator) (ps : List (Bytes × RID)) (fuel : Nat), alloc.Fresh →
      3 ≤ (create attrs alloc).fileHeader.order →
      Orders (create attrs alloc).fileHeader rank ((storedPairs (create attrs alloc).fileHeader ps).map Prod.fst) →
      (storedPairs (create attrs alloc).fileHeader ps).Pairwise
        (fun e e' => cmpKey (create attrs alloc).fileHeader e.1 e'.1 ≠ 0) → ps.length ≤ fuel →
      ∃ (h' : BplusTreeHandler) (n' : Nat) (t' : IndexTree n'),
        insertAll fuel ps (create attrs alloc) = some (.ok (), h') ∧ Holds rank h' t' ∧
        SameIndex (create attrs alloc) h' ∧ t'.entries.Perm (storedPairs (create attrs alloc).fileHeader ps) ∧
        t'.entries.Pairwise (fun e e' => rank e.1 < rank e'.1)) ∧
    ∀ (header : IndexFileHeader) (ks : List Key), header.NoFloats → Orders header (Key.rank header) ks := by
  refine ⟨fun h n t pkey rid fuel hopened horder halloc ht ho habsent hfuel =>
    insertEntry_spec hopened horder halloc ht ho habsent hfuel, ?_, fun header ks hf => orders_of_noFloats hf ks⟩
  intro attrs alloc ps fuel halloc horder ho hdiff hfuel
  have hrank : (storedPairs (create attrs alloc).fileHeader ps).Pairwise (fun e e' => rank e.1 ≠ rank e'.1) := by
    refine hdiff.imp_of_mem fun he he' hne heq => hne ?_
    exact (ho _ (mem_map_of_mem he) _ (mem_map_of_mem he')).2.mpr heq
  obtain ⟨h', n', t', hrun, ht', same, hperm⟩ := insertAll_spec (h := create attrs alloc) rfl horder halloc
    (create_holds rank attrs alloc) (by simpa using ho) (by simpa using hrank) (by simpa using hfuel)
  refine ⟨h', n', t', hrun, ht', same, ?_, ht'.wf.entries_sorted.1⟩
  simpa using hperm

def allocateLast : Allocator := fun s => (max s.count 1, IndexNode.zeroed)

theorem allocateLast_fresh : allocateLast.Fresh := fun s =>
  ⟨s.get_of_count_le _ (le_max_left _ _), Int.lt_of_lt_of_le Int.one_pos (le_max_right _ _)⟩

def intIndex : BplusTreeHandler := create [⟨.ints, 4⟩] allocateLast

/-- An index on strings of 1000 characters, which has order three: the third entry splits the leaf, and page 3 becomes
    the root. -/
def wideIndex : BplusTreeHandler := create [⟨.chars, 1000⟩] allocateLast

theorem insertEntry_refines_split :
    (∃ (h' : BplusTreeHandler) (n' : Nat) (t' : IndexTree n'), insertEntry 1 [7, 0, 0, 0] ⟨1, 0⟩ intIndex =
      some (.ok (), h') ∧
      Inserted (Key.rank intIndex.fileHeader) intIndex h' ⟨[7, 0, 0, 0], ⟨1, 0⟩⟩ ⟨1, 0⟩ (Tree.leaf 1 []) t') ∧
    ∃ (h' : BplusTreeHandler) (n' : Nat) (t' : IndexTree n'),
      insertAll 3 [([98], ⟨1, 0⟩), ([99], ⟨1, 1⟩), ([97], ⟨1, 2⟩)] wideIndex = some (.ok (), h') ∧
        h'.fileHeader.rootPage = 3 ∧
      Holds (Key.rank wideIndex.fileHeader) h' t' ∧
      t'.entries.Perm [(⟨[98], ⟨1, 0⟩⟩, ⟨1, 0⟩), (⟨[99], ⟨1, 1⟩⟩, ⟨1, 1⟩), (⟨[97], ⟨1, 2⟩⟩, ⟨1, 2⟩)] ∧
      t'.entries.Pairwise (fun e e' => e.1.rank wideIndex.fileHeader < e'.1.rank wideIndex.fileHeader) := by
  refine ⟨?_, ?_⟩
  · obtain ⟨one, -, orders⟩ := insertEntry_refines (Key.rank intIndex.fileHeader)
    exact one intIndex 0 (Tree.leaf 1 []) [7, 0, 0, 0] ⟨1, 0⟩ 1 rfl (by decide) allocateLast_fresh
      (create_holds _ _ _) (orders _ _ (by decide)) (by simp) (by decide)
  · obtain ⟨-, many, orders⟩ := insertEntry_refines (Key.rank wideIndex.fileHeader)
    obtain ⟨h', n', t', hrun, holds, -, entries, sorted⟩ := many [⟨.chars, 1000⟩] allocateLast
      [([98], ⟨1, 0⟩), ([99], ⟨1, 1⟩), ([97], ⟨1, 2⟩)] 3 allocateLast_fresh (by decide) (orders _ _ (by decide))
        (by decide)
      (by decide)
    have hroot : (insertAll 3 [([98], ⟨1, 0⟩), ([99], ⟨1, 1⟩), ([97], ⟨1, 2⟩)] wideIndex).any
        (fun r => r.2.fileHeader.rootPage = 3) = true := by decide +kernel
    exact ⟨h', n', t', hrun, of_decide_eq_true (by rwa [show insertAll _ _ wideIndex = _ from hrun] at hroot),
      holds, entries, sorted⟩

def leafIndex (type : AttrType) (es : List (Bytes × RID)) : BplusTreeHandler where
  opened := true
  fileHeader := { attrs := [⟨type, 4⟩], rootPage := 1, order := 4 }
  pages := Pages.empty.set 1 {
    isLeaf := true
    keyNum := es.length
    parent := -1
    keys i := es[i]?.elim ⟨[], ⟨0, 0⟩⟩ fun e => ⟨e.1, e.2⟩
    rids i := es[i]?.elim ⟨0, 0⟩ fun e => e.2 }
  pins _ := 0
  alloc := allocateLast

/-- The pairs `2^-20`, `0` and `1`: the first two are equal up to the tolerance, so their RIDs order them. -/
def floatPairs : List (Bytes × RID) :=
  [([0, 0, 0x80, 0x35], ⟨1, 5⟩), ([0, 0, 0, 0], ⟨1, 6⟩), ([0, 0, 0x80, 0x3f], ⟨1, 7⟩)]

def floatTree : IndexTree 0 := Tree.leaf 1 (floatPairs.map fun p => (⟨p.1, p.2⟩, p.2))

def charPairs : List (Bytes × RID) := [([0x61, 0, 0x62, 0], ⟨1, 0⟩)]

def charTree : IndexTree 0 := Tree.leaf 1 (charPairs.map fun p => (⟨p.1, p.2⟩, p.2))

/-- Inserting `2^-19`, which is equal to `2^-20` and more than `0`, splits the leaf and leaves the new key to the left
    of a smaller one; and a string is refused when one with other bytes behind the terminator is there. -/
theorem insertEntry_misplaces :
    (Holds (fun k : Key => k.rid.slotNum) (leafIndex .floats floatPairs) floatTree ∧
      Orders (leafIndex .floats floatPairs).fileHeader (fun k : Key => k.rid.slotNum) floatTree.allKeys ∧
      (∀ e ∈ floatTree.entries, cmpKey (leafIndex .floats floatPairs).fileHeader ⟨[0, 0, 0, 0x36], ⟨1, 1⟩⟩ e.1 ≠ 0) ∧
      ∃ (h' : BplusTreeHandler) (root left : IndexNode),
        insertEntry 2 [0, 0, 0, 0x36] ⟨1, 1⟩ (leafIndex .floats floatPairs) = some (.ok (), h') ∧
        h'.pages.get h'.fileHeader.rootPage = some root ∧ h'.pages.get (root.rids 0).pageNum = some left ∧
        ⟨[0, 0, 0, 0x36], ⟨1, 1⟩⟩ ∈ left.keyList ∧
        0 < cmpKey h'.fileHeader ⟨[0, 0, 0, 0x36], ⟨1, 1⟩⟩ (root.keys 0)) ∧
    (Holds (fun k : Key => k.rid.slotNum) (leafIndex .chars charPairs) charTree ∧
      Orders (leafIndex .chars charPairs).fileHeader (fun k : Key => k.rid.slotNum)
        (⟨[0x61, 0, 0, 0], ⟨1, 0⟩⟩ :: charTree.allKeys) ∧
      (∀ e ∈ charTree.entries, e.1 ≠ ⟨[0x61, 0, 0, 0], ⟨1, 0⟩⟩) ∧
      ∃ h', insertEntry 1 [0x61, 0, 0, 0] ⟨1, 0⟩ (leafIndex .chars charPairs) =
        some (.error .recordDuplicateKey, h')) := by
  have hrun : ((insertEntry 2 [0, 0, 0, 0x36] ⟨1, 1⟩ (leafIndex .floats floatPairs)).any fun r =>
      r.1.isOk && (r.2.pages.get r.2.fileHeader.rootPage).any fun root =>
        (r.2.pages.get (root.rids 0).pageNum).any fun left =>
          decide (⟨[0, 0, 0, 0x36], ⟨1, 1⟩⟩ ∈ left.keyList ∧
            0 < cmpKey r.2.fileHeader ⟨[0, 0, 0, 0x36], ⟨1, 1⟩⟩ (root.keys 0))) = true := by decide +kernel
  refine ⟨⟨?_, by decide, by decide, ?_⟩, ?_, by decide, by decide, _, rfl⟩
  · exact ⟨rfl, rep_leaf.mpr ⟨_, rfl, ⟨rfl, rfl, rfl⟩⟩, wf_leaf.mpr (by decide), by decide, by decide,
      ⟨⟨_, rfl, rfl⟩, trivial⟩⟩
  · simp only [Option.any_eq_true, Bool.and_eq_true, decide_eq_true_eq] at hrun
    obtain ⟨⟨result, h'⟩, hresult, hok, root, hroot, left, hleft, hmem, hgreater⟩ := hrun
    cases result with
    | error rc => cases hok
    | ok u => exact ⟨h', root, left, hresult, hroot, hleft, hmem, hgreater⟩
  · exact ⟨rfl, rep_leaf.mpr ⟨_, rfl, ⟨rfl, rfl, rfl⟩⟩, wf_leaf.mpr (by decide), by decide, by decide,
      ⟨⟨_, rfl, rfl⟩, trivial⟩⟩

end MiniOb
