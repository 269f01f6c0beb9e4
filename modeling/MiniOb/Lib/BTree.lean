import Mathlib.Order.WithBot
import Mathlib.Data.List.Nodup
import Mathlib.Data.List.Pairwise
import Mathlib.Tactic.Common

/-! # B+ trees

A subtree answers for the ranks from a lower bound, which belongs to it, to an upper bound, which does not; `Chain`
hands the stretches between the keys of a branch to its children. -/

namespace MiniOb.BTree
open List
variable {Pg K V L T : Type}

/-- A leaf: the page that it lies in, and its entries in order. -/
structure Leaf (Pg K V : Type) where
  page : Pg
  entries : List (K × V)

/-- An internal node: its page, the separators, and a child on either side of each of them. -/
structure Branch (Pg K T : Type) where
  page : Pg
  keys : List K
  children : List T

/-- The trees of a height; all leaves have the same depth. -/
def Tree (Pg K V : Type) : Nat → Type
  | 0 => Leaf Pg K V
  | n + 1 => Branch Pg K (Tree Pg K V n)

namespace Tree

def leaf (p : Pg) (es : List (K × V)) : Tree Pg K V 0 := Leaf.mk p es

def branch {n : Nat} (p : Pg) (ks : List K) (cs : List (Tree Pg K V n)) : Tree Pg K V (n + 1) := Branch.mk p ks cs

theorem eq_leaf (t : Tree Pg K V 0) : ∃ p es, t = leaf p es := ⟨Leaf.page t, Leaf.entries t, rfl⟩

theorem eq_branch {n : Nat} (t : Tree Pg K V (n + 1)) : ∃ p ks cs, t = branch p ks cs :=
  ⟨Branch.page t, Branch.keys t, Branch.children t, rfl⟩

def page : {n : Nat} → Tree Pg K V n → Pg
  | 0, t => Leaf.page t
  | _ + 1, t => Branch.page t

def keyCount : {n : Nat} → Tree Pg K V n → Nat
  | 0, t => (Leaf.entries t).length
  | _ + 1, t => (Branch.keys t).length

def entries : {n : Nat} → Tree Pg K V n → List (K × V)
  | 0, t => Leaf.entries t
  | _ + 1, t => (Branch.children t).flatMap entries

def leaves : {n : Nat} → Tree Pg K V n → List Pg
  | 0, t => [Leaf.page t]
  | _ + 1, t => (Branch.children t).flatMap leaves

def leafNodes : {n : Nat} → Tree Pg K V n → List (Leaf Pg K V)
  | 0, t => [t]
  | _ + 1, t => (Branch.children t).flatMap leafNodes

def pages : {n : Nat} → Tree Pg K V n → List Pg
  | 0, t => [Leaf.page t]
  | _ + 1, t => Branch.page t :: (Branch.children t).flatMap pages

def allKeys : {n : Nat} → Tree Pg K V n → List K
  | 0, t => (Leaf.entries t).map Prod.fst
  | _ + 1, t => Branch.keys t ++ (Branch.children t).flatMap allKeys

section
variable {n : Nat} (p : Pg) (ks : List K) (cs : List (Tree Pg K V n)) (es : List (K × V))

@[simp] theorem page_leaf : page (leaf p es) = p := rfl
@[simp] theorem page_branch : page (branch p ks cs) = p := rfl
@[simp] theorem keyCount_leaf : keyCount (leaf p es) = es.length := rfl
@[simp] theorem keyCount_branch : keyCount (branch p ks cs) = ks.length := rfl
@[simp] theorem entries_leaf : entries (leaf p es) = es := rfl
@[simp] theorem entries_branch : entries (branch p ks cs) = cs.flatMap entries := rfl
@[simp] theorem leaves_leaf : leaves (leaf p es) = [p] := rfl
@[simp] theorem leaves_branch : leaves (branch p ks cs) = cs.flatMap leaves := rfl
@[simp] theorem leafNodes_leaf : leafNodes (leaf p es) = [Leaf.mk p es] := rfl
@[simp] theorem leafNodes_branch : leafNodes (branch p ks cs) = cs.flatMap leafNodes := rfl
@[simp] theorem pages_leaf : pages (leaf p es) = [p] := rfl
@[simp] theorem pages_branch : pages (branch p ks cs) = p :: cs.flatMap pages := rfl
@[simp] theorem allKeys_leaf : allKeys (leaf p es) = es.map Prod.fst := rfl
@[simp] theorem allKeys_branch : allKeys (branch p ks cs) = ks ++ cs.flatMap allKeys := rfl

end

theorem leaves_eq_map : ∀ {n : Nat} (t : Tree Pg K V n), t.leaves = t.leafNodes.map Leaf.page
  | 0, _ => rfl
  | _ + 1, t => by
    obtain ⟨p, ks, cs, rfl⟩ := t.eq_branch
    rw [leaves_branch, leafNodes_branch, map_flatMap]
    exact congrArg (cs.flatMap ·) (funext leaves_eq_map)

theorem entries_eq_flatMap : ∀ {n : Nat} (t : Tree Pg K V n), t.entries = t.leafNodes.flatMap Leaf.entries
  | 0, t => (append_nil _).symm
  | _ + 1, t => by
    obtain ⟨p, ks, cs, rfl⟩ := t.eq_branch
    rw [entries_branch, leafNodes_branch, flatMap_assoc]
    exact congrArg (cs.flatMap ·) (funext entries_eq_flatMap)

theorem page_mem_pages : ∀ {n : Nat} (t : Tree Pg K V n), t.page ∈ t.pages
  | 0, _ => mem_singleton_self _
  | _ + 1, _ => mem_cons_self

theorem leaves_subset_pages : ∀ {n : Nat} (t : Tree Pg K V n), t.leaves ⊆ t.pages
  | 0, _ => List.Subset.refl _
  | _ + 1, t => by
    intro p hp
    obtain ⟨c, hc, hpc⟩ := mem_flatMap.mp hp
    exact mem_cons_of_mem _ (mem_flatMap.mpr ⟨c, hc, leaves_subset_pages c hpc⟩)

theorem leaves_sublist_pages : ∀ {n : Nat} (t : Tree Pg K V n), t.leaves.Sublist t.pages
  | 0, _ => List.Sublist.refl _
  | _ + 1, t => by
    refine List.Sublist.cons _ ?_
    show ((Branch.children t).flatMap leaves).Sublist ((Branch.children t).flatMap pages)
    induction Branch.children t with
    | nil => exact List.Sublist.refl _
    | cons c cs ih => exact (leaves_sublist_pages c).append ih

theorem mem_allKeys_of_mem_entries : ∀ {n : Nat} {t : Tree Pg K V n} {e : K × V}, e ∈ t.entries → e.1 ∈ t.allKeys
  | 0, _, _, he => mem_map_of_mem he
  | _ + 1, _, _, he => by
    obtain ⟨c, hc, hec⟩ := mem_flatMap.mp he
    exact mem_append_right _ (mem_flatMap.mpr ⟨c, hc, mem_allKeys_of_mem_entries hec⟩)

theorem eq_of_mem_pages {n : Nat} {cs : List (Tree Pg K V n)} (h : (cs.flatMap pages).Nodup) {x y : Tree Pg K V n}
    (hx : x ∈ cs) (hy : y ∈ cs) {p : Pg} (hpx : p ∈ x.pages) (hpy : p ∈ y.pages) : x = y := by
  by_contra hne
  have hdisjoint := (nodup_flatMap.mp h).2
  have : Std.Symm (Function.onFun List.Disjoint (@pages Pg K V n)) :=
    ⟨fun _ _ hd _ hy hx => hd hx hy⟩
  exact hdisjoint.forall hx hy hne hpx hpy

end Tree

section Chain
variable [LinearOrder L] (rank : K → L) (P : WithBot L → WithTop L → T → Prop)

/-- The children `ts` answer for the stretches that the keys `ks` cut out between `lo` and `hi`. -/
def Chain : WithBot L → List K → List T → WithTop L → Prop
  | lo, [], [t], hi => P lo hi t
  | lo, k :: ks, t :: ts, hi => (lo < rank k ∧ rank k < hi) ∧ P lo (rank k) t ∧ Chain (rank k) ks ts hi
  | _, _, _, _ => False

variable {rank P}

@[simp] theorem chain_nil {lo : WithBot L} {hi : WithTop L} {t : T} : Chain rank P lo [] [t] hi ↔ P lo hi t := by
  simp [Chain]

@[simp] theorem chain_cons {lo : WithBot L} {hi : WithTop L} {k : K} {ks : List K} {t : T} {ts : List T} :
    Chain rank P lo (k :: ks) (t :: ts) hi ↔
      (lo < rank k ∧ rank k < hi) ∧ P lo (rank k) t ∧ Chain rank P (rank k) ks ts hi := by
  simp [Chain]

theorem Chain.length : ∀ {lo : WithBot L} {ks : List K} {ts : List T} {hi : WithTop L},
    Chain rank P lo ks ts hi → ts.length = ks.length + 1
  | _, [], [_], _, _ => rfl
  | _, _ :: _, _ :: _, _, h => by
    have htail := Chain.length (chain_cons.mp h).2.2
    simp [htail]
  | _, [], [], _, h => by simp [Chain] at h
  | _, [], _ :: _ :: _, _, h => by simp [Chain] at h
  | _, _ :: _, [], _, h => by simp [Chain] at h

theorem Chain.keys_bounded : ∀ {lo : WithBot L} {ks : List K} {ts : List T} {hi : WithTop L},
    Chain rank P lo ks ts hi → ∀ k ∈ ks, lo < rank k ∧ rank k < hi
  | _, k :: ks, _ :: _, _, h, k', hk' => by
    obtain ⟨hk, _, htail⟩ := chain_cons.mp h
    rcases mem_cons.mp hk' with rfl | hmem
    · exact hk
    · obtain ⟨hlo, hhi⟩ := htail.keys_bounded k' hmem
      exact ⟨hk.1.trans hlo, hhi⟩
  | _, [], _, _, _, _, hk' => absurd hk' not_mem_nil
  | _, _ :: _, [], _, h, _, _ => by simp [Chain] at h

theorem Chain.keys_sorted : ∀ {lo : WithBot L} {ks : List K} {ts : List T} {hi : WithTop L},
    Chain rank P lo ks ts hi → ks.Pairwise fun a b => rank a < rank b
  | _, k :: ks, _ :: _, _, h => by
    obtain ⟨_, _, htail⟩ := chain_cons.mp h
    refine pairwise_cons.mpr ⟨fun k' hk' => ?_, htail.keys_sorted⟩
    exact WithBot.coe_lt_coe.mp (htail.keys_bounded k' hk').1
  | _, [], _, _, _ => List.Pairwise.nil
  | _, _ :: _, [], _, h => by simp [Chain] at h

theorem chain_append {lo : WithBot L} {hi : WithTop L} {m : K} {ks₂ : List K} {ts₂ : List T} :
    ∀ {ks₁ : List K} {ts₁ : List T}, ts₁.length = ks₁.length + 1 → (Chain rank P lo (ks₁ ++ m :: ks₂) (ts₁ ++ ts₂) hi ↔
        Chain rank P lo ks₁ ts₁ (rank m) ∧ (lo < rank m ∧ rank m < hi) ∧ Chain rank P (rank m) ks₂ ts₂ hi) := by
  intro ks₁
  induction ks₁ generalizing lo with
  | nil =>
    intro ts₁ hlen
    obtain ⟨t, rfl⟩ := length_eq_one_iff.mp hlen
    simp only [nil_append, singleton_append, chain_cons, chain_nil]
    tauto
  | cons k ks ih =>
    intro ts₁ hlen
    obtain ⟨t, ts, rfl⟩ := exists_cons_of_length_eq_add_one hlen
    have hts : ts.length = ks.length + 1 := by simpa using hlen
    simp only [cons_append, chain_cons, ih hts]
    constructor
    · rintro ⟨⟨hlo, _⟩, ht, hks, ⟨hkm, hm⟩, hrest⟩
      have hkm' : rank k < rank m := WithBot.coe_lt_coe.mp hkm
      exact ⟨⟨⟨hlo, WithTop.coe_lt_coe.mpr hkm'⟩, ht, hks⟩, ⟨hlo.trans hkm, hm⟩, hrest⟩
    · rintro ⟨⟨⟨hlo, hkm⟩, ht, hks⟩, ⟨_, hm⟩, hrest⟩
      have hkm' : rank k < rank m := WithTop.coe_lt_coe.mp hkm
      exact ⟨⟨hlo, hkm.trans hm⟩, ht, hks, ⟨WithBot.coe_lt_coe.mpr hkm', hm⟩, hrest⟩

theorem Chain.exists_of_mem {lo : WithBot L} {ks : List K} {ts : List T} {hi : WithTop L} {t : T}
    (h : Chain rank P lo ks ts hi) (ht : t ∈ ts) : ∃ a b, P a b t := by
  induction ts generalizing lo ks with
  | nil => cases ht
  | cons u ts ih =>
    cases ks with
    | nil =>
      obtain rfl : ts = [] := by simpa using h.length
      obtain rfl := mem_singleton.mp ht
      exact ⟨lo, hi, chain_nil.mp h⟩
    | cons k ks =>
      obtain ⟨-, hu, htail⟩ := chain_cons.mp h
      rcases mem_cons.mp ht with rfl | ht
      · exact ⟨_, _, hu⟩
      · exact ih htail ht

theorem Chain.imp {Q : WithBot L → WithTop L → T → Prop} :
    ∀ {lo : WithBot L} {ks : List K} {ts : List T} {hi : WithTop L},
    Chain rank P lo ks ts hi → (∀ t ∈ ts, ∀ a b, P a b t → Q a b t) → Chain rank Q lo ks ts hi
  | lo, [], [t], hi, h, himp => chain_nil.mpr (himp t mem_cons_self _ _ (chain_nil.mp h))
  | lo, k :: ks, t :: ts, hi, h, himp => by
    obtain ⟨hk, ht, htail⟩ := chain_cons.mp h
    refine chain_cons.mpr ⟨hk, himp t mem_cons_self _ _ ht, htail.imp fun u hu => ?_⟩
    exact himp u (mem_cons_of_mem t hu)
  | _, [], [], _, h, _ => by simp [Chain] at h
  | _, [], _ :: _ :: _, _, h, _ => by simp [Chain] at h
  | _, _ :: _, [], _, h, _ => by simp [Chain] at h

/-- The child that answers for `x`, and the chain around it: any chain over that child's stretch fits in its
    place. -/
theorem Chain.route {x : L} : ∀ {lo : WithBot L} {ks : List K} {ts : List T} {hi : WithTop L},
    Chain rank P lo ks ts hi → lo ≤ x → x < hi →
    ∃ ks₁ ks₂ ts₁ t ts₂, ∃ (a : WithBot L) (b : WithTop L), ks = ks₁ ++ ks₂ ∧ ts = ts₁ ++ t :: ts₂ ∧
      ts₁.length = ks₁.length ∧ (∀ k ∈ ks₁, rank k ≤ x) ∧ (∀ k ∈ ks₂, x < rank k) ∧ a ≤ x ∧ x < b ∧ P a b t ∧
      ∀ ks' ts', Chain rank P a ks' ts' b → Chain rank P lo (ks₁ ++ ks' ++ ks₂) (ts₁ ++ ts' ++ ts₂) hi
  | lo, [], [t], hi, h, hlo, hhi => by
    refine ⟨[], [], [], t, [], lo, hi, rfl, rfl, rfl, by simp, by simp, hlo, hhi, chain_nil.mp h, ?_⟩
    intro ks' ts' h'
    simpa using h'
  | lo, k :: ks, t :: ts, hi, h, hlo, hhi => by
    obtain ⟨hk, ht, htail⟩ := chain_cons.mp h
    by_cases hkx : rank k ≤ x
    · -- The key is at or below `x`: the child is further right.
      obtain ⟨ks₁, ks₂, ts₁, u, ts₂, a, b, rfl, rfl, hlen, hle, hlt, ha, hb, hu, hctx⟩ :=
        htail.route (WithBot.coe_le_coe.mpr hkx) hhi
      refine ⟨k :: ks₁, ks₂, t :: ts₁, u, ts₂, a, b, rfl, rfl, by simp [hlen], ?_, hlt, ha, hb, hu, ?_⟩
      · intro k' hk'
        rcases mem_cons.mp hk' with rfl | hmem
        · exact hkx
        · exact hle k' hmem
      · intro ks' ts' h'
        exact chain_cons.mpr ⟨hk, ht, hctx ks' ts' h'⟩
    · have hxk : x < rank k := not_le.mp hkx
      refine ⟨[], k :: ks, [], t, ts, lo, rank k, rfl, rfl, rfl, by simp, ?_, hlo,
        WithTop.coe_lt_coe.mpr hxk, ht, ?_⟩
      · intro k' hk'
        rcases mem_cons.mp hk' with rfl | hmem
        · exact hxk
        · exact hxk.trans (WithBot.coe_lt_coe.mp (htail.keys_bounded k' hmem).1)
      · intro ks' ts' h'
        exact (chain_append h'.length).mpr ⟨h', hk, htail⟩
  | _, [], [], _, h, _, _ => by simp [Chain] at h
  | _, [], _ :: _ :: _, _, h, _, _ => by simp [Chain] at h
  | _, _ :: _, [], _, h, _, _ => by simp [Chain] at h

theorem Chain.pair {s : K} {ks₂ : List K} {ts₂ : List T} {l r : T} {hi : WithTop L} :
    ∀ {lo : WithBot L} {ks₁ : List K} {ts₁ : List T}, ts₁.length = ks₁.length →
    Chain rank P lo (ks₁ ++ s :: ks₂) (ts₁ ++ l :: r :: ts₂) hi →
    ∃ (a : WithBot L) (b : WithTop L), (a < rank s ∧ rank s < b) ∧ P a (rank s) l ∧ P (rank s) b r ∧
      ∀ ks' ts', Chain rank P a ks' ts' b → Chain rank P lo (ks₁ ++ ks' ++ ks₂) (ts₁ ++ ts' ++ ts₂) hi
  | lo, [], ts₁, hlen, h => by
    obtain rfl := length_eq_zero_iff.mp hlen
    obtain ⟨⟨hlo, hhi⟩, hl, htail⟩ := chain_cons.mp h
    cases ks₂ with
    | nil =>
      obtain rfl : ts₂ = [] := by simpa using htail.length
      exact ⟨lo, hi, ⟨hlo, hhi⟩, hl, chain_nil.mp htail, fun ks' ts' h' => by simpa using h'⟩
    | cons k ks =>
      obtain ⟨⟨hsk, hk⟩, hr, hrest⟩ := chain_cons.mp htail
      have hsk' : rank s < rank k := WithBot.coe_lt_coe.mp hsk
      refine ⟨lo, rank k, ⟨hlo, WithTop.coe_lt_coe.mpr hsk'⟩, hl, hr, fun ks' ts' h' => ?_⟩
      exact (chain_append h'.length).mpr ⟨h', ⟨hlo.trans hsk, hk⟩, hrest⟩
  | lo, k :: ks₁, ts₁, hlen, h => by
    obtain ⟨t, ts, rfl⟩ := exists_cons_of_length_eq_add_one hlen
    obtain ⟨hk, ht, htail⟩ := chain_cons.mp h
    obtain ⟨a, b, hs, hl, hr, hctx⟩ := htail.pair (by simpa using hlen)
    exact ⟨a, b, hs, hl, hr, fun ks' ts' h' => chain_cons.mpr ⟨hk, ht, hctx ks' ts' h'⟩⟩

section
variable {f : T → List (K × V)} (hP : ∀ a b t, P a b t → (f t).Pairwise (fun e e' => rank e.1 < rank e'.1) ∧
  ∀ e ∈ f t, a ≤ rank e.1 ∧ rank e.1 < b)
include hP

theorem Chain.flatMap_sorted : ∀ {lo : WithBot L} {ks : List K} {ts : List T} {hi : WithTop L},
    Chain rank P lo ks ts hi →
      (ts.flatMap f).Pairwise (fun e e' => rank e.1 < rank e'.1) ∧
      ∀ e ∈ ts.flatMap f, lo ≤ rank e.1 ∧ rank e.1 < hi
  | lo, [], [t], hi, h => by simpa using hP lo hi t (chain_nil.mp h)
  | lo, k :: ks, t :: ts, hi, h => by
    obtain ⟨hk, ht, htail⟩ := chain_cons.mp h
    obtain ⟨hsort, hbound⟩ := hP _ _ _ ht
    obtain ⟨hsort', hbound'⟩ := htail.flatMap_sorted
    simp only [flatMap_cons]
    refine ⟨pairwise_append.mpr ⟨hsort, hsort', fun e he e' he' => ?_⟩, fun e he => ?_⟩
    · exact (WithTop.coe_lt_coe.mp (hbound e he).2).trans_le (WithBot.coe_le_coe.mp (hbound' e' he').1)
    · rcases mem_append.mp he with he | he
      · exact ⟨(hbound e he).1, (hbound e he).2.trans hk.2⟩
      · exact ⟨hk.1.le.trans (hbound' e he).1, (hbound' e he).2⟩
  | _, [], [], _, h => by simp [Chain] at h
  | _, [], _ :: _ :: _, _, h => by simp [Chain] at h
  | _, _ :: _, [], _, h => by simp [Chain] at h

theorem Chain.outside {x : L} {t : T} {ks₂ : List K} {ts₂ : List T} {hi : WithTop L}
    (h₂ : ∀ k ∈ ks₂, x < rank k) : ∀ {lo : WithBot L} {ks₁ : List K} {ts₁ : List T}, ts₁.length = ks₁.length →
    Chain rank P lo (ks₁ ++ ks₂) (ts₁ ++ t :: ts₂) hi → (∀ k ∈ ks₁, rank k ≤ x) →
    (∀ e ∈ ts₁.flatMap f, rank e.1 < x) ∧ ∀ e ∈ ts₂.flatMap f, x < rank e.1
  | lo, [], ts₁, hlen, h, _ => by
    obtain rfl := length_eq_zero_iff.mp hlen
    refine ⟨by simp, fun e he => ?_⟩
    cases ks₂ with
    | nil =>
      obtain rfl : ts₂ = [] := by simpa using h.length
      cases he
    | cons k ks =>
      obtain ⟨-, -, htail⟩ := chain_cons.mp h
      exact (h₂ k mem_cons_self).trans_le (WithBot.coe_le_coe.mp ((htail.flatMap_sorted hP).2 e he).1)
  | lo, k :: ks₁, ts₁, hlen, h, h₁ => by
    obtain ⟨u, ts, rfl⟩ := exists_cons_of_length_eq_add_one hlen
    obtain ⟨-, hu, htail⟩ := chain_cons.mp h
    obtain ⟨hleft, hright⟩ := htail.outside h₂ (by simpa using hlen) fun k' hk' => h₁ k' (mem_cons_of_mem _ hk')
    refine ⟨fun e he => ?_, hright⟩
    rcases mem_append.mp he with he | he
    · exact (WithTop.coe_lt_coe.mp ((hP _ _ _ hu).2 e he).2).trans_le (h₁ k mem_cons_self)
    · exact hleft e he

end

end Chain

/-- How full nodes are: the least number of keys by height, for nodes other than the root, and the most. -/
structure Shape where
  minKeys : Nat → Nat
  maxKeys : Nat

section WF
variable [LinearOrder L] (rank : K → L) (s : Shape)

/-- A well-formed subtree for the ranks from `lo` to `hi` whose root node has at least `least` keys. -/
def WF : (n : Nat) → Nat → WithBot L → WithTop L → Tree Pg K V n → Prop
  | 0, least, lo, hi, t =>
    (Leaf.entries t).Pairwise (fun e e' => rank e.1 < rank e'.1) ∧
      (∀ e ∈ Leaf.entries t, lo ≤ rank e.1 ∧ rank e.1 < hi) ∧
      least ≤ (Leaf.entries t).length ∧ (Leaf.entries t).length ≤ s.maxKeys
  | n + 1, least, lo, hi, t =>
    Chain rank (WF n (s.minKeys n)) lo (Branch.keys t) (Branch.children t) hi ∧
      least ≤ (Branch.keys t).length ∧ (Branch.keys t).length ≤ s.maxKeys

/-- A well-formed tree: an internal root has a key, a leaf at the root may be empty. -/
def WFRoot (n : Nat) (t : Tree Pg K V n) : Prop := WF rank s n (if n = 0 then 0 else 1) ⊥ ⊤ t

variable {rank s} {least n : Nat}

theorem wf_leaf {lo : WithBot L} {hi : WithTop L} {p : Pg} {es : List (K × V)} :
    WF rank s 0 least lo hi (Tree.leaf p es) ↔ es.Pairwise (fun e e' => rank e.1 < rank e'.1) ∧
      (∀ e ∈ es, lo ≤ rank e.1 ∧ rank e.1 < hi) ∧ least ≤ es.length ∧ es.length ≤ s.maxKeys := Iff.rfl

theorem wf_branch {lo : WithBot L} {hi : WithTop L} {p : Pg} {ks : List K}
    {cs : List (Tree Pg K V n)} : WF rank s (n + 1) least lo hi (Tree.branch p ks cs) ↔
      Chain rank (WF rank s n (s.minKeys n)) lo ks cs hi ∧ least ≤ ks.length ∧ ks.length ≤ s.maxKeys := Iff.rfl

theorem WF.entries_sorted : ∀ {n least : Nat} {lo : WithBot L} {hi : WithTop L} {t : Tree Pg K V n},
    WF rank s n least lo hi t → t.entries.Pairwise (fun e e' => rank e.1 < rank e'.1) ∧
      ∀ e ∈ t.entries, lo ≤ rank e.1 ∧ rank e.1 < hi
  | 0, _, _, _, _, h => ⟨h.1, h.2.1⟩
  | n + 1, _, _, _, t, h => by
    have hchild : ∀ a b (c : Tree Pg K V n), WF rank s n (s.minKeys n) a b c →
        c.entries.Pairwise (fun e e' => rank e.1 < rank e'.1) ∧ ∀ e ∈ c.entries, a ≤ rank e.1 ∧ rank e.1 < b :=
      fun _ _ _ hc => hc.entries_sorted
    exact Chain.flatMap_sorted hchild h.1

theorem WF.weaken {least' : Nat} {lo : WithBot L} {hi : WithTop L} {t : Tree Pg K V n}
    (h : WF rank s n least lo hi t) (hle : least' ≤ least) : WF rank s n least' lo hi t := by
  cases n with
  | zero => exact ⟨h.1, h.2.1, hle.trans h.2.2.1, h.2.2.2⟩
  | succ n => exact ⟨h.1, hle.trans h.2.1, h.2.2⟩

theorem WF.of_le_keyCount {least' : Nat} {lo : WithBot L} {hi : WithTop L} {t : Tree Pg K V n}
    (h : WF rank s n least lo hi t) (hle : least' ≤ t.keyCount) : WF rank s n least' lo hi t := by
  cases n with
  | zero => exact ⟨h.1, h.2.1, hle, h.2.2.2⟩
  | succ n => exact ⟨h.1, hle, h.2.2⟩

theorem WF.least_le {lo : WithBot L} {hi : WithTop L} {t : Tree Pg K V n}
    (h : WF rank s n least lo hi t) : least ≤ t.keyCount ∧ t.keyCount ≤ s.maxKeys := by
  cases n with
  | zero => exact h.2.2
  | succ n => exact h.2

section
variable {n least : Nat} {lo : WithBot L} {hi : WithTop L} {t : Tree Pg K V (n + 1)}
  (h : WF rank s (n + 1) least lo hi t)
include h

theorem WF.exists_last_child : ∃ p ks cs c, t = Tree.branch p ks (cs ++ [c]) := by
  obtain ⟨p, ks, cs, rfl⟩ := t.eq_branch
  have hlen := (wf_branch.mp h).1.length
  rcases eq_nil_or_concat' cs with rfl | ⟨cs, c, rfl⟩
  · cases hlen
  · exact ⟨p, ks, cs, c, rfl⟩

theorem WF.exists_last (hpos : 0 < t.keyCount) : ∃ p ks k cs c, t = Tree.branch p (ks ++ [k]) (cs ++ [c]) := by
  obtain ⟨p, ks, cs, c, rfl⟩ := h.exists_last_child
  rcases eq_nil_or_concat' ks with rfl | ⟨ks, k, rfl⟩
  · cases hpos
  · exact ⟨p, ks, k, cs, c, rfl⟩

end

theorem exists_split {x : L} : ∀ {es : List (K × V)}, es.Pairwise (fun e e' => rank e.1 < rank e'.1) →
    (∀ e ∈ es, rank e.1 ≠ x) →
    ∃ A B, es = A ++ B ∧ (∀ e ∈ A, rank e.1 < x) ∧ ∀ e ∈ B, x < rank e.1
  | [], _, _ => ⟨[], [], rfl, by simp, by simp⟩
  | e :: es, hsort, hne => by
    obtain ⟨hhead, htail⟩ := pairwise_cons.mp hsort
    rcases lt_or_gt_of_ne (hne e mem_cons_self) with hlt | hgt
    · obtain ⟨A, B, rfl, hA, hB⟩ := exists_split htail fun e' he' => hne e' (mem_cons_of_mem _ he')
      exact ⟨e :: A, B, rfl, forall_mem_cons.mpr ⟨hlt, hA⟩, hB⟩
    · exact ⟨[], e :: es, rfl, by simp, forall_mem_cons.mpr ⟨hgt, fun e' he' => hgt.trans (hhead e' he')⟩⟩

theorem pairwise_insert {A B : List (K × V)} {e : K × V}
    (hsort : (A ++ B).Pairwise (fun e e' => rank e.1 < rank e'.1)) (hA : ∀ a ∈ A, rank a.1 < rank e.1)
    (hB : ∀ b ∈ B, rank e.1 < rank b.1) : (A ++ e :: B).Pairwise (fun e e' => rank e.1 < rank e'.1) := by
  obtain ⟨hsA, hsB, hAB⟩ := pairwise_append.mp hsort
  refine pairwise_append.mpr ⟨hsA, pairwise_cons.mpr ⟨hB, hsB⟩, fun a ha b hb => ?_⟩
  rcases mem_cons.mp hb with rfl | hb
  · exact hA a ha
  · exact hAB a ha b hb

theorem chain_leaf_cut {lo : WithBot L} {hi : WithTop L} {es rest : List (K × V)} {e : K × V} {m : Nat} {p q : Pg}
    (hsort : es.Pairwise (fun e e' => rank e.1 < rank e'.1)) (hbound : ∀ e ∈ es, lo ≤ rank e.1 ∧ rank e.1 < hi)
    (hm : 0 < m) (hdrop : es.drop m = e :: rest) (hleft : least ≤ m ∧ m ≤ s.maxKeys)
    (hright : least ≤ es.length - m ∧ es.length - m ≤ s.maxKeys) :
    Chain rank (WF rank s 0 least) lo [e.1] [Tree.leaf p (es.take m), Tree.leaf q (es.drop m)] hi := by
  have hsplit : es.take m ++ e :: rest = es := by rw [← hdrop, take_append_drop]
  have hlen : m < es.length := by
    have := congrArg List.length hdrop
    simp only [length_drop, length_cons] at this
    omega
  have htake : (es.take m).length = m := by rw [length_take]; omega
  rw [← hsplit] at hsort
  obtain ⟨hs₁, hs₂, hcross⟩ := pairwise_append.mp hsort
  have hlt : ∀ a ∈ es.take m, rank a.1 < rank e.1 := fun a ha => hcross a ha e mem_cons_self
  have hge : ∀ b ∈ es.drop m, rank e.1 ≤ rank b.1 := by
    rw [hdrop]
    exact forall_mem_cons.mpr ⟨le_refl _, fun b hb => ((pairwise_cons.mp hs₂).1 b hb).le⟩
  obtain ⟨a, ha⟩ := exists_mem_of_length_pos (htake.symm ▸ hm : 0 < (es.take m).length)
  have hemem : e ∈ es := mem_of_mem_drop (hdrop ▸ mem_cons_self : e ∈ es.drop m)
  refine chain_cons.mpr ⟨⟨?_, (hbound e hemem).2⟩, ⟨hs₁, fun b hb => ?_, ?_, ?_⟩,
    chain_nil.mpr ⟨?_, fun b hb => ?_, ?_, ?_⟩⟩
  · exact (hbound a (mem_of_mem_take ha)).1.trans_lt (WithBot.coe_lt_coe.mpr (hlt a ha))
  · exact ⟨(hbound b (mem_of_mem_take hb)).1, WithTop.coe_lt_coe.mpr (hlt b hb)⟩
  · exact htake.symm ▸ hleft.1
  · exact htake.symm ▸ hleft.2
  · exact hdrop.symm ▸ hs₂
  · exact ⟨WithBot.coe_le_coe.mpr (hge b hb), (hbound b (mem_of_mem_drop hb)).2⟩
  · exact hright.1.trans_eq length_drop.symm
  · exact length_drop.trans_le hright.2

theorem chain_branch_cut {lo : WithBot L} {hi : WithTop L} {ks₁ ks₂ : List K} {m : K} {ts₁ ts₂ : List (Tree Pg K V n)}
    {p q : Pg} (h : Chain rank (WF rank s n (s.minKeys n)) lo (ks₁ ++ m :: ks₂) (ts₁ ++ ts₂) hi)
    (hlen : ts₁.length = ks₁.length + 1) (h₁ : least ≤ ks₁.length ∧ ks₁.length ≤ s.maxKeys)
    (h₂ : least ≤ ks₂.length ∧ ks₂.length ≤ s.maxKeys) :
    Chain rank (WF rank s (n + 1) least) lo [m] [Tree.branch p ks₁ ts₁, Tree.branch q ks₂ ts₂] hi := by
  obtain ⟨hleft, hm, hright⟩ := (chain_append hlen).mp h
  exact chain_cons.mpr ⟨hm, wf_branch.mpr ⟨hleft, h₁⟩, chain_nil.mpr (wf_branch.mpr ⟨hright, h₂⟩)⟩

section
variable {a : WithBot L} {b : WithTop L} {m : K} {p q : Pg}

theorem wf_leaf_join {least least' : Nat} {L₁ L₂ : List (K × V)} (h₁ : WF rank s 0 least a (rank m) (Tree.leaf p L₁))
    (h₂ : WF rank s 0 least' (rank m) b (Tree.leaf q L₂)) (hm : a < rank m ∧ rank m < b) :
    (L₁ ++ L₂).Pairwise (fun e e' => rank e.1 < rank e'.1) ∧ ∀ e ∈ L₁ ++ L₂, a ≤ rank e.1 ∧ rank e.1 < b := by
  obtain ⟨hs₁, hb₁, -, -⟩ := wf_leaf.mp h₁
  obtain ⟨hs₂, hb₂, -, -⟩ := wf_leaf.mp h₂
  refine ⟨pairwise_append.mpr ⟨hs₁, hs₂, fun e he e' he' => ?_⟩, fun e he => ?_⟩
  · exact (WithTop.coe_lt_coe.mp (hb₁ e he).2).trans_le (WithBot.coe_le_coe.mp (hb₂ e' he').1)
  · rcases mem_append.mp he with he | he
    · exact ⟨(hb₁ e he).1, (hb₁ e he).2.trans hm.2⟩
    · exact ⟨hm.1.le.trans (hb₂ e he).1, (hb₂ e he).2⟩

theorem wf_branch_join {n least least' : Nat} {K₁ K₂ : List K} {C₁ C₂ : List (Tree Pg K V n)}
    (h₁ : WF rank s (n + 1) least a (rank m) (Tree.branch p K₁ C₁))
    (h₂ : WF rank s (n + 1) least' (rank m) b (Tree.branch q K₂ C₂)) (hm : a < rank m ∧ rank m < b) :
    Chain rank (WF rank s n (s.minKeys n)) a (K₁ ++ m :: K₂) (C₁ ++ C₂) b :=
  (chain_append (wf_branch.mp h₁).1.length).mpr ⟨(wf_branch.mp h₁).1, hm, (wf_branch.mp h₂).1⟩

end

end WF

/-- The leaf that is reached by going, in every node, to the child before the first key that passes the test. -/
def find (after : K → Bool) : {n : Nat} → Tree Pg K V n → Option (Leaf Pg K V)
  | 0, t => some t
  | _ + 1, t => ((Branch.children t)[(Branch.keys t).findIdx after]?).bind (find after)

theorem findIdx_split {p : K → Bool} {ks₁ ks₂ : List K} (h₁ : ∀ k ∈ ks₁, p k = false) (h₂ : ∀ k ∈ ks₂, p k = true) :
    (ks₁ ++ ks₂).findIdx p = ks₁.length := by
  have hfront : ks₁.findIdx p = ks₁.length := findIdx_eq_length.mpr h₁
  rw [findIdx_append, hfront, if_neg (lt_irrefl _)]
  cases ks₂ with
  | nil => simp
  | cons k ks => simp [findIdx_cons, h₂ k mem_cons_self]

theorem find_branch {n : Nat} {after : K → Bool} {p : Pg} {ks₁ ks₂ : List K} {ts₁ ts₂ : List (Tree Pg K V n)}
    {c : Tree Pg K V n} (hlen : ts₁.length = ks₁.length) (h₁ : ∀ k ∈ ks₁, after k = false)
    (h₂ : ∀ k ∈ ks₂, after k = true) : find after (Tree.branch p (ks₁ ++ ks₂) (ts₁ ++ c :: ts₂)) = find after c := by
  show ((ts₁ ++ c :: ts₂)[(ks₁ ++ ks₂).findIdx after]?).bind (find after) = find after c
  rw [findIdx_split h₁ h₂, ← hlen]
  simp

section
variable [LinearOrder L] {rank : K → L} {s : Shape} {n least : Nat} {lo : WithBot L} {hi : WithTop L}
  {t : Tree Pg K V n}

theorem WF.find_split {x : L} {after : K → Bool} (h : WF rank s n least lo hi t) (hlo : lo ≤ x) (hhi : x < hi)
    (hafter : ∀ k ∈ t.allKeys, after k = true ↔ x < rank k) :
    ∃ leaf A B, find after t = some leaf ∧ t.leafNodes = A ++ leaf :: B ∧
      (∀ e ∈ A.flatMap Leaf.entries, rank e.1 < x) ∧ ∀ e ∈ B.flatMap Leaf.entries, x < rank e.1 := by
  induction n generalizing least lo hi with
  | zero => exact ⟨t, [], [], rfl, rfl, by simp, by simp⟩
  | succ n ih =>
    obtain ⟨p, ks, cs, rfl⟩ := t.eq_branch
    obtain ⟨hchain, -⟩ := wf_branch.mp h
    obtain ⟨ks₁, ks₂, ts₁, c, ts₂, a, b, rfl, rfl, hlen, hle, hlt, ha, hb, hc, -⟩ := hchain.route hlo hhi
    have hsorted : ∀ a b (c : Tree Pg K V n), WF rank s n (s.minKeys n) a b c →
        c.entries.Pairwise (fun e e' => rank e.1 < rank e'.1) ∧ ∀ e ∈ c.entries, a ≤ rank e.1 ∧ rank e.1 < b :=
      fun _ _ _ hc => hc.entries_sorted
    obtain ⟨hleft, hright⟩ := hchain.outside hsorted hlt hlen hle
    have hkeys : ∀ k ∈ c.allKeys, after k = true ↔ x < rank k := fun k hk => by
      refine hafter k (mem_append_right _ (mem_flatMap.mpr ⟨c, ?_, hk⟩))
      exact mem_append_right _ mem_cons_self
    obtain ⟨leaf, A, B, hfind, hleaves, hA, hB⟩ := ih hc ha hb hkeys
    have hflat : ∀ ts : List (Tree Pg K V n), (ts.flatMap Tree.leafNodes).flatMap Leaf.entries =
      ts.flatMap Tree.entries :=
      fun ts => by rw [flatMap_assoc]; exact congrArg (ts.flatMap ·) (funext fun c => c.entries_eq_flatMap.symm)
    refine ⟨leaf, ts₁.flatMap Tree.leafNodes ++ A, B ++ ts₂.flatMap Tree.leafNodes, ?_, ?_, ?_, ?_⟩
    · rw [find_branch hlen (fun k hk => ?_) (fun k hk => ?_)]
      · exact hfind
      · refine Bool.eq_false_iff.mpr fun htrue => (hle k hk).not_gt ?_
        exact (hafter k (mem_append_left _ (mem_append_left _ hk))).mp htrue
      · exact (hafter k (mem_append_left _ (mem_append_right _ hk))).mpr (hlt k hk)
    · rw [Tree.leafNodes_branch, flatMap_append, flatMap_cons, hleaves]
      simp only [append_assoc, cons_append]
    · rw [flatMap_append, hflat]
      exact fun e he => (mem_append.mp he).elim (hleft e) (hA e)
    · rw [flatMap_append, hflat]
      exact fun e he => (mem_append.mp he).elim (hB e) (hright e)

theorem WF.find_first (h : WF rank s n least lo hi t) :
    ∃ leaf rest, find (fun _ => true) t = some leaf ∧ t.leafNodes = leaf :: rest := by
  induction n generalizing least lo hi with
  | zero => exact ⟨t, [], rfl, rfl⟩
  | succ n ih =>
    obtain ⟨p, ks, cs, rfl⟩ := t.eq_branch
    obtain ⟨hchain, -⟩ := wf_branch.mp h
    cases cs with
    | nil => cases hchain.length
    | cons c cs =>
      obtain ⟨a, b, hc⟩ := hchain.exists_of_mem mem_cons_self
      obtain ⟨leaf, rest, hfind, hleaves⟩ := ih hc
      refine ⟨leaf, rest ++ cs.flatMap Tree.leafNodes, ?_, ?_⟩
      · have hcut : find (fun _ => true) (Tree.branch p ([] ++ ks) ([] ++ c :: cs)) = find (fun _ => true) c :=
          find_branch rfl (by simp) (by simp)
        exact hcut.trans hfind
      · rw [Tree.leafNodes_branch, flatMap_cons, hleaves, cons_append]

theorem WF.minKeys_le_leaf (h : WF rank s n least lo hi t) (hleast : n = 0 → s.minKeys 0 ≤ least) {l : Leaf Pg K V}
    (hl : l ∈ t.leafNodes) : s.minKeys 0 ≤ l.entries.length := by
  induction n generalizing least lo hi with
  | zero =>
    obtain rfl := mem_singleton.mp hl
    exact (hleast rfl).trans h.2.2.1
  | succ n ih =>
    obtain ⟨c, hc, hlc⟩ := mem_flatMap.mp hl
    obtain ⟨a, b, hwf⟩ := h.1.exists_of_mem hc
    refine ih hwf ?_ hlc
    rintro rfl
    exact le_rfl

end

end MiniOb.BTree
