import MiniOb.Table.Unique
import MiniOb.Theorems.InsertRefines
import MiniOb.Theorems.PageLayout
import MiniOb.Theorems.ScanExact

/-! # What the select behind a unique index meets

A scan for equality meets an entry with the value if there is any: for strings only if the dates that
`satisfy_condition` compares instead happen to be equal. -/

namespace MiniOb
open Slots BTree PagedCursor List BplusTreeScanner Leaf IndexFileHeader

section
variable {h : BplusTreeHandler} {n : Nat} {t : IndexTree n} {key : Bytes}

theorem scan_of_drain {L : Type} [LinearOrder L] {rank : Key → L} (ht : Holds rank h t) (locals : Key → DateLocals)
    (compOp : CompOp) (value : Option Bytes) {es : List (Key × RID)}
    (ends : ∀ fuel, ((ahead h.fileHeader compOp (valueCopy h.fileHeader value) t).flatMap entries).length < fuel →
      ∃ ended, Cursor.drain (PagedCursor.step (scanTest h.fileHeader compOp (valueCopy h.fileHeader value) locals)
        entries) fuel ⟨none, [], ahead h.fileHeader compOp (valueCopy h.fileHeader value) t⟩ = some (es, ended)) :
    ∃ bound, ∀ fuel, bound ≤ fuel → ∃ rc h', scan fuel locals compOp value h =
      some (.ok (es.map Prod.snd, rc), h') := by
  refine ⟨n + t.leafNodes.length + 2 +
    ((ahead h.fileHeader compOp (valueCopy h.fileHeader value) t).flatMap entries).length, fun fuel hfuel => ?_⟩
  have hscan := scan_spec ht locals compOp value (by omega : n + t.leafNodes.length + 1 < fuel)
  dsimp only at hscan
  obtain ⟨ended, hdrain⟩ := ends fuel (by omega)
  rw [hdrain] at hscan
  obtain ⟨h', hscan⟩ := hscan
  exact ⟨_, h', hscan⟩

variable {a : IndexAttr} (single : h.fileHeader.Single a) (ht : Holds (Key.rank h.fileHeader) h t) (hrids : RealRids t)
include single ht hrids

theorem mem_ahead_of_matching {e : Key × RID} (he : e ∈ t.entries)
    (hmatch : matching h.fileHeader .equalTo key e = true) :
    e ∈ (ahead h.fileHeader .equalTo key t).flatMap entries := by
  have hmem : e ∈ t.entries.filter (matching h.fileHeader .equalTo key) := mem_filter.mpr ⟨he, hmatch⟩
  rw [← filter_ahead single ht hrids .equalTo key] at hmem
  exact (mem_filter.mp hmem).1

/-- The entries that a scan for equality looks at are the last ones of the tree, none of them is below the value, and no
    leaf that it looks at is empty. -/
theorem ahead_equalTo (horder : 3 ≤ h.fileHeader.order) (key : Bytes) :
    (∃ passed, t.entries = passed ++ (ahead h.fileHeader .equalTo key t).flatMap entries) ∧
      (∀ e ∈ (ahead h.fileHeader .equalTo key t).flatMap entries, starts h.fileHeader .equalTo key e = true) ∧
      ∀ l ∈ ahead h.fileHeader .equalTo key t, l.entries ≠ [] := by
  rw [t.entries_eq_flatMap]
  obtain ⟨P, -, ⟨hleaves, hnil⟩ | ⟨l, ls, hleaves, ⟨e, he, hes⟩, hcons⟩⟩ :=
    ahead_leaves single ht hrids (by decide : ¬CompOp.FromFirst .equalTo) key
  · rw [hnil]
    exact ⟨⟨_, (append_nil _).symm⟩, fun e he => (nomatch he), fun l hl => (nomatch hl)⟩
  · have hlt : l.entries.findIdx (starts h.fileHeader .equalTo key) < l.entries.length :=
      findIdx_lt_length_of_exists ⟨e, he, hes⟩
    have hsplit : t.leafNodes.flatMap entries =
        (P.flatMap entries ++ l.entries.take (l.entries.findIdx (starts h.fileHeader .equalTo key))) ++
          (l.entries.drop (l.entries.findIdx (starts h.fileHeader .equalTo key)) ++ ls.flatMap entries) := by
      rw [hleaves, flatMap_append, flatMap_cons, append_assoc, ← append_assoc (l.entries.take _),
        take_append_drop]
    have hsorted := ht.wf.entries_sorted.1
    rw [t.entries_eq_flatMap, hsplit] at hsorted
    rw [hcons, flatMap_cons]
    refine ⟨⟨_, hsplit⟩, ?_, ?_⟩
    · have hafter := (pairwise_append.mp hsorted).2.1
      dsimp only
      rw [drop_eq_getElem_cons hlt, cons_append] at hafter ⊢
      have hfirst : starts h.fileHeader .equalTo key l.entries[l.entries.findIdx (starts h.fileHeader .equalTo key)] =
        true :=
        findIdx_getElem (w := hlt)
      intro e' he'
      rcases mem_cons.mp he' with rfl | he'
      · exact hfirst
      · exact starts_mono single.noFloats ((pairwise_cons.mp hafter).1 e' he') hfirst
    · intro l' hl'
      rcases mem_cons.mp hl' with rfl | hl'
      · dsimp only
        rw [drop_eq_getElem_cons hlt]
        exact cons_ne_nil _ _
      · obtain ⟨e', he', -⟩ := starts_behind single.noFloats horder ht hleaves ⟨e, he, hes⟩ l' hl'
        exact ne_nil_of_mem he'

omit ht hrids in
theorem matching_of_before {e e' : Key × RID} (hlt : e.1.rank h.fileHeader < e'.1.rank h.fileHeader)
    (hstarts : starts h.fileHeader .equalTo key e = true) (hmatch : matching h.fileHeader .equalTo key e' = true) :
    matching h.fileHeader .equalTo key e = true := by
  have hf := single.noFloats
  have hattr : compareKey h.fileHeader (e.1.bytes h.fileHeader) (e'.1.bytes h.fileHeader) ≤ 0 := by
    have hcmp : cmpKey h.fileHeader e.1 e'.1 < 0 := (cmpKey_spec hf e.1 e'.1).1.mpr hlt
    rw [cmpKey] at hcmp
    split at hcmp
    case isTrue => exact hcmp.le
    case isFalse hzero => exact (not_not.mp hzero).le
  have hle := (compareKey_spec hf _ _).le_iff.mp hattr
  have heq := (compareKey_spec hf (e'.1.bytes h.fileHeader) key).2.mp (of_decide_eq_true hmatch)
  have hge : ¬compareKey h.fileHeader (e.1.bytes h.fileHeader) key < 0 := Int.not_lt.mpr (of_decide_eq_true hstarts)
  rw [(compareKey_spec hf _ _).1, not_lt] at hge
  exact decide_eq_true ((compareKey_spec hf _ _).2.mpr (le_antisymm (heq ▸ hle) hge))

end

namespace FieldMeta

structure Indexed (f : FieldMeta) (entries : List (Bytes × RID)) (h : BplusTreeHandler) : Prop where
  single : h.fileHeader.Single f.indexAttr
  order : 3 ≤ h.fileHeader.order
  real : ∀ p ∈ entries, 0 ≤ p.2.pageNum
  holds : ∃ n, ∃ t : IndexTree n, Holds (Key.rank h.fileHeader) h t ∧ ∀ e, e ∈ t.entries ↔
    ∃ p ∈ entries, e = (⟨p.1, p.2⟩, p.2)

variable {f : FieldMeta} {entries : List (Bytes × RID)} {h : BplusTreeHandler} {live rids : List RID}
  {locals : Key → DateLocals} {v : Value}

theorem Indexed.realRids (indexed : f.Indexed entries h) {n : Nat} {t : IndexTree n}
    (hentries : ∀ e, e ∈ t.entries ↔ ∃ p ∈ entries, e = (⟨p.1, p.2⟩, p.2)) : RealRids t := by
  intro e he
  obtain ⟨p, hp, rfl⟩ := (hentries e).mp he
  exact indexed.real p hp

/-- The tree that `insert_entry` makes of these entries, one after the other, in a new index over the column. -/
def Grown (f : FieldMeta) (entries : List (Bytes × RID)) (h : BplusTreeHandler) : Prop :=
  ∃ (alloc : Allocator) (fuel : Nat), alloc.Fresh ∧ entries.length ≤ fuel ∧
    insertAll fuel entries (create [f.indexAttr] alloc) = some (.ok (), h)

theorem cmpKey_ne_zero {header : IndexFileHeader} {k k' : Key} (h : k.rid ≠ k'.rid) : cmpKey header k k' ≠ 0 := by
  intro hzero
  unfold cmpKey at hzero
  by_cases hattr : compareKey header (k.bytes header) (k'.bytes header) ≠ 0
  · rw [if_pos hattr] at hzero
    exact hattr hzero
  · rw [if_neg hattr] at hzero
    have hrids := (agrees_cmpRid k.rid k'.rid).2.mp hzero
    simp only [List.cons.injEq, and_true] at hrids
    exact h (congrArg₂ RID.mk hrids.1 hrids.2)

theorem Grown.indexed (grown : f.Grown entries h) (type : f.type = .ints ∨ f.type = .chars ∨ f.type = .date)
    (room : f.type ≠ .chars → 4 ≤ f.len) (fits : f.len ≤ 1276)
    (real : ∀ p ∈ entries, 0 ≤ p.2.pageNum) (lengths : ∀ p ∈ entries, p.1.length ≤ f.len)
    (nodup : (entries.map Prod.snd).Nodup) : f.Indexed entries h := by
  obtain ⟨alloc, fuel, fresh, hfuel, hrun⟩ := grown
  set h₀ := create [f.indexAttr] alloc
  have width : f.type = .ints ∨ f.type = .date → 4 ≤ f.len := fun number => room fun chars => by
    rcases number with h | h <;> cases h.symm.trans chars
  have hsingle : h₀.fileHeader.Single f.indexAttr := ⟨rfl, type, width⟩
  have horder : 3 ≤ h₀.fileHeader.order := three_le_orderOf.mpr (by simpa [indexAttr] using fits)
  have hkeys : storedPairs h₀.fileHeader entries = entries.map fun p => (⟨p.1, p.2⟩, p.2) := by
    refine map_congr_left fun p hp => ?_
    have htake : p.1.take h₀.fileHeader.attrWholeLength = p.1 :=
      take_of_length_le ((lengths p hp).trans (by simp [attrWholeLength, h₀, create, indexAttr]))
    rw [keyOf, htake]
  have hdiff : (storedPairs h₀.fileHeader entries).Pairwise fun e e' =>
      e.1.rank h₀.fileHeader ≠ e'.1.rank h₀.fileHeader := by
    rw [hkeys, pairwise_map]
    refine (pairwise_map.mp nodup).imp fun hne heq => ?_
    exact cmpKey_ne_zero hne ((cmpKey_spec hsingle.noFloats _ _).2.mpr heq)
  obtain ⟨h', n, t, hrun', ht, same, hperm⟩ := insertAll_spec (h := h₀) rfl horder fresh
    (create_holds (Key.rank h₀.fileHeader) [f.indexAttr] alloc) (orders_of_noFloats hsingle.noFloats _)
    (by simpa using hdiff) (by simpa using hfuel)
  cases hrun.symm.trans hrun'
  refine ⟨⟨same.attrs, type, width⟩, same.order ▸ horder, real, n, t, Key.rank_congr same.attrs ▸ ht, fun e => ?_⟩
  rw [hperm.mem_iff, hkeys]
  simp [eq_comm]

def Met (f : FieldMeta) (v : Value) (p : Bytes × RID) : Prop := compareAttr f.indexAttr p.1 (firstN v.data f.len) = 0

theorem valueCopy_eq (single : h.fileHeader.Single f.indexAttr) :
    valueCopy h.fileHeader (some (firstN v.data f.len)) = firstN v.data f.len := by
  unfold valueCopy attrWholeLength
  rw [single.attrs]
  exact take_of_length_le (by simp [indexAttr])

theorem Selects.unique (column : f.nullable = false) (first : f.Selects live h locals v rids) {rids' : List RID}
    (second : f.Selects live h locals v rids') : rids = rids' := by
  unfold Selects at first second
  rw [column, if_neg Bool.false_ne_true] at first second
  obtain ⟨bound, hfirst⟩ := first
  obtain ⟨bound', hsecond⟩ := second
  obtain ⟨rc, h', hrun⟩ := hfirst (max bound bound') (le_max_left _ _)
  obtain ⟨rc', h'', hrun'⟩ := hsecond (max bound bound') (le_max_right _ _)
  cases hrun.symm.trans hrun'
  rfl

section
variable (indexed : f.Indexed entries h) (column : f.nullable = false)
include indexed column

/-- A select for a number or a date, or for a string with dates that happen to be equal, meets every entry with the
    value, and none but such entries before it. -/
theorem Indexed.selects (live : List RID) (locals : Key → DateLocals) (v : Value)
    (steady : f.type = .chars → ∀ k, (locals k).1 = (locals k).2) :
    ∃ rids, f.Selects live h locals v rids ∧
      ∀ p ∈ entries, f.Met v p → ∃ seen rest, rids = seen ++ p.2 :: rest ∧ ∀ x ∈ seen, ∃ q ∈ entries, q.2 = x ∧
        f.Met v q := by
  obtain ⟨n, t, ht, hentries⟩ := indexed.holds
  have hrids := indexed.realRids hentries
  set key := firstN v.data f.len
  set es := (ahead h.fileHeader .equalTo key t).flatMap Leaf.entries
  obtain ⟨⟨passed, hpassed⟩, hstarts, hleaves⟩ := ahead_equalTo indexed.single ht hrids indexed.order key
  have hsorted : es.Pairwise fun e e' =>
      e.1.rank h.fileHeader < e'.1.rank h.fileHeader := by
    have hall := ht.wf.entries_sorted.1
    rw [hpassed] at hall
    exact (pairwise_append.mp hall).2.1
  have hmet : ∀ e ∈ es, ∃ p ∈ entries, e = (⟨p.1, p.2⟩, p.2) ∧
      (matching h.fileHeader .equalTo key e = true ↔ f.Met v p) := by
    intro e he
    obtain ⟨p, hp, rfl⟩ := (hentries e).mp (hpassed ▸ mem_append_right _ he)
    refine ⟨p, hp, rfl, ?_⟩
    rw [indexed.single.matching_equalTo]
    rfl
  have htest : ∀ e, scanTest h.fileHeader .equalTo key locals e = true ↔
      f.type = .chars ∨ matching h.fileHeader .equalTo key e = true := by
    intro e
    rw [scanTest]
    by_cases chars : f.type = .chars
    · rw [indexed.single.satisfies_chars chars]
      exact iff_of_true (decide_eq_true (steady chars e.1)) (.inl chars)
    · rw [indexed.single.satisfies_eq (by decide) (fun _ => chars), or_iff_right chars]
      rfl
  have hfront : es.Pairwise fun e e' => scanTest h.fileHeader .equalTo key locals e' = true →
      scanTest h.fileHeader .equalTo key locals e = true := by
    refine hsorted.imp_of_mem fun {e e'} he _ hlt haccept => (htest e).mpr ?_
    exact ((htest e').mp haccept).imp_right (matching_of_before indexed.single hlt (hstarts e he))
  refine ⟨(es.filter
    (scanTest h.fileHeader .equalTo key locals)).map Prod.snd, ?_, fun p hp hpmet => ?_⟩
  · unfold Selects
    rw [column, if_neg Bool.false_ne_true]
    refine scan_of_drain ht locals .equalTo _ fun fuel hfuel => ?_
    rw [valueCopy_eq indexed.single] at hfuel ⊢
    exact drain_front hleaves hfront ((length_filter_le _ _).trans_lt hfuel)
  · have hmatch : matching h.fileHeader .equalTo key (⟨p.1, p.2⟩, p.2) = true := by
      rw [indexed.single.matching_equalTo]
      exact hpmet
    have hmem := mem_ahead_of_matching indexed.single ht hrids ((hentries _).mpr ⟨p, hp, rfl⟩) hmatch
    obtain ⟨A, B, hsplit⟩ := append_of_mem (mem_filter.mpr ⟨hmem, (htest _).mpr (.inr hmatch)⟩)
    refine ⟨A.map Prod.snd, B.map Prod.snd, by rw [hsplit, map_append, map_cons], fun x hx => ?_⟩
    obtain ⟨e, he, rfl⟩ := mem_map.mp hx
    have hahead := mem_filter.mp (hsplit ▸ mem_append_left _ he)
    have hbefore := hsorted.filter (scanTest h.fileHeader .equalTo key locals)
    rw [hsplit] at hbefore
    have hlt := (pairwise_append.mp hbefore).2.2 e he _ mem_cons_self
    obtain ⟨q, hq, rfl, hiff⟩ := hmet e hahead.1
    exact ⟨q, hq, rfl, hiff.mp (matching_of_before indexed.single hlt (hstarts _ hahead.1) hmatch)⟩

end

end FieldMeta

end MiniOb
