import MiniOb.Theorems.Delete
import MiniOb.Theorems.InsertRefines
import MiniOb.Theorems.LeafScan

/-! # What a scan of the tree delivers

`next_entry` looks at one more leaf only, so a leaf without an accepted entry ends the scan early; and for strings the
test for equality compares two dates that are never set. -/

namespace MiniOb
open Slots BTree PagedCursor List BplusTreeScanner CompOp Leaf

def CompOp.demands (compOp : CompOp) (c : Int) : Bool :=
  match compOp with
  | .equalTo => c = 0
  | .lessThan => c < 0
  | .greatThan => 0 < c
  | .lessEqual => c ≤ 0
  | .greatEqual => 0 ≤ c
  | .notEqual => c ≠ 0
  | .noOp | .isOp | .isNotOp | .condIn | .notIn => false

def CompOp.IsComparator (compOp : CompOp) : Prop :=
  compOp ∈ [.equalTo, .notEqual, .lessThan, .lessEqual, .greatThan, .greatEqual]

instance (compOp : CompOp) : Decidable compOp.IsComparator := inferInstanceAs (Decidable (compOp ∈ _))

def matching (header : IndexFileHeader) (compOp : CompOp) (key : Bytes) (e : Key × RID) : Bool :=
  compOp.demands (compareKey header (e.1.bytes header) key)

/-- The index has one attribute, which `CompareKey` reads within its bytes. -/
structure IndexFileHeader.Single (header : IndexFileHeader) (a : IndexAttr) : Prop where
  attrs : header.attrs = [a]
  type : a.type = .ints ∨ a.type = .chars ∨ a.type = .date
  width : a.type = .ints ∨ a.type = .date → 4 ≤ a.length

section
variable {header : IndexFileHeader} {a : IndexAttr} {compOp : CompOp} {key : Bytes} {e : Key × RID}

section
variable (single : header.Single a)
include single

theorem IndexFileHeader.Single.noFloats : header.NoFloats := by
  intro b hb
  rw [single.attrs, mem_singleton] at hb
  subst hb
  rcases single.type with h | h | h <;> simp [h]

theorem IndexFileHeader.Single.wide : header.Wide := by
  intro b hb
  rw [single.attrs, mem_singleton] at hb
  exact hb ▸ single.width

theorem IndexFileHeader.Single.compareKey_eq (x y : Bytes) :
    compareKey header x y = compareAttr a x y := by
  unfold compareKey
  rw [single.attrs, compareAttrs, compareAttrs]
  split
  case isTrue => rfl
  case isFalse hzero => exact (not_not.mp hzero).symm

theorem IndexFileHeader.Single.matching_equalTo (e : Key × RID) :
    matching header .equalTo key e = true ↔ compareAttr a e.1.attr key = 0 := by
  have hf := single.noFloats
  have hattr := (compareKey_spec hf (e.1.bytes header) key).2
  rw [single.wide.attrsRank_bytes, ← (compareKey_spec hf e.1.attr key).2, single.compareKey_eq e.1.attr] at hattr
  exact decide_eq_true_iff.trans hattr

omit single in
theorem CompOp.test_eq_demands {L : Type} [LinearOrder L] {c : Int} {x y : L} (hc : Agrees c x y) :
    compOp.test (decide (x < y)) (decide (x = y)) = compOp.demands c := by
  cases compOp with
  | equalTo => exact decide_eq_decide.mpr hc.2.symm
  | lessThan => exact decide_eq_decide.mpr hc.1.symm
  | notEqual =>
    simp only [test, demands, ← decide_not, decide_eq_decide]
    exact not_congr hc.2.symm
  | lessEqual =>
    simp only [test, demands, ← Bool.decide_or, decide_eq_decide]
    rw [hc.le_iff, le_iff_lt_or_eq]
  | greatEqual =>
    simp only [test, demands, ← decide_not, decide_eq_decide]
    rw [← Int.not_lt]
    exact not_congr hc.1.symm
  | greatThan =>
    simp only [test, demands, ← decide_not, ← Bool.decide_and, decide_eq_decide]
    rw [hc.pos_iff, ← not_or, ← le_iff_lt_or_eq, not_le]
  | noOp | isOp | isNotOp | condIn | notIn => rfl

theorem IndexFileHeader.Single.satisfies_eq (hcomp : compOp.IsComparator)
    (hdate : compOp = .equalTo → a.type ≠ .chars) (locals : Key → DateLocals) (k : Key) :
    satisfyCondition header compOp key locals k = compOp.demands (compareKey header (k.bytes header) key) := by
  have hne : compOp ≠ .noOp := by
    rintro rfl
    simp [IsComparator] at hcomp
  rw [satisfyCondition, if_neg hne, single.attrs, satisfyAttrs, satisfyAttrs, Bool.or_false, single.compareKey_eq]
  unfold satisfyAttr compareAttr
  rcases single.type with htype | htype | htype
  · simp only [htype]
    exact test_eq_demands (agrees_threeWay _ _)
  · simp only [htype]
    rw [if_neg fun heq => hdate heq htype]
    exact test_eq_demands ⟨Iff.rfl, Iff.rfl⟩
  · simp only [htype]
    exact test_eq_demands (agrees_threeWay _ _)

theorem IndexFileHeader.Single.satisfies_chars (hchars : a.type = .chars) (locals : Key → DateLocals)
    (k : Key) : satisfyCondition header .equalTo key locals k = decide ((locals k).1 = (locals k).2) := by
  rw [satisfyCondition, if_neg noConfusion, single.attrs, satisfyAttrs, satisfyAttrs, Bool.or_false,
    satisfyAttr, hchars]
  rfl

end

theorem starts_of_matching (hlater : ¬compOp.FromFirst) (he : matching header compOp key e = true) :
    starts header compOp key e = true := by
  cases compOp with
  | equalTo =>
    have hzero := of_decide_eq_true he
    exact decide_eq_true hzero.ge
  | greatEqual | greatThan => exact he
  | lessThan => exact absurd (.inl rfl) hlater
  | lessEqual => exact absurd (.inr (.inl rfl)) hlater
  | notEqual => exact absurd (.inr (.inr rfl)) hlater
  | noOp | isOp | isNotOp | condIn | notIn => cases he

theorem starts_mono (hf : header.NoFloats) {e' : Key × RID} (hlt : e.1.rank header < e'.1.rank header)
    (he : starts header compOp key e = true) : starts header compOp key e' = true := by
  have hcmp : cmpKey header e.1 e'.1 < 0 := (cmpKey_spec hf e.1 e'.1).1.mpr hlt
  have hattr : compareKey header (e.1.bytes header) (e'.1.bytes header) ≤ 0 := by
    rw [cmpKey] at hcmp
    split at hcmp
    case isTrue => exact hcmp.le
    case isFalse hzero => exact (not_not.mp hzero).le
  have hle := (compareKey_spec hf (e.1.bytes header) (e'.1.bytes header)).le_iff.mp hattr
  have hsign := compareKey_spec hf (e.1.bytes header) key
  have hsign' := compareKey_spec hf (e'.1.bytes header) key
  have hge : 0 ≤ compareKey header (e.1.bytes header) key → 0 ≤ compareKey header (e'.1.bytes header) key := by
    rw [← Int.not_lt, ← Int.not_lt, hsign.1, hsign'.1, not_lt, not_lt]
    exact fun h => h.trans hle
  cases compOp with
  | equalTo | greatEqual => exact decide_eq_true (hge (of_decide_eq_true he))
  | greatThan =>
    refine decide_eq_true (hsign'.pos_iff.mpr ?_)
    exact (hsign.pos_iff.mp (of_decide_eq_true he)).trans_le hle
  | lessThan | lessEqual | notEqual | noOp | isOp | isNotOp | condIn | notIn => cases he

theorem starts_false_of_rank_lt (hf : header.NoFloats) (hw : header.Wide) (hrid : 0 ≤ e.1.rid.pageNum)
    (hlt : e.1.rank header < Key.rank header ⟨key, ⟨-1, -1⟩⟩) : starts header compOp key e = false := by
  have hcmp : cmpKey header e.1 ⟨key, ⟨-1, -1⟩⟩ < 0 := (cmpKey_spec hf e.1 _).1.mpr hlt
  have hattr : compareKey header (e.1.bytes header) key < 0 := by
    have hread := compareKey_spec hf (e.1.bytes header) (Key.bytes header ⟨key, ⟨-1, -1⟩⟩)
    rw [hw.attrsRank_bytes ⟨key, _⟩] at hread
    rw [cmpKey] at hcmp
    split at hcmp
    · exact (compareKey_spec hf _ _).1.mpr (hread.1.mp hcmp)
    · -- The RID of a record is behind the one that is searched for.
      refine absurd hcmp ?_
      have hpage : (-1 : Int) < e.1.rid.pageNum := lt_of_lt_of_le (by decide) hrid
      rw [cmpRid, if_pos hpage]
      decide
  cases compOp with
  | equalTo | greatEqual => exact decide_eq_false (Int.not_le.mpr hattr)
  | greatThan => exact decide_eq_false (Int.not_lt.mpr hattr.le)
  | lessThan | lessEqual | notEqual | noOp | isOp | isNotOp | condIn | notIn => rfl

end

section
variable {h : BplusTreeHandler} {n : Nat} {t : IndexTree n} {compOp : CompOp} {key : Bytes} {header : IndexFileHeader}
  {l : IndexLeaf} {L : Type}

def RealRids {n : Nat} (t : IndexTree n) : Prop := ∀ e ∈ t.entries, 0 ≤ e.1.rid.pageNum

instance {n : Nat} (t : IndexTree n) : Decidable (RealRids t) :=
  inferInstanceAs (Decidable (∀ e ∈ t.entries, 0 ≤ e.1.rid.pageNum))

theorem ahead_leaves {a : IndexAttr} (single : h.fileHeader.Single a) (ht : Holds (Key.rank h.fileHeader) h t)
    (hrids : RealRids t) (hlater : ¬compOp.FromFirst) (key : Bytes) :
    ∃ P, (∀ l ∈ P, ∀ e ∈ l.entries, starts h.fileHeader compOp key e = false) ∧
      ((t.leafNodes = P ∧ ahead h.fileHeader compOp key t = []) ∨
        ∃ (l : IndexLeaf) (ls : List IndexLeaf), t.leafNodes = P ++ l :: ls ∧
          (∃ e ∈ l.entries, starts h.fileHeader compOp key e = true) ∧
          ahead h.fileHeader compOp key t =
            ⟨l.page, l.entries.drop (l.entries.findIdx (starts h.fileHeader compOp key))⟩ :: ls) := by
  have hkeys : ∀ k ∈ t.allKeys, before h.fileHeader ⟨key, ⟨-1, -1⟩⟩ k = true ↔
      Key.rank h.fileHeader ⟨key, ⟨-1, -1⟩⟩ < Key.rank h.fileHeader k := fun k _ => by
    rw [before, decide_eq_true_eq]
    exact (cmpKey_spec single.noFloats _ k).1
  obtain ⟨leaf, A, B, hfind, hleaves, hA, -⟩ := ht.wf.find_split bot_le (WithTop.coe_lt_top _) hkeys
  have hpassed : ∀ l ∈ A, ∀ e ∈ l.entries, starts h.fileHeader compOp key e = false := by
    intro l hl e he
    have hmem : e ∈ t.entries := by
      rw [t.entries_eq_flatMap, hleaves]
      exact mem_flatMap.mpr ⟨l, mem_append_left _ hl, he⟩
    exact starts_false_of_rank_lt single.noFloats single.wide (hrids e hmem) (hA e (mem_flatMap.mpr ⟨l, hl, he⟩))
  have hsplit : (leaf :: B).takeWhile (Passed h.fileHeader compOp key) ++
      (leaf :: B).dropWhile (Passed h.fileHeader compOp key) = leaf :: B := takeWhile_append_dropWhile
  have htake : ∀ l ∈ A ++ (leaf :: B).takeWhile (Passed h.fileHeader compOp key), ∀ e ∈ l.entries,
      starts h.fileHeader compOp key e = false := by
    intro l hl
    rcases mem_append.mp hl with hl | hl
    · exact hpassed l hl
    · exact passed_iff.mp (mem_takeWhile_imp hl)
  have hhead := head?_dropWhile_not (Passed h.fileHeader compOp key) (leaf :: B)
  refine ⟨A ++ (leaf :: B).takeWhile (Passed h.fileHeader compOp key), htake, ?_⟩
  rw [ahead, if_neg hlater, ht.reached_eq hfind hleaves, hleaves]
  cases hdrop : (leaf :: B).dropWhile (Passed h.fileHeader compOp key) with
  | nil =>
    rw [hdrop, append_nil] at hsplit
    exact .inl ⟨by rw [hsplit], rfl⟩
  | cons l ls =>
    rw [hdrop] at hsplit hhead
    exact .inr ⟨l, ls, by rw [append_assoc, hsplit], exists_starts hhead, rfl⟩

theorem filter_matching_eq_nil (hlater : ¬compOp.FromFirst) {es : List (Key × RID)}
    (hes : ∀ e ∈ es, starts header compOp key e = false) : es.filter (matching header compOp key) = [] := by
  refine filter_eq_nil_iff.mpr fun e he hmatch => ?_
  exact Bool.eq_false_iff.mp (hes e he) (starts_of_matching hlater hmatch)

theorem filter_drop_findIdx (hlater : ¬compOp.FromFirst) (es : List (Key × RID)) :
    (es.drop (es.findIdx (starts header compOp key))).filter (matching header compOp key) =
      es.filter (matching header compOp key) := by
  have hdrop : es.dropWhile (!starts header compOp key ·) = es.drop (es.findIdx (starts header compOp key)) := by
    rw [dropWhile_eq_drop_findIdx_not]
    simp only [Bool.not_not]
  have hsplit : es.takeWhile (!starts header compOp key ·) ++ es.dropWhile (!starts header compOp key ·) = es :=
    takeWhile_append_dropWhile
  have hnone : (es.takeWhile (!starts header compOp key ·)).filter (matching header compOp key) = [] := by
    refine filter_matching_eq_nil hlater fun e he => ?_
    have htest := mem_takeWhile_imp he
    simpa using htest
  calc (es.drop (es.findIdx (starts header compOp key))).filter (matching header compOp key)
      = (es.dropWhile (!starts header compOp key ·)).filter (matching header compOp key) := by rw [hdrop]
    _ = (es.takeWhile (!starts header compOp key ·) ++ es.dropWhile (!starts header compOp key ·)).filter
        (matching header compOp key) := by rw [filter_append, hnone, nil_append]
    _ = es.filter (matching header compOp key) := by rw [hsplit]

theorem filter_ahead {a : IndexAttr} (single : h.fileHeader.Single a) (ht : Holds (Key.rank h.fileHeader) h t)
    (hrids : RealRids t) (compOp : CompOp) (key : Bytes) :
    ((ahead h.fileHeader compOp key t).flatMap entries).filter (matching h.fileHeader compOp key) =
      t.entries.filter (matching h.fileHeader compOp key) := by
  rw [t.entries_eq_flatMap]
  by_cases hfirst : compOp.FromFirst
  · rw [ahead, if_pos hfirst]
  · obtain ⟨P, hP, hcases⟩ := ahead_leaves single ht hrids hfirst key
    have hnone : (P.flatMap entries).filter (matching h.fileHeader compOp key) = [] := by
      refine filter_matching_eq_nil hfirst fun e he => ?_
      obtain ⟨l, hl, he⟩ := mem_flatMap.mp he
      exact hP l hl e he
    rcases hcases with ⟨hleaves, hnil⟩ | ⟨l, ls, hleaves, -, hcons⟩
    · rw [hnil, hleaves, hnone]
      rfl
    · rw [hcons, hleaves, flatMap_cons, flatMap_append, flatMap_cons, filter_append, filter_append,
        filter_append, filter_drop_findIdx hfirst, hnone]
      rfl

/-- A leaf in which a scan should find something has an entry that matches. -/
def LeafFits (header : IndexFileHeader) (compOp : CompOp) (key : Bytes) (l : IndexLeaf) : Prop :=
  match compOp with
  | .equalTo => (∃ e ∈ l.entries, 0 ≤ compareKey header (e.1.bytes header) key) → ∃ e ∈ l.entries,
      compareKey header (e.1.bytes header) key = 0
  | .lessThan => ∃ e ∈ l.entries, compareKey header (e.1.bytes header) key < 0
  | .lessEqual => ∃ e ∈ l.entries, compareKey header (e.1.bytes header) key ≤ 0
  | .notEqual => ∃ e ∈ l.entries, compareKey header (e.1.bytes header) key ≠ 0
  | _ => True

instance (header : IndexFileHeader) (compOp : CompOp) (key : Bytes) (l : IndexLeaf) :
    Decidable (LeafFits header compOp key l) :=
  match compOp with
  | .equalTo => inferInstanceAs (Decidable (_ → _))
  | .lessThan => inferInstanceAs (Decidable (∃ e ∈ l.entries, compareKey header (e.1.bytes header) key < 0))
  | .lessEqual => inferInstanceAs (Decidable (∃ e ∈ l.entries, compareKey header (e.1.bytes header) key ≤ 0))
  | .notEqual => inferInstanceAs (Decidable (∃ e ∈ l.entries, compareKey header (e.1.bytes header) key ≠ 0))
  | .greatEqual | .greatThan | .noOp | .isOp | .isNotOp | .condIn | .notIn => isTrue trivial

theorem leafFits_iff (hcomp : compOp.IsComparator) :
    LeafFits header compOp key l ↔
      (compOp.FromFirst ∨ (∃ e ∈ l.entries, starts header compOp key e = true) →
        ∃ e ∈ l.entries, matching header compOp key e = true) := by
  unfold LeafFits FromFirst starts matching startsAt demands
  cases compOp <;> simp [IsComparator] at hcomp ⊢

theorem starts_behind (hf : h.fileHeader.NoFloats) (horder : 3 ≤ h.order) (ht : Holds (Key.rank h.fileHeader) h t)
    {P ls : List IndexLeaf} (hleaves : t.leafNodes = P ++ l :: ls)
    (hstart : ∃ e ∈ l.entries, starts h.fileHeader compOp key e = true) :
    ∀ l' ∈ ls, ∃ e ∈ l'.entries, starts h.fileHeader compOp key e = true := by
  intro l' hl'
  obtain ⟨e, he, hes⟩ := hstart
  have hlen : 0 < l'.entries.length := by
    refine lt_of_lt_of_le (minKeys_bounds horder 0).1 (ht.wf.minKeys_le_leaf ?_ ?_)
    · -- A root leaf has no leaf behind it.
      rintro rfl
      have hone := congrArg List.length hleaves
      have hpos := length_pos_of_mem hl'
      rw [length_append, length_cons] at hone
      change 1 = _ at hone
      omega
    · rw [hleaves]
      exact mem_append_right _ (mem_cons_of_mem _ hl')
  obtain ⟨e', he'⟩ := exists_mem_of_length_pos hlen
  refine ⟨e', he', starts_mono hf ?_ hes⟩
  have hsorted := ht.wf.entries_sorted.1
  rw [t.entries_eq_flatMap, hleaves, flatMap_append, flatMap_cons] at hsorted
  refine (pairwise_append.mp (pairwise_append.mp hsorted).2.1).2.2 e he e' ?_
  exact mem_flatMap.mpr ⟨l', hl', he'⟩

theorem yields_ahead_iff {a : IndexAttr} (single : h.fileHeader.Single a) (horder : 3 ≤ h.order)
    (ht : Holds (Key.rank h.fileHeader) h t) (hrids : RealRids t) (hcomp : compOp.IsComparator) :
    (∀ l ∈ ahead h.fileHeader compOp key t, Yields (matching h.fileHeader compOp key) entries l) ↔
      ∀ l ∈ t.leafNodes, LeafFits h.fileHeader compOp key l := by
  by_cases hfirst : compOp.FromFirst
  · rw [ahead, if_pos hfirst]
    refine forall₂_congr fun l _ => ?_
    rw [leafFits_iff hcomp]
    exact ⟨fun hl _ => hl, fun hl => hl (.inl hfirst)⟩
  · obtain ⟨P, hP, hcases⟩ := ahead_leaves single ht hrids hfirst key
    have hpassed : ∀ l ∈ P, LeafFits h.fileHeader compOp key l := by
      intro l hl
      rw [leafFits_iff hcomp]
      rintro (hfirst' | ⟨e, he, hstart⟩)
      · exact absurd hfirst' hfirst
      · exact absurd hstart (Bool.eq_false_iff.mp (hP l hl e he))
    rcases hcases with ⟨hleaves, hnil⟩ | ⟨l, ls, hleaves, hstart, hcons⟩
    · rw [hnil, hleaves]
      exact iff_of_true (fun l hl => (nomatch hl)) hpassed
    · have hlater := starts_behind single.noFloats horder ht hleaves hstart
      have hfits : ∀ l', (∃ e ∈ l'.entries, starts h.fileHeader compOp key e = true) →
          (LeafFits h.fileHeader compOp key l' ↔ Yields (matching h.fileHeader compOp key) entries l') := by
        intro l' hl'
        rw [leafFits_iff hcomp]
        exact ⟨fun hfit => hfit (.inr hl'), fun hyield _ => hyield⟩
      have hhere : Yields (matching h.fileHeader compOp key) entries
          ⟨l.page, l.entries.drop (l.entries.findIdx (starts h.fileHeader compOp key))⟩ ↔
              LeafFits h.fileHeader compOp key l := by
        rw [hfits l hstart, yields_iff, yields_iff]
        exact not_congr (by rw [filter_drop_findIdx hfirst])
      rw [hcons, hleaves, forall_mem_cons, forall_mem_append, forall_mem_cons, hhere]
      constructor
      · rintro ⟨hl, hls⟩
        exact ⟨hpassed, hl, fun l' hl' => (hfits l' (hlater l' hl')).mpr (hls l' hl')⟩
      · rintro ⟨-, hl, hls⟩
        exact ⟨hl, fun l' hl' => (hfits l' (hlater l' hl')).mp (hls l' hl')⟩

theorem scan_spec [LinearOrder L] {rank : Key → L} (ht : Holds rank h t) (locals : Key → DateLocals)
    (compOp : CompOp) (value : Option Bytes) {fuel : Nat} (hfuel : n + t.leafNodes.length + 1 < fuel) :
    let key := valueCopy h.fileHeader value
    match Cursor.drain (PagedCursor.step (scanTest h.fileHeader compOp key locals) entries) fuel
      ⟨none, [], ahead h.fileHeader compOp key t⟩ with
    | none => scan fuel locals compOp value h = none
    | some (es, ended) => ∃ h', scan fuel locals compOp value h = some (.ok (es.map Prod.snd, endCode ended), h') := by
  intro key
  obtain ⟨s, hopen, st, haccepts⟩ := openScan_spec ht locals compOp value hfuel
  have hentries := @entries_spec h
    (pinAll h.pins ((leftPinned h.fileHeader compOp key t).map page)) fuel s _ st
  rw [haccepts, heldPins_none] at hentries
  rw [scan, Op.bind_ok hopen]
  generalize Cursor.drain _ fuel _ = out at hentries ⊢
  cases out with
  | none => exact hentries
  | some r =>
    obtain ⟨pins', hentries⟩ := hentries
    exact ⟨_, hentries⟩

/-- A scan delivers exactly the entries that match, in their order, and ends with `RECORD_EOF`, whatever the dates of
    `satisfy_condition` hold. -/
def ScansExactly (h : BplusTreeHandler) {n : Nat} (t : IndexTree n) (compOp : CompOp) (value : Option Bytes) : Prop :=
  ∀ locals, ∃ bound, ∀ fuel, bound ≤ fuel → ∃ h', scan fuel locals compOp value h =
    some (.ok ((t.entries.filter (matching h.fileHeader compOp (valueCopy h.fileHeader value))).map Prod.snd,
      .recordEof), h')

theorem scan_of_yields [LinearOrder L] {rank : Key → L} (ht : Holds rank h t) (locals : Key → DateLocals)
    (value : Option Bytes) (yields : ∀ l ∈ ahead h.fileHeader compOp (valueCopy h.fileHeader value) t,
      Yields (scanTest h.fileHeader compOp (valueCopy h.fileHeader value) locals) entries l) :
    ∃ bound, ∀ fuel, bound ≤ fuel → ∃ h', scan fuel locals compOp value h =
      some (.ok ((((ahead h.fileHeader compOp (valueCopy h.fileHeader value) t).flatMap entries).filter
        (scanTest h.fileHeader compOp (valueCopy h.fileHeader value) locals)).map Prod.snd, .recordEof), h') := by
  generalize hkey : valueCopy h.fileHeader value = key at yields ⊢
  refine ⟨n + t.leafNodes.length + 2 + (((ahead h.fileHeader compOp key t).flatMap entries).filter
    (scanTest h.fileHeader compOp key locals)).length, fun fuel hfuel => ?_⟩
  have hscan := scan_spec ht locals compOp value (by omega : n + t.leafNodes.length + 1 < fuel)
  dsimp only at hscan
  rw [hkey, PagedCursor.drain_step yields (by rw [nil_append]; dsimp only; omega)] at hscan
  exact hscan

theorem scan_of_gap [LinearOrder L] {rank : Key → L} (ht : Holds rank h t) {locals : Key → DateLocals}
    {value : Option Bytes} (hl : l ∈ ahead h.fileHeader compOp (valueCopy h.fileHeader value) t)
    (hgap : ¬Yields (scanTest h.fileHeader compOp (valueCopy h.fileHeader value) locals) entries l) (rids : List RID) :
    ¬∃ bound, ∀ fuel, bound ≤ fuel → ∃ h', scan fuel locals compOp value h = some (.ok (rids, .recordEof), h') := by
  rintro ⟨bound, hall⟩
  obtain ⟨h', hrun⟩ := hall (max bound (n + t.leafNodes.length + 2)) (le_max_left _ _)
  have hfuel : n + t.leafNodes.length + 1 < max bound (n + t.leafNodes.length + 2) :=
    lt_of_lt_of_le (Nat.lt_succ_self _) (le_max_right _ _)
  have hscan := scan_spec ht locals compOp value hfuel
  dsimp only at hscan
  rw [hrun] at hscan
  generalize hout : Cursor.drain _ _ _ = out at hscan
  cases out with
  | none => cases hscan
  | some r =>
    obtain ⟨es, ended⟩ := r
    obtain ⟨h'', hscan⟩ := hscan
    cases ended with
    | true => exact PagedCursor.drain_ne_of_gap es hl hgap hout
    | false => cases hscan

section
variable {a : IndexAttr} (single : h.fileHeader.Single a) (ht : Holds (Key.rank h.fileHeader) h t) (hrids : RealRids t)
include single ht hrids

theorem scansExactly_iff_yields (hcomp : compOp.IsComparator) (hdate : compOp = .equalTo → a.type ≠ .chars)
    (value : Option Bytes) :
    ScansExactly h t compOp value ↔
      ∀ l ∈ ahead h.fileHeader compOp (valueCopy h.fileHeader value) t,
        Yields (matching h.fileHeader compOp (valueCopy h.fileHeader value)) entries l := by
  have htest : ∀ locals, scanTest h.fileHeader compOp (valueCopy h.fileHeader value) locals =
      matching h.fileHeader compOp (valueCopy h.fileHeader value) :=
    fun locals => funext fun e => single.satisfies_eq hcomp hdate locals e.1
  constructor
  · intro hexact l hl
    by_contra hgap
    refine scan_of_gap ht hl ?_ _ (hexact fun _ => (0, 0))
    rwa [htest]
  · intro yields locals
    rw [← htest locals] at yields
    have hscan := scan_of_yields ht locals value yields
    rwa [htest locals, filter_ahead single ht hrids compOp] at hscan

theorem scansExactly_chars_iff (hchars : a.type = .chars) (value : Option Bytes) :
    ScansExactly h t .equalTo value ↔ ahead h.fileHeader .equalTo (valueCopy h.fileHeader value) t = [] := by
  constructor
  · intro hexact
    refine eq_nil_iff_forall_not_mem.mpr fun l hl => ?_
    refine scan_of_gap ht hl ?_ _ (hexact fun _ => (0, 1))
    rintro ⟨e, -, haccept⟩
    rw [scanTest, single.satisfies_chars hchars] at haccept
    cases haccept
  · intro hnil locals
    have hscan := @scan_of_yields h n t .equalTo _ _ _ ht locals value fun l hl => by
      rw [hnil] at hl
      cases hl
    have hnone := filter_ahead single ht hrids .equalTo (valueCopy h.fileHeader value)
    rw [hnil] at hscan hnone
    rw [← hnone]
    exact hscan

theorem ahead_equalTo_eq_nil_iff (key : Bytes) :
    ahead h.fileHeader .equalTo key t = [] ↔ ∀ e ∈ t.entries,
      compareKey h.fileHeader (e.1.bytes h.fileHeader) key < 0 := by
  have hlater : ¬FromFirst .equalTo := by decide
  have hstarts : ∀ e : Key × RID, starts h.fileHeader .equalTo key e = false ↔
      compareKey h.fileHeader (e.1.bytes h.fileHeader) key < 0 := by
    intro e
    rw [starts, startsAt, decide_eq_false_iff_not, Int.not_le]
  rw [t.entries_eq_flatMap]
  obtain ⟨P, hP, ⟨hleaves, hnil⟩ | ⟨l, ls, hleaves, ⟨e, he, hstart⟩, hcons⟩⟩ := ahead_leaves single ht hrids hlater key
  · refine iff_of_true hnil fun e he => ?_
    rw [hleaves] at he
    obtain ⟨l, hl, he⟩ := mem_flatMap.mp he
    exact (hstarts e).mp (hP l hl e he)
  · rw [hcons, hleaves]
    refine iff_of_false (cons_ne_nil _ _) fun hall => ?_
    refine Bool.eq_false_iff.mp ((hstarts e).mpr (hall e ?_)) hstart
    exact mem_flatMap.mpr ⟨l, mem_append_right _ mem_cons_self, he⟩

/-- A scan of an index over one attribute is exact if and only if every leaf that it looks at has an entry that matches:
    all leaves for `<`, `<=` and `<>`, those that reach up to the value for `=`. For strings, `=` is exact only if
    nothing is at or behind the value. -/
theorem indexScan_exact_iff (horder : 3 ≤ h.fileHeader.order) (hcomp : compOp.IsComparator) (value : Option Bytes) :
    ScansExactly h t compOp value ↔
      (∀ l ∈ t.leafNodes, LeafFits h.fileHeader compOp (valueCopy h.fileHeader value) l) ∧
      (compOp = .equalTo → a.type = .chars → ∀ e ∈ t.entries,
        compareKey h.fileHeader (e.1.bytes h.fileHeader) (valueCopy h.fileHeader value) < 0) := by
  by_cases hdate : compOp = .equalTo ∧ a.type = .chars
  · obtain ⟨rfl, hchars⟩ := hdate
    rw [scansExactly_chars_iff single ht hrids hchars, ahead_equalTo_eq_nil_iff single ht hrids]
    refine ⟨fun hall => ⟨fun l hl => ?_, fun _ _ => hall⟩, fun hall => hall.2 rfl hchars⟩
    rintro ⟨e, he, hge⟩
    refine absurd hge (Int.not_le.mpr (hall e ?_))
    rw [t.entries_eq_flatMap]
    exact mem_flatMap.mpr ⟨l, hl, he⟩
  · have hdate' : compOp = .equalTo → a.type ≠ .chars := fun heq hchars => hdate ⟨heq, hchars⟩
    rw [scansExactly_iff_yields single ht hrids hcomp hdate', yields_ahead_iff single horder ht hrids hcomp]
    exact ⟨fun hall => ⟨hall, fun heq hchars => absurd hchars (hdate' heq)⟩, fun hall => hall.1⟩

end

end

theorem twoLeafIndex_single (sep : Bytes × RID) (left right : List (Bytes × RID)) :
    (twoLeafIndex sep left right).fileHeader.Single ⟨.ints, 4⟩ := ⟨rfl, .inl rfl, fun _ => le_rfl⟩

theorem indexScan_exact_less :
    ScansExactly (twoLeafIndex (intPair 4) [intPair 1, intPair 2] [intPair 4, intPair 5])
      (twoLeafTree (intPair 4) [intPair 1, intPair 2] [intPair 4, intPair 5]) .lessThan (some [5, 0, 0, 0]) := by
  have ht := @twoLeafIndex_holds _ _ (Key.rank (twoLeafIndex (intPair 4) [] []).fileHeader)
    (intPair 4) [intPair 1, intPair 2]
    [intPair 4, intPair 5] (wf_leaf.mpr (by decide)) (wf_leaf.mpr (by decide)) (by decide) (by decide)
  refine (indexScan_exact_iff (twoLeafIndex_single _ _ _) ht (by decide) (by decide) (by decide) _).mpr ⟨by decide, ?_⟩
  exact fun heq => (nomatch heq)

def onePair (i : Nat) : Bytes × RID := ([1, 0, 0, 0], ⟨1, i⟩)

/-- `<> 1` on `1, 1 | 4, 5` delivers nothing, since the first leaf has no other value. -/
theorem indexScan_loses_leaf :
    let h := twoLeafIndex (intPair 4) [onePair 1, onePair 2] [intPair 4, intPair 5]
    let t := twoLeafTree (intPair 4) [onePair 1, onePair 2] [intPair 4, intPair 5]
    Holds (Key.rank h.fileHeader) h t ∧
      (scan 6 (fun _ => (0, 0)) .notEqual (some [1, 0, 0, 0]) h).map Prod.fst = some (.ok ([], .recordNoMoreIdxInMem)) ∧
      ¬ScansExactly h t .notEqual (some [1, 0, 0, 0]) := by
  intro h t
  have ht : Holds (Key.rank h.fileHeader) h t :=
    @twoLeafIndex_holds _ _ (Key.rank (twoLeafIndex (intPair 4) [] []).fileHeader)
    (intPair 4) [onePair 1, onePair 2] [intPair 4, intPair 5] (wf_leaf.mpr (by decide)) (wf_leaf.mpr (by decide))
      (by decide)
    (by decide)
  refine ⟨ht, rfl, fun hexact => ?_⟩
  have hhead : ⟨1, [onePair 1, onePair 2].map fun p => (⟨p.1, p.2⟩, p.2)⟩ ∈
      ahead h.fileHeader .notEqual (valueCopy h.fileHeader (some [1, 0, 0, 0])) t := mem_cons_self
  refine scan_of_gap ht hhead ?_ _ (hexact fun _ => (0, 0))
  unfold Yields
  decide

/-- Whatever an index over one attribute has and gets inserted, in whatever order and with whatever splits, `>` and `>=`
    then deliver the entries that match, sorted by key. -/
theorem inserted_scanned {a : IndexAttr} {h₀ : BplusTreeHandler} {n₀ : Nat} {t₀ : IndexTree n₀}
    {ps : List (Bytes × RID)} (single : h₀.fileHeader.Single a) (opened : h₀.opened = true) (fresh : h₀.alloc.Fresh)
    (order : 3 ≤ h₀.order) (holds₀ : Holds (Key.rank h₀.fileHeader) h₀ t₀)
    (differ : (storedPairs h₀.fileHeader ps ++ t₀.entries).Pairwise fun e e' => cmpKey h₀.fileHeader e.1 e'.1 ≠ 0)
    (real : ∀ e ∈ storedPairs h₀.fileHeader ps ++ t₀.entries, 0 ≤ e.1.rid.pageNum) :
    ∃ (h : BplusTreeHandler) (n : Nat) (t : IndexTree n), insertAll (n₀ + ps.length) ps h₀ = some (.ok (), h) ∧
      t.entries.Perm (storedPairs h₀.fileHeader ps ++ t₀.entries) ∧
      t.entries.Pairwise (fun e e' => cmpKey h₀.fileHeader e.1 e'.1 < 0) ∧
      ∀ compOp value, compOp = .greatThan ∨ compOp = .greatEqual → ScansExactly h t compOp value := by
  have agrees (k k' : Key) : Agrees (cmpKey h₀.fileHeader k k') (k.rank h₀.fileHeader) (k'.rank h₀.fileHeader) :=
    orders_of_noFloats single.noFloats [k, k'] k (by simp) k' (by simp)
  obtain ⟨h, n, t, run, holds, same, perm⟩ :=
    insertAll_spec opened order fresh holds₀ (orders_of_noFloats single.noFloats _)
    (differ.imp fun hne heq => hne ((agrees _ _).2.mpr heq)) le_rfl
  refine ⟨h, n, t, run, perm, holds.wf.entries_sorted.1.imp fun hlt => (agrees _ _).1.mpr hlt, ?_⟩
  intro compOp value hcomp
  have single' : h.fileHeader.Single a := ⟨same.attrs.trans single.attrs, single.type, single.width⟩
  have rids : RealRids t := fun e he => real e (perm.mem_iff.mp he)
  rw [← Key.rank_congr same.attrs] at holds
  have is : compOp.IsComparator := by obtain rfl | rfl := hcomp <;> decide
  refine (scansExactly_iff_yields single' holds rids is ?_ value).mpr
    ((yields_ahead_iff single' (order.trans same.order.ge) holds rids is).mpr fun l _ => ?_)
  · obtain rfl | rfl := hcomp <;> exact fun heq => by cases heq
  · obtain rfl | rfl := hcomp <;> trivial

theorem inserted_scanned_ints : ∃ (h : BplusTreeHandler) (n : Nat) (t : IndexTree n),
    insertAll 3 [intPair 4, intPair 1, intPair 5] intIndex = some (.ok (), h) ∧
      ScansExactly h t .greatThan (some [1, 0, 0, 0]) := by
  obtain ⟨h, n, t, run, -, -, scans⟩ := @inserted_scanned ⟨.ints, 4⟩ intIndex 0 (Tree.leaf 1 [])
    [intPair 4, intPair 1, intPair 5] ⟨rfl, .inl rfl, fun _ => le_rfl⟩ rfl allocateLast_fresh (by decide)
      (create_holds _ _ _) (by decide)
    (by decide)
  exact ⟨h, n, t, run, scans _ _ (.inl rfl)⟩

end MiniOb
