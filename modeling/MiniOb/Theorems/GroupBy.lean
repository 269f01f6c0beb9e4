import MiniOb.Theorems.Grouping

/-! # The groups of GROUP BY

A map of `Grouper` finds its keys by their hashes, so its groups are the rows with the same hashes. -/

namespace MiniOb.Grouper
open Buckets List AggregatorManager
variable {std : StdHash} {iteration : Iteration} {indices : List Nat} {tuples : List Tuple}

def ofClass (std : StdHash) (index : Nat) (key : TupleValue) (tuples : List Tuple) : List Tuple :=
  tuples.filter fun t => decide ((t.at index).hash std = key.hash std)

theorem mem_ofClass {index : Nat} {key : TupleValue} {t : Tuple} :
    t ∈ ofClass std index key tuples ↔ t ∈ tuples ∧ (t.at index).hash std = key.hash std := by
  simp [ofClass]

theorem ofClass_append (index : Nat) (key : TupleValue) (tuple : Tuple) :
    ofClass std index key (tuples ++ [tuple]) =
      ofClass std index key tuples ++ if (tuple.at index).hash std = key.hash std then [tuple] else [] := by
  simp [ofClass, filter_append, filter_cons]

def entries {n : Nat} (map : GroupMap (n + 1)) : List (TupleValue × GroupMap n) := map

/-- The map holds these rows: one entry for each class, with the key of a row of the class, and the rows of the class
    below it. -/
def Holds (std : StdHash) : (indices : List Nat) → GroupMap indices.length → List Tuple → Prop
  | [], group, tuples => group = tuples
  | index :: indices, map, tuples => (classes (TupleValue.hash std) (entries map)).Nodup ∧
    (∀ t ∈ tuples, (t.at index).hash std ∈ classes (TupleValue.hash std) (entries map)) ∧
    ∀ entry ∈ entries map, (∃ t ∈ tuples, t.at index = entry.1) ∧
      Holds std indices entry.2 (ofClass std index entry.1 tuples)

theorem holds_emptyMap : ∀ indices : List Nat, Holds std indices (emptyMap indices.length) []
  | [] => rfl
  | _ :: _ => ⟨.nil, fun _ ht => absurd ht not_mem_nil, fun _ he => absurd he not_mem_nil⟩

theorem holds_createLaterMapChain (tuple : Tuple) :
    ∀ indices : List Nat, Holds std indices (createLaterMapChain tuple indices) [tuple]
  | [] => rfl
  | index :: indices => by
    refine ⟨nodup_singleton _, fun t ht => ?_, fun entry he => ?_⟩
    · obtain rfl := mem_singleton.mp ht
      exact mem_singleton_self _
    · obtain rfl := mem_singleton.mp he
      refine ⟨⟨tuple, mem_singleton_self _, rfl⟩, ?_⟩
      have hclass : ofClass std index (tuple.at index) [tuple] = [tuple] := by simp [ofClass]
      rw [hclass]
      exact holds_createLaterMapChain tuple indices

theorem holds_addTuple (tuple : Tuple) : ∀ (indices : List Nat) {map : GroupMap indices.length} {tuples : List Tuple},
    Holds std indices map tuples → Holds std indices (addTuple std tuple indices map) (tuples ++ [tuple])
  | [], _, _, h => congrArg (List.append · [tuple]) h
  | index :: indices, map, tuples, ⟨nodup, cover, held⟩ => by
    have hentries : entries (addTuple std tuple (index :: indices) map) = upsert (TupleValue.hash std) (tuple.at index)
      (createLaterMapChain tuple indices) (addTuple std tuple indices) (entries map) := rfl
    refine ⟨?_, fun t ht => ?_, fun entry he => ?_⟩
    · rw [hentries]
      exact nodup_upsert nodup
    · rw [hentries, classes_upsert]
      rcases mem_append.mp ht with ht | ht
      · split
        · exact cover t ht
        · exact mem_append_left _ (cover t ht)
      · obtain rfl := mem_singleton.mp ht
        split
        · assumption
        · exact mem_append_right _ (mem_singleton_self _)
    · rw [hentries, mem_upsert nodup] at he
      rw [ofClass_append]
      rcases he with ⟨hmem, hother⟩ | ⟨entry, hmem, hsame, rfl⟩ | ⟨hnew, rfl⟩
      · obtain ⟨⟨t, ht, hkey⟩, hbelow⟩ := held entry hmem
        rw [if_neg hother.symm, append_nil]
        exact ⟨⟨t, mem_append_left _ ht, hkey⟩, hbelow⟩
      · obtain ⟨⟨t, ht, hkey⟩, hbelow⟩ := held entry hmem
        rw [if_pos hsame.symm]
        exact ⟨⟨t, mem_append_left _ ht, hkey⟩, holds_addTuple tuple indices hbelow⟩
      · have hnone : ofClass std index (tuple.at index) tuples = [] := by
          refine filter_eq_nil_iff.mpr fun t ht => ?_
          rw [decide_eq_true_eq]
          exact fun heq => hnew (heq ▸ cover t ht)
        rw [if_pos rfl, hnone]
        exact ⟨⟨tuple, mem_append_right _ (mem_singleton_self _), rfl⟩, holds_createLaterMapChain tuple indices⟩

theorem holds_addTuples (std : StdHash) (indices : List Nat) (tuples : List Tuple) :
    Holds std indices (addTuples std indices tuples) tuples.reverse := by
  have hloop : ∀ (later done : List Tuple) (map : GroupMap indices.length), Holds std indices map done →
      Holds std indices (later.foldl (fun map tuple => addTuple std tuple indices map) map) (done ++ later) := by
    intro later
    induction later with
    | nil =>
      intro done map h
      rwa [append_nil]
    | cons tuple later ih =>
      intro done map h
      rw [append_cons]
      exact ih _ _ (holds_addTuple tuple indices h)
  exact hloop tuples.reverse [] _ (holds_emptyMap indices)

def SameHashes (std : StdHash) (indices : List Nat) (a b : Tuple) : Prop :=
  ∀ i ∈ indices, (a.at i).hash std = (b.at i).hash std

theorem arranged_nodup (iteration : Iteration) {n : Nat} {map : GroupMap (n + 1)}
    (nodup : (classes (TupleValue.hash std) (entries map)).Nodup) (keys : Tuple) :
    (classes (TupleValue.hash std) (iteration.arrange keys (GroupMap n) map)).Nodup :=
  ((iteration.perm keys (GroupMap n) map).map _).nodup_iff.mpr nodup

theorem visited_perm : ∀ (indices : List Nat) {map : GroupMap indices.length} {tuples : List Tuple} (keys : Tuple),
    Holds std indices map tuples → ((visited iteration indices.length map keys).flatMap Prod.snd).Perm tuples
  | [], map, tuples, keys, h => by
    obtain rfl : map = tuples := h
    exact List.Perm.of_eq (append_nil _)
  | index :: indices, map, tuples, keys, ⟨nodup, cover, held⟩ => by
    have hperm := iteration.perm keys (GroupMap indices.length) map
    have hsplit : ((visited iteration (indices.length + 1) map keys).flatMap Prod.snd) =
        (iteration.arrange keys (GroupMap indices.length) map).flatMap fun entry =>
          (visited iteration indices.length entry.2 (keys ++ [entry.1])).flatMap Prod.snd := flatMap_assoc
    have hbelow : ((iteration.arrange keys (GroupMap indices.length) map).flatMap fun entry =>
          (visited iteration indices.length entry.2 (keys ++ [entry.1])).flatMap Prod.snd).Perm
        ((iteration.arrange keys (GroupMap indices.length) map).flatMap fun entry =>
          ofClass std index entry.1 tuples) :=
      List.Perm.flatMap_left _ fun entry he => visited_perm indices _ (held entry (hperm.mem_iff.mp he)).2
    refine (List.Perm.of_eq hsplit).trans (hbelow.trans ?_)
    refine perm_flatMap_filter (fun t : Tuple => (t.at index).hash std) (arranged_nodup iteration nodup keys)
      fun t ht => ?_
    exact (hperm.map _).mem_iff.mpr (cover t ht)

theorem visited_ne_nil : ∀ (indices : List Nat) {map : GroupMap indices.length} {tuples : List Tuple} (keys : Tuple),
    Holds std indices map tuples → indices ≠ [] ∨ tuples ≠ [] →
    ∀ group ∈ visited iteration indices.length map keys, group.2 ≠ []
  | [], map, tuples, keys, h, hne, group, hgroup => by
    obtain rfl : map = tuples := h
    obtain rfl := mem_singleton.mp hgroup
    exact hne.resolve_left (absurd rfl)
  | index :: indices, map, tuples, keys, ⟨_, _, held⟩, _, group, hgroup => by
    obtain ⟨entry, he, hgroup⟩ := mem_flatMap.mp hgroup
    obtain ⟨⟨t, ht, hkey⟩, hbelow⟩ := held entry ((iteration.perm keys _ map).mem_iff.mp he)
    refine visited_ne_nil indices _ hbelow (.inr fun hnil => ?_) group hgroup
    exact absurd (mem_ofClass.mpr ⟨ht, hkey ▸ rfl⟩) (hnil ▸ not_mem_nil)

theorem mem_of_visited {map : GroupMap indices.length} {keys : Tuple} (h : Holds std indices map tuples)
    {group : Tuple × List Tuple} (hgroup : group ∈ visited iteration indices.length map keys) {t : Tuple}
    (ht : t ∈ group.2) : t ∈ tuples :=
  (visited_perm indices keys h).mem_iff.mp (mem_flatMap.mpr ⟨group, hgroup, ht⟩)

theorem visited_apart : ∀ (indices : List Nat) {map : GroupMap indices.length} {tuples : List Tuple} (keys : Tuple),
    Holds std indices map tuples →
    (visited iteration indices.length map keys).Pairwise fun g h => ∀ a ∈ g.2, ∀ b ∈ h.2, ¬SameHashes std indices a b
  | [], _, _, _, _ => pairwise_singleton _ _
  | index :: indices, map, tuples, keys, ⟨nodup, _, held⟩ => by
    have hperm := iteration.perm keys (GroupMap indices.length) map
    refine pairwise_flatMap.mpr ⟨fun entry he => ?_, ?_⟩
    · refine (visited_apart indices (keys ++ [entry.1]) (held entry (hperm.mem_iff.mp he)).2).imp
        fun h a ha b hb same => ?_
      exact h a ha b hb fun i hi => same i (mem_cons_of_mem index hi)
    · have hclasses := pairwise_map.mp (arranged_nodup iteration nodup keys)
      refine hclasses.imp_of_mem fun {e e'} he he' hne g hg h hh a ha b hb same => hne ?_
      have hrows := fun {e} he {g} (hg : g ∈ visited iteration _ _ (keys ++ [e.1])) {a} (ha : a ∈ g.2) =>
        (mem_ofClass.mp (mem_of_visited (held e (hperm.mem_iff.mp he)).2 hg ha)).2
      exact (hrows he hg ha).symm.trans ((same index mem_cons_self).trans (hrows he' hh hb))

theorem keys_prefix_visited : ∀ (n : Nat) {map : GroupMap n} {keys : Tuple}, ∀ group ∈ visited iteration n map keys,
    keys <+: group.1
  | 0, _, keys, group, hgroup => by
    obtain rfl := mem_singleton.mp hgroup
    exact prefix_rfl
  | n + 1, map, keys, group, hgroup => by
    obtain ⟨entry, -, hgroup⟩ := mem_flatMap.mp hgroup
    exact (prefix_append keys [entry.1]).trans (keys_prefix_visited n group hgroup)

/-- Two rows that are alike in the first columns of GROUP BY, however many, have the same value in the last of these. -/
def Tells (alike : TupleValue → TupleValue → Prop) (indices : List Nat) (tuples : List Tuple) : Prop :=
  ∀ leading last, leading ++ [last] <+: indices → ∀ a ∈ tuples, ∀ b ∈ tuples,
    (∀ i ∈ leading ++ [last], alike (a.at i) (b.at i)) → a.at last = b.at last

def SameHash (std : StdHash) (v w : TupleValue) : Prop := v.hash std = w.hash std

theorem tells_cons {index : Nat} : Tells (SameHash std) (index :: indices) tuples ↔
    (∀ a ∈ tuples, ∀ b ∈ tuples, SameHash std (a.at index) (b.at index) → a.at index = b.at index) ∧
      ∀ t ∈ tuples, Tells (SameHash std) indices (ofClass std index (t.at index) tuples) := by
  constructor
  · intro h
    refine ⟨fun a ha b hb same => ?_, fun t _ leading last hlead a ha b hb same => ?_⟩
    · refine h [] index (prefix_append [index] indices) a ha b hb fun i hi => ?_
      obtain rfl := mem_singleton.mp hi
      exact same
    · obtain ⟨ha, hat⟩ := mem_ofClass.mp ha
      obtain ⟨hb, hbt⟩ := mem_ofClass.mp hb
      refine h (index :: leading) last (cons_prefix_cons.mpr ⟨rfl, hlead⟩) a ha b hb fun i hi => ?_
      rcases mem_cons.mp hi with rfl | hi
      · exact hat.trans hbt.symm
      · exact same i hi
  · rintro ⟨hfirst, hrest⟩ leading last hlead a ha b hb same
    cases leading with
    | nil =>
      obtain ⟨rfl, -⟩ := cons_prefix_cons.mp hlead
      exact hfirst a ha b hb (same last (mem_singleton_self _))
    | cons i leading =>
      obtain ⟨rfl, hbelow⟩ := cons_prefix_cons.mp hlead
      have hb' := mem_ofClass.mpr ⟨hb, (same i mem_cons_self).symm⟩
      exact hrest a ha leading last hbelow a (mem_ofClass.mpr ⟨ha, rfl⟩) b hb' fun j hj => same j (mem_cons_of_mem i hj)

def KeysOfRows (iteration : Iteration) (indices : List Nat) (map : GroupMap indices.length) (keys : Tuple) : Prop :=
  ∀ group ∈ visited iteration indices.length map keys, ∀ a ∈ group.2, group.1 = keys ++ indices.map a.at

theorem keysOfRows_iff : ∀ (indices : List Nat) {map : GroupMap indices.length} {tuples : List Tuple} (keys : Tuple),
    Holds std indices map tuples → (KeysOfRows iteration indices map keys ↔ Tells (SameHash std) indices tuples)
  | [], map, tuples, keys, h => by
    constructor
    · exact fun _ leading last hlead => absurd (prefix_nil.mp hlead) (by simp)
    · intro _ group hgroup a _
      obtain rfl := mem_singleton.mp hgroup
      exact (append_nil keys).symm
  | index :: indices, map, tuples, keys, ⟨nodup, cover, held⟩ => by
    have hperm := iteration.perm keys (GroupMap indices.length) map
    rw [tells_cons]
    constructor
    · intro h
      -- The key of an entry is the value of every row below it.
      have hkey : ∀ entry ∈ entries map, ∀ a ∈ ofClass std index entry.1 tuples, entry.1 = a.at index := by
        intro entry he a ha
        have hbelow := @visited_perm std iteration indices _ _ (keys ++ [entry.1]) (held entry he).2
        obtain ⟨group, hgroup, hmem⟩ := mem_flatMap.mp (hbelow.mem_iff.mpr ha)
        have hkeys := keys_prefix_visited indices.length group hgroup
        rw [h group (mem_flatMap.mpr ⟨entry, hperm.mem_iff.mpr he, hgroup⟩) a hmem] at hkeys
        exact (cons_prefix_cons.mp ((prefix_append_right_inj keys).mp hkeys)).1
      -- Every row is below an entry.
      have hentry : ∀ t ∈ tuples, ∃ entry ∈ entries map, (t.at index).hash std = entry.1.hash std := by
        intro t ht
        obtain ⟨entry, he, hclass⟩ := mem_map.mp (cover t ht)
        exact ⟨entry, he, hclass.symm⟩
      refine ⟨fun a ha b hb same => ?_, fun t ht => ?_⟩
      · obtain ⟨entry, he, hclass⟩ := hentry a ha
        have hka := hkey entry he a (mem_ofClass.mpr ⟨ha, hclass⟩)
        exact hka.symm.trans (hkey entry he b (mem_ofClass.mpr ⟨hb, same.symm.trans hclass⟩))
      · obtain ⟨entry, he, hclass⟩ := hentry t ht
        rw [ofClass, hclass]
        refine (keysOfRows_iff indices (keys ++ [entry.1]) (held entry he).2).mp fun group hgroup a ha => ?_
        rw [h group (mem_flatMap.mpr ⟨entry, hperm.mem_iff.mpr he, hgroup⟩) a ha,
          hkey entry he a (mem_of_visited (held entry he).2 hgroup ha), append_assoc]
        rfl
    · rintro ⟨hfirst, hrest⟩ group hgroup a ha
      obtain ⟨entry, he, hgroup⟩ := mem_flatMap.mp hgroup
      obtain ⟨⟨t, ht, hkey⟩, hbelow⟩ := held entry (hperm.mem_iff.mp he)
      have hright := (keysOfRows_iff indices (keys ++ [entry.1]) hbelow).mpr (hkey ▸ hrest t ht) group hgroup a ha
      obtain ⟨hmem, hclass⟩ := mem_ofClass.mp (mem_of_visited hbelow hgroup ha)
      have hvalue : a.at index = entry.1 := (hfirst t ht a hmem (hkey ▸ hclass.symm)).symm.trans hkey
      rw [hright, map_cons, hvalue, append_assoc]
      rfl

def groups (std : StdHash) (iteration : Iteration) (indices : List Nat) (tuples : List Tuple) :
    List (Tuple × List Tuple) :=
  visited iteration indices.length (addTuples std indices tuples) []

def Agree (indices : List Nat) (a b : Tuple) : Prop := ∀ i ∈ indices, a.at i = b.at i

/-- Rows are grouped by their values in the columns, and each group puts out one tuple that begins with these values. -/
structure GroupsByValue (std : StdHash) (iteration : Iteration) (indices : List Nat) (set : TupleSet) : Prop where
  once : ((groups std iteration indices set.tuples).flatMap Prod.snd).Perm set.tuples
  nonempty : ∀ group ∈ groups std iteration indices set.tuples, group.2 ≠ []
  together : ∀ group ∈ groups std iteration indices set.tuples, ∀ a ∈ group.2, ∀ b ∈ group.2, Agree indices a b
  apart : (groups std iteration indices set.tuples).Pairwise fun g h => ∀ a ∈ g.2, ∀ b ∈ h.2, ¬Agree indices a b
  keys : ∀ group ∈ groups std iteration indices set.tuples, ∀ a ∈ group.2, group.1 = indices.map a.at
  output : ∀ aggs aggregators, AggregatorManager.create set.schema aggs = some aggregators →
    execute std iteration indices aggs set = some ((groups std iteration indices set.tuples).map fun group =>
      group.1 ++ results (consume aggregators group.2))

def Confusable (v w : TupleValue) : Prop :=
  v = w ∨ (v = .null ∨ v = .int 0 ∨ v = .date 0) ∧ (w = .null ∨ w = .int 0 ∨ w = .date 0)

theorem hash_null_iff {type : AttrType} {v : TupleValue} (number : type ≠ .chars) (fits : v.Fits type) :
    v.hash std = 0 ↔ v = .null ∨ v = .int 0 ∨ v = .date 0 := by
  cases v with
  | null => simp [TupleValue.hash]
  | int n =>
    obtain ⟨-, low, high⟩ := fits
    have hhash : (n % 2 ^ 64).toNat = 0 ↔ n = 0 := by omega
    simpa [TupleValue.hash] using hhash
  | float f => exact absurd fits not_false
  | string s => exact absurd fits.1 number
  | date d => simp [TupleValue.hash]

theorem sameHash_iff {type : AttrType} {v w : TupleValue} (number : type ≠ .chars) (hv : v.Fits type)
    (hw : w.Fits type) : SameHash std v w ↔ Confusable v w := by
  have zeros := fun {v : TupleValue} (hv : v.Fits type) => @hash_null_iff std type v number hv
  constructor
  · intro same
    rcases Bool.eq_false_or_eq_true v.isNull with nv | nv
    · obtain rfl := TupleValue.eq_null_of_isNull nv
      exact .inr ⟨.inl rfl, (zeros hw).mp same.symm⟩
    · rcases Bool.eq_false_or_eq_true w.isNull with nw | nw
      · obtain rfl := TupleValue.eq_null_of_isNull nw
        exact .inr ⟨(zeros hv).mp same, .inl rfl⟩
      · exact .inl (TupleValue.hash_inj number hv hw nv nw same)
  · rintro (rfl | ⟨zv, zw⟩)
    · exact rfl
    · exact ((zeros hv).mpr zv).trans ((zeros hw).mpr zw).symm

/-- GROUP BY is by value if and only if rows that have the same hashes in the first columns, however many, have the same
    value in the last of these. Numbers and dates fail that only by a NULL next to a zero. -/
theorem groupsByValue_iff (std : StdHash) (iteration : Iteration) (indices : List Nat) (set : TupleSet)
    (types : Nat → AttrType) (grouped : indices ≠ [])
    (typed : ∀ t ∈ set.tuples, ∀ i ∈ indices, (types i).Exact ∧ (t.at i).Fits (types i)) :
    (GroupsByValue std iteration indices set ↔ Tells (SameHash std) indices set.tuples) ∧
      ((∀ i ∈ indices, types i ≠ .chars) → (Tells (SameHash std) indices set.tuples ↔
        Tells Confusable indices set.tuples)) := by
  have hholds := holds_addTuples std indices set.tuples
  have hreverse : Tells (SameHash std) indices set.tuples.reverse ↔ Tells (SameHash std) indices set.tuples := by
    simp only [Tells, mem_reverse]
  constructor
  · rw [← hreverse, ← @keysOfRows_iff std iteration indices _ _ [] hholds]
    constructor
    · exact fun h => h.keys
    · intro hkeys
      refine ⟨?_, ?_, ?_, ?_, hkeys, ?_⟩
      · exact (visited_perm indices [] hholds).trans (reverse_perm _)
      · exact visited_ne_nil indices [] hholds (.inl grouped)
      · intro group hgroup a ha b hb i hi
        have hsame : indices.map a.at = indices.map b.at :=
          (hkeys group hgroup a ha).symm.trans (hkeys group hgroup b hb)
        exact map_inj_left.mp hsame i hi
      · refine (visited_apart indices [] hholds).imp fun h a ha b hb agree => h a ha b hb fun i hi => ?_
        rw [agree i hi]
      · intro aggs aggregators created
        rw [execute, created]
        exact congrArg some (doAggregationHelper_eq indices.length _ [] (of_create created)).2
  · intro number
    have hsame : ∀ a ∈ set.tuples, ∀ b ∈ set.tuples, ∀ i ∈ indices,
      (SameHash std (a.at i) (b.at i) ↔ Confusable (a.at i) (b.at i)) :=
      fun a ha b hb i hi => sameHash_iff (number i hi) (typed a ha i hi).2 (typed b hb i hi).2
    have hall : ∀ leading last, leading ++ [last] <+: indices → ∀ a ∈ set.tuples, ∀ b ∈ set.tuples,
        ((∀ i ∈ leading ++ [last], SameHash std (a.at i) (b.at i)) ↔
          ∀ i ∈ leading ++ [last], Confusable (a.at i) (b.at i)) :=
      fun _ _ hlead a ha b hb => forall₂_congr fun i hi => hsame a ha b hb i (hlead.subset hi)
    constructor
    · exact fun h leading last hlead a ha b hb same => h leading last hlead a ha b hb
        ((hall leading last hlead a ha b hb).mpr same)
    · exact fun h leading last hlead a ha b hb same => h leading last hlead a ha b hb
        ((hall leading last hlead a ha b hb).mp same)

def noTexts : StdHash where
  string _ := 0
  float _ := 0

def numbersOf (values : List TupleValue) : TupleSet where
  schema := [⟨.ints, ⟨[116], [97]⟩⟩]
  tuples := values.map fun v => [v]

theorem null_and_one_grouped : GroupsByValue noTexts inOrder [0] (numbersOf [.null, .int 1, .null]) := by
  have htyped : ∀ t ∈ (numbersOf [.null, .int 1, .null]).tuples, ∀ i ∈ [0], AttrType.Exact .ints ∧
      (t.at i).Fits .ints := by
    simp [numbersOf, Tuple.at, TupleValue.Fits, AttrType.Exact]
  have hiff := groupsByValue_iff noTexts inOrder [0] (numbersOf [.null, .int 1, .null]) (fun _ => .ints)
    (by decide) htyped
  refine hiff.1.mpr fun leading last hlead => ?_
  obtain ⟨rfl, rfl⟩ : leading = [] ∧ last = 0 := by
    cases leading with
    | nil => exact ⟨rfl, (cons_prefix_cons.mp hlead).1⟩
    | cons i leading => exact absurd (cons_prefix_cons.mp hlead).2 (by simp)
  simp [numbersOf, SameHash, Tuple.at, TupleValue.hash]

theorem null_and_zero_one_group : ¬GroupsByValue noTexts inOrder [0] (numbersOf [.null, .int 0]) := by
  intro h
  have hagree := h.together ([.int 0], [[.int 0], [.null]]) (mem_singleton_self _) [.int 0] (by decide) [.null]
    (by decide)
  exact absurd (hagree 0 (mem_singleton_self _)) (by decide)

end MiniOb.Grouper
