import MiniOb.Lib.Single
import MiniOb.Types

/-! # Index keys and their order

`CompareKey` and `CmpKey` of `bplus_tree.cpp`. `Key.rank` is what `CmpKey` reads of a key, as a list of lists of
integers, and `cmpKey_spec` says that the sign of `CmpKey` is the order of the ranks. A number is read as four bytes,
however wide its attribute is; `Key.meaning` takes the bytes of the attribute only. -/

namespace MiniOb
open List
variable {h : IndexFileHeader} {L : Type} {c : Int}

/-- One indexed attribute: an entry of `attr_types` and of `attr_lengths`. -/
structure IndexAttr where
  type : AttrType
  length : Nat
  deriving DecidableEq, Repr

structure IndexFileHeader where
  attrs : List IndexAttr
  rootPage : PageNum
  order : Nat

def IndexFileHeader.attrWholeLength (h : IndexFileHeader) : Nat := (h.attrs.map (·.length)).sum

/-- A key of a node: `attr_whole_length` bytes of attributes, then the RID. -/
structure Key where
  attr : Bytes
  rid : RID
  deriving DecidableEq, Repr

def IndexFileHeader.keyOf (header : IndexFileHeader) (pkey : Bytes) (rid : RID) : Key :=
  ⟨pkey.take header.attrWholeLength, rid⟩

def intBytes (n : Int) : Bytes := (List.range 4).map fun i => UInt8.ofNat ((n % 4294967296).toNat / 256 ^ i)

def RID.bytes (rid : RID) : Bytes := intBytes rid.pageNum ++ intBytes rid.slotNum

/-- The bytes of a key as they stand in a node. -/
def Key.bytes (h : IndexFileHeader) (k : Key) : Bytes := k.attr.takeD h.attrWholeLength 0 ++ k.rid.bytes

def cmpRid (rid1 rid2 : RID) : Int :=
  if rid1.pageNum > rid2.pageNum then 1
  else if rid1.pageNum < rid2.pageNum then -1
  else if rid1.slotNum > rid2.slotNum then 1
  else if rid1.slotNum < rid2.slotNum then -1
  else 0

/-- The constant `1e-6` of `float_compare`, a double, in units of `2^-149`. -/
def floatTolerance : Int := 4722366482869645 * 2 ^ 77

/-- `float_compare`. A difference that is not a number counts as less. -/
def floatCompare (f1 f2 : Single.Value) : Int :=
  let result := Single.sub f1 f2
  if Single.lt result floatTolerance ∧ Single.gt result (-floatTolerance) then 0
  else if Single.gt result 0 then 1 else -1

def readFloat (b : Bytes) : Single.Value := Single.decode (readUInt b)

/-- One round of the loop of `CompareKey`: the comparison of one attribute, `0` when the loop goes on. A date
    falls through to the default case, which only logs. -/
def compareAttr (a : IndexAttr) (pdata pkey : Bytes) : Int :=
  match a.type with
  | .ints =>
    if readInt pdata > readInt pkey then 1 else if readInt pdata < readInt pkey then -1 else 0
  | .floats => floatCompare (readFloat pdata) (readFloat pkey)
  | .chars => strncmp pdata pkey a.length
  | .date =>
    if readUInt pdata > readUInt pkey then 1 else if readUInt pdata < readUInt pkey then -1 else 0
  | .undefined | .texts | .nulls => 0

def compareAttrs : List IndexAttr → Bytes → Bytes → Int
  | [], _, _ => 0
  | a :: attrs, pdata, pkey =>
    if compareAttr a pdata pkey ≠ 0 then compareAttr a pdata pkey
    else compareAttrs attrs (pdata.drop a.length) (pkey.drop a.length)

def compareKey (h : IndexFileHeader) (pdata pkey : Bytes) : Int := compareAttrs h.attrs pdata pkey

def cmpKey (h : IndexFileHeader) (pdata pkey : Key) : Int :=
  let result := compareKey h (pdata.bytes h) (pkey.bytes h)
  if result ≠ 0 then result else cmpRid pdata.rid pkey.rid

theorem Key.bytes_congr {h' : IndexFileHeader} (hattrs : h'.attrs = h.attrs) : Key.bytes h' = Key.bytes h := by
  funext k
  unfold Key.bytes IndexFileHeader.attrWholeLength
  rw [hattrs]

theorem cmpKey_congr {h' : IndexFileHeader} (hattrs : h'.attrs = h.attrs) : cmpKey h' = cmpKey h := by
  funext k1 k2
  unfold cmpKey compareKey
  rw [hattrs, Key.bytes_congr hattrs]

theorem keyOf_congr {h' : IndexFileHeader} (hattrs : h'.attrs = h.attrs) : h'.keyOf = h.keyOf := by
  funext pkey rid
  simp only [IndexFileHeader.keyOf, IndexFileHeader.attrWholeLength, hattrs]

/-! ### The meaning of a key -/

/-- No indexed attribute is a float. `float_compare` takes two floats as equal within a tolerance, which is
    not transitive, so `CmpKey` is an order only without floats. -/
def IndexFileHeader.NoFloats (h : IndexFileHeader) : Prop := ∀ a ∈ h.attrs, a.type ≠ .floats

instance (h : IndexFileHeader) : Decidable h.NoFloats :=
  inferInstanceAs (Decidable (∀ a ∈ h.attrs, a.type ≠ .floats))

def attrRank (a : IndexAttr) (b : Bytes) : List Int :=
  match a.type with
  | .ints => [readInt b]
  | .chars => (cString b a.length).map fun c => (c.toNat : Int)
  | .date => [(readUInt b : Int)]
  | .floats | .undefined | .texts | .nulls => []

def attrsRank : List IndexAttr → Bytes → List (List Int) → List (List Int)
  | [], _, tail => tail
  | a :: attrs, b, tail => attrRank a b :: attrsRank attrs (b.drop a.length) tail

def Key.rank (h : IndexFileHeader) (k : Key) : List (List Int) :=
  attrsRank h.attrs (k.bytes h) [[k.rid.pageNum], [k.rid.slotNum]]

theorem Key.rank_congr {h' : IndexFileHeader} (hattrs : h'.attrs = h.attrs) : Key.rank h' = Key.rank h := by
  funext k
  rw [Key.rank, Key.rank, hattrs, Key.bytes_congr hattrs]

/-- A number has the four bytes that `CompareKey` reads. A column may be declared narrower, as `INT(1)`. -/
def IndexFileHeader.Wide (h : IndexFileHeader) : Prop := ∀ a ∈ h.attrs, a.type = .ints ∨ a.type = .date → 4 ≤ a.length

instance (h : IndexFileHeader) : Decidable h.Wide :=
  inferInstanceAs (Decidable (∀ a ∈ h.attrs, a.type = .ints ∨ a.type = .date → 4 ≤ a.length))

theorem cString_congr : ∀ {n : Nat} {x y : Bytes}, (∀ i < n, x.getD i 0 = y.getD i 0) → cString x n = cString y n
  | 0, _, _, _ => rfl
  | n + 1, x, y, same => by
    have head : x.headD 0 = y.headD 0 := by
      simpa [headD_eq_head?_getD, getD_eq_getElem?_getD, head?_eq_getElem?] using same 0 n.succ_pos
    have tail : cString x.tail n = cString y.tail n := cString_congr fun i hi => by
      simpa [getD_eq_getElem?_getD] using same (i + 1) (Nat.succ_lt_succ hi)
    rw [cString, cString, head, tail]

theorem attrRank_congr {a : IndexAttr} {x y : Bytes} (wide : a.type = .ints ∨ a.type = .date → 4 ≤ a.length)
    (same : ∀ i < a.length, x.getD i 0 = y.getD i 0) : attrRank a x = attrRank a y := by
  have number : a.type = .ints ∨ a.type = .date → readUInt x = readUInt y := fun ht => by
    have := wide ht
    rw [readUInt, readUInt, same 0 (by omega), same 1 (by omega), same 2 (by omega), same 3 (by omega)]
  unfold attrRank
  cases ht : a.type with
  | ints => simp only [readInt, number (.inl ht)]
  | chars => simp only [cString_congr same]
  | date => simp only [number (.inr ht)]
  | floats | undefined | texts | nulls => rfl

theorem attrsRank_congr {tail : List (List Int)} : ∀ {attrs : List IndexAttr} {x y : Bytes},
    (∀ a ∈ attrs, a.type = .ints ∨ a.type = .date → 4 ≤ a.length) →
    (∀ i < (attrs.map (·.length)).sum, x.getD i 0 = y.getD i 0) → attrsRank attrs x tail = attrsRank attrs y tail
  | [], _, _, _, _ => rfl
  | a :: attrs, x, y, wide, same => by
    rw [map_cons, sum_cons] at same
    rw [attrsRank, attrsRank, attrRank_congr (wide a (mem_cons_self ..)) fun i hi => same i (by omega),
      attrsRank_congr (fun b hb => wide b (mem_cons_of_mem _ hb)) fun i hi => ?_]
    simpa [getD_eq_getElem?_getD, getElem?_drop] using same (a.length + i) (by omega)

theorem getD_takeD : ∀ {n i : Nat} (l : Bytes), i < n → (l.takeD n 0).getD i 0 = l.getD i 0
  | _ + 1, 0, [], _ => rfl
  | _ + 1, 0, _ :: _, _ => rfl
  | _ + 1, i + 1, [], h => (getD_takeD (i := i) [] (Nat.lt_of_succ_lt_succ h)).trans rfl
  | _ + 1, _ + 1, _ :: l, h => getD_takeD l (Nat.lt_of_succ_lt_succ h)

/-- A key of wide attributes is read within its attributes. -/
theorem IndexFileHeader.Wide.attrsRank_bytes (wide : h.Wide) (k : Key) (tail : List (List Int)) :
    attrsRank h.attrs (k.bytes h) tail = attrsRank h.attrs k.attr tail := by
  refine attrsRank_congr wide fun i (hi : i < h.attrWholeLength) => ?_
  rw [Key.bytes, getD_append _ _ _ _ (by rwa [takeD_length]), getD_takeD _ hi]

/-- The sign of the three-way result `c` is the order of `x` and `y`. -/
def Agrees {L : Type} [LT L] (c : Int) (x y : L) : Prop := (c < 0 ↔ x < y) ∧ (c = 0 ↔ x = y)

instance {L : Type} [LinearOrder L] (c : Int) (x y : L) : Decidable (Agrees c x y) :=
  inferInstanceAs (Decidable ((c < 0 ↔ x < y) ∧ (c = 0 ↔ x = y)))

theorem Agrees.pos_iff [LinearOrder L] {x y : L} (h : Agrees c x y) : 0 < c ↔ y < x := by
  constructor
  · intro hc
    rcases lt_trichotomy x y with hlt | heq | hgt
    · have := h.1.mpr hlt
      omega
    · have := h.2.mpr heq
      omega
    · exact hgt
  · intro hgt
    have h1 : ¬c < 0 := fun hc => lt_asymm hgt (h.1.mp hc)
    have h2 : c ≠ 0 := fun hc => hgt.ne' (h.2.mp hc)
    omega

theorem Agrees.le_iff [LinearOrder L] {x y : L} (h : Agrees c x y) : c ≤ 0 ↔ x ≤ y := by
  rw [← not_lt, h.pos_iff, not_lt]

theorem agrees_threeWay [LinearOrder L] (x y : L) :
    Agrees (if x > y then 1 else if x < y then -1 else 0) x y := by
  rcases lt_trichotomy x y with h | h | h
  · simp [Agrees, h, not_lt.mpr h.le, h.ne]
  · simp [Agrees, h]
  · simp [Agrees, h, not_lt.mpr h.le, h.ne']

theorem Agrees.singleton {x y : Int} (h : Agrees c x y) : Agrees c [x] [y] := by
  constructor
  · rw [h.1, cons_lt_cons_iff]
    simp
  · rw [h.2]
    simp

/-- `strncmp` is the lexicographic order of the strings before their terminators. -/
theorem agrees_strncmp : ∀ (n : Nat) (s1 s2 : Bytes),
    Agrees (strncmp s1 s2 n) ((cString s1 n).map fun c => (c.toNat : Int)) ((cString s2 n).map fun c => (c.toNat : Int))
  | 0, s1, s2 => by simp [Agrees, strncmp, cString]
  | n + 1, s1, s2 => by
    have ih := agrees_strncmp n s1.tail s2.tail
    simp only [strncmp, cString]
    generalize s1.headD 0 = c1
    generalize s2.headD 0 = c2
    have pos : ∀ c : UInt8, c ≠ 0 → 0 < c.toNat := fun c hc =>
      Nat.pos_of_ne_zero fun h => hc (UInt8.toNat_inj.mp h)
    by_cases hne : c1 = c2
    · subst hne
      by_cases hz : c1 = 0
      · simp [hz, Agrees]
      · simp only [ne_eq, not_true_eq_false, if_false, hz, map_cons]
        constructor
        · rw [ih.1, cons_lt_cons_iff]
          simp
        · rw [ih.2]
          simp
    · -- The strings differ here; a terminator counts as the smallest byte.
      have hne' : c1.toNat ≠ c2.toNat := fun h => hne (UInt8.toNat_inj.mp h)
      rw [if_pos hne]
      by_cases h1 : c1 = 0
      · subst h1
        have h2 : c2 ≠ 0 := fun h => hne h.symm
        have := pos c2 h2
        simp only [Agrees, if_true, h2, if_false, map_nil, map_cons, UInt8.toNat_zero]
        refine ⟨⟨fun _ => nil_lt_cons _ _, fun _ => by omega⟩, ⟨fun h => by omega, fun h => by cases h⟩⟩
      · have hp1 := pos c1 h1
        by_cases h2 : c2 = 0
        · subst h2
          simp only [Agrees, if_true, h1, if_false, map_nil, map_cons, UInt8.toNat_zero]
          refine ⟨⟨fun h => by omega, fun h => absurd h (not_lt_nil _)⟩, ⟨fun h => by omega, fun h => by cases h⟩⟩
        · simp only [Agrees, h1, h2, if_false, map_cons, cons_lt_cons_iff, List.cons.injEq]
          refine ⟨⟨fun h => Or.inl (by omega), fun h => ?_⟩, ⟨fun h => by omega, fun h => by omega⟩⟩
          rcases h with h | h <;> omega

theorem agrees_compareAttr {a : IndexAttr} (ha : a.type ≠ .floats) (x y : Bytes) :
    Agrees (compareAttr a x y) (attrRank a x) (attrRank a y) := by
  unfold compareAttr attrRank
  cases ht : a.type with
  | ints => exact (agrees_threeWay (readInt x) (readInt y)).singleton
  | floats => exact absurd ht ha
  | chars => exact agrees_strncmp a.length x y
  | date =>
    have h := agrees_threeWay (readUInt x) (readUInt y)
    refine Agrees.singleton ⟨h.1.trans (by omega), h.2.trans (by omega)⟩
  | undefined => simp [Agrees]
  | texts => simp [Agrees]
  | nulls => simp [Agrees]

theorem agrees_cmpRid (r1 r2 : RID) :
    Agrees (cmpRid r1 r2) [[r1.pageNum], [r1.slotNum]] [[r2.pageNum], [r2.slotNum]] := by
  unfold cmpRid Agrees
  simp only [cons_lt_cons_iff, List.cons.injEq, and_true, not_lt_nil, and_false, or_false]
  rcases lt_trichotomy r1.pageNum r2.pageNum with h | h | h
  · simp [h, not_lt.mpr h.le, h.ne]
  · rcases lt_trichotomy r1.slotNum r2.slotNum with h' | h' | h'
    · simp [h, h', not_lt.mpr h'.le, h'.ne]
    · simp [h, h']
    · simp [h, h', not_lt.mpr h'.le, h'.ne']
  · simp [h, not_lt.mpr h.le, h.ne']

theorem agrees_attrs {c : Int} {t1 t2 : List (List Int)} (ht : Agrees c t1 t2) :
    ∀ (attrs : List IndexAttr), (∀ a ∈ attrs, a.type ≠ .floats) → ∀ x y : Bytes,
      Agrees (if compareAttrs attrs x y ≠ 0 then compareAttrs attrs x y
        else c) (attrsRank attrs x t1) (attrsRank attrs y t2)
  | [], _, x, y => by simpa [compareAttrs, attrsRank] using ht
  | a :: attrs, hf, x, y => by
    have ha := agrees_compareAttr (hf a (mem_cons_self ..)) x y
    have ih := agrees_attrs ht attrs (fun b hb => hf b (mem_cons_of_mem _ hb)) (x.drop a.length)
      (y.drop a.length)
    simp only [compareAttrs, attrsRank]
    by_cases hz : compareAttr a x y = 0
    · have heq := ha.2.mp hz
      simp only [hz, ne_eq, not_true_eq_false, if_false]
      exact ⟨by rw [ih.1, cons_lt_cons_iff, heq]; simp, by rw [ih.2, heq]; simp⟩
    · have hne : attrRank a x ≠ attrRank a y := fun h => hz (ha.2.mpr h)
      simp only [ne_eq, hz, not_false_eq_true, if_true]
      exact ⟨by rw [ha.1, cons_lt_cons_iff]; simp [hne], by simp [hz, hne]⟩

theorem cmpKey_spec (hf : h.NoFloats) (k1 k2 : Key) :
    Agrees (cmpKey h k1 k2) (k1.rank h) (k2.rank h) :=
  agrees_attrs (agrees_cmpRid k1.rid k2.rid) h.attrs hf (k1.bytes h) (k2.bytes h)

theorem compareKey_spec (hf : h.NoFloats) (x y : Bytes) :
    Agrees (compareKey h x y) (attrsRank h.attrs x []) (attrsRank h.attrs y []) := by
  have hnil : Agrees 0 ([] : List (List Int)) [] := by simp [Agrees]
  have := agrees_attrs hnil h.attrs hf x y
  rw [compareKey]
  by_cases hz : compareAttrs h.attrs x y = 0
  · rwa [hz] at this ⊢
  · rwa [if_pos hz] at this

/-! ### Without floats -/

/-- The attributes of a key, each read from its own bytes. -/
def attrsMeaning : List IndexAttr → Bytes → List (List Int)
  | [], _ => []
  | a :: attrs, b => attrRank a (b.take a.length) :: attrsMeaning attrs (b.drop a.length)

def Key.meaning (h : IndexFileHeader) (k : Key) : List (List Int) :=
  attrsMeaning h.attrs k.attr ++ [[k.rid.pageNum], [k.rid.slotNum]]

theorem length_attrsMeaning : ∀ (attrs : List IndexAttr) (b : Bytes), (attrsMeaning attrs b).length = attrs.length
  | [], _ => rfl
  | _ :: attrs, _ => congrArg (· + 1) (length_attrsMeaning attrs _)

theorem attrsRank_eq_meaning {tail : List (List Int)} : ∀ {attrs : List IndexAttr} {b : Bytes},
    (∀ a ∈ attrs, a.type = .ints ∨ a.type = .date → 4 ≤ a.length) →
    attrsRank attrs b tail = attrsMeaning attrs b ++ tail
  | [], _, _ => rfl
  | a :: attrs, b, wide => by
    rw [attrsRank, attrsMeaning, cons_append, attrsRank_eq_meaning fun b hb => wide b (mem_cons_of_mem _ hb),
      attrRank_congr (wide a (mem_cons_self ..)) fun i hi => ?_]
    simp [getD_eq_getElem?_getD, hi]

/-- `CmpKey` is a total order by the attributes and then by the RID, and the RID (-1, -1) comes before those of
    records. -/
structure IndexFileHeader.TotallyOrdered (h : IndexFileHeader) : Prop where
  refl : ∀ k, cmpKey h k k = 0
  antisymm : ∀ j k, (cmpKey h k j).sign = -(cmpKey h j k).sign
  trans : ∀ i j k, cmpKey h i j ≤ 0 → cmpKey h j k ≤ 0 → cmpKey h i k ≤ 0
  lexicographic : ∀ j k, Agrees (cmpKey h j k) (j.meaning h) (k.meaning h)
  eq_of_zero : ∀ j k, cmpKey h j k = 0 → attrsMeaning h.attrs j.attr = attrsMeaning h.attrs k.attr ∧ j.rid = k.rid
  probe : ∀ x y rid, attrsMeaning h.attrs x = attrsMeaning h.attrs y → 0 ≤ rid.pageNum → 0 ≤ rid.slotNum →
    cmpKey h ⟨x, -1, -1⟩ ⟨y, rid⟩ < 0

theorem IndexFileHeader.Wide.totallyOrdered (wide : h.Wide) (hf : h.NoFloats) : h.TotallyOrdered := by
  have hspec : ∀ j k, Agrees (cmpKey h j k) (j.meaning h) (k.meaning h) := fun j k => by
    have := cmpKey_spec hf j k
    rwa [Key.rank, Key.rank, wide.attrsRank_bytes, wide.attrsRank_bytes, attrsRank_eq_meaning wide,
      attrsRank_eq_meaning wide] at this
  refine ⟨fun k => (hspec k k).2.mpr rfl, fun j k => ?_, fun i j k hij hjk => ?_, hspec, fun j k hzero => ?_,
    fun x y rid hsame hpage hslot => ?_⟩
  · rcases lt_trichotomy (j.meaning h) (k.meaning h) with hlt | heq | hgt
    · rw [Int.sign_eq_one_of_pos ((hspec k j).pos_iff.mpr hlt), Int.sign_eq_neg_one_of_neg ((hspec j k).1.mpr hlt)]
      rfl
    · rw [(hspec k j).2.mpr heq.symm, (hspec j k).2.mpr heq]
      rfl
    · rw [Int.sign_eq_neg_one_of_neg ((hspec k j).1.mpr hgt), Int.sign_eq_one_of_pos ((hspec j k).pos_iff.mpr hgt)]
  · exact (hspec i k).le_iff.mpr (((hspec i j).le_iff.mp hij).trans ((hspec j k).le_iff.mp hjk))
  · have hmeaning := (hspec j k).2.mp hzero
    obtain ⟨hattrs, hrid⟩ := append_inj hmeaning (by rw [length_attrsMeaning, length_attrsMeaning])
    refine ⟨hattrs, ?_⟩
    cases hj : j.rid
    cases hk : k.rid
    simpa [hj, hk] using hrid
  · have hlt : (-1 : Int) < rid.pageNum := Int.lt_of_lt_of_le (by decide) hpage
    refine (hspec _ _).1.mpr ?_
    rw [Key.meaning, Key.meaning, hsame]
    refine append_left_lt ?_
    simp [cons_lt_cons_iff, hlt]

/-! A number of fewer than four bytes is read on behind its attribute: into the next attribute, or into the RID. The
keys below have a 1 in the first byte of the narrow attribute, and in the byte behind it. -/

theorem RID.bytes_zero : (⟨0, 0⟩ : RID).bytes = replicate 8 0 := by decide

/-- Of a narrow first attribute, `CompareKey` has the key with the greater number first. -/
theorem narrow_misread {a : IndexAttr} (number : a.type = .ints ∨ a.type = .date) (pos : 0 < a.length)
    (narrow : a.length < 4) (u v : Bytes) : compareAttr a (1 :: replicate (a.length - 1) 0 ++ (replicate 8 0 ++ u))
    (replicate a.length 0 ++ 1 :: (replicate 3 0 ++ v)) < 0 ∧
      attrRank a (replicate a.length 0) < attrRank a (1 :: replicate (a.length - 1) 0) := by
  obtain ⟨type, length⟩ := a
  simp only at number pos narrow ⊢
  have hlength : length = 1 ∨ length = 2 ∨ length = 3 := by omega
  rcases hlength with rfl | rfl | rfl <;> rcases number with rfl | rfl <;>
    simp [compareAttr, attrRank, readInt, readUInt, replicate, cons_lt_cons_iff]

/-- Keys whose narrow attribute `CompareKey` reads the other way round. -/
theorem exists_misread : ∀ {attrs : List IndexAttr}, (∀ a ∈ attrs, 0 < a.length) → (∀ a ∈ attrs, a.type ≠ .floats) →
    (∃ a ∈ attrs, (a.type = .ints ∨ a.type = .date) ∧ a.length < 4) → ∃ (x y : Bytes) (page : Int),
      x.length = (attrs.map (·.length)).sum ∧ y.length = (attrs.map (·.length)).sum ∧
      compareAttrs attrs (x ++ (⟨0, 0⟩ : RID).bytes) (y ++ (⟨page, 0⟩ : RID).bytes) < 0 ∧
      ∀ s t, attrsMeaning attrs y ++ s < attrsMeaning attrs x ++ t
  | [], _, _, narrow => absurd narrow (by simp)
  | a :: attrs, pos, hf, narrow => by
    have hpos := pos a (mem_cons_self ..)
    by_cases here : (a.type = .ints ∨ a.type = .date) ∧ a.length < 4
    · -- The byte behind the attribute is the first of the next one, or else of the RID.
      obtain ⟨y, page, v, hlength, hbytes⟩ : ∃ (y : Bytes) (page : Int) (v : Bytes),
        y.length = (attrs.map (·.length)).sum ∧
          y ++ (⟨page, 0⟩ : RID).bytes = 1 :: (replicate 3 0 ++ v) := by
        cases attrs with
        | nil => exact ⟨[], 1, replicate 4 0, rfl, by decide⟩
        | cons b attrs =>
          have hb := pos b (mem_cons_of_mem _ (mem_cons_self ..))
          refine ⟨1 :: replicate ((b.length - 1) + (attrs.map (·.length)).sum) 0, 0,
            replicate ((b.length - 1) + (attrs.map (·.length)).sum + 5) 0, ?_, ?_⟩
          · simp only [length_cons, length_replicate, map_cons, sum_cons]
            omega
          · rw [RID.bytes_zero, cons_append, replicate_append_replicate, replicate_append_replicate]
            exact congrArg (1 :: replicate · 0) (by omega)
      obtain ⟨hread, hrank⟩ := narrow_misread here.1 hpos here.2 (replicate (attrs.map (·.length)).sum 0) v
      refine ⟨1 :: replicate (a.length - 1) 0 ++ replicate (attrs.map (·.length)).sum 0, replicate a.length 0 ++ y,
        page, ?_, ?_, ?_, fun s t => ?_⟩
      · simp only [cons_append, length_cons, length_append, length_replicate, map_cons, sum_cons]
        omega
      · simp [hlength]
      · rw [append_assoc, append_assoc, hbytes, RID.bytes_zero, replicate_append_replicate, Nat.add_comm,
          ← replicate_append_replicate, compareAttrs, if_pos hread.ne]
        exact hread
      · have hlen : (1 :: replicate (a.length - 1) (0 : UInt8)).length = a.length := by
          rw [length_cons, length_replicate]
          omega
        rw [attrsMeaning, attrsMeaning, take_left' hlen, take_left' length_replicate, cons_append, cons_append]
        exact cons_lt_cons_iff.mpr (.inl hrank)
    · obtain ⟨b, hb, hnumber, hlt⟩ := narrow
      have hrest : b ∈ attrs := (mem_cons.mp hb).resolve_left fun heq => here (heq ▸ ⟨hnumber, hlt⟩)
      obtain ⟨x, y, page, hx, hy, hread, hrank⟩ := exists_misread (fun c hc => pos c (mem_cons_of_mem _ hc))
        (fun c hc => hf c (mem_cons_of_mem _ hc)) ⟨b, hrest, hnumber, hlt⟩
      have hzero : compareAttr a (replicate a.length 0 ++ x ++ (⟨0, 0⟩ : RID).bytes)
          (replicate a.length 0 ++ y ++ (⟨page, 0⟩ : RID).bytes) = 0 := by
        refine (agrees_compareAttr (hf a (mem_cons_self ..)) _ _).2.mpr (attrRank_congr (fun ht => ?_) fun i hi => ?_)
        · exact Nat.not_lt.mp fun hlt => here ⟨ht, hlt⟩
        · rw [append_assoc, append_assoc, getD_append _ _ _ _ (by rwa [length_replicate]),
            getD_append _ _ _ _ (by rwa [length_replicate])]
      refine ⟨replicate a.length 0 ++ x, replicate a.length 0 ++ y, page, by simp [hx], by simp [hy], ?_, fun s t => ?_⟩
      · rw [compareAttrs, hzero, if_neg (not_not.mpr rfl), append_assoc, append_assoc, drop_left' length_replicate,
          drop_left' length_replicate]
        exact hread
      · rw [attrsMeaning, attrsMeaning, take_left' length_replicate, take_left' length_replicate,
          drop_left' length_replicate, drop_left' length_replicate, cons_append, cons_append]
        exact cons_lt_cons_iff.mpr (.inr ⟨rfl, hrank s t⟩)

theorem cmpKey_total_iff (h : IndexFileHeader)
    (htypes : ∀ a ∈ h.attrs, a.type = .ints ∨ a.type = .chars ∨ a.type = .date) (hpos : ∀ a ∈ h.attrs, 0 < a.length) :
    h.TotallyOrdered ↔ ∀ a ∈ h.attrs, a.type = .ints ∨ a.type = .date → 4 ≤ a.length := by
  have hf : h.NoFloats := fun a ha hfloats => by
    rcases htypes a ha with ht | ht | ht <;> cases ht.symm.trans hfloats
  refine ⟨fun total a ha hnumber => Nat.not_lt.mp fun hlt => ?_,
    fun wide => IndexFileHeader.Wide.totallyOrdered wide hf⟩
  obtain ⟨x, y, page, hx, hy, hread, hrank⟩ := exists_misread hpos hf ⟨a, ha, hnumber, hlt⟩
  have hbytes : ∀ {z : Bytes} {rid : RID}, z.length = (h.attrs.map (·.length)).sum →
      Key.bytes h ⟨z, rid⟩ = z ++ rid.bytes := fun hz => by
    rw [Key.bytes, IndexFileHeader.attrWholeLength, ← hz, takeD_eq_take _ le_rfl, take_length]
  have hcmp : cmpKey h ⟨x, 0, 0⟩ ⟨y, page, 0⟩ < 0 := by
    rw [cmpKey, hbytes hx, hbytes hy, compareKey, if_pos hread.ne]
    exact hread
  exact lt_asymm ((total.lexicographic _ _).1.mp hcmp) (hrank _ _)

theorem cmpKey_total_date :
    cmpKey ⟨[⟨.chars, 2⟩, ⟨.date, 4⟩], 1, 3⟩ ⟨[97, 0, 1, 0, 0, 0], -1, -1⟩ ⟨[97, 0, 1, 0, 0, 0], 1, 0⟩ < 0 :=
  ((cmpKey_total_iff ⟨[⟨.chars, 2⟩, ⟨.date, 4⟩], 1, 3⟩ (by decide) (by decide)).mpr (by decide)).probe _ _ _ rfl
    (by decide) (by decide)

/-- Of an `INT(1)`, the 5 of the record (1, 0) comes before the 3 of the record (2, 0). Of a `DATE(1)`, the key that a
    search starts from comes behind the one that it looks for. -/
theorem cmpKey_reads_rid : cmpKey ⟨[⟨.ints, 1⟩], 1, 3⟩ ⟨[5], 1, 0⟩ ⟨[3], 2, 0⟩ < 0 ∧
    ¬IndexFileHeader.TotallyOrdered ⟨[⟨.ints, 1⟩], 1, 3⟩ ∧ 0 < cmpKey ⟨[⟨.date, 1⟩], 1, 3⟩ ⟨[3], -1, -1⟩ ⟨[3], 2, 0⟩ ∧
    ¬IndexFileHeader.TotallyOrdered ⟨[⟨.date, 1⟩], 1, 3⟩ :=
  ⟨by decide, fun total => absurd ((total.lexicographic ⟨[5], 1, 0⟩ ⟨[3], 2, 0⟩).1.mp (by decide))
    (by decide), by decide, fun total => absurd (total.probe [3] [3] ⟨2, 0⟩ rfl (by decide) (by decide)) (by decide)⟩

/-! ### Keys that are ordered

`CmpKey` compares floats with a tolerance, so it need not be an order; without floats it always is one. -/

/-- On the keys `ks`, the sign of `CmpKey` is the order of the ranks. -/
def Orders {L : Type} [LinearOrder L] (header : IndexFileHeader) (rank : Key → L) (ks : List Key) : Prop :=
  ∀ a ∈ ks, ∀ b ∈ ks, Agrees (cmpKey header a b) (rank a) (rank b)

section
variable {L : Type} [LinearOrder L]

instance (header : IndexFileHeader) (rank : Key → L) (ks : List Key) : Decidable (Orders header rank ks) :=
  inferInstanceAs (Decidable (∀ a ∈ ks, ∀ b ∈ ks, Agrees (cmpKey header a b) (rank a) (rank b)))

theorem orders_of_noFloats {header : IndexFileHeader} (hf : header.NoFloats) (ks : List Key) :
    Orders header (Key.rank header) ks := fun a _ b _ => cmpKey_spec hf a b

theorem Orders.subset {header header' : IndexFileHeader} {rank : Key → L} {ks ks' : List Key}
    (ho : Orders header rank ks) (hattrs : header'.attrs = header.attrs) (hsub : ∀ k ∈ ks', k ∈ ks) :
    Orders header' rank ks' := by
  intro a ha b hb
  rw [cmpKey_congr hattrs]
  exact ho a (hsub a ha) b (hsub b hb)

end

end MiniOb
