import MiniOb.Index.Insert
import MiniOb.Theorems.Join
import MiniOb.Theorems.UpdateFormat

/-! # The keys of an index

The bytes of a nullable field begin with its null flag, and the comparator reads the flag in place of the value. -/

namespace MiniOb
open FieldMeta TupleValue
variable {before after : List FieldMeta}

variable {b : Bytes} {f : FieldMeta}

open Slots List

def keyOfFields (indexed : List FieldMeta) (data : Bytes) : Bytes := Index.key ⟨indexed, ∅⟩ data

theorem keyOfFields_append (before after : List FieldMeta) (data : Bytes) :
    keyOfFields (before ++ after) data = keyOfFields before data ++ keyOfFields after data := flatMap_append

theorem keyOfFields_cons (f : FieldMeta) (indexed : List FieldMeta) (data : Bytes) :
    keyOfFields (f :: indexed) data = f.bytes data ++ keyOfFields indexed data := by
  unfold keyOfFields Index.key
  rw [flatMap_cons]

/-- `CompareKey` reads an attribute within its bytes. -/
def FieldMeta.ReadWithin (f : FieldMeta) : Prop := f.type = .ints ∨ f.type = .date → 4 ≤ f.len

instance (f : FieldMeta) : Decidable f.ReadWithin := inferInstanceAs (Decidable (_ → _))

theorem length_keyOfFields {data : Bytes} {indexed : List FieldMeta}
    (inside : ∀ f ∈ indexed, (f.bytes data).length = f.len) :
    (keyOfFields indexed data).length = ((indexed.map indexAttr).map (·.length)).sum := by
  rw [keyOfFields, Index.key, length_flatMap, map_map]
  exact congrArg sum (map_congr_left inside)

theorem attrsRank_key {data rest : Bytes} {tail : List (List Int)} {indexed : List FieldMeta}
    (within : ∀ f ∈ indexed, f.ReadWithin) (inside : ∀ f ∈ indexed, (f.bytes data).length = f.len) :
    attrsRank (indexed.map indexAttr) (keyOfFields indexed data ++ rest) tail =
      (indexed.map fun f => attrRank f.indexAttr (f.bytes data)) ++ tail := by
  induction indexed with
  | nil => rfl
  | cons f indexed ih =>
    have hlength : (f.bytes data).length = f.indexAttr.length := inside f mem_cons_self
    have hown : attrRank f.indexAttr (f.bytes data ++ (keyOfFields indexed data ++ rest)) =
      attrRank f.indexAttr (f.bytes data) :=
      attrRank_congr (within f mem_cons_self) fun i hi => getD_append _ _ _ _ (hlength ▸ hi)
    rw [map_cons, attrsRank, keyOfFields_cons, append_assoc, hown, drop_left' hlength,
      ih (fun g hg => within g (mem_cons_of_mem f hg))
      (fun g hg => inside g (mem_cons_of_mem f hg)), map_cons, cons_append]

theorem attrsRank_append (as bs : List IndexAttr) (b : Bytes) (tail : List (List Int)) :
    attrsRank (as ++ bs) b tail = attrsRank as b (attrsRank bs (b.drop (as.map (·.length)).sum) tail) := by
  induction as generalizing b with
  | nil => rfl
  | cons a as ih => rw [cons_append, attrsRank, attrsRank, ih, drop_drop, map_cons, sum_cons]

theorem attrsRank_split {data rest : Bytes} (within : ∀ g ∈ before, g.ReadWithin)
    (inside : ∀ g ∈ before, (g.bytes data).length = g.len) : ∃ tail,
    attrsRank ((before ++ f :: after).map indexAttr) (keyOfFields (before ++ f :: after) data ++ rest) [] =
      (before.map fun g => attrRank g.indexAttr (g.bytes data)) ++
        attrRank f.indexAttr (f.bytes data ++ (keyOfFields after data ++ rest)) :: tail := by
  rw [map_append, attrsRank_append, keyOfFields_append, append_assoc, attrsRank_key within inside,
    ← length_keyOfFields inside, drop_left, map_cons, attrsRank, keyOfFields_cons, append_assoc]
  exact ⟨_, rfl⟩

theorem map_lt_map_iff {indexed : List FieldMeta} {r r' : FieldMeta → List Int}
    (split : indexed = before ++ f :: after) (equal : ∀ g ∈ before, r g = r' g) (differ : r f ≠ r' f) :
    indexed.map r < indexed.map r' ↔ r f < r' f := by
  subst split
  induction before with
  | nil =>
    rw [nil_append, map_cons, map_cons, cons_lt_cons_iff]
    exact or_iff_left fun h => differ h.1
  | cons g before ih =>
    have hg := equal g mem_cons_self
    rw [cons_append, map_cons, map_cons, cons_lt_cons_iff, hg,
      ih fun g' hg' => equal g' (mem_cons_of_mem g hg')]
    exact ⟨fun h => h.elim (fun hlt => absurd hlt (lt_irrefl _)) And.right, fun h => .inr ⟨rfl, h⟩⟩

def Built (fields : List FieldMeta) (data : Bytes) : Prop :=
  ∃ (t : Table) (values : List Value) (selects : FieldMeta → UniqueSelect), t.fields = fields ∧
    t.makeRecord values selects = .ok data

def FieldMeta.own (f : FieldMeta) (data : Bytes) : TupleValue := f.read (f.bytes data)

theorem forall₂_split {R : FieldMeta → Value → Prop} :
    ∀ {values : List Value}, List.Forall₂ R (before ++ f :: after) values →
      ∃ vs v ws, values = vs ++ v :: ws ∧ before.length = vs.length ∧ R f v := by
  induction before with
  | nil =>
    intro values h
    cases h with
    | @cons _ v _ ws head tail => exact ⟨[], v, ws, rfl, rfl, head⟩
  | cons g before ih =>
    intro values h
    cases h with
    | @cons _ u _ values head tail =>
      obtain ⟨vs, v, ws, rfl, hlen, hv⟩ := ih tail
      exact ⟨u :: vs, v, ws, rfl, congrArg Nat.succ hlen, hv⟩

theorem bytes_encodeAll {vs ws : List Value} {v : Value} (laid : Laid 0 (before ++ f :: after))
    (hlen : before.length = vs.length) : (f.nullable = true → 4 ≤ f.len) ∧
      f.bytes (encodeAll (before ++ f :: after) (storedAll (before ++ f :: after) (vs ++ v :: ws))) =
        f.encode (f.stored v) := by
  obtain ⟨laidBefore, hoffset, room, -⟩ := laid.split
  have hstoredAll : before.length = (storedAll before vs).length := by
    rw [storedAll, length_zipWith, ← hlen, Nat.min_self]
  refine ⟨room, ?_⟩
  rw [storedAll_append hlen, encodeAll_append hstoredAll, encodeAll_cons]
  refine bytes_middle ?_ (length_encode room).symm
  rw [laidBefore.length_encodeAll hstoredAll, hoffset, Nat.zero_add]

theorem Built.field {fields : List FieldMeta} {data : Bytes} (built : Built fields data) (laid : Laid 0 fields)
    (hf : f ∈ fields) :
    (f.nullable = true → 4 ≤ f.len) ∧ ∃ v : Value, (v.type = .nulls → f.nullable = true) ∧
      f.bytes data = f.encode v := by
  obtain ⟨t, values, selects, rfl, made⟩ := built
  obtain ⟨takes, rfl⟩ := makeRecord_encodes laid made
  obtain ⟨before, after, hsplit⟩ := append_of_mem hf
  rw [hsplit] at laid takes ⊢
  obtain ⟨vs, v, ws, rfl, hlen, hv⟩ := forall₂_split takes
  obtain ⟨room, hbytes⟩ := bytes_encodeAll laid hlen
  exact ⟨room, f.stored v, hv.nullable, hbytes⟩

/-- A value as `CompareKey` ranks it, where it sees the value. -/
def TupleValue.rank : TupleValue → List Int
  | .null => [1]
  | .int n => [n]
  | .date d => [(d : Int)]
  | .string s => s.map fun c => (c.toNat : Int)
  | .float _ => []

namespace FieldMeta
variable {f : FieldMeta} {v v' : Value}

/-- The keys show the values of the column: it has no null flag in front of them, and a number has its four bytes. A
    nullable column without room for a value is shown by its flag. -/
def Shown (f : FieldMeta) : Prop := (f.nullable = true → f.width = 0) ∧ f.ReadWithin

theorem Shown.cases (keyed : f.Shown) (room : f.nullable = true → 4 ≤ f.len) :
    (f.nullable = false ∧ f.width = f.len) ∨ (f.nullable = true ∧ f.len = 4 ∧ f.width = 0) := by
  by_cases nullable : f.nullable = true
  · have hwidth := keyed.1 nullable
    have hlen := room nullable
    refine .inr ⟨nullable, ?_, hwidth⟩
    rw [width_eq nullable] at hwidth
    omega
  · refine .inl ⟨Bool.eq_false_of_not_eq_true nullable, ?_⟩
    unfold width flagLen
    rw [if_neg nullable, Nat.sub_zero]

theorem read_encode_shown {v : Value} (type : f.type.Exact)
    (null : v.type = .nulls → f.nullable = true) (zeros : ∀ i, f.width ≤ i → i < 4 → v.data i = 0) :
    f.read (f.encode v) = f.shown v := by
  rw [← append_nil (f.encode v)]
  refine (read_encode_iff (type.imp id .inr) null).mpr (.inr ?_)
  unfold Delimited
  rcases type with h | h | h
  · rw [h]
    exact fun i hi hi' => (zeros i hi hi').symm
  · rw [h]
    exact .inr rfl
  · rw [h]
    exact fun i hi hi' => (zeros i hi hi').symm

theorem shown_plain (plain : f.nullable = false) (type : f.type.Exact)
    (null : v.type = .nulls → f.nullable = true) :
    (f.type = .ints ∧ f.shown v = .int (readInt (firstN v.data 4))) ∨
      (f.type = .chars ∧ f.shown v = .string (cString (firstN v.data f.width) f.width)) ∨
      (f.type = .date ∧ f.shown v = .date (readUInt (firstN v.data 4))) := by
  have nonnull : v.type ≠ .nulls := fun h => Bool.false_ne_true (plain.symm.trans (null h))
  unfold shown
  rw [if_neg nonnull]
  rcases type with h | h | h
  · exact .inl ⟨h, by rw [h]⟩
  · exact .inr (.inl ⟨h, by rw [h]⟩)
  · exact .inr (.inr ⟨h, by rw [h]⟩)

/-- A column with room for its flag only has two values. -/
theorem read_flag (nullable : f.nullable = true) (type : f.type.Exact) (hlen : f.len = 4) :
    ∃ x : TupleValue, x ≠ .null ∧ x.rank ≠ TupleValue.rank .null ∧ (x.rank < x.rank ↔ x.Less x) ∧ ∀ v : Value,
      attrRank f.indexAttr (f.encode v) = (f.read (f.encode v)).rank ∧
        (f.read (f.encode v) = .null ∨ f.read (f.encode v) = x) := by
  have hencode : ∀ v : Value, f.encode v = [1, 0, 0, 0] ∨ f.encode v = [0, 0, 0, 0] := fun v => by
    unfold encode
    rw [if_pos nullable, hlen]
    split
    · exact .inl rfl
    · exact .inr rfl
  have hflag : f.flagLen = 4 := by rw [flagLen, if_pos nullable]
  unfold attrRank indexAttr read
  rw [hflag, hlen]
  rcases type with h | h | h <;> rw [h]
  · refine ⟨.int 0, by simp, by decide, iff_of_false (lt_irrefl _) (lt_irrefl _), fun v => ?_⟩
    rcases hencode v with he | he <;> rw [he, nullable] <;> decide
  · refine ⟨.string [], by simp, by decide, iff_of_false (lt_irrefl _) (lt_irrefl _), fun v => ?_⟩
    rcases hencode v with he | he <;> rw [he, nullable] <;> decide
  · refine ⟨.date 0, by simp, by decide, iff_of_false (lt_irrefl _) (lt_irrefl _), fun v => ?_⟩
    rcases hencode v with he | he <;> rw [he, nullable] <;> decide

theorem read_plain (keyed : f.Shown) (type : f.type.Exact) (hwidth : f.width = f.len)
    (null : v.type = .nulls → f.nullable = true) : f.read (f.encode v) = f.shown v := by
  by_cases chars : f.type = .chars
  · rw [← append_nil (f.encode v)]
    refine (read_encode_iff (type.imp id .inr) null).mpr (.inr ?_)
    unfold Delimited
    rw [chars]
    exact .inr rfl
  · have hlen := keyed.2 (type.imp_right fun h => h.resolve_left chars)
    exact read_encode_shown type null fun i hi hi' => absurd (hwidth ▸ hi) (by omega)

section
variable (keyed : f.Shown) (type : f.type.Exact) (room : f.nullable = true → 4 ≤ f.len)
  (null : v.type = .nulls → f.nullable = true)
include keyed type room null

theorem attrRank_encode :
    attrRank f.indexAttr (f.encode v) = (f.read (f.encode v)).rank := by
  rcases keyed.cases room with ⟨plain, hwidth⟩ | ⟨nullable, hlen, -⟩
  · have hencode : f.encode v = firstN v.data f.len := by
      unfold encode
      rw [plain]
      rfl
    have hfour : 4 ≤ f.len → readUInt (firstN v.data f.len) = readUInt (firstN v.data 4) := fun hlen =>
      readUInt_eq_iff.mpr fun i hi => (getD_firstN _ (hi.trans_le hlen)).trans (getD_firstN _ hi).symm
    rw [read_plain keyed type hwidth null, hencode]
    unfold attrRank indexAttr
    rcases shown_plain plain type null with ⟨h, hshown⟩ | ⟨h, hshown⟩ | ⟨h, hshown⟩
    · have hread := readInt_eq_iff.mpr (hfour (keyed.2 (.inl h)))
      rw [hshown, h]
      exact congrArg (fun n => [n]) hread
    · rw [hshown, h, hwidth]
      rfl
    · have hread := hfour (keyed.2 (.inr h))
      rw [hshown, h]
      exact congrArg (fun n : Nat => [(n : Int)]) hread
  · obtain ⟨x, -, -, -, hall⟩ := read_flag nullable type hlen
    exact (hall v).1

theorem rank_read (null' : v'.type = .nulls → f.nullable = true) :
    ((f.read (f.encode v)).rank = (f.read (f.encode v')).rank ↔ f.read (f.encode v) = f.read (f.encode v')) ∧
      (f.read (f.encode v) ≠ .null → f.read (f.encode v') ≠ .null →
        ((f.read (f.encode v)).rank < (f.read (f.encode v')).rank ↔
          (f.read (f.encode v)).Less (f.read (f.encode v')))) := by
  rcases keyed.cases room with ⟨plain, hwidth⟩ | ⟨nullable, hlen, -⟩
  · rw [read_plain keyed type hwidth null, read_plain keyed type hwidth null']
    rcases shown_plain plain type null with ⟨ht, hs⟩ | ⟨ht, hs⟩ | ⟨ht, hs⟩ <;>
      rcases shown_plain plain type null' with ⟨ht', hs'⟩ | ⟨ht', hs'⟩ | ⟨ht', hs'⟩ <;>
      first
        | exact absurd (ht.symm.trans ht') (by decide)
        | rw [hs, hs']
    · refine ⟨⟨fun h => congrArg _ (singleton_inj.mp h), congrArg _⟩, fun _ _ => ?_⟩
      simp only [rank, Less, cons_lt_cons_iff, not_lt_nil, and_false, or_false]
    · have hinj : Function.Injective fun c : UInt8 => (c.toNat : Int) := fun a b hab =>
        UInt8.toNat_inj.mp (Int.ofNat_inj.mp hab)
      exact ⟨⟨fun h => congrArg _ (map_injective_iff.mpr hinj h), congrArg _⟩, fun _ _ => Iff.rfl⟩
    · refine ⟨⟨fun h => congrArg _ (Int.ofNat_inj.mp (singleton_inj.mp h)), congrArg _⟩, fun _ _ => ?_⟩
      simp only [rank, Less, cons_lt_cons_iff, not_lt_nil, and_false, or_false, Int.ofNat_lt]
  · obtain ⟨x, hx, hrank, hless, hall⟩ := read_flag nullable type hlen
    rcases (hall v).2 with h | h <;> rcases (hall v').2 with h' | h' <;> rw [h, h']
    · exact ⟨iff_of_true rfl rfl, fun hv => absurd rfl hv⟩
    · exact ⟨iff_of_false hrank.symm hx.symm, fun hv => absurd rfl hv⟩
    · exact ⟨iff_of_false hrank hx, fun _ hv' => absurd rfl hv'⟩
    · exact ⟨iff_of_true rfl rfl, fun _ _ => hless⟩

end

end FieldMeta

/-- The key of a record as it stands in a node. -/
def keyBytesOf (header : IndexFileHeader) (indexed : List FieldMeta) (data : Bytes) (rid : RID) : Bytes :=
  Key.bytes header ⟨keyOfFields indexed data, rid⟩

/-- The keys of the records of a table follow the values of the indexed fields: two keys compare equal exactly if all
    values are equal, and otherwise in the order of the first field that differs, if neither value there is NULL. -/
def KeysFaithful (header : IndexFileHeader) (fields indexed : List FieldMeta) : Prop :=
  ∀ data data' rid rid', Built fields data → Built fields data' →
    (compareKey header (keyBytesOf header indexed data rid) (keyBytesOf header indexed data' rid') = 0 ↔
      ∀ f ∈ indexed, f.own data = f.own data') ∧
    ∀ before f after, indexed = before ++ f :: after → (∀ g ∈ before, g.own data = g.own data') →
      f.own data ≠ f.own data' → f.own data ≠ .null → f.own data' ≠ .null →
      (compareKey header (keyBytesOf header indexed data rid) (keyBytesOf header indexed data' rid') < 0 ↔
        (f.own data).Less (f.own data'))

section Faithful
variable {header : IndexFileHeader} {fields indexed : List FieldMeta} {data data' : Bytes} {f : FieldMeta}
  {rid rid' : RID}

theorem Built.inside (built : Built fields data) (laid : Laid 0 fields) (hf : f ∈ fields) :
    (f.bytes data).length = f.len := by
  obtain ⟨room, v, -, hbytes⟩ := built.field laid hf
  rw [hbytes, length_encode room]

theorem keyBytesOf_eq (attrs : header.attrs = indexed.map indexAttr)
    (inside : ∀ f ∈ indexed, (f.bytes data).length = f.len) :
    keyBytesOf header indexed data rid = keyOfFields indexed data ++ rid.bytes := by
  rw [keyBytesOf, Key.bytes, IndexFileHeader.attrWholeLength, attrs, ← length_keyOfFields inside,
    takeD_eq_take _ le_rfl, take_length]

section
variable (laid : Laid 0 fields) (chosen : ∀ f ∈ indexed, f ∈ fields) (attrs : header.attrs = indexed.map indexAttr)
  (types : ∀ f ∈ indexed, f.type.Exact)
include attrs types

theorem noFloats_of_types : header.NoFloats := by
  intro a ha
  rw [attrs] at ha
  obtain ⟨f, hf, rfl⟩ := mem_map.mp ha
  rcases types f hf with h | h | h
  · exact fun hc => nomatch h.symm.trans hc
  · exact fun hc => nomatch h.symm.trans hc
  · exact fun hc => nomatch h.symm.trans hc

include laid chosen

theorem compareKey_fields (within : ∀ f ∈ indexed, f.ReadWithin) (built : Built fields data)
    (built' : Built fields data') :
    Agrees (compareKey header (keyBytesOf header indexed data rid) (keyBytesOf header indexed data' rid'))
      (indexed.map fun f => attrRank f.indexAttr (f.bytes data)) (indexed.map fun f => attrRank f.indexAttr
        (f.bytes data')) := by
  have inside := fun f hf => built.inside laid (chosen f hf)
  have inside' := fun f hf => built'.inside laid (chosen f hf)
  have hspec := compareKey_spec (noFloats_of_types attrs types) (keyOfFields indexed data ++ rid.bytes)
    (keyOfFields indexed data' ++ rid'.bytes)
  rwa [attrs, attrsRank_key within inside, attrsRank_key within inside', append_nil, append_nil,
    ← keyBytesOf_eq attrs inside, ← keyBytesOf_eq attrs inside'] at hspec

theorem keysFaithful_of_shown (keyed : ∀ f ∈ indexed, f.Shown) : KeysFaithful header fields indexed := by
  intro data data' rid rid' built built'
  have agrees := @compareKey_fields _ _ _ _ _ rid rid' laid chosen attrs types (fun f hf => (keyed f hf).2) built built'
  have hrank : ∀ f ∈ indexed, (attrRank f.indexAttr (f.bytes data) = attrRank f.indexAttr (f.bytes data') ↔
      f.own data = f.own data') ∧ (f.own data ≠ .null → f.own data' ≠ .null →
        (attrRank f.indexAttr (f.bytes data) < attrRank f.indexAttr (f.bytes data') ↔
            (f.own data).Less (f.own data'))) := by
    intro f hf
    obtain ⟨room, v, null, hbytes⟩ := built.field laid (chosen f hf)
    obtain ⟨-, v', null', hbytes'⟩ := built'.field laid (chosen f hf)
    rw [own, own, hbytes, hbytes', attrRank_encode (keyed f hf) (types f hf) room null,
      attrRank_encode (keyed f hf) (types f hf) room null']
    exact rank_read (keyed f hf) (types f hf) room null null'
  constructor
  · rw [agrees.2, map_inj_left]
    exact forall₂_congr fun f hf => (hrank f hf).1
  · intro before f after split equal differ hv hv'
    have hf : f ∈ indexed := split ▸ mem_append_right _ mem_cons_self
    have hbefore : ∀ g ∈ before, g ∈ indexed := fun g hg => split ▸ mem_append_left _ hg
    rw [agrees.1, map_lt_map_iff split (fun g hg => (hrank g (hbefore g hg)).1.mpr (equal g hg))
      (fun h => differ ((hrank f hf).1.mp h))]
    exact (hrank f hf).2 hv hv'

end

/-! ### Columns that the keys do not show -/

def byteLiteral (f : FieldMeta) (c : UInt8) : Value := ⟨f.type, fun i => if i = 0 then c else 0, some [c]⟩

theorem byteLiteral_takes (plain : f.Plain) (c : UInt8) : f.Takes (byteLiteral f c) := by
  have nonnull : f.type ≠ .nulls := by
    rcases plain with h | h | h | h <;> rw [h] <;> decide
  exact .inr ⟨nonnull, .inl rfl, fun _ => nofun⟩

/-- A record of any literals that the fields take. -/
theorem exists_built (laid : Laid 0 fields) {lit : FieldMeta → Value} (takes : ∀ f ∈ fields, f.Takes (lit f)) :
    ∃ data, Built fields data ∧ ∀ f ∈ fields, f.bytes data = f.encode (f.stored (lit f)) := by
  refine ⟨encodeAll fields (storedAll fields (fields.map lit)),
    ⟨emptyTable fields, fields.map lit, fun _ => .nothing, rfl, ?_⟩, fun f hf => ?_⟩
  · have hunique : ∀ values, (emptyTable fields).findIfExistUniqueRecord values (fun _ => .nothing) = false := by
      intro values
      simp [Table.findIfExistUniqueRecord, emptyTable]
    have taken : List.Forall₂ FieldMeta.Takes (emptyTable fields).fields (fields.map lit) :=
      forall₂_map_right_iff.mpr (forall₂_same.mpr takes)
    rw [makeRecord_taken laid taken, hunique]
    rfl
  · obtain ⟨before, after, rfl⟩ := append_of_mem hf
    rw [map_append, map_cons]
    exact (bytes_encodeAll laid (length_map _).symm).2

theorem stored_byteLiteral (f : FieldMeta) (c : UInt8) :
    ∀ i, (f.stored (byteLiteral f c)).data i = if i = 0 then c else 0 := by
  intro i
  unfold stored byteLiteral
  split
  · rcases i with _ | i
    · rfl
    · simp
  · rfl

theorem byteLiteral_nonnull (plain : f.Plain) (c : UInt8) : (f.stored (byteLiteral f c)).type ≠ .nulls := fun null => by
  have hnull : f.type = .nulls := stored_null_iff.mp null
  rcases plain with h | h | h | h <;> cases h.symm.trans hnull

theorem encode_byteLiteral_zero (plain : f.Plain) (room : f.nullable = true → 4 ≤ f.len) :
    f.encode (f.stored (byteLiteral f 0)) = replicate f.len 0 := by
  have hdata : (f.stored (byteLiteral f 0)).data = fun _ => 0 := funext fun i => by rw [stored_byteLiteral, ite_self]
  have hzeros : ∀ n, firstN (fun _ => (0 : UInt8)) n = replicate n 0 :=
    fun n => by rw [firstN, map_const', length_range]
  rw [encode_value (byteLiteral_nonnull plain 0), hdata, hzeros, replicate_append_replicate, width]
  congr 1
  unfold flagLen
  split
  · have := room ‹_›
    omega
  · omega

theorem encode_byteLiteral (column : f.nullable = false) (pos : 0 < f.len) (c : UInt8) :
    f.encode (f.stored (byteLiteral f c)) = c :: replicate (f.len - 1) 0 := by
  have hdata : (f.stored (byteLiteral f c)).data = fun i => if i = 0 then c else 0 := funext (stored_byteLiteral f c)
  rw [encode, column, if_neg Bool.false_ne_true, hdata, firstN]
  obtain ⟨n, hn⟩ := Nat.exists_eq_succ_of_ne_zero pos.ne'
  rw [hn, range_succ_eq_map, map_cons, map_map, if_pos rfl, Nat.succ_sub_one]
  refine congrArg (c :: ·) (eq_replicate_iff.mpr ⟨by simp, fun b hb => ?_⟩)
  obtain ⟨i, -, rfl⟩ := mem_map.mp hb
  rfl

theorem keyOfFields_zeros {l : List FieldMeta} (zeros : ∀ g ∈ l, g.bytes data = replicate g.len 0) :
    ∃ n, keyOfFields l data = replicate n 0 := by
  induction l with
  | nil => exact ⟨0, rfl⟩
  | cons g l ih =>
    obtain ⟨n, hn⟩ := ih fun h hh => zeros h (mem_cons_of_mem g hh)
    refine ⟨g.len + n, ?_⟩
    rw [keyOfFields_cons, hn, zeros g mem_cons_self, replicate_append_replicate]

theorem own_byteLiteral (type : f.type.Exact) (room : f.width ≠ 0) {c : UInt8}
    (hbytes : f.bytes data = f.encode (f.stored (byteLiteral f c))) : f.own data = f.meaning (byteLiteral f c) := by
  have plain : f.Plain := type.imp id .inr
  rw [own, hbytes, read_encode_shown type (fun h => absurd h (byteLiteral_nonnull plain c)) fun i hi _ => ?_,
    shown_stored]
  rw [stored_byteLiteral, if_neg (by omega)]

theorem attrRank_nullable {v v' : Value} (nullable : f.nullable = true)
    (type : f.type.Exact) (nonnull : v.type ≠ .nulls) (nonnull' : v'.type ≠ .nulls) :
    attrRank f.indexAttr (f.encode v) = attrRank f.indexAttr (f.encode v') := by
  have hflag : f.flagLen = 4 := by rw [flagLen, if_pos nullable]
  rw [encode_value nonnull, encode_value nonnull', hflag]
  unfold attrRank indexAttr
  rcases type with h | h | h
  · rw [h]
    rfl
  · cases f.len with
    | zero => rfl
    | succ n => rfl
  · rw [h]
    rfl

theorem meaning_byteLiteral (type : f.type.Exact) (room : f.width ≠ 0) :
    f.meaning (byteLiteral f 0) ≠ f.meaning (byteLiteral f 1) ∧ f.meaning (byteLiteral f 0) ≠ .null ∧
      f.meaning (byteLiteral f 1) ≠ .null ∧ ¬(f.meaning (byteLiteral f 1)).Less (f.meaning (byteLiteral f 0)) := by
  unfold meaning byteLiteral
  rcases type with h | h | h <;> simp only [h, reduceCtorEq, if_false]
  · exact ⟨by decide, nofun, nofun, by unfold Less; decide⟩
  · have hempty : cString (firstN (fun i => if i = 0 then (0 : UInt8) else 0) f.width) f.width = [] :=
      cString_firstN_eq_nil_iff.mpr (.inr rfl)
    have hone : cString (firstN (fun i => if i = 0 then (1 : UInt8) else 0) f.width) f.width ≠ [] := fun h =>
      (cString_firstN_eq_nil_iff.mp h).elim room (by decide)
    rw [hempty]
    exact ⟨fun heq => hone (TupleValue.string.inj heq).symm, nofun, nofun, not_lt_nil _⟩
  · exact ⟨by decide, nofun, nofun, by unfold Less; decide⟩

section
variable (laid : Laid 0 fields) (plain : ∀ f ∈ fields, f.Plain) (chosen : ∀ f ∈ indexed, f ∈ fields)
  (attrs : header.attrs = indexed.map indexAttr) (types : ∀ f ∈ indexed, f.type.Exact)
include laid plain chosen attrs types

/-- In front of a value, the null flag hides it. -/
theorem not_keysFaithful_nullable (within : ∀ f ∈ indexed, f.ReadWithin) (hf : f ∈ indexed)
    (nullable : f.nullable = true) (room : f.width ≠ 0) : ¬KeysFaithful header fields indexed := by
  intro faithful
  have records : ∀ c, ∃ data, Built fields data ∧
      ∀ g ∈ fields, g.bytes data = g.encode (g.stored (byteLiteral g (if g = f then c else 0))) := fun c =>
    exists_built laid fun g hg => byteLiteral_takes (plain g hg) _
  obtain ⟨data, built, hbytes⟩ := records 0
  obtain ⟨data', built', hbytes'⟩ := records 1
  have hranks : ∀ g ∈ indexed, attrRank g.indexAttr (g.bytes data) = attrRank g.indexAttr (g.bytes data') := by
    intro g hg
    have hplain := plain g (chosen g hg)
    rw [hbytes g (chosen g hg), hbytes' g (chosen g hg)]
    by_cases heq : g = f
    · exact attrRank_nullable (heq ▸ nullable) (types g hg) (byteLiteral_nonnull hplain _)
        (byteLiteral_nonnull hplain _)
    · rw [if_neg heq, if_neg heq]
  have agrees := @compareKey_fields _ _ _ _ _ ⟨0, 0⟩ ⟨0, 0⟩ laid chosen attrs types within built built'
  have hequal := (faithful _ _ _ _ built built').1.mp (agrees.2.mpr (map_inj_left.mpr hranks)) f hf
  have hown := hbytes f (chosen f hf)
  have hown' := hbytes' f (chosen f hf)
  rw [if_pos rfl] at hown hown'
  rw [own_byteLiteral (types f hf) room hown, own_byteLiteral (types f hf) room hown'] at hequal
  exact (meaning_byteLiteral (types f hf) room).1 hequal

omit attrs types in
/-- A record with zeros up to a column, and a 1 in the byte of the key behind it: in the next column or its flag, or in
    the RID. -/
theorem exists_built_behind {before after : List FieldMeta} (split : indexed = before ++ f :: after)
    (nodup : indexed.Nodup) (pos : ∀ g ∈ fields, 0 < g.len) : ∃ data rid v, Built fields data ∧
      (∀ g ∈ before ++ [f], g.bytes data = g.encode (g.stored (byteLiteral g 0))) ∧
      keyOfFields after data ++ RID.bytes rid = 1 :: (replicate 3 0 ++ v) := by
  obtain ⟨zeros, built, hbytes⟩ := exists_built laid fun g hg => byteLiteral_takes (plain g hg) 0
  have hsub : ∀ g ∈ before ++ [f], g ∈ indexed := fun g hg => by
    rw [split, append_cons]
    exact mem_append_left _ hg
  cases after with
  | nil =>
    exact ⟨zeros, ⟨1, 0⟩, replicate 4 0, built, fun g hg => hbytes g (chosen g (hsub g hg)),
      (by decide : (⟨1, 0⟩ : RID).bytes = _)⟩
  | cons g after =>
    have hg : g ∈ fields := chosen g (split ▸ mem_append_right _ (mem_cons_of_mem _ mem_cons_self))
    have room := (built.field laid hg).1
    have marked : ∃ v : Value, g.Takes v ∧ g.encode (g.stored v) = 1 :: replicate (g.len - 1) 0 := by
      cases column : g.nullable with
      | true =>
        refine ⟨⟨.nulls, fun _ => 0, none⟩, .inl ⟨column, rfl⟩, ?_⟩
        rw [encode, if_pos column, if_pos (stored_null_iff.mpr rfl)]
        have hlen : g.len - 1 = 3 + (g.len - 4) := by
          have := room column
          omega
        rw [hlen, ← replicate_append_replicate]
        rfl
      | false => exact ⟨byteLiteral g 1, byteLiteral_takes (plain g hg) 1, encode_byteLiteral column (pos g hg) 1⟩
    obtain ⟨v, hv, hmark⟩ := marked
    obtain ⟨data, built', hbytes'⟩ := @exists_built _ laid (fun h => if h = g then v else byteLiteral h 0)
        fun h hh => by
      split
      · exact ‹h = g› ▸ hv
      · exact byteLiteral_takes (plain h hh) 0
    have hother : ∀ h ∈ indexed, h ≠ g → h.bytes data = h.encode (h.stored (byteLiteral h 0)) := fun h hh hne => by
      rw [hbytes' h (chosen h hh), if_neg hne]
    rw [split, append_cons, nodup_append] at nodup
    obtain ⟨n, hn⟩ := @keyOfFields_zeros data after fun h hh => by
      have hmem : h ∈ indexed := split ▸ mem_append_right _ (mem_cons_of_mem _ (mem_cons_of_mem _ hh))
      have hne : h ≠ g := fun heq => (nodup_cons.mp nodup.2.1).1 (heq ▸ hh)
      rw [hother h hmem hne, encode_byteLiteral_zero (plain h (chosen h hmem)) (built.field laid (chosen h hmem)).1]
    refine ⟨data, ⟨0, 0⟩, replicate (g.len - 1 + n + 5) 0, built', fun h hh => ?_, ?_⟩
    · exact hother h (hsub h hh) (nodup.2.2 h hh g mem_cons_self)
    · rw [keyOfFields_cons, hn, hbytes' g hg, if_pos rfl, hmark, RID.bytes_zero, cons_append, cons_append,
        replicate_append_replicate, replicate_append_replicate, replicate_append_replicate]
      exact congrArg (1 :: replicate · 0) (by omega)

/-- A number with fewer than four bytes is read on into what stands behind it. -/
theorem KeysFaithful.readWithin (faithful : KeysFaithful header fields indexed) (nodup : indexed.Nodup)
    (pos : ∀ g ∈ fields, 0 < g.len) : ∀ f ∈ indexed, f.ReadWithin := by
  by_contra narrow
  push Not at narrow
  obtain ⟨g, hg, hnarrow⟩ := narrow
  -- The first such column: what stands in front of it is read within its bytes.
  have hsome : (indexed.find? fun f => decide ¬f.ReadWithin).isSome = true :=
    find?_isSome.mpr ⟨g, hg, decide_eq_true hnarrow⟩
  obtain ⟨f, hfind⟩ := Option.isSome_iff_exists.mp hsome
  obtain ⟨hf, before, after, split, hbefore⟩ := find?_eq_some_iff_append.mp hfind
  have within : ∀ g ∈ before, g.ReadWithin := fun g hg => by simpa using hbefore g hg
  have hf : ¬f.ReadWithin := of_decide_eq_true hf
  obtain ⟨number, short⟩ : (f.type = .ints ∨ f.type = .date) ∧ f.len < 4 := by
    unfold ReadWithin at hf
    push Not at hf
    exact hf
  have hmem : f ∈ indexed := split ▸ mem_append_right _ mem_cons_self
  have hplain := plain f (chosen f hmem)
  have hpos := pos f (chosen f hmem)
  obtain ⟨data, built, hbytes⟩ := @exists_built _ laid (fun g => byteLiteral g (if g = f then 1 else 0)) fun g hg =>
    byteLiteral_takes (plain g hg) _
  obtain ⟨data', rid, v, built', hbytes', hbehind⟩ := exists_built_behind laid plain chosen split nodup pos
  have column : f.nullable = false := Bool.eq_false_iff.mpr fun nullable => by
    have := (built.field laid (chosen f hmem)).1 nullable
    omega
  have hwidth : f.width ≠ 0 := by
    unfold width flagLen
    rw [column, if_neg Bool.false_ne_true]
    omega
  have hother : ∀ g ∈ indexed, g ≠ f → g.bytes data = g.encode (g.stored (byteLiteral g 0)) := fun g hg hne => by
    rw [hbytes g (chosen g hg), if_neg hne]
  have hnodup := nodup
  rw [split, nodup_append] at hnodup
  have hsame : ∀ g ∈ before, g.bytes data = g.bytes data' := fun g hg => by
    rw [hother g (split ▸ mem_append_left _ hg) (hnodup.2.2 g hg f mem_cons_self), hbytes' g (mem_append_left _ hg)]
  have hfield : f.bytes data = f.encode (f.stored (byteLiteral f 1)) := by rw [hbytes f (chosen f hmem), if_pos rfl]
  have hfield' := hbytes' f (mem_append_right _ mem_cons_self)
  obtain ⟨n, hn⟩ := @keyOfFields_zeros data after fun g hg => by
    have hg' : g ∈ indexed := split ▸ mem_append_right _ (mem_cons_of_mem _ hg)
    rw [hother g hg' fun heq => (nodup_cons.mp hnodup.2.1).1 (heq ▸ hg),
      encode_byteLiteral_zero (plain g (chosen g hg')) (built.field laid (chosen g hg')).1]
  -- The 1 behind the column counts for more than the 1 in it.
  have hread : attrRank f.indexAttr (f.bytes data ++ (keyOfFields after data ++ (⟨0, 0⟩ : RID).bytes)) <
      attrRank f.indexAttr (f.bytes data' ++ (keyOfFields after data' ++ rid.bytes)) := by
    have hmisread := (@narrow_misread f.indexAttr number hpos short (replicate n 0) v).1
    rw [hfield, hfield', encode_byteLiteral column hpos, encode_byteLiteral_zero hplain fun h =>
      absurd h (by rw [column]; decide), hn, hbehind, RID.bytes_zero, replicate_append_replicate, Nat.add_comm,
        ← replicate_append_replicate]
    exact (agrees_compareAttr (fun h => by rcases number with h' | h' <;> cases h'.symm.trans h) _ _).1.mp hmisread
  have hless : compareKey header (keyBytesOf header indexed data ⟨0, 0⟩) (keyBytesOf header indexed data' rid) < 0 := by
    have inside := fun g hg => built.inside laid (chosen g hg)
    have inside' := fun g hg => built'.inside laid (chosen g hg)
    rw [keyBytesOf_eq attrs inside, keyBytesOf_eq attrs inside',
      (compareKey_spec (noFloats_of_types attrs types) _ _).1, attrs, split]
    obtain ⟨tail, htail⟩ := @attrsRank_split before after f data (⟨0, 0⟩ : RID).bytes within fun g hg =>
      inside g (split ▸ mem_append_left _ hg)
    obtain ⟨tail', htail'⟩ := @attrsRank_split before after f data' rid.bytes within fun g hg =>
      inside' g (split ▸ mem_append_left _ hg)
    rw [htail, htail', map_congr_left fun g hg => congrArg (attrRank g.indexAttr) (hsame g hg)]
    exact append_left_lt (cons_lt_cons_iff.mpr (.inl hread))
  have hmeaning := meaning_byteLiteral (types f hmem) hwidth
  have horder := (faithful data data' ⟨0, 0⟩ rid built built').2 before f after split fun g hg =>
    congrArg g.read (hsame g hg)
  rw [own_byteLiteral (types f hmem) hwidth hfield, own_byteLiteral (types f hmem) hwidth hfield'] at horder
  exact hmeaning.2.2.2 ((horder hmeaning.1.symm hmeaning.2.2.1 hmeaning.2.1).mp hless)

end

theorem initFields_pos {attributes : List AttrInfo} : ∀ {offset : Nat} {fields : List FieldMeta},
    initFields offset attributes = .ok fields → ∀ f ∈ fields, 0 < f.len := by
  induction attributes with
  | nil =>
    intro offset fields h f hf
    cases h
    cases hf
  | cons a attributes ih =>
    intro offset fields h f hf
    rw [initFields] at h
    split at h
    · cases h
    · rename_i valid
      cases hrest : initFields (offset + a.length) attributes with
      | error rc => rw [hrest] at h; cases h
      | ok rest =>
        rw [hrest] at h
        cases h
        rcases mem_cons.mp hf with rfl | hf
        · exact Nat.pos_of_ne_zero fun hzero => valid (.inr hzero)
        · exact ih hrest f hf

theorem createTable_pos {defs : List AttrDef} (created : createTable defs = .ok fields) : ∀ f ∈ fields, 0 < f.len := by
  unfold createTable TableMeta.init at created
  split at created
  · cases created
  · exact initFields_pos created

/-- The keys of an index follow the values of its fields if no field has both a null flag and a value and each number
    has its four bytes; and only then, unless a field is there twice. -/
theorem keysFaithful_iff {defs : List AttrDef} (created : createTable defs = .ok fields) (plain : ∀ f ∈ fields, f.Plain)
    (chosen : ∀ f ∈ indexed, f ∈ fields) (types : ∀ f ∈ indexed, f.type = .ints ∨ f.type = .chars ∨ f.type = .date)
    (alloc : Allocator) :
    ((∀ f ∈ indexed, (f.nullable = true → f.width = 0) ∧ (f.type = .ints ∨ f.type = .date → 4 ≤ f.len)) →
        KeysFaithful (create (indexed.map indexAttr) alloc).fileHeader fields indexed) ∧
      (indexed.Nodup → KeysFaithful (create (indexed.map indexAttr) alloc).fileHeader fields indexed →
        ∀ f ∈ indexed, (f.nullable = true → f.width = 0) ∧ (f.type = .ints ∨ f.type = .date → 4 ≤ f.len)) := by
  have laid := createTable_laid created
  refine ⟨keysFaithful_of_shown laid chosen rfl types, fun nodup faithful f hf => ?_⟩
  have within := faithful.readWithin laid plain chosen rfl types nodup (createTable_pos created)
  refine ⟨fun nullable => ?_, within f hf⟩
  by_contra room
  exact not_keysFaithful_nullable laid plain chosen rfl types within hf nullable room faithful

def indexOn (indexed : List FieldMeta) : BplusTreeHandler := create (indexed.map indexAttr) fun s => (s.count, .zeroed)

theorem keysFaithful_textAndNumber : KeysFaithful (indexOn textAndNumber).fileHeader textAndNumber textAndNumber :=
  (keysFaithful_iff textAndNumber_created textAndNumber_plain (fun _ hf => hf) (by decide) _).1 (by decide)

/-- In an index on `d INT NULLABLE` the keys of the rows `(5)` and `(7)` are equal. -/
theorem nullableKeys_equal :
    (emptyTable nullableNumber).makeRecord [numberLiteral [5]] (fun _ => .nothing) = .ok [0, 0, 0, 0, 5, 0, 0, 0] ∧
      (emptyTable nullableNumber).makeRecord [numberLiteral [7]] (fun _ => .nothing) = .ok [0, 0, 0, 0, 7, 0, 0, 0] ∧
      compareKey (indexOn nullableNumber).fileHeader
        (keyBytesOf (indexOn nullableNumber).fileHeader nullableNumber [0, 0, 0, 0, 5, 0, 0, 0] ⟨1, 0⟩)
        (keyBytesOf (indexOn nullableNumber).fileHeader nullableNumber [0, 0, 0, 0, 7, 0, 0, 0] ⟨1, 1⟩) = 0 ∧
      nullableNumber.map (fun f => f.own [0, 0, 0, 0, 5, 0, 0, 0]) = [.int 5] ∧
      nullableNumber.map (fun f => f.own [0, 0, 0, 0, 7, 0, 0, 0]) = [.int 7] ∧
      ¬KeysFaithful (indexOn nullableNumber).fileHeader nullableNumber nullableNumber := by
  have made : (emptyTable nullableNumber).makeRecord [numberLiteral [5]] (fun _ => .nothing) =
    .ok [0, 0, 0, 0, 5, 0, 0, 0] := by rfl
  have made' : (emptyTable nullableNumber).makeRecord [numberLiteral [7]] (fun _ => .nothing) =
    .ok [0, 0, 0, 0, 7, 0, 0, 0] := by rfl
  refine ⟨made, made', by decide, by decide, by decide, fun faithful => ?_⟩
  have hequal := (faithful _ _ ⟨1, 0⟩ ⟨1, 1⟩ ⟨_, _, _, rfl, made⟩ ⟨_, _, _, rfl, made'⟩).1.mp
    (by decide) _ mem_cons_self
  exact absurd hequal (by decide)

end Faithful

end MiniOb
