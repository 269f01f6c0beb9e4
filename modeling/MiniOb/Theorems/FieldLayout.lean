import MiniOb.Table.Catalog
import MiniOb.Table.Create

/-! # The layout of a record

`TableMeta::init` checks each field but neither the sum of the lengths nor the length that a type needs. Only the last
addition can leave the range of an `int` unseen. -/

namespace MiniOb.Catalog
open Catalog.AttrDef Catalog.FieldMeta Catalog.TableMeta
open List hiding Disjoint
variable {name : Bytes} {defs : List AttrDef}

variable {offset : Int} {attributes : List AttrInfo} {fields : List FieldMeta}

def AttrDef.declared (d : AttrDef) : Int := d.number.getD (if d.type = .texts then 4096 else 4)

def AttrDef.flag (d : AttrDef) : Int := if d.nullable then 4 else 0

/-- The bytes of a value as the type stores it: a string has the declared number of characters, every other value is
    four bytes. -/
def AttrDef.stored (d : AttrDef) : Int :=
  match d.type with
  | .chars | .texts => max d.declared 0
  | _ => 4

theorem wrapInt_toSize {n : Int} (h : IsInt n) : wrapInt (toSize n) = n := by
  obtain ⟨low, high⟩ := h
  unfold wrapInt toSize
  omega

theorem AttrDef.declared_isInt (d : AttrDef) : IsInt d.declared := by
  unfold declared
  cases hn : d.number with
  | none => rw [Option.getD_none]; split <;> decide
  | some n => exact d.number_parsed n hn

theorem AttrDef.flag_cases (d : AttrDef) : d.flag = 0 ∨ d.flag = 4 := by
  unfold flag
  cases d.nullable <;> simp

theorem AttrDef.info_length (d : AttrDef) : wrapInt d.info.length = wrapInt (d.declared + d.flag) := by
  have hflag := d.flag_cases
  cases hn : d.number with
  | some n =>
    have hinfo : d.info.length = toSize (wrapInt (n + d.flag)) := by simp [info, hn, flag]
    rw [hinfo, wrapInt_toSize (wrapInt_isInt _), declared, hn, Option.getD_some]
  | none =>
    have hinfo : d.info.length = toSize (d.declared + d.flag) := by
      by_cases ht : d.type = .texts <;> simp [info, declared, hn, ht, flag]
    have hint : IsInt (d.declared + d.flag) := by
      unfold IsInt
      rw [declared, hn, Option.getD_none]
      split <;> omega
    rw [hinfo, wrapInt_toSize hint, wrapInt_eq hint.1 hint.2]

theorem AttrDef.info_length_of_pos {d : AttrDef} (h : 0 < wrapInt d.info.length) :
    wrapInt d.info.length = d.declared + d.flag := by
  rw [d.info_length] at h ⊢
  obtain ⟨low, high⟩ := d.declared_isInt
  have hflag := d.flag_cases
  unfold wrapInt at h ⊢
  omega

theorem AttrDef.info_nullType (d : AttrDef) : d.info.nullType = d.nullable := by
  cases hn : d.number with
  | some n => simp [info, hn]
  | none => by_cases ht : d.type = .texts <;> simp [info, hn, ht]

def Consecutive : Int → List FieldMeta → Prop
  | _, [] => True
  | start, f :: fields => f.offset = start ∧ Consecutive (start + f.len) fields

def FieldMeta.range (f : FieldMeta) : Set Int := Set.Ico f.offset (f.offset + f.len)

structure FieldOf (a : AttrInfo) (f : FieldMeta) : Prop where
  name : f.name = a.name ∧ a.name ≠ []
  type : f.type = a.type ∧ a.type ≠ .undefined
  len : f.len = wrapInt a.length
  len_pos : 0 < f.len
  nullable : f.nullable = a.nullType

theorem FieldMeta.init_ok {type : AttrType} {len : Int} {visible nullable : Bool} {f : FieldMeta}
    (h : init name type offset len visible nullable = .ok f) :
    f = ⟨name, type, offset, len, visible, nullable⟩ ∧ name ≠ [] ∧ type ≠ .undefined ∧ 0 ≤ offset ∧ 0 < len := by
  unfold init at h
  split at h
  · cases h
  · rename_i hname
    split at h
    · cases h
    · rename_i hchecks
      cases h
      push Not at hchecks
      exact ⟨rfl, hname, hchecks⟩

theorem initFields_cons {a : AttrInfo} {size : Int} (h : initFields offset (a :: attributes) = .ok (fields, size)) :
    ∃ rest, fields = ⟨a.name, a.type, offset, wrapInt a.length, true, a.nullType⟩ :: rest ∧ 0 ≤ offset ∧
      FieldOf a ⟨a.name, a.type, offset, wrapInt a.length, true, a.nullType⟩ ∧
      initFields (wrapInt (offset + a.length)) attributes = .ok (rest, size) := by
  unfold initFields at h
  split at h
  · cases h
  · rename_i field hfield
    obtain ⟨rfl, hname, htype, hoffset, hlen⟩ := init_ok hfield
    split at h
    · cases h
    · rename_i rest size' hrest
      cases h
      exact ⟨rest, rfl, hoffset, ⟨⟨rfl, hname⟩, ⟨rfl, htype⟩, rfl, hlen, rfl⟩, hrest⟩

theorem initFields_ok {size : Int} (hoffset : IsInt offset) (h : initFields offset attributes = .ok (fields, size)) :
    Consecutive offset fields ∧ List.Forall₂ FieldOf attributes fields ∧
      size = wrapInt (offset + (fields.map len).sum) := by
  induction attributes generalizing offset fields with
  | nil =>
    cases h
    exact ⟨trivial, .nil, by simp [wrapInt_eq hoffset.1 hoffset.2]⟩
  | cons a attributes ih =>
    obtain ⟨rest, rfl, hpos, hfield, hrest⟩ := initFields_cons h
    obtain ⟨hchain, hfields, hsize⟩ := ih (wrapInt_isInt _) hrest
    rw [← wrapInt_add_wrapInt] at hchain hrest
    have hlen : IsInt (wrapInt a.length) := wrapInt_isInt _
    refine ⟨⟨rfl, ?_⟩, .cons hfield hfields, ?_⟩
    · cases attributes with
      | nil => cases hfields; trivial
      | cons b attributes =>
        -- The next offset passed its check, so that the sum has not left the range.
        obtain ⟨_, _, hnext, _, _⟩ := initFields_cons hrest
        have hsum : wrapInt (offset + wrapInt a.length) = offset + wrapInt a.length := by
          have := hfield.len_pos
          simp only at this
          unfold IsInt at hoffset hlen
          unfold wrapInt at hnext this hlen ⊢
          omega
        rwa [hsum] at hchain
    · rw [hsize, map_cons, sum_cons]
      dsimp only [wrapInt]
      omega

/-! ### The layout without names -/

def AttrDef.bare (d : AttrDef) : MiniOb.AttrDef := ⟨d.type, d.nullable, d.number.map Int.toNat⟩

/-- A field without its name, with its place behind the system field. -/
def FieldMeta.bare (f : FieldMeta) : MiniOb.FieldMeta := ⟨f.type, (f.offset - 4).toNat, f.len.toNat, f.nullable⟩

theorem AttrDef.info_bare {d : AttrDef} (hnumber : ∀ n ∈ d.number, 0 ≤ n) (h : 0 < wrapInt d.info.length) :
    d.bare.info = ⟨d.info.type, (wrapInt d.info.length).toNat, d.info.nullType⟩ := by
  rw [info_length_of_pos h]
  unfold declared flag
  cases hn : d.number with
  | some n =>
    have hn := hnumber n hn
    cases hd : d.nullable
    · simp [info, bare, MiniOb.AttrDef.info, *]
    · simp [info, bare, MiniOb.AttrDef.info, *]
      omega
  | none =>
    by_cases ht : d.type = .texts <;> cases hd : d.nullable <;> simp [info, bare, MiniOb.AttrDef.info, *]

theorem initFields_bare {start : Nat} (hnumber : ∀ d ∈ defs, ∀ n ∈ d.number, 0 ≤ n)
    (hfields : List.Forall₂ FieldOf (defs.map AttrDef.info) fields) (h : Consecutive (start + 4 : Nat) fields) :
    MiniOb.initFields start (defs.map fun d => d.bare.info) = .ok (fields.map FieldMeta.bare) := by
  induction defs generalizing start fields with
  | nil =>
    cases hfields
    rfl
  | cons d defs ih =>
    obtain ⟨f, rest, hf, hrest, rfl⟩ := forall₂_cons_left_iff.mp hfields
    obtain ⟨hoffset, h⟩ := h
    have hpos : 0 < wrapInt d.info.length := hf.len ▸ hf.len_pos
    have hlen : ((start + f.len.toNat + 4 : Nat) : Int) = (start + 4 : Nat) + f.len := by
      have := hf.len_pos
      omega
    have hbare : f.bare = ⟨d.info.type, start, f.len.toNat, d.info.nullType⟩ := by
      unfold FieldMeta.bare
      rw [hf.type.1, hf.nullable, hoffset, show ((start + 4 : Nat) - 4 : Int).toNat = start by omega]
    rw [map_cons, info_bare (hnumber d mem_cons_self) hpos, ← hf.len, MiniOb.initFields, if_neg, ih
      (fun d hd => hnumber d (mem_cons_of_mem _ hd)) hrest (hlen ▸ h), map_cons, hbare]
    · rfl
    · have := hf.len_pos
      exact not_or.mpr ⟨hf.type.2, by simp only; omega⟩

/-- `createTable` lays the columns out as `TableMeta::init` does, for declared lengths that are not negative. -/
theorem createTable_bare {t : TableMeta} (h : TableMeta.init name (defs.map AttrDef.info) = .ok t)
    (hnumber : ∀ d ∈ defs, ∀ n ∈ d.number, 0 ≤ n) :
    createTable (defs.map AttrDef.bare) = .ok (t.fields.tail.map FieldMeta.bare) := by
  unfold TableMeta.init at h
  split at h
  · cases h
  split at h
  · cases h
  rename_i hne
  rcases hinit : initFields (trxField.offset + trxField.len) (defs.map AttrDef.info) with rc | ⟨fields, size⟩
  · rw [hinit] at h
    cases h
  rw [hinit] at h
  cases h
  obtain ⟨hchain, hfields, -⟩ := initFields_ok (by decide) hinit
  rw [createTable, MiniOb.TableMeta.init, if_neg (by simpa using hne), map_map]
  exact initFields_bare hnumber hfields hchain

theorem Consecutive.le_offset {start : Int} (h : Consecutive start fields)
    (hpos : ∀ f ∈ fields, 0 < f.len) : ∀ f ∈ fields, start ≤ f.offset := by
  induction fields generalizing start with
  | nil => simp
  | cons g fields ih =>
    rintro f hf
    obtain ⟨hg, hrest⟩ := h
    rcases mem_cons.1 hf with rfl | hf
    · exact hg.ge
    · have := ih hrest (fun f hf => hpos f (mem_cons_of_mem _ hf)) f hf
      have := hpos g mem_cons_self
      omega

theorem Consecutive.pairwise {start : Int} (h : Consecutive start fields)
    (hpos : ∀ f ∈ fields, 0 < f.len) : fields.Pairwise fun f g => f.offset + f.len ≤ g.offset := by
  induction fields generalizing start with
  | nil => exact .nil
  | cons f fields ih =>
    obtain ⟨rfl, hrest⟩ := h
    have hpos' : ∀ g ∈ fields, 0 < g.len := fun g hg => hpos g (mem_cons_of_mem _ hg)
    exact .cons (hrest.le_offset hpos') (ih hrest hpos')

theorem TableMeta.init_ok {t : TableMeta} (h : init name attributes = .ok t) :
    ∃ fields, t = ⟨name, trxField :: fields, [], [], wrapInt (4 + (fields.map len).sum)⟩ ∧
      Consecutive 0 (trxField :: fields) ∧ List.Forall₂ FieldOf attributes fields := by
  unfold init at h
  split at h
  · cases h
  · split at h
    · cases h
    · cases hf : initFields (trxField.offset + trxField.len) attributes with
      | error rc => simp [hf, Except.map] at h
      | ok made =>
        obtain ⟨fields, size⟩ := made
        obtain ⟨hchain, hfields, hsize⟩ := initFields_ok (by decide) hf
        simp only [hf, Except.map, Except.ok.injEq] at h
        exact ⟨fields, by rw [← h, hsize]; rfl, ⟨rfl, hchain⟩, hfields⟩

theorem FieldOf.len_pos_of_mem (h : List.Forall₂ FieldOf attributes fields) : ∀ f ∈ trxField :: fields, 0 < f.len := by
  rw [forall_mem_cons]
  refine ⟨by decide, ?_⟩
  induction h with
  | nil => simp
  | cons hf _ ih => exact forall_mem_cons.2 ⟨hf.len_pos, ih⟩

/-- The fields of a table partition its records, and each of them has room for its values. -/
structure TableMeta.Partitions (defs : List AttrDef) (t : TableMeta) : Prop where
  consecutive : Consecutive 0 t.fields
  disjoint : t.fields.Pairwise fun f g => Disjoint f.range g.range
  system : t.fields.head? = some trxField
  wide : List.Forall₂ (fun d f => d.stored + (if f.nullable then 4 else 0) ≤ f.len) defs t.fields.tail
  size : (t.fields.map len).sum = t.recordSize
  size_pos : 0 < t.recordSize

def AttrDef.Fits (d : AttrDef) : Prop :=
  match d.type with
  | .chars | .texts => 0 ≤ d.declared
  | _ => 4 ≤ d.declared

theorem AttrDef.fits_iff (d : AttrDef) : d.Fits ↔ d.stored ≤ d.declared := by
  unfold Fits stored
  split <;> simp

theorem FieldOf.of_def {d : AttrDef} {f : FieldMeta} (h : FieldOf d.info f) :
    f.len = d.declared + d.flag ∧ d.flag = if f.nullable then 4 else 0 := by
  have hpos := h.len_pos
  rw [h.len] at hpos ⊢
  refine ⟨d.info_length_of_pos hpos, ?_⟩
  rw [h.nullable, d.info_nullType]
  rfl

theorem FieldOf.wide_iff (h : List.Forall₂ FieldOf (defs.map info) fields) :
    List.Forall₂ (fun d f => d.stored + (if f.nullable then 4 else 0) ≤ f.len) defs fields ↔ ∀ d ∈ defs, d.Fits := by
  rw [forall₂_map_left_iff] at h
  induction h with
  | nil => simp
  | cons hd _ ih =>
    obtain ⟨hlen, hflag⟩ := hd.of_def
    rw [forall₂_cons, ih, forall_mem_cons, fits_iff, hlen, ← hflag, add_le_add_iff_right]

theorem FieldOf.sum_len (h : List.Forall₂ FieldOf (defs.map info) fields) :
    (fields.map FieldMeta.len).sum = (defs.map fun d => d.declared + d.flag).sum := by
  rw [forall₂_map_left_iff] at h
  induction h with
  | nil => rfl
  | cons hd _ ih => rw [map_cons, map_cons, sum_cons, sum_cons, ih, hd.of_def.1]

/-- The fields of a table that CREATE TABLE makes partition the record exactly if no column is declared shorter than its
    values and the lengths add up to an `int`. -/
theorem TableMeta.partitions_iff {name : Bytes} {defs : List AttrDef} {t : TableMeta}
    (h : init name (defs.map info) = .ok t) :
    t.Partitions defs ↔ (∀ d ∈ defs, d.Fits) ∧ 4 + (defs.map fun d => d.declared + d.flag).sum < 2 ^ 31 := by
  obtain ⟨fields, rfl, hchain, hfields⟩ := init_ok h
  have hpos := FieldOf.len_pos_of_mem hfields
  have hsum : ((trxField :: fields).map len).sum = 4 + (fields.map len).sum := rfl
  have hnonneg : 0 ≤ (fields.map len).sum :=
    sum_nonneg (by simpa using fun f hf => (hpos f (mem_cons_of_mem _ hf)).le)
  rw [← FieldOf.sum_len hfields]
  constructor
  · intro hp
    refine ⟨(FieldOf.wide_iff hfields).1 hp.wide, ?_⟩
    have hsize := hp.size
    rw [hsum] at hsize
    exact hsize ▸ (wrapInt_isInt _).2
  · rintro ⟨hfit, hlt⟩
    have hsize : wrapInt (4 + (fields.map len).sum) = 4 + (fields.map len).sum :=
      wrapInt_eq (by omega) hlt
    refine ⟨hchain, ?_, rfl, (FieldOf.wide_iff hfields).2 hfit, by rw [hsum, hsize], by simp only [hsize]; omega⟩
    refine (hchain.pairwise hpos).imp fun {f g} hfg => Set.disjoint_left.2 ?_
    rintro b ⟨_, hf⟩ ⟨hg, _⟩
    omega

theorem TableMeta.partitions_intChars :
    (⟨[116], [trxField, ⟨[97], .ints, 4, 4, true, false⟩, ⟨[98], .chars, 8, 14, true, true⟩], [], [], 22⟩ :
      TableMeta).Partitions
      [⟨[97], .ints, false, none, by decide, by decide⟩, ⟨[98], .chars, true, some 10, by decide, by decide⟩] := by
  refine (@partitions_iff [116] _ _ (by decide +kernel)).2 ⟨?_, by decide⟩
  simp [Fits, declared]

/-- `create table t (a int(1))`: the column has one byte for a value of four. -/
theorem TableMeta.not_partitions_oneByte :
    init [116] ([⟨[97], .ints, false, some 1, by decide, by decide⟩].map info) =
        .ok ⟨[116], [trxField, ⟨[97], .ints, 4, 1, true, false⟩], [], [], 5⟩ ∧
      ¬ (⟨[116], [trxField, ⟨[97], .ints, 4, 1, true, false⟩], [], [], 5⟩ : TableMeta).Partitions
        [⟨[97], .ints, false, some 1, by decide, by decide⟩] := by
  refine ⟨by decide +kernel, fun h => ?_⟩
  have hwide := (forall₂_cons.1 h.wide).1
  revert hwide
  decide

end MiniOb.Catalog
