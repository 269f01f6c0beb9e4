import MiniOb.Theorems.FieldLayout

/-! # Metadata written and read back

Everything comes back but the type TEXTS, which is written as "unknown". -/

namespace MiniOb.Catalog
open List Catalog.TableMeta Catalog.FieldMeta
variable {f : FieldMeta} {t : TableMeta} {i : IndexMeta} {fields : List FieldMeta}

/-- A type with an entry in `ATTR_TYPE_NAME` that can stand in a field. -/
def AttrType.Named (type : AttrType) : Prop := type = .chars ∨ type = .ints ∨ type = .date ∨ type = .floats

theorem attrTypeFromString_toString (type : AttrType) :
    (AttrType.Named type → attrTypeFromString (attrTypeToString type) = type) ∧
      (¬ AttrType.Named type → attrTypeFromString (attrTypeToString type) = .undefined) := by
  unfold AttrType.Named
  cases type <;> decide +kernel

structure FieldMeta.Valid (f : FieldMeta) : Prop where
  name : f.name ≠ []
  type : f.type ≠ .undefined
  offset : 0 ≤ f.offset
  len : 0 < f.len

theorem FieldMeta.Valid.init (h : f.Valid) :
    init f.name f.type f.offset f.len f.visible f.nullable = .ok f := by
  obtain ⟨hname, htype, hoffset, hlen⟩ := h
  simp [FieldMeta.init, hname, htype, hoffset, hlen]

theorem FieldMeta.fromJson_toJson (h : f.Valid) (named : AttrType.Named f.type) : fromJson f.toJson = .ok f := by
  have htype := (attrTypeFromString_toString f.type).1 named
  simp [fromJson, toJson, Json.member, htype, h.type, h.init]

theorem FieldMeta.fromJson_unnamed (h : ¬ AttrType.Named f.type) : fromJson f.toJson = .error .genericError := by
  have htype := (attrTypeFromString_toString f.type).2 h
  simp [fromJson, toJson, Json.member, htype]

theorem mapExcept_map {α β : Type} {f : β → Except RC α} {g : α → β} {as : List α} (h : ∀ a ∈ as, f (g a) = .ok a) :
    mapExcept f (as.map g) = .ok as := by
  induction as with
  | nil => rfl
  | cons a as ih =>
    rw [forall_mem_cons] at h
    simp [mapExcept, h.1, ih h.2, Except.map]

theorem mapExcept_error {α β : Type} {f : α → Except RC β} {as : List α} {a : α} {rc : RC} (ha : a ∈ as)
    (h : f a = .error rc) : ∃ rc, mapExcept f as = .error rc := by
  induction as with
  | nil => cases ha
  | cons b as ih =>
    rcases mem_cons.1 ha with rfl | ha
    · exact ⟨rc, by simp [mapExcept, h]⟩
    · obtain ⟨rc', hrc⟩ := ih ha
      cases hb : f b with
      | error rcb => exact ⟨rcb, by simp [mapExcept, hb]⟩
      | ok _ => exact ⟨rc', by simp [mapExcept, hb, hrc, Except.map]⟩

/-- An index over fields of the table, with a name that `IndexMeta::init` takes. -/
structure IndexMeta.Over (t : TableMeta) (i : IndexMeta) : Prop where
  name : isBlank i.name = false
  fields : i.fields ≠ []
  found : ∀ n ∈ i.fields, ∃ f ∈ t.fields, f.name = n

theorem IndexMeta.Over.congr {t' : TableMeta} (h : i.Over t) (ht : t'.fields = t.fields) : i.Over t' :=
  ⟨h.name, h.fields, by rw [ht]; exact h.found⟩

theorem IndexMeta.Over.of_init {name : Bytes} (hne : fields ≠ [])
    (hmem : ∀ f ∈ fields, f ∈ t.fields) (h : IndexMeta.init name fields = .ok i) : i.Over t := by
  unfold IndexMeta.init at h
  split at h
  · cases h
  · rename_i hblank
    cases h
    refine ⟨by simpa using hblank, by simpa using hne, ?_⟩
    rintro n hn
    obtain ⟨f, hf, rfl⟩ := mem_map.1 hn
    exact ⟨f, hmem f hf, rfl⟩

theorem TableMeta.field_name {n : Bytes} (h : ∃ f ∈ t.fields, f.name = n) : ∃ g, t.field n = some g ∧ g.name = n := by
  obtain ⟨f, hf, rfl⟩ := h
  have hsome : (t.field f.name).isSome := find?_isSome.2 ⟨f, hf, by simp⟩
  obtain ⟨g, hg⟩ := Option.isSome_iff_exists.1 hsome
  exact ⟨g, hg, by simpa using find?_some hg⟩

theorem IndexMeta.findFields_names {names : List Bytes} (h : ∀ n ∈ names, ∃ f ∈ t.fields, f.name = n) :
    ∃ metas, findFields t (names.map .string) = .ok metas ∧ metas.map FieldMeta.name = names := by
  induction names with
  | nil => exact ⟨[], rfl, rfl⟩
  | cons n names ih =>
    rw [forall_mem_cons] at h
    obtain ⟨g, hg, hname⟩ := field_name h.1
    obtain ⟨metas, hmetas, hnames⟩ := ih h.2
    exact ⟨g :: metas, by simp [findFields, hg, hmetas, Except.map], by simp [hname, hnames]⟩

theorem IndexMeta.fromJson_toJson (h : i.Over t) : fromJson t i.toJson = .ok i := by
  obtain ⟨metas, hmetas, hnames⟩ := findFields_names h.found
  simp [fromJson, toJson, Json.member, Json.appended, h.fields, hmetas, init, h.name, hnames]

theorem TableMeta.indexesFromJson_toJson {indexes : List IndexMeta} (h : ∀ i ∈ indexes, i.Over t) :
    t.indexesFromJson [] (.appended (indexes.map IndexMeta.toJson)) = some indexes := by
  cases indexes with
  | nil => rfl
  | cons i indexes =>
    have hall := mapExcept_map fun i hi => IndexMeta.fromJson_toJson (h i hi)
    rw [map_cons] at hall
    simp [Json.appended, indexesFromJson, hall, Except.toOption]

/-- Metadata with its fields in the order of their offsets and indexes over its fields. -/
structure TableMeta.WellFormed (t : TableMeta) : Prop where
  fields : t.fields ≠ []
  valid : ∀ f ∈ t.fields, f.Valid
  sorted : t.fields.Pairwise fun f g => f.offset ≤ g.offset
  size : ∀ f ∈ t.fields.getLast?, t.recordSize = wrapInt (f.offset + f.len)
  indexes : ∀ i ∈ t.indexes, i.Over t
  uniqueIndexes : ∀ i ∈ t.uniqueIndexes, i.Over t

theorem TableMeta.serialize_member (t : TableMeta) :
    t.serialize.member "table_name" = .string t.name ∧
      t.serialize.member "fields" = .appended (t.fields.map toJson) ∧
      t.serialize.member "indexes" = .appended (t.indexes.map IndexMeta.toJson) ∧
      t.serialize.member "unique_indexes" = .appended (t.uniqueIndexes.map IndexMeta.toJson) := by
  simp [serialize, Json.member]

theorem TableMeta.WellFormed.deserialize_serialize (h : t.WellFormed)
    (named : ∀ f ∈ t.fields, AttrType.Named f.type) : deserialize t.serialize = some t := by
  obtain ⟨name, fields, indexes, uniqueIndexes, recordSize⟩ := t
  obtain ⟨f, fields, rfl⟩ := exists_cons_of_ne_nil h.fields
  obtain ⟨hname, hfields, hindexes, hunique⟩ := serialize_member ⟨name, f :: fields, indexes, uniqueIndexes, recordSize⟩
  have harray : (⟨name, f :: fields, indexes, uniqueIndexes, recordSize⟩ : TableMeta).serialize.member "fields" =
      .array (f.toJson :: fields.map toJson) := hfields
  have hread := mapExcept_map fun g hg => fromJson_toJson (h.valid g hg) (named g hg)
  have hsort : (f :: fields).mergeSort (fun f g => decide (f.offset ≤ g.offset)) = f :: fields :=
    mergeSort_of_pairwise (by simpa using h.sorted)
  have hsize := h.size _ (getLast?_cons (a := f) (l := fields))
  have hover : ∀ i : IndexMeta, i.Over ⟨name, f :: fields, indexes, uniqueIndexes, recordSize⟩ →
      i.Over ⟨name, f :: fields, [], [], recordSize⟩ := fun _ hi => hi.congr rfl
  have hindexes' := indexesFromJson_toJson fun i hi => hover i (h.indexes i hi)
  have hunique' := indexesFromJson_toJson fun i hi => hover i (h.uniqueIndexes i hi)
  rw [map_cons] at hread
  simp only [deserialize, hname, harray, hindexes, hunique, hread, hsort, getLast?_cons, ← hsize]
  simp only [hindexes', hunique']

theorem TableMeta.deserialize_unnamed (hf : f ∈ t.fields) (h : ¬ AttrType.Named f.type) :
    deserialize t.serialize = none := by
  obtain ⟨hname, hfields, -, -⟩ := serialize_member t
  obtain ⟨rc, hread⟩ := mapExcept_error (mem_map_of_mem hf) (fromJson_unnamed h)
  cases hmap : t.fields.map toJson with
  | nil => simp [deserialize, hname, hfields, hmap, Json.appended]
  | cons value values =>
    rw [hmap] at hread hfields
    simp [deserialize, hname, hfields, Json.appended, hread]

theorem FieldOf.info_named {d : AttrDef} (h : FieldOf d.info f) :
    AttrType.Named f.type ↔ (d.type = .texts → d.number = none) := by
  rw [h.type.1]
  unfold AttrType.Named AttrDef.info
  have hd := d.type_parsed
  cases hn : d.number <;> cases ht : d.type <;> simp_all

theorem FieldOf.valid {a : AttrInfo} (h : FieldOf a f) (hoffset : 0 ≤ f.offset) : f.Valid :=
  ⟨h.name.1 ▸ h.name.2, h.type.1 ▸ h.type.2, hoffset, h.len_pos⟩

theorem FieldOf.forall_named {defs : List AttrDef} (h : List.Forall₂ FieldOf (defs.map AttrDef.info) fields) :
    (∀ f ∈ fields, AttrType.Named f.type) ↔ ∀ d ∈ defs, d.type = .texts → d.number = none := by
  rw [forall₂_map_left_iff] at h
  induction h with
  | nil => simp
  | cons hd _ ih => rw [forall_mem_cons, forall_mem_cons, ih, hd.info_named]

theorem FieldOf.forall_valid {attributes : List AttrInfo}
    (h : List.Forall₂ FieldOf attributes fields) (hoffset : ∀ f ∈ fields, 0 ≤ f.offset) : ∀ f ∈ fields, f.Valid := by
  induction h with
  | nil => simp
  | cons hf _ ih =>
    rw [forall_mem_cons] at hoffset ⊢
    exact ⟨hf.valid hoffset.1, ih hoffset.2⟩

theorem Consecutive.getLast {start : Int} (h : Consecutive start fields) :
    ∀ f ∈ fields.getLast?, f.offset + f.len = start + (fields.map len).sum := by
  induction fields generalizing start with
  | nil => simp
  | cons g fields ih =>
    obtain ⟨rfl, hrest⟩ := h
    intro f hf
    cases fields with
    | nil =>
      cases hf
      simp
    | cons g' fields =>
      rw [ih hrest f (by simpa using hf), map_cons (l := g' :: fields), sum_cons, add_assoc]

theorem TableMeta.init_wellFormed {name : Bytes} {attributes : List AttrInfo}
    (h : init name attributes = .ok t) : t.WellFormed := by
  obtain ⟨fields, rfl, hchain, hfields⟩ := init_ok h
  have hpos := FieldOf.len_pos_of_mem hfields
  have hoffset := hchain.le_offset hpos
  refine ⟨by simp, ?_, ?_, ?_, by simp, by simp⟩
  · rw [forall_mem_cons] at hoffset ⊢
    exact ⟨⟨by decide, by decide, by decide, by decide⟩, FieldOf.forall_valid hfields hoffset.2⟩
  · refine (hchain.pairwise hpos).imp_of_mem fun {f g} hf _ hfg => ?_
    have := hpos f hf
    omega
  · intro f hf
    rw [hchain.getLast f hf]
    simp [trxField]

theorem TableMeta.Made.wellFormed {defs : List AttrDef} (h : Made defs t) :
    t.WellFormed ∧ ((∀ f ∈ t.fields, AttrType.Named f.type) ↔ ∀ d ∈ defs, d.type = .texts → d.number = none) := by
  induction h with
  | init h =>
    refine ⟨init_wellFormed h, ?_⟩
    obtain ⟨fields, rfl, -, hfields⟩ := init_ok h
    rw [forall_mem_cons, FieldOf.forall_named hfields]
    exact and_iff_right (by simp [AttrType.Named, trxField])
  | @addIndex t name fields index _ hne hmem hindex ih =>
    obtain ⟨wf, hnamed⟩ := ih
    have hover := IndexMeta.Over.of_init hne hmem hindex
    refine ⟨⟨wf.fields, wf.valid, wf.sorted, wf.size, ?_, fun i hi => (wf.uniqueIndexes i hi).congr rfl⟩, hnamed⟩
    intro i hi
    rcases mem_append.1 hi with hi | hi
    · exact (wf.indexes i hi).congr rfl
    · rw [mem_singleton] at hi
      exact (hi ▸ hover).congr rfl
  | @addUniqueIndex t name fields index _ hne hmem hindex ih =>
    obtain ⟨wf, hnamed⟩ := ih
    have hover := IndexMeta.Over.of_init hne hmem hindex
    refine ⟨⟨wf.fields, wf.valid, wf.sorted, wf.size, fun i hi => (wf.indexes i hi).congr rfl, ?_⟩, hnamed⟩
    intro i hi
    rcases mem_append.1 hi with hi | hi
    · exact (wf.uniqueIndexes i hi).congr rfl
    · rw [mem_singleton] at hi
      exact (hi ▸ hover).congr rfl

/-- The metadata of a table comes back from its file exactly if no column is TEXT with an explicit length. -/
theorem TableMeta.deserialize_serialize_iff {defs : List AttrDef} {t : TableMeta} (h : Made defs t) :
    deserialize t.serialize = some t ↔ ∀ d ∈ defs, d.type = .texts → d.number = none := by
  obtain ⟨wf, hnamed⟩ := h.wellFormed
  rw [← hnamed]
  refine ⟨fun hread f hf => ?_, wf.deserialize_serialize⟩
  by_contra hunnamed
  rw [deserialize_unnamed hf hunnamed] at hread
  cases hread

theorem TableMeta.deserialize_serialize_textDefault :
    deserialize (serialize ⟨[116], [trxField, ⟨[97], .ints, 4, 4, true, false⟩, ⟨[98], .chars, 8, 4096, true, false⟩],
      [], [⟨[105], [[97]]⟩], 4104⟩) =
      some ⟨[116], [trxField, ⟨[97], .ints, 4, 4, true, false⟩, ⟨[98], .chars, 8, 4096, true, false⟩], [],
        [⟨[105], [[97]]⟩], 4104⟩ := by
  have made : Made [⟨[97], .ints, false, none, by decide, by decide⟩, ⟨[98], .texts, false, none, by decide, by decide⟩]
      ⟨[116], [trxField, ⟨[97], .ints, 4, 4, true, false⟩, ⟨[98], .chars, 8, 4096, true, false⟩], [], [], 4104⟩ :=
    @Made.init _ [116] _ (by decide +kernel)
  have indexed := @Made.addUniqueIndex _ _ [105] [⟨[97], .ints, 4, 4, true, false⟩] ⟨[105], [[97]]⟩ made
    (by simp) (by simp) (by decide +kernel)
  exact (deserialize_serialize_iff indexed).2 (by simp)

/-- `create table t (a text(10))`. -/
theorem TableMeta.deserialize_textLength :
    Made [⟨[97], .texts, false, some 10, by decide, by decide⟩]
        ⟨[116], [trxField, ⟨[97], .texts, 4, 10, true, false⟩], [], [], 14⟩ ∧
      deserialize (serialize ⟨[116], [trxField, ⟨[97], .texts, 4, 10, true, false⟩], [], [], 14⟩) = none := by
  refine ⟨@Made.init _ [116] _ (by decide +kernel), ?_⟩
  exact @deserialize_unnamed ⟨[97], .texts, 4, 10, true, false⟩ _ (by simp) (by simp [AttrType.Named])

end MiniOb.Catalog
