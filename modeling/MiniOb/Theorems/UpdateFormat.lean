import MiniOb.Theorems.RecordFormat

/-! # What an update writes

`RecordUpdater::make_record` copies the literal over the whole field and knows nothing of the null flag. What is read
behind the new record counts as zeros, as behind one of `make_record`. -/

namespace MiniOb
open Slots List FieldMeta

theorem encodeAll_append {before after : List FieldMeta} {vs ws : List Value} (h : before.length = vs.length) :
    encodeAll (before ++ after) (vs ++ ws) = encodeAll before vs ++ encodeAll after ws := by
  unfold encodeAll
  rw [zipWith_append h, flatten_append]

theorem Laid.split {before after : List FieldMeta} : ∀ {offset : Nat}, Laid offset (before ++ after) →
    Laid offset before ∧ Laid (offset + (before.map (·.len)).sum) after := by
  induction before with
  | nil =>
    intro offset laid
    exact ⟨trivial, laid⟩
  | cons f before ih =>
    intro offset laid
    obtain ⟨hoffset, room, laid⟩ := laid
    obtain ⟨hbefore, hafter⟩ := ih laid
    rw [Nat.add_assoc, ← sum_cons, ← map_cons] at hafter
    exact ⟨⟨hoffset, room, hbefore⟩, hafter⟩

theorem Laid.length_encodeAll {fields : List FieldMeta} : ∀ {offset : Nat} {values : List Value}, Laid offset fields →
    fields.length = values.length → (encodeAll fields values).length = (fields.map (·.len)).sum := by
  induction fields with
  | nil =>
    intro offset values _ _
    rfl
  | cons f fields ih =>
    intro offset values laid hlen
    cases values with
    | nil => cases hlen
    | cons v values =>
      obtain ⟨-, room, laid⟩ := laid
      rw [encodeAll_cons, length_append, length_encode room, ih laid (Nat.succ.inj hlen), map_cons, sum_cons]

theorem Laid.bounds {fields : List FieldMeta} {g : FieldMeta} (hg : g ∈ fields) : ∀ {offset : Nat}, Laid offset fields →
    offset ≤ g.offset ∧ g.offset + g.len ≤ offset + (fields.map (·.len)).sum := by
  induction fields with
  | nil => exact absurd hg not_mem_nil
  | cons f fields ih =>
    intro offset laid
    obtain ⟨hoffset, -, laid⟩ := laid
    rw [map_cons, sum_cons]
    rcases mem_cons.mp hg with rfl | hg
    · omega
    · have hrest := ih hg laid
      omega

namespace FieldMeta
variable {f g : FieldMeta} {v : Value}

theorem bytes_left {a x y : Bytes} (h : g.offset + g.len ≤ a.length) : g.bytes (a ++ x) = g.bytes (a ++ y) := by
  unfold bytes
  rw [drop_append_of_le_length (by omega), drop_append_of_le_length (by omega),
    take_append_of_le_length (by rw [length_drop]; omega), take_append_of_le_length (by rw [length_drop]; omega)]

theorem bytes_right {a b x : Bytes} (length : a.length = b.length) (h : a.length ≤ g.offset) :
    g.bytes (a ++ x) = g.bytes (b ++ x) := by
  obtain ⟨k, hk⟩ := Nat.exists_eq_add_of_le h
  unfold bytes
  rw [hk, ← drop_drop, drop_left, length, ← drop_drop, drop_left]

theorem bytes_middle {a x b : Bytes} (hoffset : g.offset = a.length) (hlen : g.len = x.length) :
    g.bytes (a ++ (x ++ b)) = x := by
  unfold bytes
  rw [hoffset, drop_left, hlen, take_left]

/-- Two contents of a field, up to the bytes behind the terminator of a string. -/
def Same (f : FieldMeta) (b b' : Bytes) : Prop :=
  b = b' ∨ (f.type = .chars ∧ b.take f.flagLen = b'.take f.flagLen ∧
    cString (b.drop f.flagLen) f.width = cString (b'.drop f.flagLen) f.width)

/-- The literal can be copied over the null flag: the field has none, or the literal begins with four zeros that make up
    the flag, and its bytes behind them are the value again. -/
def Flagless (f : FieldMeta) (v : Value) : Prop :=
  f.nullable = false ∨ ((∀ i < 4, v.data i = 0) ∧
    if f.type = .chars then f.width = 0 ∨ v.data 4 = 0 else ∀ i < f.width, v.data (i + 4) = v.data i)

theorem firstN_nullable (nullable : f.nullable = true) (room : f.nullable = true → 4 ≤ f.len) (a : Pointed) :
    firstN a f.len = firstN a 4 ++ firstN (fun i => a (i + 4)) f.width := by
  have hlen : f.len = 4 + f.width := by
    have := room nullable
    unfold width flagLen
    rw [if_pos nullable]
    omega
  rw [hlen]
  refine (take_append_drop 4 _).symm.trans ?_
  rw [firstN_take a (Nat.le_add_right _ _), firstN_drop a (Nat.le_add_right _ _), Nat.add_sub_cancel_left]
  simp only [Nat.add_comm 4]

theorem width_eq (nullable : f.nullable = true) : f.width = f.len - 4 := by
  unfold width flagLen
  rw [if_pos nullable]

theorem zeros_iff {a : Pointed} {n : Nat} : firstN a n = List.replicate n 0 ↔ ∀ i < n, a i = 0 := by
  rw [eq_replicate_iff]
  constructor
  · intro h i hi
    exact h.2 (a i) (mem_firstN.mpr ⟨i, hi, rfl⟩)
  · intro h
    refine ⟨firstN_length _ _, fun c hc => ?_⟩
    obtain ⟨i, hi, rfl⟩ := mem_firstN.mp hc
    exact h i hi

theorem firstN_inj_iff {a b : Pointed} {n : Nat} : firstN a n = firstN b n ↔ ∀ i < n, a i = b i := by
  refine ⟨fun h i hi => ?_, firstN_congr⟩
  rw [← getD_firstN a hi, ← getD_firstN b hi, h]

theorem eq_iff_take_drop {b b' : Bytes} (n : Nat) : b = b' ↔ b.take n = b'.take n ∧ b.drop n = b'.drop n := by
  refine ⟨fun h => h ▸ ⟨rfl, rfl⟩, fun h => ?_⟩
  rw [← take_append_drop n b, h.1, h.2, take_append_drop]

theorem cString_firstN_eq_nil_iff {a : Pointed} {n : Nat} : cString (firstN a n) n = [] ↔ n = 0 ∨ a 0 = 0 := by
  rw [cString_eq_nil_iff (firstN_length a n).le]
  cases n with
  | zero => exact ⟨fun _ => .inl rfl, fun _ => rfl⟩
  | succ n =>
    rw [headD_eq_head?_getD, head?_eq_getElem?, firstN_getElem?, if_pos (Nat.succ_pos n), Option.getD_some]
    exact ⟨.inr, fun h => h.resolve_left (Nat.succ_ne_zero n)⟩

theorem same_iff_flagless (room : f.nullable = true → 4 ≤ f.len) (nonnull : v.type ≠ .nulls) :
    f.Same (firstN v.data f.len) (f.encode v) ↔ f.Flagless v := by
  by_cases nullable : f.nullable = true
  · have hflag : f.flagLen = 4 := by rw [flagLen, if_pos nullable]
    have hcopy := firstN_nullable nullable room v.data
    have hencode := encode_value (f := f) nonnull
    rw [hflag] at hencode
    have htake : (firstN v.data f.len).take 4 = (f.encode v).take 4 ↔ ∀ i < 4, v.data i = 0 := by
      rw [hcopy, hencode, take_left' (firstN_length _ _), take_left' (length_replicate ..), zeros_iff]
    have hcopyDrop : (firstN v.data f.len).drop 4 = firstN (fun i => v.data (i + 4)) f.width := by
      rw [hcopy, drop_left' (firstN_length _ _)]
    have hencodeDrop : (f.encode v).drop 4 = firstN v.data f.width := by
      rw [hencode, drop_left' (length_replicate ..)]
    have hequal : firstN v.data f.len = f.encode v ↔ (∀ i < 4, v.data i = 0) ∧
        ∀ i < f.width, v.data (i + 4) = v.data i := by
      rw [eq_iff_take_drop 4, htake, hcopyDrop, hencodeDrop, firstN_inj_iff]
    have hplain : f.nullable ≠ false := by rw [nullable]; exact Bool.false_ne_true.symm
    unfold Same Flagless
    rw [or_iff_right hplain, hflag, hequal, htake, hcopyDrop, hencodeDrop]
    by_cases chars : f.type = .chars
    · rw [if_pos chars]
      constructor
      · rintro (⟨zeros, equal⟩ | ⟨-, zeros, equal⟩)
        · refine ⟨zeros, (Nat.eq_zero_or_pos f.width).imp_right fun hpos => ?_⟩
          rw [equal 0 hpos, zeros 0 (by decide)]
        · refine ⟨zeros, ?_⟩
          rw [cString_firstN_eq_nil_iff.mpr (.inr (zeros 0 (by decide)))] at equal
          exact cString_firstN_eq_nil_iff.mp equal
      · rintro ⟨zeros, empty⟩
        refine .inr ⟨chars, zeros, ?_⟩
        rw [cString_firstN_eq_nil_iff.mpr (.inr (zeros 0 (by decide)))]
        exact cString_firstN_eq_nil_iff.mpr empty
    · rw [if_neg chars]
      exact ⟨fun h => h.elim id fun h => absurd h.1 chars, .inl⟩
  · have hplain : f.nullable = false := Bool.eq_false_of_not_eq_true nullable
    refine ⟨fun _ => .inl hplain, fun _ => .inl ?_⟩
    unfold encode
    rw [if_neg nullable]

theorem getD_headD (b : Bytes) : b.headD 0 = b.getD 0 0 := by
  cases b with
  | nil => rfl
  | cons c b => rfl

theorem delimited_congr {rest rest' : Bytes} (h : ∀ i < 4, rest.getD i 0 = rest'.getD i 0) :
    f.Delimited v rest ↔ f.Delimited v rest' := by
  unfold Delimited
  cases f.type with
  | chars =>
    dsimp only
    rw [getD_headD, getD_headD, h 0 (by decide)]
  | ints | floats | date =>
    dsimp only
    refine forall_congr' fun i => imp_congr_right fun _ => imp_congr_right fun hi => ?_
    rw [h (i - f.width) (by omega)]
  | undefined | texts | nulls => rfl

/-- What the updater writes for such a literal is an encoding, if not of the literal then of one that reads the same. -/
theorem Flagless.encodes (flagless : f.Flagless v) (room : f.nullable = true → 4 ≤ f.len) (nonnull : v.type ≠ .nulls) :
    ∃ w : Value, w.type = v.type ∧ firstN v.data f.len = f.encode w ∧ f.shown w = f.shown v ∧
      (∀ rest, f.Delimited w rest ↔ f.Delimited v rest) ∧
      ∀ rest : Bytes, ∀ i < 4, (f.encode w ++ rest).getD i 0 = (f.encode v ++ rest).getD i 0 := by
  rcases (same_iff_flagless room nonnull).mpr flagless with equal | ⟨chars, -⟩
  · exact ⟨v, rfl, equal, rfl, fun _ => Iff.rfl, fun _ _ _ => rfl⟩
  · by_cases nullable : f.nullable = true
    · obtain ⟨zeros, empty⟩ := flagless.resolve_left (by rw [nullable]; exact Bool.false_ne_true.symm)
      rw [if_pos chars] at empty
      have hflag : f.flagLen = 4 := by rw [flagLen, if_pos nullable]
      have hcopy := firstN_nullable nullable room v.data
      have hencode : f.encode { v with data := fun i => v.data (i + 4) } =
          List.replicate f.flagLen 0 ++ firstN (fun i => v.data (i + 4)) f.width := encode_value nonnull
      refine ⟨{ v with data := fun i => v.data (i + 4) }, rfl, ?_, ?_, fun rest => ?_, fun rest i hi => ?_⟩
      · rw [hcopy, hencode, hflag, zeros_iff.mpr zeros]
      · have hshifted : cString (firstN (fun i => v.data (i + 4)) f.width) f.width = [] :=
          cString_firstN_eq_nil_iff.mpr empty
        have hliteral : cString (firstN v.data f.width) f.width = [] :=
          cString_firstN_eq_nil_iff.mpr (.inr (zeros 0 (by decide)))
        unfold shown
        rw [if_neg nonnull, if_neg nonnull, chars]
        dsimp only
        rw [hshifted, hliteral]
      · unfold Delimited
        rw [chars]
        dsimp only
        refine or_congr_left ?_
        rcases empty with hw | hzero
        · rw [hw]
          rfl
        · by_cases hw : f.width = 0
          · rw [hw]
            rfl
          · have hpos := Nat.pos_of_ne_zero hw
            exact ⟨fun _ => mem_firstN.mpr ⟨0, hpos, zeros 0 (by decide)⟩, fun _ => mem_firstN.mpr ⟨0, hpos, hzero⟩⟩
      · rw [hencode, encode_value nonnull, hflag, append_assoc, append_assoc,
          getD_append _ _ _ _ (by rw [length_replicate]; exact hi),
          getD_append _ _ _ _ (by rw [length_replicate]; exact hi)]
    · refine ⟨v, rfl, ?_, rfl, fun _ => Iff.rfl, fun _ _ _ => rfl⟩
      unfold encode
      rw [if_neg nullable]

end FieldMeta

theorem FieldMeta.stored_of_update {f : FieldMeta} {v stored : Value} (plain : f.Plain)
    (accepted : (f.typeMatch v).1 = true) (validated : (f.typeMatch v).2.validate = .ok stored) :
    v.type ≠ .nulls ∧ stored = f.stored v := by
  have nonnull : v.type ≠ .nulls := by
    intro null
    unfold typeMatch at accepted
    rw [null] at accepted
    rcases plain with h | h | h | h <;> simp [h] at accepted
  have hcheck : f.checkValue v = .ok stored := by
    unfold checkValue
    rw [if_neg (fun h => nonnull h.2), if_neg (fun h => Bool.false_ne_true (h.1.symm.trans accepted)), validated]
  have takes : f.Takes v := by
    by_contra refused
    obtain ⟨rc, herror⟩ := checkValue_refused refused
    cases hcheck.symm.trans herror
  exact ⟨nonnull, Except.ok.inj (hcheck.symm.trans (checkValue_takes takes))⟩

section Row
variable {before after : List FieldMeta} {f : FieldMeta} {vs ws : List Value} {v w : Value}

theorem undisturbed_replace (type : w.type = v.type) (delimited : ∀ rest, f.Delimited w rest ↔ f.Delimited v rest)
    (start : ∀ rest : Bytes, ∀ i < 4, (f.encode w ++ rest).getD i 0 = (f.encode v ++ rest).getD i 0) :
    before.length = vs.length →
    (Undisturbed (before ++ f :: after) (vs ++ w :: ws) ↔ Undisturbed (before ++ f :: after) (vs ++ v :: ws)) := by
  induction before generalizing vs with
  | nil =>
    intro hlen
    rw [length_eq_zero_iff.mp hlen.symm]
    exact and_congr_left' (or_congr (type ▸ Iff.rfl) (delimited _))
  | cons g before ih =>
    intro hlen
    cases vs with
    | nil => cases hlen
    | cons u vs =>
      have hlen := Nat.succ.inj hlen
      rw [cons_append, cons_append, cons_append]
      refine and_congr (or_congr_right (delimited_congr fun i hi => ?_)) (ih hlen)
      rw [encodeAll_append hlen, encodeAll_append hlen, encodeAll_cons, encodeAll_cons]
      rcases Nat.lt_or_ge i (encodeAll before vs).length with hi' | hi'
      · rw [getD_append _ _ _ _ hi', getD_append _ _ _ _ hi']
      · rw [getD_append_right _ _ _ _ hi', getD_append_right _ _ _ _ hi']
        exact start _ _ (by omega)

theorem forall₂_replace {R : FieldMeta → Value → Prop} (hw : R f w) : before.length = vs.length →
    List.Forall₂ R (before ++ f :: after) (vs ++ v :: ws) → List.Forall₂ R (before ++ f :: after) (vs ++ w :: ws) := by
  induction before generalizing vs with
  | nil =>
    intro hlen h
    rw [length_eq_zero_iff.mp hlen.symm] at h ⊢
    obtain ⟨-, tail⟩ := forall₂_cons.mp h
    exact .cons hw tail
  | cons g before ih =>
    intro hlen h
    cases vs with
    | nil => cases hlen
    | cons u vs =>
      obtain ⟨head, tail⟩ := forall₂_cons.mp h
      exact .cons head (ih (Nat.succ.inj hlen) tail)

def SameRecord (fields : List FieldMeta) (data data' : Bytes) : Prop :=
  data.length = data'.length ∧ ∀ g ∈ fields, g.Same (g.bytes data) (g.bytes data')

theorem sameRecord_iff (laid : Laid 0 (before ++ f :: after)) {a b x y : Bytes}
    (place : a.length = (before.map (·.len)).sum) (hx : x.length = f.len) (hy : y.length = f.len) :
    SameRecord (before ++ f :: after) (a ++ (x ++ b)) (a ++ (y ++ b)) ↔ f.Same x y := by
  obtain ⟨laidBefore, hoffset, -, laidAfter⟩ := laid.split
  rw [Nat.zero_add] at hoffset laidAfter
  have hfield : f.bytes (a ++ (x ++ b)) = x ∧ f.bytes (a ++ (y ++ b)) = y :=
    ⟨bytes_middle (hoffset.trans place.symm) hx.symm, bytes_middle (hoffset.trans place.symm) hy.symm⟩
  constructor
  · intro same
    have hsame := same.2 f (mem_append_right _ mem_cons_self)
    rwa [hfield.1, hfield.2] at hsame
  · intro same
    refine ⟨by simp only [length_append, hx, hy], fun g hg => ?_⟩
    rcases mem_append.mp hg with hg | hg
    · have hbounds := laidBefore.bounds hg
      exact .inl (bytes_left (by omega))
    · rcases mem_cons.mp hg with rfl | hg
      · rwa [hfield.1, hfield.2]
      · have hbounds := laidAfter.bounds hg
        rw [← append_assoc, ← append_assoc]
        refine .inl (bytes_right ?_ ?_)
        · rw [length_append, length_append, hx, hy]
        · rw [length_append, hx]
          omega

theorem storedAll_append (h : before.length = vs.length) :
    storedAll (before ++ f :: after) (vs ++ v :: ws) = storedAll before vs ++ f.stored v :: storedAll after ws :=
  zipWith_append h

end Row

/-- The record of an updated row is that of `make_record`, and reads back as the row with the new value, if and only if
    the literal passes over the null flag of its field and the row is one that `make_record` writes undisturbed. -/
theorem update_agrees_iff {defs : List AttrDef} {t t' : Table} {before after : List FieldMeta} {f : FieldMeta}
    {vs ws : List Value} {old v stored : Value} {selects selects' : FieldMeta → UniqueSelect} {data data' : Bytes}
    (created : createTable defs = .ok t.fields) (plain : ∀ g ∈ t.fields, g.Plain)
    (place : t.fields = before ++ f :: after) (row : before.length = vs.length)
    (made : t.makeRecord (vs ++ old :: ws) selects = .ok data)
    (accepted : (f.typeMatch v).1 = true) (validated : (f.typeMatch v).2.validate = .ok stored)
    (fields : t'.fields = t.fields) (inserted : t'.makeRecord (vs ++ v :: ws) selects' = .ok data') :
    (SameRecord t.fields (f.overwrite data stored) data' ∧
      t.fields.map (fun g => g.tupleValue (f.overwrite data stored)) = List.zipWith meaning t.fields (vs ++ v :: ws)) ↔
      f.Flagless stored ∧ Undisturbed t.fields (storedAll t.fields (vs ++ v :: ws)) := by
  have laid := createTable_laid created
  obtain ⟨-, hdata⟩ := makeRecord_encodes laid made
  obtain ⟨takes, hdata'⟩ := makeRecord_encodes (fields ▸ laid) inserted
  rw [fields] at takes hdata'
  obtain ⟨nullable, shown⟩ := stored_row takes
  rw [← shown]
  have hplain : f.Plain := plain f (place ▸ mem_append_right _ mem_cons_self)
  obtain ⟨nonnull, rfl⟩ := stored_of_update hplain accepted validated
  have nonnull' : (f.stored v).type ≠ .nulls := fun null => nonnull (stored_null_iff.mp null)
  rw [place] at laid plain nullable hdata hdata' ⊢
  obtain ⟨laidBefore, hoffset, room, -⟩ := laid.split
  rw [Nat.zero_add] at hoffset
  have hstoredAll : before.length = (storedAll before vs).length := by
    rw [storedAll, length_zipWith, ← row, Nat.min_self]
  have hplace := laidBefore.length_encodeAll hstoredAll
  rw [storedAll_append row, encodeAll_append hstoredAll, encodeAll_cons] at hdata hdata'
  rw [storedAll_append row] at nullable ⊢
  -- The updater replaces the field's bytes by the literal's.
  have hover : f.overwrite data (f.stored v) =
      encodeAll before (storedAll before vs) ++ (firstN (f.stored v).data f.len ++ encodeAll after
          (storedAll after ws)) := by
    unfold overwrite
    rw [hdata, hoffset, ← hplace, writeAt_append, append_assoc]
    rw [firstN_length, length_encode room]
  rw [hover, hdata', sameRecord_iff laid hplace (firstN_length _ _) (length_encode room),
    same_iff_flagless room nonnull']
  refine and_congr_right fun flagless => ?_
  obtain ⟨w, type, hencode, hshown, delimited, start⟩ := flagless.encodes room nonnull'
  have hshownAll : List.zipWith FieldMeta.shown (before ++ f :: after)
    (storedAll before vs ++ f.stored v :: storedAll after ws) =
      List.zipWith FieldMeta.shown (before ++ f :: after) (storedAll before vs ++ w :: storedAll after ws) := by
    rw [zipWith_append hstoredAll, zipWith_append hstoredAll, zipWith_cons_cons, zipWith_cons_cons, hshown]
  have hnullable : List.Forall₂ (fun g (u : Value) => u.type = .nulls → g.nullable = true) (before ++ f :: after)
      (storedAll before vs ++ w :: storedAll after ws) :=
    forall₂_replace (fun null => absurd (type.symm.trans null) nonnull') hstoredAll nullable
  rw [hencode, hshownAll, ← encodeAll_cons, ← encodeAll_append hstoredAll,
    ← undisturbed_replace type delimited start hstoredAll]
  exact read_row_iff [] laid plain hnullable

theorem update_agrees_plain :
    SameRecord textAndNumber [97, 0, 66, 0, 0, 0] [97, 0, 66, 0, 0, 0] ∧
      textAndNumber.map (fun f => f.tupleValue [97, 0, 66, 0, 0, 0]) = [.string [97], .int 66] := by
  have made : (emptyTable textAndNumber).makeRecord ([textLiteral [97]] ++ numberLiteral [65] :: [])
    (fun _ => .nothing) =
      .ok [97, 0, 65, 0, 0, 0] := by rfl
  have inserted : (emptyTable textAndNumber).makeRecord ([textLiteral [97]] ++ numberLiteral [66] :: [])
    (fun _ => .nothing) =
      .ok [97, 0, 66, 0, 0, 0] := by rfl
  refine (update_agrees_iff (t := emptyTable textAndNumber) (f := ⟨.ints, 2, 4, false⟩) textAndNumber_created
    textAndNumber_plain (singleton_append ..).symm rfl made rfl rfl rfl inserted).mpr ⟨.inl rfl, ?_⟩
  exact ⟨.inr (.inl (by decide)), .inr fun i hi hi' => absurd hi (Nat.not_le.mpr hi'), trivial⟩

def nullableNumber : List FieldMeta := [⟨.ints, 0, 8, true⟩]

/-- `UPDATE … SET d = 7` on the row `(5)` of a nullable column leaves NULL there. -/
theorem update_leaves_null :
    createTable [⟨.ints, true, none⟩] = .ok nullableNumber ∧
      (emptyTable nullableNumber).makeRecord [numberLiteral [5]] (fun _ => .nothing) = .ok [0, 0, 0, 0, 5, 0, 0, 0] ∧
      (emptyTable nullableNumber).makeRecord [numberLiteral [7]] (fun _ => .nothing) = .ok [0, 0, 0, 0, 7, 0, 0, 0] ∧
      overwrite ⟨.ints, 0, 8, true⟩ [0, 0, 0, 0, 5, 0, 0, 0] (numberLiteral [7]) = [7, 0, 0, 0, 0, 0, 0, 0] ∧
      ¬SameRecord nullableNumber [7, 0, 0, 0, 0, 0, 0, 0] [0, 0, 0, 0, 7, 0, 0, 0] ∧
      nullableNumber.map (fun f => f.tupleValue [7, 0, 0, 0, 0, 0, 0, 0]) = [.null] := by
  refine ⟨by decide, by rfl, by rfl, by decide, fun same => ?_, by decide⟩
  rcases same.2 ⟨.ints, 0, 8, true⟩ mem_cons_self with equal | ⟨chars, -⟩
  · exact absurd equal (by decide)
  · cases chars

end MiniOb
