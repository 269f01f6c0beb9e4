import MiniOb.Table.Create
import MiniOb.Table.Shared
import MiniOb.Theorems.FailedInsert

/-! # The format of a record

A record is the encodings of its values, one behind the other. The decoder does not know where a field ends: a string
that fills its column runs on into the next one. -/

namespace MiniOb
open FieldMeta
variable {b rest s : Bytes} {n : Nat} {fields : List FieldMeta} {values : List Value}
  {selects : FieldMeta → UniqueSelect}

open Slots List

theorem readUInt_eq_iff {b' : Bytes} : readUInt b = readUInt b' ↔ ∀ i < 4, b.getD i 0 = b'.getD i 0 := by
  constructor
  · intro h i hi
    have bound : ∀ c : UInt8, c.toNat < 256 := UInt8.toNat_lt
    have h0 := bound (b.getD 0 0)
    have h1 := bound (b.getD 1 0)
    have h2 := bound (b.getD 2 0)
    have h3 := bound (b.getD 3 0)
    have h0' := bound (b'.getD 0 0)
    have h1' := bound (b'.getD 1 0)
    have h2' := bound (b'.getD 2 0)
    have h3' := bound (b'.getD 3 0)
    unfold readUInt at h
    apply UInt8.toNat_inj.mp
    obtain rfl | rfl | rfl | rfl : i = 0 ∨ i = 1 ∨ i = 2 ∨ i = 3 := by omega
    · omega
    · omega
    · omega
    · omega
  · intro h
    unfold readUInt
    rw [h 0 (by decide), h 1 (by decide), h 2 (by decide), h 3 (by decide)]

theorem readInt_eq_iff {b' : Bytes} : readInt b = readInt b' ↔ readUInt b = readUInt b' := by
  have hb := readUInt_lt b
  have hb' := readUInt_lt b'
  unfold readInt
  split
  · split
    · exact Int.ofNat_inj
    · exact ⟨fun h => by omega, fun h => by omega⟩
  · split
    · exact ⟨fun h => by omega, fun h => by omega⟩
    · exact ⟨fun h => by omega, fun h => by omega⟩

theorem getD_firstN (a : Nat → UInt8) {i : Nat} (h : i < n) : (firstN a n).getD i 0 = a i := by
  rw [getD_eq_getElem?_getD, firstN_getElem?, if_pos h]
  rfl

theorem readUInt_firstN_append_iff {a : Nat → UInt8} {w : Nat} :
    readUInt (firstN a w ++ rest) = readUInt (firstN a 4) ↔ ∀ i, w ≤ i → i < 4 → rest.getD (i - w) 0 = a i := by
  rw [readUInt_eq_iff]
  constructor
  · intro h i hw hi
    have hbyte := h i hi
    rw [getD_firstN a hi, getD_append_right _ _ _ _ (by rw [firstN_length]; exact hw), firstN_length] at hbyte
    exact hbyte
  · intro h i hi
    rw [getD_firstN a hi]
    rcases Nat.lt_or_ge i w with hw | hw
    · rw [getD_append _ _ _ _ (by rw [firstN_length]; exact hw), getD_firstN a hw]
    · rw [getD_append_right _ _ _ _ (by rw [firstN_length]; exact hw), firstN_length]
      exact h i hw hi

theorem cString_append (open_ : 0 ∉ s) : cString (s ++ rest) (s.length + n) = s ++ cString rest n := by
  induction s with
  | nil => rw [nil_append, length_nil, Nat.zero_add, nil_append]
  | cons c s ih =>
    obtain ⟨hc, hs⟩ := not_or.mp (mt mem_cons.mpr open_)
    rw [length_cons, Nat.add_right_comm, cons_append, cString, headD_cons, if_neg (Ne.symm hc), tail_cons, ih hs]
    rfl

theorem cString_append_terminated (rest : Bytes) (n : Nat) (terminated : 0 ∈ s) :
    cString (s ++ rest) (s.length + n) = cString s s.length := by
  induction s with
  | nil => exact absurd terminated not_mem_nil
  | cons c s ih =>
    rw [length_cons, Nat.add_right_comm, cons_append, cString, cString, headD_cons, headD_cons]
    by_cases hc : c = 0
    · rw [if_pos hc, if_pos hc]
    · have hs : 0 ∈ s := (mem_cons.mp terminated).resolve_left (Ne.symm hc)
      rw [if_neg hc, if_neg hc, tail_cons, tail_cons, ih hs]

theorem cString_eq_nil_iff (h : b.length ≤ n) : cString b n = [] ↔ b.headD 0 = 0 := by
  cases n with
  | zero =>
    rw [length_eq_zero_iff.mp (Nat.le_zero.mp h)]
    exact ⟨fun _ => rfl, fun _ => rfl⟩
  | succ n =>
    rw [cString]
    split
    · exact ⟨fun _ => ‹_›, fun _ => rfl⟩
    · exact ⟨fun h => absurd h (cons_ne_nil _ _), fun h => absurd h ‹_›⟩

theorem cString_append_eq_iff :
    cString (s ++ rest) (s ++ rest).length = cString s s.length ↔ 0 ∈ s ∨ rest.headD 0 = 0 := by
  rw [length_append]
  by_cases hs : 0 ∈ s
  · exact ⟨fun _ => .inl hs, fun _ => cString_append_terminated rest _ hs⟩
  · have hself : cString s s.length = s ++ [] := by
      have h : cString (s ++ []) (s.length + 0) = s ++ cString [] 0 := cString_append hs
      rwa [append_nil, Nat.add_zero] at h
    rw [cString_append hs, hself, append_right_inj, cString_eq_nil_iff le_rfl, or_iff_right hs]

namespace FieldMeta

section
variable (f : FieldMeta)

def flagLen : Nat := if f.nullable then 4 else 0

def width : Nat := f.len - f.flagLen

def encode (v : Value) : Bytes :=
  if f.nullable then
    if v.type = .nulls then [1, 0, 0, 0] ++ List.replicate (f.len - 4) 0 else [0, 0, 0, 0] ++ firstN v.data (f.len - 4)
  else firstN v.data f.len

def read (b : Bytes) : TupleValue :=
  if f.nullable = true ∧ readInt b ≠ 0 then .null
  else match f.type with
    | .ints => .int (readInt (b.drop f.flagLen))
    | .floats => .float (readUInt (b.drop f.flagLen))
    | .chars => .string (cString (b.drop f.flagLen) (b.drop f.flagLen).length)
    | .date => .date (readUInt (b.drop f.flagLen))
    | .undefined | .texts | .nulls => .null

/-- The value that a field should show: a number as it was given, a string cut to the column. -/
def shown (v : Value) : TupleValue :=
  if v.type = .nulls then .null
  else match f.type with
    | .ints => .int (readInt (firstN v.data 4))
    | .floats => .float (readUInt (firstN v.data 4))
    | .chars => .string (cString (firstN v.data f.width) f.width)
    | .date => .date (readUInt (firstN v.data 4))
    | .undefined | .texts | .nulls => .null

/-- The decoder stays in the field: a string ends in its column or a zero byte follows it, and the bytes that follow a
    column narrower than a number happen to be those of the number. -/
def Delimited (v : Value) (rest : Bytes) : Prop :=
  match f.type with
  | .chars => 0 ∈ firstN v.data f.width ∨ rest.headD 0 = 0
  | .ints | .floats | .date => ∀ i, f.width ≤ i → i < 4 → rest.getD (i - f.width) 0 = v.data i
  | .undefined | .texts | .nulls => True

def Plain : Prop := f.type = .ints ∨ f.type = .floats ∨ f.type = .chars ∨ f.type = .date

end

variable {f : FieldMeta} {v : Value} {rest : Bytes}

theorem write_eq (data : Bytes) : f.write data v = writeAt data f.offset (f.encode v) := by
  unfold write encode
  split
  · split
    · rfl
    · rfl
  · rfl

theorem length_encode (room : f.nullable = true → 4 ≤ f.len) : (f.encode v).length = f.len := by
  unfold encode
  split
  · have hroom := room ‹_›
    split
    · simp only [length_append, length_cons, length_nil, length_replicate]
      omega
    · simp only [length_append, length_cons, length_nil, firstN_length]
      omega
  · exact firstN_length _ _

theorem tupleValue_eq (data : Bytes) : f.tupleValue data = f.read (data.drop f.offset) := by
  have hstart : (if f.nullable = true then f.offset + 4 else f.offset) = f.offset + f.flagLen := by
    unfold flagLen
    split
    · rfl
    · rfl
  have hdrop : data.drop (f.offset + f.flagLen) = (data.drop f.offset).drop f.flagLen := drop_drop.symm
  unfold tupleValue read
  cases f.type <;> simp only [hstart, hdrop]

theorem encode_value (nonnull : v.type ≠ .nulls) :
    f.encode v = List.replicate f.flagLen 0 ++ firstN v.data f.width := by
  unfold encode width flagLen
  cases f.nullable with
  | true => simp [if_neg nonnull]
  | false => simp

theorem read_null (nullable : f.nullable = true) (null : v.type = .nulls) : f.read (f.encode v ++ rest) = .null := by
  unfold read encode
  have hflag : readInt ([1, 0, 0, 0] ++ List.replicate (f.len - 4) 0 ++ rest) = 1 := rfl
  rw [if_pos nullable, if_pos null, if_pos ⟨nullable, by rw [hflag]; exact Int.one_ne_zero⟩]

theorem read_value (nonnull : v.type ≠ .nulls) :
    f.read (f.encode v ++ rest) = match f.type with
      | .ints => .int (readInt (firstN v.data f.width ++ rest))
      | .floats => .float (readUInt (firstN v.data f.width ++ rest))
      | .chars => .string (cString (firstN v.data f.width ++ rest) (firstN v.data f.width ++ rest).length)
      | .date => .date (readUInt (firstN v.data f.width ++ rest))
      | .undefined | .texts | .nulls => .null := by
  have hdrop : (f.encode v ++ rest).drop f.flagLen = firstN v.data f.width ++ rest := by
    rw [encode_value nonnull, append_assoc, drop_left' (length_replicate ..)]
  have hflag : ¬(f.nullable = true ∧ readInt (f.encode v ++ rest) ≠ 0) := by
    rintro ⟨nullable, hflag⟩
    rw [encode_value nonnull, flagLen, if_pos nullable] at hflag
    exact hflag rfl
  unfold read
  rw [if_neg hflag, hdrop]

theorem read_encode_iff (plain : f.Plain) (null : v.type = .nulls → f.nullable = true) :
    f.read (f.encode v ++ rest) = f.shown v ↔ v.type = .nulls ∨ f.Delimited v rest := by
  by_cases hnull : v.type = .nulls
  · rw [read_null (null hnull) hnull, shown, if_pos hnull]
    exact ⟨fun _ => .inl hnull, fun _ => rfl⟩
  · rw [read_value hnull, shown, if_neg hnull, or_iff_right hnull, Delimited]
    rcases plain with h | h | h | h
    · rw [h]
      dsimp only
      rw [TupleValue.int.injEq, readInt_eq_iff, readUInt_firstN_append_iff]
    · rw [h]
      dsimp only
      rw [TupleValue.float.injEq, readUInt_firstN_append_iff]
    · rw [h]
      dsimp only
      have hlength : cString (firstN v.data f.width) f.width = cString (firstN v.data f.width)
          (firstN v.data f.width).length := by
        rw [firstN_length]
      rw [TupleValue.string.injEq, hlength, cString_append_eq_iff]
    · rw [h]
      dsimp only
      rw [TupleValue.date.injEq, readUInt_firstN_append_iff]

end FieldMeta

namespace FieldMeta
variable {f : FieldMeta} {v : Value}

/-- The value that a row has in a field: the day number of a date is that of its text. -/
def meaning (f : FieldMeta) (v : Value) : TupleValue :=
  if v.type = .nulls then .null
  else match f.type with
    | .ints => .int (readInt (firstN v.data 4))
    | .floats => .float (readUInt (firstN v.data 4))
    | .chars => .string (cString (firstN v.data f.width) f.width)
    | .date => .date (readUInt (v.date.getD []))
    | .undefined | .texts | .nulls => .null

theorem stored_null_iff : (f.stored v).type = .nulls ↔ v.type = .nulls := by
  unfold stored
  split
  · exact ⟨nofun, fun null => absurd null (‹_ ∧ _›).2⟩
  · rfl

theorem Takes.nullable (h : f.Takes v) (null : (f.stored v).type = .nulls) : f.nullable = true :=
  h.elim And.left fun h => absurd (stored_null_iff.mp null) h.1

theorem shown_stored : f.shown (f.stored v) = f.meaning v := by
  unfold shown meaning
  by_cases null : v.type = .nulls
  · rw [if_pos (stored_null_iff.mpr null), if_pos null]
  · rw [if_neg (fun h => null (stored_null_iff.mp h)), if_neg null]
    by_cases date : f.type = .date
    · have hstored : f.stored v =
          { v with type := .date, data := fun i => if i < 4 then (v.date.getD []).getD i 0 else v.data i } :=
        if_pos ⟨date, null⟩
      rw [hstored, date]
      exact congrArg TupleValue.date (readUInt_eq_iff.mpr fun i hi => (getD_firstN _ hi).trans (if_pos hi))
    · have hstored : f.stored v = v := if_neg fun h => date h.1
      rw [hstored]
      cases htype : f.type with
      | date => exact absurd htype date
      | ints | floats | chars | undefined | texts | nulls => rfl

end FieldMeta

def Laid : Nat → List FieldMeta → Prop
  | _, [] => True
  | offset, f :: fields => f.offset = offset ∧ (f.nullable = true → 4 ≤ f.len) ∧ Laid (offset + f.len) fields

theorem AttrDef.info_length (d : AttrDef) :
    d.info.nullable = d.nullable ∧ ∃ width, d.info.length = width + if d.nullable then 4 else 0 := by
  unfold info
  dsimp only
  cases d.number with
  | some number => exact ⟨rfl, number, rfl⟩
  | none =>
    by_cases htext : d.type = .texts
    · rw [if_pos htext]
      exact ⟨rfl, 4096, rfl⟩
    · rw [if_neg htext]
      exact ⟨rfl, 4, rfl⟩

theorem initFields_laid {attributes : List AttrInfo} (room : ∀ a ∈ attributes, a.nullable = true → 4 ≤ a.length) :
    ∀ {offset : Nat} {fields : List FieldMeta}, initFields offset attributes = .ok fields → Laid offset fields := by
  induction attributes with
  | nil =>
    intro offset fields h
    cases h
    trivial
  | cons a attributes ih =>
    intro offset fields h
    rw [initFields] at h
    split at h
    · cases h
    · cases hrest : initFields (offset + a.length) attributes with
      | error rc => rw [hrest] at h; cases h
      | ok rest =>
        rw [hrest] at h
        cases h
        exact ⟨rfl, room a mem_cons_self, ih (fun b hb => room b (mem_cons_of_mem a hb)) hrest⟩

theorem createTable_laid {defs : List AttrDef} (h : createTable defs = .ok fields) : Laid 0 fields := by
  unfold createTable TableMeta.init at h
  split at h
  · cases h
  · refine initFields_laid (fun a ha nullable => ?_) h
    obtain ⟨d, -, rfl⟩ := mem_map.mp ha
    obtain ⟨hnullable, width, hlength⟩ := d.info_length
    rw [hlength, if_pos (hnullable ▸ nullable)]
    exact Nat.le_add_left _ _

def encodeAll (fields : List FieldMeta) (values : List Value) : Bytes := (List.zipWith encode fields values).flatten

theorem encodeAll_cons (f : FieldMeta) (fields : List FieldMeta) (v : Value) (values : List Value) :
    encodeAll (f :: fields) (v :: values) = f.encode v ++ encodeAll fields values := rfl

theorem writeAt_append {pre mid post bytes : Bytes} (h : bytes.length = mid.length) :
    writeAt (pre ++ (mid ++ post)) pre.length bytes = pre ++ bytes ++ post := by
  unfold writeAt
  rw [take_left, h, ← drop_drop, drop_left, drop_left]

theorem foldl_write : ∀ (pre : Bytes) {values : List Value}, Laid pre.length fields →
    fields.length = values.length →
    (fields.zip values).foldl (fun data (f, v) => f.write data v) (pre ++ List.replicate (fields.map (·.len)).sum 0) =
      pre ++ encodeAll fields values := by
  induction fields with
  | nil =>
    intro pre values _ _
    rw [zip_nil_left, foldl_nil]
    rfl
  | cons f fields ih =>
    intro pre values laid hlen
    cases values with
    | nil => cases hlen
    | cons v values =>
      obtain ⟨hoffset, room, laid⟩ := laid
      have henc := length_encode (v := v) room
      rw [zip_cons_cons, foldl_cons, map_cons, sum_cons, replicate_add, encodeAll_cons]
      dsimp only
      rw [write_eq, hoffset, writeAt_append (henc.trans (length_replicate ..).symm), ← append_assoc]
      refine ih _ ?_ (Nat.succ.inj hlen)
      rwa [length_append, henc]

def storedAll (fields : List FieldMeta) (values : List Value) : List Value := List.zipWith stored fields values

theorem makeRecord_taken {t : Table} (laid : Laid 0 t.fields) (takes : List.Forall₂ FieldMeta.Takes t.fields values) :
    t.makeRecord values selects = if t.findIfExistUniqueRecord (storedAll t.fields values) selects then
      .error .schemaIndexExist else .ok (encodeAll t.fields (storedAll t.fields values)) := by
  obtain ⟨hlen, taken⟩ := forall₂_iff_zip.mp takes
  have hstored : (t.fields.zip values).map (fun p => p.1.stored p.2) = storedAll t.fields values :=
    map_zip_eq_zipWith ..
  have hlength : t.fields.length = (storedAll t.fields values).length := by
    rw [storedAll, length_zipWith, ← hlen, Nat.min_self]
  have hcopy := foldl_write [] laid hlength
  rw [nil_append, nil_append] at hcopy
  unfold Table.makeRecord
  rw [if_neg (not_not.mpr hlen.symm), mapM_checkValue_ok fun p hp => taken hp, hstored, ← hcopy]
  rfl

theorem makeRecord_encodes {t : Table} {data : Bytes} (laid : Laid 0 t.fields)
    (h : t.makeRecord values selects = .ok data) :
    List.Forall₂ FieldMeta.Takes t.fields values ∧ data = encodeAll t.fields (storedAll t.fields values) := by
  have takes : List.Forall₂ FieldMeta.Takes t.fields values := by
    unfold Table.makeRecord at h
    split at h
    · cases h
    rename_i hlen
    refine forall₂_iff_zip.mpr ⟨(not_not.mp hlen).symm, fun {f v} hp => ?_⟩
    by_contra refused
    obtain ⟨rc, herror⟩ := mapM_checkValue_error ⟨(f, v), hp, refused⟩
    rw [herror] at h
    cases h
  rw [makeRecord_taken laid takes] at h
  split at h
  · cases h
  · cases h
    exact ⟨takes, rfl⟩

def Undisturbed : List FieldMeta → List Value → Prop
  | f :: fields, v :: values => (v.type = .nulls ∨ f.Delimited v (encodeAll fields values)) ∧ Undisturbed fields values
  | _, _ => True

theorem read_row_iff : ∀ (pre : Bytes) {stored : List Value}, Laid pre.length fields →
    (∀ f ∈ fields, f.Plain) → List.Forall₂ (fun f v => v.type = .nulls → f.nullable = true) fields stored →
    (fields.map (fun f => f.tupleValue (pre ++ encodeAll fields stored)) = List.zipWith shown fields stored ↔
      Undisturbed fields stored) := by
  induction fields with
  | nil =>
    intro pre stored _ _ _
    exact ⟨fun _ => trivial, fun _ => rfl⟩
  | cons f fields ih =>
    intro pre stored laid plain nullable
    obtain ⟨hoffset, room, laid⟩ := laid
    cases nullable with
    | @cons _ v _ stored head tail =>
      have hlaid : Laid (pre ++ f.encode v).length fields := by
        rwa [length_append, length_encode room]
      have hrest := ih _ hlaid (fun g hg => plain g (mem_cons_of_mem f hg)) tail
      rw [encodeAll_cons, map_cons, zipWith_cons_cons, cons_eq_cons]
      refine and_congr ?_ ?_
      · rw [tupleValue_eq, hoffset, drop_left]
        exact read_encode_iff (plain f mem_cons_self) head
      · rw [← append_assoc]
        exact hrest

theorem stored_row (takes : List.Forall₂ FieldMeta.Takes fields values) :
    List.Forall₂ (fun f v => v.type = .nulls → f.nullable = true) fields (storedAll fields values) ∧
      List.zipWith shown fields (storedAll fields values) = List.zipWith meaning fields values := by
  induction takes with
  | nil => exact ⟨.nil, rfl⟩
  | cons head _ ih =>
    rw [storedAll, zipWith_cons_cons, zipWith_cons_cons, zipWith_cons_cons, shown_stored]
    exact ⟨.cons head.nullable ih.1, congrArg (List.cons _) ih.2⟩

/-- The record of a row reads back as the row if and only if every string ends in its column or is followed by a zero
    byte (and the bytes behind a column that is too narrow for its number happen to be the number's). -/
theorem record_roundTrip_iff {defs : List AttrDef} {t : Table} {values : List Value}
    {selects : FieldMeta → UniqueSelect} {data : Bytes} (created : createTable defs = .ok t.fields)
    (plain : ∀ f ∈ t.fields, f.Plain) (made : t.makeRecord values selects = .ok data) :
    t.fields.map (fun f => f.tupleValue data) = List.zipWith meaning t.fields values ↔
      Undisturbed t.fields (storedAll t.fields values) := by
  have laid := createTable_laid created
  obtain ⟨takes, rfl⟩ := makeRecord_encodes laid made
  obtain ⟨nullable, shown⟩ := stored_row takes
  rw [← shown]
  exact read_row_iff [] laid plain nullable

def textLiteral (text : Bytes) : Value := ⟨.chars, fun i => text.getD i 0, none⟩

def numberLiteral (bytes : Bytes) : Value := ⟨.ints, fun i => bytes.getD i 0, none⟩

def emptyTable (fields : List FieldMeta) : Table := ⟨fields, fun _ => none, [], []⟩

def textAndNumber : List FieldMeta := [⟨.chars, 0, 2, false⟩, ⟨.ints, 2, 4, false⟩]

theorem textAndNumber_created : createTable [⟨.chars, false, some 2⟩, ⟨.ints, false, none⟩] = .ok textAndNumber := by
    decide

theorem textAndNumber_plain : ∀ f ∈ textAndNumber, f.Plain := by
  intro f hf
  rcases mem_cons.mp hf with rfl | hf
  · exact .inr (.inr (.inl rfl))
  · rw [mem_singleton.mp hf]
    exact .inl rfl

theorem record_roundTrip_short :
    textAndNumber.map (fun f => f.tupleValue [97, 0, 65, 0, 0, 0]) = [.string [97], .int 65] := by
  have made : (emptyTable textAndNumber).makeRecord [textLiteral [97], numberLiteral [65]] (fun _ => .nothing) =
      .ok [97, 0, 65, 0, 0, 0] := by rfl
  refine (record_roundTrip_iff (t := emptyTable textAndNumber) textAndNumber_created textAndNumber_plain made).mpr ?_
  exact ⟨.inr (.inl (by decide)), .inr fun i hi hi' => absurd hi (Nat.not_le.mpr hi'), trivial⟩

/-- The row `('ab', 65)` reads back as `('abA', 65)`. -/
theorem fullString_runs_on :
    (emptyTable textAndNumber).makeRecord [textLiteral [97, 98], numberLiteral [65]] (fun _ => .nothing) =
      .ok [97, 98, 65, 0, 0, 0] ∧
      textAndNumber.map (fun f => f.tupleValue [97, 98, 65, 0, 0, 0]) = [.string [97, 98, 65], .int 65] ∧
      List.zipWith meaning textAndNumber [textLiteral [97, 98], numberLiteral [65]] = [.string [97, 98], .int 65] :=
  ⟨by rfl, by decide, by decide⟩

end MiniOb
