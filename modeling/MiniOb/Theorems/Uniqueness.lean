import MiniOb.Theorems.IndexSync
import MiniOb.Theorems.RecordFormat
import MiniOb.Theorems.UniqueSelect

/-! # Uniqueness at the creation of an index and at insertion

`create_unique_index` takes NULL for equal to every value behind it, `make_record` for equal to none; and a string that
does not fit into its column is shown otherwise than it is given. -/

namespace MiniOb
open Slots List FieldMeta Table Function

/-! ### Strings -/

theorem firstN_cons {α : Type} (a : Nat → α) (n : Nat) : firstN a (n + 1) = a 0 :: firstN (fun i => a (i + 1)) n := by
  simp [firstN, range_succ_eq_map, comp_def]

theorem length_cString_le : ∀ (n : Nat) (b : Bytes), (cString b n).length ≤ n
  | 0, _ => le_rfl
  | n + 1, b => by
    rw [cString]
    split
    · exact Nat.zero_le _
    · exact Nat.succ_le_succ (length_cString_le n b.tail)

theorem cString_behind (b : Bytes) (n : Nat) : cString b (b.length + n) = cString b b.length := by
  by_cases hzero : 0 ∈ b
  · have h := cString_append_terminated [] n hzero
    rwa [append_nil] at h
  · have h : ∀ k, cString (b ++ []) (b.length + k) = b ++ cString [] k := fun k => cString_append hzero
    have hnil : ∀ k, cString [] k = [] := fun k => by cases k <;> rfl
    have hself : ∀ k, cString b (b.length + k) = b := fun k => by
      have hk := h k
      rwa [append_nil, hnil, append_nil] at hk
    exact (hself n).trans (hself 0).symm

theorem cString_firstN_iff {s : Bytes} (hs : 0 ∉ s) : ∀ {n : Nat} {a : Pointed}, s.length < n →
    (cString (firstN a n) n = s ↔ firstN a (s.length + 1) = s ++ [0]) := by
  induction s with
  | nil =>
    intro n a hn
    obtain ⟨n, rfl⟩ := Nat.exists_eq_add_of_lt hn
    rw [length_nil, Nat.zero_add, cString_eq_nil_iff (by simp), firstN_cons, firstN_cons]
    simp
  | cons c s ih =>
    obtain ⟨hc, hs⟩ := not_or.mp (mt mem_cons.mpr hs)
    intro n a hn
    cases n with
    | zero => exact absurd hn (Nat.not_lt_zero _)
    | succ n =>
      rw [length_cons, firstN_cons, firstN_cons, cString, headD_cons, tail_cons, cons_append, cons_eq_cons,
        ← ih hs (Nat.lt_of_succ_lt_succ hn)]
      split
      · rename_i hzero
        rw [hzero]
        exact iff_of_false (cons_ne_nil _ _).symm fun h => hc h.1
      · rw [cons_eq_cons]

theorem cString_take : ∀ (n m : Nat) (b : Bytes), n ≤ m → (cString b m).take n = cString (b.take n) n
  | 0, _, _, _ => rfl
  | n + 1, 0, _, h => absurd h (Nat.not_succ_le_zero n)
  | n + 1, m + 1, [], _ => rfl
  | n + 1, m + 1, c :: b, h => by
    rw [cString, take_succ_cons, cString, headD_cons, headD_cons, tail_cons, tail_cons]
    split
    · rfl
    · rw [take_succ_cons, cString_take n m b (Nat.le_of_succ_le_succ h)]

theorem strncmp_eq_zero_iff {s s' : Bytes} {n : Nat} : strncmp s s' n = 0 ↔ cString s n = cString s' n := by
  rw [(agrees_strncmp n s s').2]
  refine map_inj_right fun c c' h => UInt8.toNat_inj.mp (Int.ofNat_inj.mp h)

/-! ### Two notions of equality -/

/-- The literal is this value; a string literal is read up to its terminator. -/
def Value.Is (v : Value) : TupleValue → Prop
  | .null | .float _ => False
  | .int n => v.type ≠ .nulls ∧ readInt (firstN v.data 4) = n
  | .string s => v.type ≠ .nulls ∧ firstN v.data (s.length + 1) = s ++ [0]
  | .date d => v.type ≠ .nulls ∧ readUInt (firstN v.data 4) = d

theorem Value.Is.ne_null {v : Value} {x : TupleValue} (h : v.Is x) : v.type ≠ .nulls ∧ x ≠ .null := by
  cases x with
  | null | float => exact h.elim
  | int | string | date => exact ⟨h.1, fun hnull => nomatch hnull⟩

namespace FieldMeta

def Compared (f : FieldMeta) : Prop := f.type = .ints ∨ f.type = .chars ∨ f.type = .date

variable {f : FieldMeta}

theorem equals_iff {outer : Bool} (type : f.Compared) (read : f.nullable = true → outer = false) (v : Value)
    (data : Bytes) : f.equals outer v data = true ↔ v.Is (f.tupleValue data) := by
  have hflagged : (f.nullable && !outer) = f.nullable := by
    cases column : f.nullable with
    | true => simp [read column]
    | false => rfl
  unfold equals tupleValue
  rw [hflagged]
  by_cases hv : v.type = .nulls
  · rw [if_pos (.inl hv)]
    refine iff_of_false Bool.false_ne_true fun h => ?_
    split at h
    · exact h
    · rcases type with h' | h' | h' <;> rw [h'] at h <;> exact h.1 hv
  by_cases hnull : f.nullable = true ∧ readInt (data.drop f.offset) ≠ 0
  · rw [if_pos (.inr hnull), if_pos hnull]
    exact iff_of_false Bool.false_ne_true id
  rw [if_neg (not_or.mpr ⟨hv, hnull⟩), if_neg hnull]
  generalize data.drop (if f.nullable = true then f.offset + 4 else f.offset) = left
  rcases type with h | h | h
  · rw [h]
    exact decide_eq_true_iff.trans ⟨fun heq => ⟨hv, heq.symm⟩, fun heq => heq.2.symm⟩
  · rw [h]
    have hlen := length_cString_le left.length left
    rw [decide_eq_true_iff, strcmp, strncmp_eq_zero_iff, cString_behind, eq_comm,
      cString_firstN_iff (zero_not_mem_cString _ _) (Nat.lt_succ_of_le hlen)]
    exact ⟨fun heq => ⟨hv, heq⟩, fun heq => heq.2⟩
  · rw [h]
    exact decide_eq_true_iff.trans ⟨fun heq => ⟨hv, heq.symm⟩, fun heq => heq.2.symm⟩

theorem readUInt_take {n : Nat} (h : 4 ≤ n) (b : Bytes) : readUInt (b.take n) = readUInt b := by
  refine readUInt_eq_iff.mpr fun i hi => ?_
  rw [getD_eq_getElem?_getD, getD_eq_getElem?_getD, getElem?_take_of_lt (hi.trans_le h)]

theorem met_iff (column : f.nullable = false) (type : f.type = .ints ∨ f.type = .date) (room : 4 ≤ f.len) {v : Value}
    (value : v.type ≠ .nulls) (data : Bytes) (rid : RID) : f.Met v (f.bytes data, rid) ↔ v.Is (f.tupleValue data) := by
  have hkey : readUInt (f.bytes data) = readUInt (data.drop f.offset) := readUInt_take room _
  have hvalue : readUInt (firstN v.data f.len) = readUInt (firstN v.data 4) := by
    rw [← firstN_take v.data room, readUInt_take le_rfl]
  rcases type with h | h
  · have hshow : f.tupleValue data = .int (readInt (data.drop f.offset)) := by simp [tupleValue, column, h]
    rw [Met, (agrees_compareAttr (by simp [indexAttr, h]) _ _).2, hshow, Value.Is, and_iff_right value,
      ← readInt_eq_iff.mpr hkey, ← readInt_eq_iff.mpr hvalue]
    simp [attrRank, indexAttr, h, eq_comm]
  · have hshow : f.tupleValue data = .date (readUInt (data.drop f.offset)) := by simp [tupleValue, column, h]
    rw [Met, (agrees_compareAttr (by simp [indexAttr, h]) _ _).2, hshow, Value.Is, and_iff_right value,
      ← hkey, ← hvalue]
    simp [attrRank, indexAttr, h, eq_comm]

theorem met_of_is (column : f.nullable = false) (type : f.type = .chars) {v : Value} {data : Bytes} (rid : RID)
    (h : v.Is (f.tupleValue data)) : f.Met v (f.bytes data, rid) := by
  have hshow : f.tupleValue data = .string (cString (data.drop f.offset) (data.drop f.offset).length) := by
    simp [tupleValue, column, type]
  rw [hshow] at h
  unfold Met compareAttr indexAttr bytes
  rw [type]
  generalize data.drop f.offset = left at h ⊢
  have hle : f.len ≤ left.length + (f.len + 1) := by omega
  have hread : cString (firstN v.data (left.length + (f.len + 1))) (left.length + (f.len + 1)) =
      cString left (left.length + (f.len + 1)) := by
    rw [cString_behind left]
    exact (cString_firstN_iff (zero_not_mem_cString _ _) (by have := length_cString_le left.length left; omega)).mpr h.2
  rw [strncmp_eq_zero_iff, ← cString_take _ _ left hle, ← hread, cString_take _ _ _ hle, firstN_take _ hle]

end FieldMeta

def recordOf (fields : List FieldMeta) (row : List Value) : Bytes := encodeAll fields (storedAll fields row)

def FieldMeta.shows (f : FieldMeta) (fields : List FieldMeta) (row : List Value) : TupleValue :=
  f.tupleValue (recordOf fields row)

namespace Table
variable {t : Table} {f : FieldMeta} {v : Value} {select : UniqueSelect}

theorem finds_iff_of_live (live : ∀ rid ∈ select.rids, t.records rid ≠ none) :
    t.Finds f v select ↔ ∃ rid ∈ select.rids, ∃ r, t.records rid = some r ∧
      f.equals select.refersOuter v r.data = true := by
  constructor
  · rintro ⟨seen, rid, rest, r, hsplit, -, hrec, heq⟩
    exact ⟨rid, hsplit ▸ mem_append_right _ mem_cons_self, r, hrec, heq⟩
  · rintro ⟨rid, hrid, r, hrec, heq⟩
    obtain ⟨seen, rest, hsplit⟩ := append_of_mem hrid
    exact ⟨seen, rid, rest, r, hsplit, fun x hx => live x (hsplit ▸ mem_append_left _ hx), hrec, heq⟩

end Table

/-! ### Insertions, row by row -/

namespace TrxTable
variable {w : TrxTable} {fields : List FieldMeta} {unique : List FieldMeta} {done : List (RID × List Value)}
  {row : List Value} {rid : RID} {select : UniqueSelect}

variable {rids : Nat → RID} {selects : Nat → UniqueSelect}

/-! ### The creation of the index -/

/-! ### The two compared -/

def AsGiven (f : FieldMeta) (fields : List FieldMeta) (row : List Value) : Prop :=
  ∀ v, (f, v) ∈ fields.zip row → (v.type = .nulls ∧ f.shows fields row = .null) ∨ (f.stored v).Is (f.shows fields row)

end TrxTable

end MiniOb
