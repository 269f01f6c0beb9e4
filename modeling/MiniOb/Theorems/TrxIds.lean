import MiniOb.Lib.Run
import MiniOb.Storage.Trx
import MiniOb.Storage.TrxId

/-! # Transaction numbers stay distinguishable

A number below `2^31` is read back as it was written. Draw `2^31` has the bit of the flag set and is 0 without it. -/

namespace MiniOb
open List Run Nat

theorem setRecordTrxId_toNat (trxId : Word) (deleted : Bool) :
    (setRecordTrxId trxId deleted).toNat = if deleted then trxId.toNat % 2 ^ 31 + 2 ^ 31 else trxId.toNat := by
  cases deleted with
  | false => rfl
  | true =>
    have hlow : trxId.toNat % 2 ^ 31 < 2 ^ 31 := mod_lt _ (by decide)
    have hor : trxId.toNat % 2 ^ 31 ||| 2 ^ 31 = trxId.toNat % 2 ^ 31 + 2 ^ 31 := by
      have hadd := two_pow_add_eq_or_of_lt hlow 1
      rw [Nat.mul_one] at hadd
      rw [Nat.or_comm, ← hadd, Nat.add_comm]
    have hword : (setRecordTrxId trxId true).toNat = trxId.toNat ||| 2 ^ 31 := BitVec.toNat_or trxId deletedFlagBitMask
    rw [hword, if_pos rfl, ← hor]
    -- The bit of the flag is set anyway.
    refine eq_of_testBit_eq fun i => ?_
    rw [testBit_or, testBit_or, testBit_mod_two_pow, testBit_two_pow]
    rcases Nat.lt_trichotomy i 31 with hi | hi | hi
    · simp [hi]
    · simp [hi]
    · have hhigh : trxId.toNat.testBit i = false :=
        testBit_lt_two_pow (Nat.lt_of_lt_of_le trxId.isLt (Nat.pow_le_pow_right (by decide) hi))
      simp [hhigh]

/-- The marks and the numbers of `Trx` are those of the 32-bit counter as long as it has not wrapped. -/
theorem mark_eq (trxId : Word) (deleted : Bool) :
    Trx.mark trxId.toNat deleted = (setRecordTrxId trxId deleted).toNat := by
  rw [setRecordTrxId_toNat, Trx.mark, mod_eq_of_lt (b := 2 ^ 32) trxId.isLt]

theorem startIfNotStarted_eq (t : Trx) {counter : Word} (more : counter.toNat + 1 < 2 ^ 32) :
    t.startIfNotStarted counter.toNat = if t.trxId = 0 then
      ({ t with trxId := (nextTrxId counter).toNat }, (nextTrxId counter).toNat) else (t, counter.toNat) := by
  have hnext : (nextTrxId counter).toNat = counter.toNat + 1 :=
    (BitVec.toNat_add counter 1).trans (mod_eq_of_lt more)
  rw [hnext, Trx.startIfNotStarted]

theorem getRecordTrxId_fst (mark : Word) : (getRecordTrxId mark).1.toNat = mark.toNat % 2 ^ 31 := by
  have hand : (getRecordTrxId mark).1.toNat = mark.toNat &&& (2 ^ 31 - 1) := BitVec.toNat_and mark trxIdBitMask
  rw [hand, and_two_pow_sub_one_eq_mod]

theorem getRecordTrxId_snd (mark : Word) : (getRecordTrxId mark).2 = decide (2 ^ 31 ≤ mark.toNat) := by
  have hand : (mark &&& deletedFlagBitMask).toNat = mark.toNat &&& 2 ^ 31 := BitVec.toNat_and mark deletedFlagBitMask
  have hbit : mark.toNat.testBit 31 = decide (2 ^ 31 ≤ mark.toNat) := by
    have hlt : mark.toNat < 2 ^ 32 := mark.isLt
    rw [testBit_eq_decide_div_mod_eq, decide_eq_decide]
    omega
  have hzero : mark &&& deletedFlagBitMask = 0 ↔ mark.toNat.testBit 31 = false := by
    rw [← BitVec.toNat_inj, hand, and_two_pow]
    cases mark.toNat.testBit 31 with
    | false => exact iff_of_true rfl rfl
    | true => exact iff_of_false (by decide) (by decide)
  rw [← hbit, getRecordTrxId]
  dsimp only
  rw [decide_not, decide_eq_decide.mpr hzero, ← decide_not]
  simp only [Bool.not_eq_false, Bool.decide_eq_true]

theorem getRecordTrxId_set {trxId : Word} (small : trxId.toNat < 2 ^ 31) (deleted : Bool) :
    getRecordTrxId (setRecordTrxId trxId deleted) = (trxId, deleted) := by
  have hmod := mod_eq_of_lt small
  have hid : (getRecordTrxId (setRecordTrxId trxId deleted)).1.toNat = trxId.toNat := by
    rw [getRecordTrxId_fst, setRecordTrxId_toNat]
    cases deleted with
    | false => rw [if_neg Bool.false_ne_true, hmod]
    | true => rw [if_pos rfl, add_mod_right, mod_mod, hmod]
  have hflag : (getRecordTrxId (setRecordTrxId trxId deleted)).2 = deleted := by
    rw [getRecordTrxId_snd, setRecordTrxId_toNat]
    cases deleted with
    | false => rw [if_neg Bool.false_ne_true, decide_eq_false (Nat.not_le.mpr small)]
    | true => rw [if_pos rfl, decide_eq_true (Nat.le_add_left _ _)]
  exact Prod.ext (BitVec.eq_of_toNat_eq hid) hflag

namespace TrxIds
variable {n : Nat} {s : TrxIds}

/-- Every mark is read back with the number of its transaction, which is not 0, and with its flag; two transactions that
    have marks have two numbers. -/
structure Distinguishable (s : TrxIds) : Prop where
  readBack : ∀ m ∈ s.marks, ∀ trxId, s.ids[m.trx]? = some trxId → getRecordTrxId m.word = (trxId, m.deleted) ∧ trxId ≠ 0
  apart : ∀ m ∈ s.marks, ∀ m' ∈ s.marks, m.trx ≠ m'.trx → s.ids[m.trx]? ≠ s.ids[m'.trx]?

def draws (acts : List TrxIdAct) : Nat := acts.count .start

/-- What `n` draws have left: numbers in order, and marks of transactions that have one. -/
structure Drawn (n : Nat) (s : TrxIds) : Prop where
  counter : s.counter = BitVec.ofNat 32 n
  ids : s.ids = (List.range n).map fun i => BitVec.ofNat 32 (i + 1)
  marks : ∀ m ∈ s.marks, ∃ trxId, s.ids[m.trx]? = some trxId ∧ m.word = setRecordTrxId trxId m.deleted

theorem Drawn.step (drawn : Drawn n s) (a : TrxIdAct) :
    Drawn (n + if a = .start then 1 else 0) (s.step a) := by
  cases a with
  | start =>
    have hnext : nextTrxId s.counter = BitVec.ofNat 32 (n + 1) := by
      rw [nextTrxId, drawn.counter, BitVec.ofNat_add]
      rfl
    refine ⟨hnext, ?_, fun m hm => ?_⟩
    · rw [if_pos rfl, range_succ, map_append, ← drawn.ids]
      exact congrArg (fun id => s.ids ++ [id]) hnext
    · obtain ⟨trxId, hid, hword⟩ := drawn.marks m hm
      exact ⟨trxId, (getElem?_append_left (List.getElem?_eq_some_iff.mp hid).1).trans hid, hword⟩
  | write trx deleted =>
    rw [if_neg fun h => nomatch h, Nat.add_zero]
    dsimp only [TrxIds.step]
    cases hid : s.ids[trx]? with
    | none => exact drawn
    | some trxId =>
      refine ⟨drawn.counter, drawn.ids, fun m hm => ?_⟩
      rcases mem_append.mp hm with hm | hm
      · exact drawn.marks m hm
      · rw [mem_singleton.mp hm]
        exact ⟨trxId, hid, rfl⟩
  | settle trx => exact ⟨drawn.counter, drawn.ids, fun m hm => drawn.marks m (mem_filter.mp hm).1⟩

theorem Drawn.run {acts : List TrxIdAct} (drawn : Drawn n s) :
    Drawn (n + draws acts) (run TrxIds.step s acts) := by
  induction acts generalizing n s with
  | nil => exact drawn
  | cons a acts ih =>
    have rest := ih (drawn.step a)
    have hcount : n + draws (a :: acts) = (n + if a = .start then 1 else 0) + draws acts := by
      rw [draws, draws, count_cons, Nat.add_assoc, Nat.add_comm (acts.count _)]
      simp only [beq_iff_eq]
    rw [hcount]
    exact rest

theorem drawn_init : Drawn 0 init := ⟨rfl, rfl, fun _ hm => nomatch hm⟩

theorem Drawn.getElem? (drawn : Drawn n s) {i : Nat} {trxId : Word} (h : s.ids[i]? = some trxId) :
    i < n ∧ trxId = BitVec.ofNat 32 (i + 1) := by
  rw [drawn.ids, getElem?_map, Option.map_eq_some_iff] at h
  obtain ⟨j, hj, rfl⟩ := h
  obtain ⟨hlt, hget⟩ := List.getElem?_eq_some_iff.mp hj
  rw [getElem_range] at hget
  rw [length_range] at hlt
  exact ⟨hlt, by rw [hget]⟩

theorem Drawn.distinguishable (drawn : Drawn n s) (hn : n < 2 ^ 31) : Distinguishable s := by
  have value : ∀ {i : Nat} {trxId : Word}, s.ids[i]? = some trxId → trxId.toNat = i + 1 ∧ trxId.toNat < 2 ^ 31 := by
    intro i trxId hid
    obtain ⟨hi, rfl⟩ := drawn.getElem? hid
    have hsmall : i + 1 < 2 ^ 31 := Nat.lt_of_le_of_lt hi hn
    rw [BitVec.toNat_ofNat, mod_eq_of_lt (Nat.lt_trans hsmall (by decide))]
    exact ⟨rfl, hsmall⟩
  refine ⟨fun m hm trxId hid => ?_, fun m hm m' hm' hne heq => ?_⟩
  · obtain ⟨trxId', hid', hword⟩ := drawn.marks m hm
    cases hid'.symm.trans hid
    obtain ⟨hval, hsmall⟩ := value hid
    refine ⟨?_, fun hzero => ?_⟩
    · rw [hword]
      exact getRecordTrxId_set hsmall m.deleted
    · rw [hzero] at hval
      exact succ_ne_zero m.trx hval.symm
  · obtain ⟨trxId, hid, -⟩ := drawn.marks m hm
    have hval := (value hid).1
    have hval' := (value (heq ▸ hid)).1
    exact hne (Nat.succ.inj (hval.symm.trans hval'))

def drawAndMark (n : Nat) : List TrxIdAct := List.replicate (n + 1) .start ++ [.write n false]

theorem draws_drawAndMark (n : Nat) : draws (drawAndMark n) = n + 1 := by
  rw [draws, drawAndMark, count_append, count_replicate_self]
  rfl

theorem run_drawAndMark (n : Nat) : (run step init (drawAndMark n)).ids[n]? = some (BitVec.ofNat 32 (n + 1)) ∧
    ⟨n, false, BitVec.ofNat 32 (n + 1)⟩ ∈ (run step init (drawAndMark n)).marks := by
  have drawn : Drawn (0 + draws (List.replicate (n + 1) .start))
    (run TrxIds.step init (List.replicate (n + 1) .start)) :=
    drawn_init.run
  rw [Nat.zero_add, draws, count_replicate_self] at drawn
  have hrun : run step init (drawAndMark n) = (run step init (List.replicate (n + 1) .start)).step
      (.write n false) := by
    unfold run drawAndMark
    rw [foldl_append]
    rfl
  have hid : (run step init (List.replicate (n + 1) .start)).ids[n]? = some (BitVec.ofNat 32 (n + 1)) := by
    rw [drawn.ids, getElem?_map, getElem?_range (lt_succ_self n)]
    rfl
  generalize run step init (List.replicate (n + 1) .start) = s at hrun hid
  rw [hrun]
  dsimp only [step]
  rw [hid]
  exact ⟨hid, mem_append_right _ mem_cons_self⟩

/-- The number of draw `2^31` is not read back: its mark says that a committed record has been deleted. -/
theorem mark_misread : (run step init (drawAndMark (2 ^ 31 - 1))).ids[2 ^ 31 - 1]? = some 0x80000000#32 ∧
    ⟨2 ^ 31 - 1, false, 0x80000000#32⟩ ∈ (run step init (drawAndMark (2 ^ 31 - 1))).marks ∧
      getRecordTrxId 0x80000000#32 = (0, true) := by
  have hnumber : BitVec.ofNat 32 (2 ^ 31 - 1 + 1) = 0x80000000#32 := by decide
  obtain ⟨hid, hmark⟩ := run_drawAndMark (2 ^ 31 - 1)
  rw [hnumber] at hid hmark
  exact ⟨hid, hmark, by decide⟩

/-- In all runs with at most `n` draws the transactions are distinguishable if and only if `n` is below `2^31`. -/
theorem distinguishable_iff (n : Nat) :
    (∀ acts, draws acts ≤ n → Distinguishable (run step init acts)) ↔ n < 2 ^ 31 := by
  constructor
  · intro all
    by_contra hn
    have few : draws (drawAndMark (2 ^ 31 - 1)) ≤ n := by
      rw [draws_drawAndMark]
      exact Nat.le_of_not_lt hn
    obtain ⟨hid, hmark⟩ := run_drawAndMark (2 ^ 31 - 1)
    have hread := congrArg Prod.snd ((all _ few).readBack _ hmark _ hid).1
    rw [getRecordTrxId_snd, BitVec.toNat_ofNat] at hread
    exact absurd hread (by decide)
  · intro hn acts hacts
    have drawn : Drawn (0 + draws acts) (run TrxIds.step init acts) := drawn_init.run
    rw [Nat.zero_add] at drawn
    exact drawn.distinguishable (Nat.lt_of_le_of_lt hacts hn)

end TrxIds

end MiniOb
