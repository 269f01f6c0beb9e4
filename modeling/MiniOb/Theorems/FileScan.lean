import MiniOb.Lib.Cursor
import MiniOb.Theorems.LargeRecord

/-! # Scans of a record file

Repeated calls of `get_next_record` return the live records in the order of their RIDs. -/

namespace MiniOb
open Slots Bits Cursor List RecordPages RID Int
variable {start n : Nat} {rid : RID}

namespace PageData
variable {d : PageData}

/-- `next_setted_bit` finds the first bit in use from `start` on, if `start` follows a bit in use or starts a byte. -/
theorem nextSettedBit_eq (d : PageData) (size : Nat) (hstart : start = 0 ∨ d.getBit (start - 1) = true) :
    d.nextSettedBit size start = (List.range' start (size - start)).find? fun i => d.getBit i == true := by
  refine nextBit_eq_iff.mpr fun k hk _ _ => ?_
  rcases hstart with rfl | hused
  · exact .inl (Nat.zero_le _)
  · by_cases hbyte : start % 8 ≤ k % 8
    · exact .inl hbyte
    · exact .inr ⟨start - 1, by omega, by omega, hused⟩

/-- A slot from which a scan of the page goes on: the one before the first, or one in use. -/
def Standing (d : PageData) (slot : Int) : Prop := slot = -1 ∨ (0 ≤ slot ∧ d.getBit slot.toNat = true)

theorem nextRecord_eq {slot : Int} (standing : d.Standing slot) :
    d.nextRecord slot =
      (List.range' (slot + 1).toNat (d.recordCapacity.toNat - (slot + 1).toNat)).find? fun i => d.getBit i == true := by
  have hstart : (slot + 1).toNat = 0 ∨ d.getBit ((slot + 1).toNat - 1) = true := by
    rcases standing with rfl | ⟨hslot, hused⟩
    · exact .inl rfl
    · have hindex : (slot + 1).toNat - 1 = slot.toNat := by omega
      exact .inr (hindex ▸ hused)
  unfold nextRecord
  split
  · have hzero : d.recordCapacity.toNat - (slot + 1).toNat = 0 := by omega
    rw [hzero, range'_zero, find?_nil]
  · exact nextSettedBit_eq d _ hstart

/-- What the rounds of a scan in one page find: the first slot behind `slot` that is in use and accepted. -/
def NextSlot (d : PageData) (accept : Nat → Bool) (slot : Int) : Option Nat → Prop
  | some i => slot < i ∧ i < d.recordCapacity.toNat ∧ d.getBit i = true ∧ accept i = true ∧
      ∀ j : Nat, slot < j → j < i → d.getBit j = true → accept j = false
  | none => ∀ j : Nat, slot < j → j < d.recordCapacity.toNat → d.getBit j = true → accept j = false

theorem nextAccepted_spec (accept : Nat → Bool) : ∀ (slot : Int), d.Standing slot →
    (d.recordCapacity.toNat : Int) ≤ slot + n → d.NextSlot accept slot (d.nextAccepted accept n slot) := by
  induction n with
  | zero =>
    intro slot _ hn j hj hcap
    omega
  | succ n ih =>
    intro slot standing hn
    have hslot : -1 ≤ slot := by
      rcases standing with rfl | ⟨hslot, -⟩
      · exact le_rfl
      · omega
    rw [nextAccepted, nextRecord_eq standing]
    cases hfind : (List.range' (slot + 1).toNat (d.recordCapacity.toNat - (slot + 1).toNat)).find? fun i =>
      d.getBit i == true with
    | none =>
      intro j hj hcap hused
      have hall := find?_range'_eq_none.mp hfind j (by omega) (by omega)
      simp [hused] at hall
    | some i =>
      obtain ⟨hused, hmem, hleast⟩ := find?_range'_eq_some.mp hfind
      have hi := mem_range'_1.mp hmem
      have hused : d.getBit i = true := by simpa using hused
      have hfree : ∀ j : Nat, slot < j → j < i → d.getBit j = false := fun j hj hji => by
        simpa using hleast j (by omega) hji
      dsimp only
      by_cases haccept : accept i = true
      · rw [if_pos haccept]
        refine ⟨by omega, by omega, hused, haccept, fun j hj hji hused' => ?_⟩
        rw [hfree j hj hji] at hused'
        cases hused'
      · rw [if_neg haccept]
        have hrest := ih i (.inr ⟨natCast_nonneg i, hused⟩) (by omega)
        have hpassed : ∀ j : Nat, slot < j → j ≤ i → d.getBit j = true → accept j = false := by
          intro j hj hji hused'
          rcases Nat.lt_or_eq_of_le hji with hlt | rfl
          · rw [hfree j hj hlt] at hused'
            cases hused'
          · exact Bool.eq_false_of_not_eq_true haccept
        cases hnext : d.nextAccepted accept n i with
        | none =>
          rw [hnext] at hrest
          intro j hj hcap hused'
          rcases Nat.lt_or_ge i j with hij | hij
          · exact hrest j (by omega) hcap hused'
          · exact hpassed j hj hij hused'
        | some k =>
          rw [hnext] at hrest
          obtain ⟨hik, hcap, husedk, hacceptk, hleastk⟩ := hrest
          refine ⟨by omega, hcap, husedk, hacceptk, fun j hj hjk hused' => ?_⟩
          rcases Nat.lt_or_ge i j with hij | hij
          · exact hleastk j (by omega) hjk hused'
          · exact hpassed j hj hij hused'

end PageData

namespace RID

def PlaceBefore (page slot page' slot' : Int) : Prop := page < page' ∨ (page = page' ∧ slot < slot')

def Before (a b : RID) : Prop := PlaceBefore a.pageNum a.slotNum b.pageNum b.slotNum

instance : DecidableRel Before := fun _ _ => inferInstanceAs (Decidable (_ ∨ _))

instance : Std.Irrefl Before where
  irrefl a h := by
    unfold Before PlaceBefore at h
    omega

instance : Std.Antisymm Before where
  antisymm a b hab hba := by
    unfold Before PlaceBefore at hab hba
    omega

instance : IsTrans RID Before where
  trans a b c hab hbc := by
    unfold Before PlaceBefore at hab hbc ⊢
    omega

end RID

namespace RecordPages
variable {s : RecordPages} {accept : RID → Bool}

def Used (s : RecordPages) (page slot : Int) : Prop :=
  0 < page ∧ 0 ≤ slot ∧ ∃ d, s.get page = some d ∧ slot.toNat < d.recordCapacity.toNat ∧ d.getBit slot.toNat = true

def Live (s : RecordPages) (rid : RID) : Prop := s.Used rid.pageNum rid.slotNum

def Standing (s : RecordPages) (page slot : Int) : Prop :=
  0 < page ∧ (slot = -1 ∨ ∃ d, s.get page = some d ∧ d.Standing slot)

/-- The answer of `get_next_record`: the first accepted record behind `rid`, or `code` if there is none. -/
def NextRecord (s : RecordPages) (accept : RID → Bool) (rid : RID) (code : RC) : Except RC RID → Prop
  | .ok next => s.Live next ∧ accept next = true ∧ rid.Before next ∧
      ∀ r, s.Live r → accept r = true → rid.Before r → r = next ∨ next.Before r
  | .error rc => rc = code ∧ ∀ r, s.Live r → accept r = true → ¬rid.Before r

def endCode (s : RecordPages) : RC := if (s.get (s.count - 1)).isSome then .recordEof else .bufferpoolInvalidPageNum

theorem NextRecord.nextPage {page slot : Int} {code : RC} {answer : Except RC RID}
    (nothing : ∀ i : Int, s.Used page i → accept ⟨page, i⟩ = true → ¬slot < i)
    (h : s.NextRecord accept ⟨page + 1, -1⟩ code answer) : s.NextRecord accept ⟨page, slot⟩ code answer := by
  have hiff : ∀ r, s.Live r → accept r = true → (Before ⟨page, slot⟩ r ↔ Before ⟨page + 1, -1⟩ r) := by
    rintro ⟨p, i⟩ live haccept
    have hslot : (0 : Int) ≤ i := live.2.1
    constructor
    · rintro (hlt | ⟨heq, hlt⟩)
      · unfold Before PlaceBefore
        dsimp only at hlt ⊢
        omega
      · subst heq
        exact absurd hlt (nothing i live haccept)
    · rintro (hlt | ⟨heq, -⟩)
      · exact .inl ((Int.lt_succ page).trans hlt)
      · exact .inl ((Int.lt_succ page).trans_eq heq)
  cases answer with
  | ok next =>
    obtain ⟨live, haccept, hbefore, hleast⟩ := h
    exact ⟨live, haccept, (hiff next live haccept).mpr hbefore,
      fun r hr hra hb => hleast r hr hra ((hiff r hr hra).mp hb)⟩
  | error rc => exact ⟨h.1, fun r hr hra hb => h.2 r hr hra ((hiff r hr hra).mp hb)⟩

theorem nextFrom_spec (accept : RID → Bool) : ∀ {page slot : Int} (ret : RC), page + n = s.count →
    s.Standing page slot →
    s.NextRecord accept ⟨page, slot⟩ (if n = 0 then ret else s.endCode) (s.nextFrom accept n page slot ret) := by
  induction n with
  | zero =>
    intro page slot ret hcount standing
    refine ⟨rfl, fun r live _ hbefore => ?_⟩
    obtain ⟨-, -, d, hget, -⟩ := live
    have hlt : r.pageNum < page := lt_of_lt_of_eq (lt_count_of_get hget) (hcount.symm.trans (Int.add_zero page))
    rcases hbefore with hbefore | ⟨heq, -⟩
    · exact lt_asymm hlt hbefore
    · exact hlt.ne heq.symm
  | succ n ih =>
    intro page slot ret hcount standing
    have hcount' : page + 1 + n = s.count := Eq.trans (by omega) hcount
    have hnext : s.Standing (page + 1) (-1) := ⟨standing.1.trans (Int.lt_succ page), .inl rfl⟩
    -- What is left of the loop, whose code is that of this page if it is the last one.
    have hrest : ∀ code, (n = 0 → code = s.endCode) →
        s.NextRecord accept ⟨page + 1, -1⟩ s.endCode (s.nextFrom accept n (page + 1) (-1) code) := by
      intro code hcode
      have hih := ih code hcount' hnext
      by_cases hn : n = 0
      · obtain rfl := hcode hn
        rwa [if_pos hn] at hih
      · rwa [if_neg hn] at hih
    have hlast : n = 0 → s.count - 1 = page := by
      rintro rfl
      rw [← hcount]
      exact Int.add_sub_cancel page 1
    rw [if_neg (Nat.succ_ne_zero n), nextFrom]
    cases hget : s.get page with
    | none =>
      refine (hrest _ fun hn => ?_).nextPage fun i used _ => ?_
      · rw [endCode, hlast hn, hget]
        rfl
      · obtain ⟨-, -, d, hd, -⟩ := used
        rw [hget] at hd
        cases hd
    | some d =>
      have hstanding : d.Standing slot := by
        rcases standing.2 with hslot | ⟨e, he, hstanding⟩
        · exact .inl hslot
        · rw [Option.some.inj (hget.symm.trans he)]
          exact hstanding
      have hfuel : (d.recordCapacity.toNat : Int) ≤ slot + (d.recordCapacity.toNat + 1 : Nat) := by
        rcases hstanding with rfl | ⟨hslot, -⟩
        · omega
        · omega
      have hspec := d.nextAccepted_spec (fun i => accept ⟨page, i⟩) slot hstanding hfuel
      have hused : ∀ i : Int, s.Used page i →
          ∃ j : Nat, i = j ∧ j < d.recordCapacity.toNat ∧ d.getBit j = true := by
        rintro i ⟨-, hi, e, he, hcap, hbit⟩
        obtain rfl := Option.some.inj (hget.symm.trans he)
        exact ⟨i.toNat, (toNat_of_nonneg hi).symm, hcap, hbit⟩
      dsimp only
      cases hfound : d.nextAccepted (fun i => accept ⟨page, i⟩) (d.recordCapacity.toNat + 1) slot with
      | none =>
        rw [hfound] at hspec
        refine (hrest _ fun hn => ?_).nextPage fun i used haccept hlt => ?_
        · rw [endCode, hlast hn, hget]
          rfl
        · obtain ⟨j, rfl, hcap, hbit⟩ := hused i used
          exact absurd haccept (Bool.eq_false_iff.mp (hspec j hlt hcap hbit))
      | some i =>
        rw [hfound] at hspec
        obtain ⟨hlt, hcap, hbit, haccept, hleast⟩ := hspec
        refine ⟨⟨standing.1, natCast_nonneg i, d, hget, hcap, hbit⟩, haccept, .inr ⟨rfl, hlt⟩, ?_⟩
        rintro ⟨p, k⟩ live hk (hbefore | ⟨heq, hbefore⟩)
        · exact .inr (.inl hbefore)
        · subst heq
          obtain ⟨j, rfl, hcap', hbit'⟩ := hused k live
          rcases Nat.lt_trichotomy j i with hji | rfl | hij
          · exact absurd hk (Bool.eq_false_iff.mp (hleast j hbefore hji hbit'))
          · exact .inl rfl
          · exact .inr (.inr ⟨rfl, ofNat_lt.mpr hij⟩)

def scanCode (s : RecordPages) : RC := if s.count = 1 then .recordEof else s.endCode

/-- A place from which a scan of a file with records goes on is in one of its pages. -/
def Inside (s : RecordPages) (rid : RID) : Prop :=
  s.Standing rid.pageNum rid.slotNum ∧ (s.count ≠ 1 → rid.pageNum < s.count)

theorem getNextRecord_spec (accept : RID → Bool) (inside : s.Inside rid) :
    s.NextRecord accept rid s.scanCode (s.getNextRecord accept rid) := by
  unfold getNextRecord scanCode
  by_cases hone : s.count = 1
  · rw [if_pos hone, if_pos hone]
    refine ⟨rfl, fun r live _ _ => ?_⟩
    obtain ⟨hpos, -, d, hget, -⟩ := live
    have hlt := lt_count_of_get hget
    rw [hone] at hlt
    exact Int.not_lt.mpr (add_one_le_iff.mpr hpos) hlt
  · rw [if_neg hone, if_neg hone]
    have hlt := Int.sub_pos.mpr (inside.2 hone)
    have hsum : rid.pageNum + ((s.count - rid.pageNum).toNat : Int) = s.count := by
      rw [toNat_of_nonneg hlt.le]
      exact (Int.add_comm _ _).trans (Int.sub_add_cancel _ _)
    have hspec := nextFrom_spec accept .success hsum inside.1
    rwa [if_neg (lt_toNat.mpr hlt).ne'] at hspec

def pageRids (s : RecordPages) (accept : RID → Bool) (page : Nat) : List RID :=
  ((s.get page).elim [] fun d => (List.range d.recordCapacity.toNat).filter (d.getBit ·)).map
    (fun i : Nat => (⟨page, i⟩ : RID))
    |>.filter accept

def liveRids (s : RecordPages) (accept : RID → Bool) : List RID :=
  (List.range' 1 (s.count.toNat - 1)).flatMap (s.pageRids accept)

theorem mem_pageRids {page : Nat} (hpage : 0 < page) :
    rid ∈ s.pageRids accept page ↔ rid.pageNum = page ∧ s.Live rid ∧ accept rid = true := by
  unfold pageRids
  rw [mem_filter, ← and_assoc]
  refine and_congr_left fun _ => ?_
  cases hget : s.get page with
  | none =>
    refine iff_of_false (by simp) ?_
    rintro ⟨hrid, -, -, d, hd, -⟩
    rw [hrid, hget] at hd
    cases hd
  | some d =>
    simp only [Option.elim_some, mem_map, mem_filter, mem_range]
    constructor
    · rintro ⟨i, ⟨hcap, hbit⟩, rfl⟩
      exact ⟨rfl, natCast_pos.mpr hpage, natCast_nonneg i, d, hget, hcap, hbit⟩
    · rintro ⟨hrid, -, hslot, e, he, hcap, hbit⟩
      rw [hrid, hget] at he
      cases he
      exact ⟨rid.slotNum.toNat, ⟨hcap, hbit⟩, by rw [← hrid, toNat_of_nonneg hslot]⟩

theorem mem_liveRids : rid ∈ s.liveRids accept ↔ s.Live rid ∧ accept rid = true := by
  unfold liveRids
  rw [mem_flatMap]
  constructor
  · rintro ⟨page, hpage, hrid⟩
    exact ((mem_pageRids (mem_range'_1.mp hpage).1).mp hrid).2
  · rintro ⟨live, haccept⟩
    obtain ⟨hpos, -, d, hget, -⟩ := id live
    have hlt : rid.pageNum < s.count := lt_count_of_get hget
    have hpage : (rid.pageNum.toNat : Int) = rid.pageNum := toNat_of_nonneg hpos.le
    have hone : 0 < rid.pageNum.toNat := lt_toNat.mpr hpos
    refine ⟨rid.pageNum.toNat, mem_range'_1.mpr ⟨hone, ?_⟩, (mem_pageRids hone).mpr ⟨hpage.symm, live, haccept⟩⟩
    have hcount := (toNat_lt_toNat (hpos.trans hlt)).mpr hlt
    omega

theorem pairwise_liveRids : (s.liveRids accept).Pairwise Before := by
  refine pairwise_flatMap.mpr ⟨fun page _ => ?_, ?_⟩
  · -- In one page the slots come in the order of the bitmap.
    refine List.Pairwise.filter _ (pairwise_map.mpr ?_)
    cases s.get page with
    | none => exact List.Pairwise.nil
    | some d =>
      exact (pairwise_lt_range.filter _).imp fun hlt => .inr ⟨rfl, ofNat_lt.mpr hlt⟩
  · refine (pairwise_lt_range' 1).imp_of_mem fun hp hq hlt a ha b hb => ?_
    have hpage := ((mem_pageRids (mem_range'_1.mp hp).1).mp ha).1
    have hpage' := ((mem_pageRids (mem_range'_1.mp hq).1).mp hb).1
    refine .inl ?_
    rw [hpage, hpage']
    exact ofNat_lt.mpr hlt

theorem recordsAfter_eq_drain {fuel : Nat} : ∀ {rid : RID}, s.recordsAfter accept fuel rid =
    Cursor.drain (fun rid => (s.getNextRecord accept rid).map fun next => (next, next)) fuel rid := by
  induction fuel with
  | zero => exact rfl
  | succ fuel ih =>
    intro rid
    rw [recordsAfter, Cursor.drain]
    cases s.getNextRecord accept rid with
    | error rc => rfl
    | ok next => exact congrArg (Option.map _) ih

theorem scanFile_eq (hcount : 1 ≤ s.count) {fuel : Nat} (hfuel : (s.liveRids accept).length < fuel) :
    s.scanFile accept fuel = some (s.liveRids accept, s.scanCode) := by
  have hall : (s.liveRids accept).filter (Before ⟨1, -1⟩ ·) = s.liveRids accept := by
    refine filter_eq_self.mpr fun rid hrid => decide_eq_true ?_
    obtain ⟨⟨hpos, hslot, -⟩, -⟩ := mem_liveRids.mp hrid
    unfold Before PlaceBefore
    dsimp only
    omega
  have hinside : s.Inside ⟨1, -1⟩ := ⟨⟨Int.one_pos, .inl rfl⟩, fun hne => lt_of_le_of_ne hcount hne.symm⟩
  rw [scanFile, recordsAfter_eq_drain]
  rw [← hall] at hfuel
  refine (Cursor.drain_eq (r := fun rid => (s.liveRids accept).filter (Before rid ·))
    (p := s.Inside) ?_ ?_ hinside hfuel).trans (by rw [hall])
  · intro rid a next inside hnext
    have hspec := getNextRecord_spec accept inside
    cases hcall : s.getNextRecord accept rid with
    | error rc =>
      rw [hcall] at hnext
      cases hnext
    | ok found =>
      rw [hcall] at hnext hspec
      cases hnext
      obtain ⟨live, haccept, hbefore, hleast⟩ := hspec
      refine ⟨⟨?_, ?_⟩, Cursor.filter_behind pairwise_liveRids (mem_liveRids.mpr ⟨live, haccept⟩) hbefore
        fun r hr hb => ?_⟩
      · obtain ⟨hpos, hslot, d, hget, -, hbit⟩ := live
        exact ⟨hpos, .inr ⟨d, hget, .inr ⟨hslot, hbit⟩⟩⟩
      · obtain ⟨-, -, d, hget, -⟩ := live
        exact fun _ => lt_count_of_get hget
      · obtain ⟨hr, hra⟩ := mem_liveRids.mp hr
        exact hleast r hr hra hb
  · intro rid rc inside hnext
    have hspec := getNextRecord_spec accept inside
    cases hcall : s.getNextRecord accept rid with
    | ok found =>
      rw [hcall] at hnext
      cases hnext
    | error rc' =>
      rw [hcall] at hnext hspec
      cases hnext
      refine ⟨filter_eq_nil_iff.mpr fun r hr hb => ?_, hspec.1⟩
      obtain ⟨hr, hra⟩ := mem_liveRids.mp hr
      exact hspec.2 r hr hra (of_decide_eq_true hb)

end RecordPages

namespace RecordFile
variable {f : RecordFile} {accept : RID → Bool}

theorem live_isSome_iff : (f.live rid).isSome ↔ f.pages.Live rid := by
  unfold live
  by_cases hplace : 0 < rid.pageNum ∧ 0 ≤ rid.slotNum
  · rw [if_pos hplace]
    cases hget : f.pages.get rid.pageNum with
    | none =>
      refine iff_of_false (by simp) ?_
      rintro ⟨-, -, d, hd, -⟩
      rw [hget] at hd
      cases hd
    | some d =>
      rw [Option.bind_some, PageData.records]
      constructor
      · intro hsome
        split at hsome
        case isTrue hused => exact ⟨hplace.1, hplace.2, d, hget, hused⟩
        case isFalse => cases hsome
      · rintro ⟨-, -, e, he, hused⟩
        cases hget.symm.trans he
        rw [if_pos hused]
        rfl
  · rw [if_neg hplace]
    exact iff_of_false Bool.false_ne_true fun live => hplace ⟨live.1, live.2.1⟩

/-- A scan delivers the live records that the filter accepts, each one once and in the order of their places, and ends
    with `RECORD_EOF`. -/
def ScansExactly (f : RecordFile) (accept : RID → Bool) : Prop :=
  ∃ bound, ∀ fuel, bound ≤ fuel → ∃ rids, f.pages.scanFile accept fuel = some (rids, .recordEof) ∧
    rids.Pairwise Before ∧ ∀ rid, rid ∈ rids ↔ (f.live rid).isSome ∧ accept rid = true

theorem scansExactly_of_count (hcount : 1 ≤ f.pages.count) :
    f.ScansExactly accept ↔ f.pages.count = 1 ∨ (f.pages.get (f.pages.count - 1)).isSome := by
  have hcode : f.pages.scanCode = .recordEof ↔ f.pages.count = 1 ∨ (f.pages.get (f.pages.count - 1)).isSome := by
    unfold scanCode endCode
    split_ifs with hone hlast
    · exact iff_of_true rfl (.inl hone)
    · exact iff_of_true rfl (.inr hlast)
    · exact iff_of_false nofun (not_or.mpr ⟨hone, hlast⟩)
  rw [← hcode]
  constructor
  · rintro ⟨bound, hscan⟩
    obtain ⟨rids, hrids, -⟩ := hscan (max bound ((f.pages.liveRids accept).length + 1)) (le_max_left _ _)
    rw [scanFile_eq hcount (Nat.lt_of_succ_le (le_max_right _ _)), Option.some.injEq, Prod.mk.injEq] at hrids
    exact hrids.2
  · intro heof
    refine ⟨(f.pages.liveRids accept).length + 1, fun fuel hfuel => ?_⟩
    refine ⟨_, (scanFile_eq hcount hfuel).trans (by rw [heof]), pairwise_liveRids, fun rid => ?_⟩
    rw [live_isSome_iff]
    exact mem_liveRids

theorem count_le_set (s : RecordPages) (p : PageNum) (d : PageData) : s.count ≤ (s.set p d).count := le_max_left _ _

theorem count_le_insertAtCursor (f : RecordFile) (data : Bytes) (len : Nat) :
    f.pages.count ≤ (f.insertAtCursor data len).2.pages.count := by
  unfold insertAtCursor
  split
  · exact le_rfl
  · split
    · exact le_rfl
    · split
      · exact le_rfl
      · exact count_le_set _ _ _

theorem count_le_insertChunk (f : RecordFile) (recordSize : Nat) (data : Bytes) (len : Nat) :
    f.pages.count ≤ (f.insertChunk recordSize data len).2.pages.count := by
  unfold insertChunk
  split
  · exact le_rfl
  · dsimp only
    split
    · exact count_le_insertAtCursor _ data len
    · exact (count_le_set _ _ _).trans (count_le_insertAtCursor _ data len)

theorem count_le_insertChunks (data : Bytes) : ∀ {cur : Nat} {rid : RID} {f : RecordFile},
    f.pages.count ≤ (insertChunks data n cur rid f).2.pages.count := by
  induction n with
  | zero => exact le_rfl
  | succ n ih =>
    intro cur rid f
    have hchunk : f.pages.count ≤ (if cur = 0 then f.insertChunk (if fixedSize < data.length then fixedSize
      else data.length - cur) data 0
        else f.insertChunk (if fixedSize < data.length then fixedSize else data.length - cur) (data.drop (cur - 4))
          (data.length - cur + 4)).2.pages.count := by
      split
      · exact count_le_insertChunk f _ _ _
      · exact count_le_insertChunk f _ _ _
    rw [insertChunks]
    split
    case h_1 rid' f' hcall =>
      rw [hcall] at hchunk
      exact hchunk.trans ih
    case h_2 rc f' hcall =>
      rw [hcall] at hchunk
      exact hchunk

theorem count_le_step (f : RecordFile) (a : Act) : f.pages.count ≤ (step f a).pages.count := by
  cases a with
  | insert data => exact count_le_insertChunks data
  | update rid data =>
    unfold step perform updateRecord
    dsimp only
    split
    · exact le_rfl
    · split
      · exact le_rfl
      · exact count_le_set _ _ _
  | delete rid =>
    unfold step perform deleteRecord
    dsimp only
    split
    · exact le_rfl
    · split
      · exact le_rfl
      · split
        · unfold disposePage
          split
          · exact count_le_set _ _ _
          · exact le_max_left f.pages.count _
        · exact count_le_set _ _ _
  | get rid => exact le_rfl
  | recreate => exact le_rfl

/-- In every file that calls have led to, a scan is exact if and only if the file has no pages yet or its last page is
    in use: the code of the last page is that of the scan, and a page that has been disposed of answers
    `BUFFERPOOL_INVALID_PAGE_NUM`. -/
theorem scansExactly_iff (header : PageData) (alloc : PageAllocator) (acts : List Act) (accept : RID → Bool) :
    let f := Run.run step (created header alloc) acts
    f.ScansExactly accept ↔ f.pages.count = 1 ∨ (f.pages.get (f.pages.count - 1)).isSome := by
  have hcount : ∀ (acts : List Act) (f : RecordFile), 1 ≤ f.pages.count → 1 ≤ (Run.run step f acts).pages.count := by
    intro acts
    induction acts with
    | nil => exact fun _ h => h
    | cons a acts ih => exact fun f h => ih (step f a) (h.trans (count_le_step f a))
  exact scansExactly_of_count (hcount acts _ le_rfl)

def fullPage : Bytes := List.replicate 4056 0

/-- Three records in three pages; the first one is deleted, and its page is the one that the next record gets. Then the
    record of the last page is deleted. The scan delivers the two records that are left and ends with another code. -/
theorem scan_past_disposedPage :
    let f := Run.run step (created (fun _ => 0) LargeTable.firstFree)
      [.insert fullPage, .insert fullPage, .insert fullPage, .delete ⟨1, 0⟩, .insert fullPage, .delete ⟨3, 0⟩]
    f.pages.scanFile (fun _ => true) 4 = some ([⟨1, 0⟩, ⟨2, 0⟩], .bufferpoolInvalidPageNum) ∧
        ¬f.ScansExactly fun _ => true := by
  intro f
  have hcount : f.pages.count = 4 := by decide +kernel
  have hlast : (f.pages.get 3).isSome = false := by decide +kernel
  refine ⟨by decide +kernel, fun h => ?_⟩
  clear_value f
  rw [scansExactly_of_count (by rw [hcount]; decide), hcount] at h
  rcases h with hone | hsome
  · cases hone
  · exact absurd hsome (ne_true_of_eq_false hlast)

end RecordFile

end MiniOb
