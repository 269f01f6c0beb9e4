import MiniOb.Lib.Run
import MiniOb.Theorems.RecordPage

/-! # The record file as a map

`live` reads a record file as a map from RIDs to bytes; `Spec` says what each call should do to that map. -/

namespace MiniOb
open Slots PageData RecordPages RecordFile Function Int

/-- The allocator hands out a page that is not in use; page 0, the file header, always is. -/
def PageAllocator.Fresh (alloc : PageAllocator) : Prop :=
  ∀ s, (s.get 0).isSome = true → s.get (alloc s).1 = none ∧ 0 < (alloc s).1

namespace RecordPages
variable {s : RecordPages} {p : PageNum} {d : PageData}

theorem get_set_same : (s.set p d).get p = some d := if_pos rfl

theorem get_set_ne {q : PageNum} (h : q ≠ p) : (s.set p d).get q = s.get q := if_neg h

theorem get_erase_same : (s.erase p).get p = none := if_pos rfl

theorem get_erase_ne {q : PageNum} (h : q ≠ p) : (s.erase p).get q = s.get q := if_neg h

theorem lt_count_of_get {s : RecordPages} {p : PageNum} {d : PageData} (h : s.get p = some d) : p < s.count := by
  by_contra hle
  rw [s.get_of_count_le p (Int.not_lt.mp hle)] at h
  cases h

theorem count_set {s : RecordPages} {p : PageNum} {d : PageData} (h : s.get p = some d) (d' : PageData) :
    (s.set p d').count = s.count :=
  max_eq_left (add_one_le_iff.mpr (lt_count_of_get h))

end RecordPages

namespace RecordFile
variable {R : Nat} {f : RecordFile} {d : PageData} {p : PageNum}

/-- The record that the pages of the file hold at a RID. -/
def live (f : RecordFile) (rid : RID) : Option Bytes :=
  if 0 < rid.pageNum ∧ 0 ≤ rid.slotNum then (f.pages.get rid.pageNum).bind fun d => d.records rid.slotNum.toNat
  else none

theorem live_of_get {rid : RID} (hp : 0 < rid.pageNum) (hs : 0 ≤ rid.slotNum)
    (hget : f.pages.get rid.pageNum = some d) : f.live rid = d.records rid.slotNum.toNat := by
  rw [live, if_pos ⟨hp, hs⟩, hget]
  rfl

theorem live_setPage (rid : RID) :
    ({ f with pages := f.pages.set p d } : RecordFile).live rid =
      if rid.pageNum = p then (if 0 < p ∧ 0 ≤ rid.slotNum then d.records rid.slotNum.toNat else none)
          else f.live rid := by
  by_cases hpage : rid.pageNum = p
  · subst hpage
    rw [if_pos rfl, live, get_set_same]
    rfl
  · rw [if_neg hpage, live, live, get_set_ne hpage]

theorem live_set_update {d' : PageData} {slot : Nat} {v : Option Bytes} (hp : 0 < p)
    (hget : f.pages.get p = some d) (hrec : d'.records = update d.records slot v) :
    ({ f with pages := f.pages.set p d' } : RecordFile).live = update f.live ⟨p, slot⟩ v := by
  funext rid
  rw [live_setPage]
  by_cases hpage : rid.pageNum = p
  · rw [if_pos hpage]
    by_cases hslot : 0 ≤ rid.slotNum
    · rw [if_pos ⟨hp, hslot⟩, hrec]
      by_cases heq : rid.slotNum.toNat = slot
      · have hrid : rid = ⟨p, slot⟩ := by
          rw [← heq, toNat_of_nonneg hslot, ← hpage]
        rw [heq, hrid, update_self, update_self]
      · have hrid : rid ≠ ⟨p, slot⟩ := by
          rintro rfl
          exact heq rfl
        subst hpage
        rw [update_of_ne heq, update_of_ne hrid, live_of_get hp hslot hget]
    · have hrid : rid ≠ ⟨p, slot⟩ := by
        rintro rfl
        exact hslot (natCast_nonneg slot)
      rw [if_neg fun h => hslot h.2, update_of_ne hrid, live, if_neg fun h => hslot h.2]
  · have hrid : rid ≠ ⟨p, slot⟩ := by
      rintro rfl
      exact hpage rfl
    rw [if_neg hpage, update_of_ne hrid]

theorem live_set_empty (hfree : f.pages.get p = none) (hnone : ∀ slot, d.records slot = none) :
    ({ f with pages := f.pages.set p d } : RecordFile).live = f.live := by
  funext rid
  rw [live_setPage]
  split
  next hpage =>
    have hold : f.live rid = none := by
      rw [live, hpage, hfree]
      split <;> rfl
    rw [hold, hnone]
    split <;> rfl
  · rfl

theorem live_erase (hget : f.pages.get p = some d) (hnone : ∀ slot, d.records slot = none) :
    ({ f with pages := f.pages.erase p } : RecordFile).live = f.live := by
  funext rid
  by_cases hpage : rid.pageNum = p
  · have hold : f.live rid = none := by
      rw [live, hpage, hget, Option.bind_some, hnone]
      split <;> rfl
    rw [hold, live, hpage, get_erase_same]
    split <;> rfl
  · rw [live, live, get_erase_ne hpage]

/-- Every page is formatted for records of size `R`, and the cursor holds a page of the file if it has one. -/
structure Ok (R : Nat) (f : RecordFile) : Prop where
  fresh : f.alloc.Fresh
  header : (f.pages.get 0).isSome = true
  count : 1 ≤ f.pages.count
  pages : ∀ p d, 0 < p → f.pages.get p = some d → d.Formatted R
  cursor : ∀ p, f.cursor.page = some p → f.cursor.held = true ∧ 0 < p ∧ ∃ d, f.pages.get p = some d

namespace Ok
variable {p : PageNum} {d : PageData} {data : Bytes} {rid : RID}

theorem setPage (h : Ok R f) (hd : d.Formatted R) :
    Ok R { f with pages := f.pages.set p d } where
  fresh := h.fresh
  header := by
    by_cases hp : (0 : PageNum) = p
    · rw [hp, get_set_same]
      rfl
    · rw [get_set_ne hp]
      exact h.header
  count := h.count.trans (le_max_left _ _)
  pages q e hq he := by
    by_cases hqp : q = p
    · subst hqp
      rw [get_set_same] at he
      cases he
      exact hd
    · rw [get_set_ne hqp] at he
      exact h.pages q e hq he
  cursor q hq := by
    obtain ⟨hheld, hpos, e, he⟩ := h.cursor q hq
    refine ⟨hheld, hpos, ?_⟩
    by_cases hqp : q = p
    · subst hqp
      exact ⟨d, get_set_same⟩
    · exact ⟨e, by rw [get_set_ne hqp]; exact he⟩

theorem withCursor (h : Ok R f) {c : PageCursor}
    (hc : ∀ p, c.page = some p → c.held = true ∧ 0 < p ∧ ∃ d, f.pages.get p = some d) : Ok R { f with cursor := c } :=
  ⟨h.fresh, h.header, h.count, h.pages, hc⟩

def Ready (pages : RecordPages) (c : PageCursor) : Prop :=
  c.held = true ∧ ∃ p d, c.page = some p ∧ 0 < p ∧ pages.get p = some d ∧ d.isFull = false

/-- From a cursor whose page is full, held or not, the search only ends at a page that it holds and that has room. -/
theorem probe_full {pages : RecordPages} (hcount : 1 ≤ pages.count) :
    ∀ (n i : Nat) (current : PageNum) {c c' : PageCursor}
    {p : PageNum} {d : PageData}, c.page = some p → pages.get p = some d → d.isFull = true →
    probe pages n i current c = (c', true) → Ready pages c'
  | 0, i, current, c, c', p, d, _, _, _, hres => by cases hres
  | n + 1, i, current, c, c', p, d, hc, hget, hfull, hres => by
    rw [probe] at hres
    generalize hq : (current + i) % pages.count = q at hres
    have hnn : 0 ≤ q := hq ▸ emod_nonneg _ (Int.ne_of_gt (Int.lt_of_lt_of_le Int.one_pos hcount))
    dsimp only at hres
    by_cases hz : q = 0
    · rw [if_pos hz] at hres
      exact probe_full hcount n _ _ hc hget hfull hres
    · rw [if_neg hz] at hres
      have hpos : 0 < q := lt_of_le_of_ne hnn (Ne.symm hz)
      cases hqget : pages.get q with
      | none =>
        -- The page is not in use: the cursor lets go of its page, which is still full.
        have hne : c.page ≠ some q := by
          rw [hc]
          rintro ⟨⟩
          rw [hget] at hqget
          cases hqget
        have hmove : moveCursor pages c q = { c with held := false } := by
          rw [moveCursor, if_neg hne, hqget]
          rfl
        have hcf : cursorFull pages { c with held := false } = true := by
          rw [cursorFull, hc, Option.bind_some, hget]
          exact hfull
        rw [hmove, if_pos hcf] at hres
        exact probe_full hcount n _ _ (c := { c with held := false }) hc hget hfull hres
      | some e =>
        have hmove : (moveCursor pages c q).page = some q ∧
            (moveCursor pages c q = c ∨ (moveCursor pages c q).held = true) := by
          rw [moveCursor, hqget]
          split
          next h => exact ⟨h, .inl rfl⟩
          · exact ⟨rfl, .inr rfl⟩
        have hcf : cursorFull pages (moveCursor pages c q) = e.isFull := by
          rw [cursorFull, hmove.1, Option.bind_some, hqget]
          rfl
        rw [hcf] at hres
        cases hefull : e.isFull with
        | true =>
          rw [hefull, if_pos rfl] at hres
          exact probe_full hcount n _ _ hmove.1 hqget hefull hres
        | false =>
          rw [hefull, if_neg Bool.false_ne_true] at hres
          cases hres
          refine ⟨?_, q, e, hmove.1, hpos, hqget, hefull⟩
          rcases hmove.2 with hsame | hheld
          · -- The page of `c` itself is full.
            rw [hsame, hc] at hmove
            cases hmove.1
            rw [hget] at hqget
            cases hqget
            rw [hfull] at hefull
            cases hefull
          · exact hheld

theorem probe_ready {pages : RecordPages} (hcount : 1 ≤ pages.count) {c c' : PageCursor}
    (hc : ∀ p, c.page = some p → c.held = true ∧ 0 < p ∧ ∃ d, pages.get p = some d)
    (hnone : c.page = none → pages.count = 1) (hres : probe pages pages.count.toNat 0 (c.page.getD 0) c = (c', true)) :
    Ready pages c' := by
  obtain ⟨n, hn⟩ : ∃ n, pages.count.toNat = n + 1   := Nat.exists_eq_succ_of_ne_zero
    (Nat.ne_of_gt (lt_toNat.mpr (Int.lt_of_lt_of_le Int.one_pos hcount)))
  rw [hn, probe] at hres
  dsimp only at hres
  cases hpage : c.page with
  | none =>
    have hone := hnone hpage
    have hn0 : n = 0 := by
      rw [hone] at hn
      exact (Nat.succ.inj hn).symm
    subst hn0
    rw [hone, emod_one, if_pos rfl] at hres
    cases hres
  | some p =>
    obtain ⟨hheld, hpos, d, hget⟩ := hc p hpage
    have hmod : (p + ((0 : Nat) : Int)) % pages.count = p := by
      rw [Int.natCast_zero, Int.add_zero]
      exact emod_eq_of_lt hpos.le (lt_count_of_get hget)
    rw [hpage, Option.getD_some, hmod, if_neg hpos.ne', moveCursor, if_pos hpage] at hres
    have hcf : cursorFull pages c = d.isFull := by
      rw [cursorFull, hpage, Option.bind_some, hget]
      rfl
    rw [hcf] at hres
    cases hfull : d.isFull with
    | true =>
      rw [hfull, if_pos rfl] at hres
      exact probe_full hcount n _ _ hpage hget hfull hres
    | false =>
      rw [hfull, if_neg Bool.false_ne_true] at hres
      cases hres
      exact ⟨hheld, p, d, hpage, hpos, hget, hfull⟩

theorem insertAtCursor (h : Ok R f) (hR : RecordFits R) (hdata : data.length = R) (hready : Ready f.pages f.cursor) :
    ∃ rid f', f.insertAtCursor data 0 = (.ok rid, f') ∧ Ok R f' ∧ f.live rid = none ∧
      f'.live = update f.live rid (some data) := by
  obtain ⟨-, p, d, hpage, hpos, hget, hfull⟩ := hready
  obtain ⟨slot, d', hins, hnone, hfmt, hrec⟩ := (h.pages p d hpos hget).insertRecord hR hfull hdata
  refine ⟨⟨p, slot⟩, { f with pages := f.pages.set p d' }, ?_, h.setPage hfmt, ?_, live_set_update hpos hget hrec⟩
  · rw [RecordFile.insertAtCursor, hpage]
    dsimp only
    rw [hget]
    dsimp only
    rw [hins]
  · rw [live_of_get hpos (natCast_nonneg slot) hget]
    exact hnone

theorem allocateEmpty_eq (hp : f.alloc f.pages = (p, d)) (recordSize : Nat) :
    f.allocateEmpty recordSize =
      { f with pages := f.pages.set p (d.initEmptyPage recordSize), cursor := ⟨some p, true⟩ } := by
  rw [allocateEmpty, hp]

theorem allocateEmpty (h : Ok R f) (hR : RecordFits R) :
    Ok R (f.allocateEmpty R) ∧ Ready (f.allocateEmpty R).pages (f.allocateEmpty R).cursor ∧
      (f.allocateEmpty R).live = f.live := by
  obtain ⟨hfree, hpos⟩ := h.fresh f.pages h.header
  generalize hp : f.alloc f.pages = pd at hfree hpos
  obtain ⟨p, d⟩ := pd
  obtain ⟨hfmt, hzero⟩ := formatted_initEmptyPage d hR.1 hR.2.1
  have hget : (f.pages.set p (d.initEmptyPage R)).get p = some (d.initEmptyPage R) := get_set_same
  have hcap := slotCapacity_pos hR.2.1
  rw [allocateEmpty_eq hp]
  refine ⟨(h.setPage hfmt).withCursor ?_, ⟨rfl, p, _, rfl, hpos, hget, ?_⟩, ?_⟩
  · rintro q ⟨⟩
    exact ⟨rfl, hpos, _, hget⟩
  · rw [isFull, hzero, hfmt.capacity]
    exact decide_eq_false (by omega)
  · exact live_set_empty hfree (hfmt.records_none hzero)

theorem startCursor (h : Ok R f) (hstart : f.cursor.page = none → f.pages.count < 2 ∨ (f.pages.get 1).isSome) :
    ∃ c, f.startCursor = .ok c ∧
      (∀ p, c.page = some p → c.held = true ∧ 0 < p ∧ ∃ d, f.pages.get p = some d) ∧
      (c.page = none → f.pages.count = 1) := by
  unfold RecordFile.startCursor
  by_cases hnew : f.cursor.page = none ∧ 2 ≤ f.pages.count
  · have hone : (f.pages.get 1).isSome := (hstart hnew.1).resolve_left (Int.not_lt.mpr hnew.2)
    rw [if_pos hnew, if_pos hone]
    refine ⟨_, rfl, ?_, fun hn => nomatch hn⟩
    rintro p ⟨⟩
    exact ⟨rfl, Int.one_pos, Option.isSome_iff_exists.mp hone⟩
  · rw [if_neg hnew]
    refine ⟨_, rfl, h.cursor, fun hn => ?_⟩
    have hlt : f.pages.count < 2 := Int.lt_of_not_ge fun h2 => hnew ⟨hn, h2⟩
    exact Int.le_antisymm (lt_add_one_iff.mp hlt) h.count

theorem insertRecord (h : Ok R f) (hR : RecordFits R) (hdata : data.length = R)
    (hstart : f.cursor.page = none → f.pages.count < 2 ∨ (f.pages.get 1).isSome) :
    ∃ rid f', f.insertRecord data = (.ok rid, f') ∧ Ok R f' ∧ f.live rid = none ∧
      f'.live = update f.live rid (some data) := by
  have hsmall : R ≤ fixedSize := hR.2.1
  have hpos := hR.1
  have hchunks : (data.length + (fixedSize - 1)) / fixedSize = 1 := by
    have hfixed : fixedSize = 4056 := rfl
    rw [hfixed] at hsmall ⊢
    omega
  obtain ⟨c, hc, hcur, hcnone⟩ := h.startCursor hstart
  have hchunk : ∃ rid f', f.insertChunk R data 0 = (.ok rid, f') ∧ Ok R f' ∧ f.live rid = none ∧
      f'.live = update f.live rid (some data) := by
    rw [insertChunk, hc]
    dsimp only
    cases hres : probe f.pages f.pages.count.toNat 0 (c.page.getD 0) c with
    | mk c' found =>
      cases found with
      | true =>
        have hready := probe_ready h.count hcur hcnone hres
        refine Ok.insertAtCursor (h.withCursor (c := c') ?_) hR hdata hready
        obtain ⟨hheld, p, d, hpage, hp, hget, -⟩ := hready
        intro q hq
        rw [hpage] at hq
        cases hq
        exact ⟨hheld, hp, d, hget⟩
      | false =>
        -- The cursor that the search leaves behind is replaced by the one of the new page.
        obtain ⟨hok, hready, hlive⟩ := h.allocateEmpty hR
        obtain ⟨rid, f', hins, hok', hnone, hlive'⟩ := hok.insertAtCursor hR hdata hready
        exact ⟨rid, f', hins, hok', hlive ▸ hnone, hlive ▸ hlive'⟩
  obtain ⟨rid, f', hins, hok, hnone, hlive⟩ := hchunk
  refine ⟨rid, f', ?_, hok, hnone, hlive⟩
  rw [RecordFile.insertRecord, hchunks, insertChunks]
  rw [if_pos rfl, hdata, if_neg hsmall.not_gt, Nat.sub_zero, hins]
  rfl

def Addressable (f : RecordFile) (rid : RID) : Prop :=
  0 < rid.pageNum ∧ 0 ≤ rid.slotNum ∧ (f.pages.get rid.pageNum).isSome = true

instance (f : RecordFile) (rid : RID) : Decidable (Addressable f rid) := inferInstanceAs (Decidable (_ ∧ _ ∧ _))

theorem Addressable.page (ha : Addressable f rid) (h : Ok R f) :
    ∃ d, f.pages.get rid.pageNum = some d ∧ d.Formatted R ∧ f.live rid = d.records rid.slotNum.toNat := by
  obtain ⟨d, hget⟩ := Option.isSome_iff_exists.mp ha.2.2
  exact ⟨d, hget, h.pages _ d ha.1 hget, live_of_get ha.1 ha.2.1 hget⟩

section
variable (h : Ok R f)
include h

theorem updateRecord_live (hR : RecordFits R) (hdata : data.length = R)
    (ha : Addressable f rid) (hlive : f.live rid ≠ none) :
    ∃ f', f.updateRecord rid data = (.ok (), f') ∧ Ok R f' ∧ f'.live = update f.live rid (some data) := by
  obtain ⟨d, hget, hd, heq⟩ := ha.page h
  rw [heq] at hlive
  obtain ⟨d', hupd, hfmt, hrec⟩ := hd.updateRecord_live hR hlive hdata
  refine ⟨{ f with pages := f.pages.set rid.pageNum d' }, ?_, h.setPage hfmt, ?_⟩
  · rw [updateRecord, hget]
    dsimp only
    rw [hupd]
  · rw [live_set_update ha.1 hget hrec, toNat_of_nonneg ha.2.1]

theorem updateRecord_dead (data : Bytes) (ha : Addressable f rid) (hdead : f.live rid = none) :
    ∃ rc, f.updateRecord rid data = (.error rc, f) := by
  obtain ⟨d, hget, hd, heq⟩ := ha.page h
  rw [heq] at hdead
  obtain ⟨rc, hcheck⟩ := hd.checkSlot_dead .invalidArgument ha.2.1 hdead
  refine ⟨rc, ?_⟩
  rw [updateRecord, hget]
  dsimp only
  rw [PageData.updateRecord, hcheck]
  rfl

theorem afterDelete (hget : f.pages.get p = some d) (hp : 0 < p) :
    Ok R (if d.recordNum = 0 then f.disposePage p else f) ∧ (if d.recordNum = 0 then f.disposePage p else f).live =
      f.live := by
  by_cases hz : d.recordNum = 0
  · rw [if_pos hz, disposePage]
    by_cases hheld : f.cursor = ⟨some p, true⟩
    · rw [if_pos hheld]
      exact ⟨h, rfl⟩
    · rw [if_neg hheld]
      have hheader : ((f.pages.erase p).get 0).isSome = true := by
        rw [get_erase_ne hp.ne]
        exact h.header
      refine ⟨⟨h.fresh, hheader, h.count, fun q e hq he => ?_, fun q hq => ?_⟩,
        live_erase hget ((h.pages p d hp hget).records_none hz)⟩
      · by_cases hqp : q = p
        · subst hqp
          rw [get_erase_same] at he
          cases he
        · rw [get_erase_ne hqp] at he
          exact h.pages q e hq he
      · obtain ⟨hh, hpos, e, he⟩ := h.cursor q hq
        have hqp : q ≠ p := by
          rintro rfl
          refine hheld ?_
          rw [← hq, ← hh]
        exact ⟨hh, hpos, e, by rw [get_erase_ne hqp]; exact he⟩
  · rw [if_neg hz]
    exact ⟨h, rfl⟩

theorem deleteRecord_live (hR : RecordFits R) (ha : Addressable f rid) (hlive : f.live rid ≠ none) :
    ∃ f', f.deleteRecord rid = (.ok (), f') ∧ Ok R f' ∧ f'.live = update f.live rid none := by
  obtain ⟨d, hget, hd, heq⟩ := ha.page h
  rw [heq] at hlive
  obtain ⟨d', hdel, hfmt, hrec⟩ := hd.deleteRecord_live hR hlive
  have hok := h.setPage (p := rid.pageNum) hfmt
  obtain ⟨hok', hlive'⟩ := hok.afterDelete get_set_same ha.1
  refine ⟨_, ?_, hok', ?_⟩
  · rw [deleteRecord, hget]
    dsimp only
    rw [hdel]
  · rw [hlive', live_set_update ha.1 hget hrec, toNat_of_nonneg ha.2.1]

theorem deleteRecord_dead (ha : Addressable f rid) (hdead : f.live rid = none) :
    ∃ rc, f.deleteRecord rid = (.error rc, f) := by
  obtain ⟨d, hget, hd, heq⟩ := ha.page h
  rw [heq] at hdead
  obtain ⟨rc, hcheck⟩ := hd.checkSlot_dead .invalidArgument ha.2.1 hdead
  refine ⟨rc, ?_⟩
  rw [deleteRecord, hget]
  dsimp only
  rw [PageData.deleteRecord, hcheck]
  rfl

theorem getRecord_live (ha : Addressable f rid) {b : Bytes} (hlive : f.live rid = some b) :
    f.getRecord rid = .ok (some b) := by
  obtain ⟨d, hget, hd, heq⟩ := ha.page h
  rw [heq] at hlive
  rw [getRecord, hget]
  dsimp only
  rw [hd.getRecord_live hlive]
  rfl

theorem getRecord_dead (ha : Addressable f rid) (hdead : f.live rid = none) :
    ∃ rc, f.getRecord rid = .error rc := by
  obtain ⟨d, hget, hd, heq⟩ := ha.page h
  rw [heq] at hdead
  obtain ⟨rc, hcheck⟩ := hd.checkSlot_dead .recordInvalidrid ha.2.1 hdead
  refine ⟨rc, ?_⟩
  rw [getRecord, hget]
  dsimp only
  rw [PageData.getRecord, hcheck]
  rfl

end

end Ok

inductive Act
  | insert (data : Bytes)
  | update (rid : RID) (data : Bytes)
  | delete (rid : RID)
  | get (rid : RID)
  | recreate

inductive Reply
  | inserted (rid : RID)
  | done
  | bytes (data : Option Bytes)
  | failed (rc : RC)
  deriving DecidableEq

def Reply.of {α : Type} (ok : α → Reply) : Except RC α → Reply
  | .ok a => ok a
  | .error rc => .failed rc

def perform (f : RecordFile) : Act → Reply × RecordFile
  | .insert data => (.of .inserted (f.insertRecord data).1, (f.insertRecord data).2)
  | .update rid data => (.of (fun _ => .done) (f.updateRecord rid data).1, (f.updateRecord rid data).2)
  | .delete rid => (.of (fun _ => .done) (f.deleteRecord rid).1, (f.deleteRecord rid).2)
  | .get rid => (.of .bytes (f.getRecord rid), f)
  | .recreate => (.done, f.recreate)

def step (f : RecordFile) (a : Act) : RecordFile := (f.perform a).2

/-- What a call should do to the map `m` of records: return `r` and leave the map `m'`. -/
def Spec (m : RID → Option Bytes) (r : Reply) (m' : RID → Option Bytes) : Act → Prop
  | .insert data => ∃ rid, r = .inserted rid ∧ m rid = none ∧ m' = update m rid (some data)
  | .update rid data =>
    (m rid ≠ none ∧ r = .done ∧ m' = update m rid (some data)) ∨ (m rid = none ∧ (∃ rc, r = .failed rc) ∧ m' = m)
  | .delete rid =>
    (m rid ≠ none ∧ r = .done ∧ m' = update m rid none) ∨ (m rid = none ∧ (∃ rc, r = .failed rc) ∧ m' = m)
  | .get rid => m' = m ∧ ((∃ b, m rid = some b ∧ r = .bytes (some b)) ∨ (m rid = none ∧ ∃ rc, r = .failed rc))
  | .recreate => m' = m

/-- The records have the one size, the RIDs name slots of pages in use, and a new handler of a file that has had pages
    finds page 1 in use. -/
def Allowed (R : Nat) (f : RecordFile) : Act → Prop
  | .insert data => data.length = R ∧ (f.cursor.page = none → f.pages.count < 2 ∨ (f.pages.get 1).isSome)
  | .update rid data => data.length = R ∧ Ok.Addressable f rid
  | .delete rid => Ok.Addressable f rid
  | .get rid => Ok.Addressable f rid
  | .recreate => True

instance (R : Nat) (f : RecordFile) : (a : Act) → Decidable (Allowed R f a)
  | .insert _ => inferInstanceAs (Decidable (_ ∧ _))
  | .update _ _ => inferInstanceAs (Decidable (_ ∧ _))
  | .delete rid => inferInstanceAs (Decidable (Ok.Addressable f rid))
  | .get rid => inferInstanceAs (Decidable (Ok.Addressable f rid))
  | .recreate => isTrue trivial

theorem Ok.perform (h : Ok R f) (hR : RecordFits R) {a : Act} (ha : Allowed R f a) :
    Ok R (f.perform a).2 ∧ Spec f.live (f.perform a).1 (f.perform a).2.live a ∧
      (∀ rc, (f.perform a).1 = .failed rc → (f.perform a).2 = f) := by
  cases a with
  | insert data =>
    obtain ⟨rid, f', hcall, hok, hnone, hlive⟩ := h.insertRecord hR ha.1 ha.2
    simp only [RecordFile.perform, hcall]
    exact ⟨hok, ⟨rid, rfl, hnone, hlive⟩, fun rc hrc => nomatch hrc⟩
  | update rid data =>
    by_cases hlive : f.live rid = none
    · obtain ⟨rc, hcall⟩ := h.updateRecord_dead data ha.2 hlive
      simp only [RecordFile.perform, hcall]
      exact ⟨h, .inr ⟨hlive, ⟨rc, rfl⟩, rfl⟩, fun _ _ => trivial⟩
    · obtain ⟨f', hcall, hok, hlive'⟩ := h.updateRecord_live hR ha.1 ha.2 hlive
      simp only [RecordFile.perform, hcall]
      exact ⟨hok, .inl ⟨hlive, rfl, hlive'⟩, fun rc hrc => nomatch hrc⟩
  | delete rid =>
    by_cases hlive : f.live rid = none
    · obtain ⟨rc, hcall⟩ := h.deleteRecord_dead ha hlive
      simp only [RecordFile.perform, hcall]
      exact ⟨h, .inr ⟨hlive, ⟨rc, rfl⟩, rfl⟩, fun _ _ => trivial⟩
    · obtain ⟨f', hcall, hok, hlive'⟩ := h.deleteRecord_live hR ha hlive
      simp only [RecordFile.perform, hcall]
      exact ⟨hok, .inl ⟨hlive, rfl, hlive'⟩, fun rc hrc => nomatch hrc⟩
  | get rid =>
    cases hlive : f.live rid with
    | none =>
      obtain ⟨rc, hcall⟩ := h.getRecord_dead ha hlive
      simp only [RecordFile.perform, hcall]
      exact ⟨h, ⟨rfl, .inr ⟨hlive, rc, rfl⟩⟩, fun _ _ => trivial⟩
    | some b =>
      simp only [RecordFile.perform, h.getRecord_live ha hlive]
      exact ⟨h, ⟨rfl, .inl ⟨b, hlive, rfl⟩⟩, fun _ _ => trivial⟩
  | recreate => exact ⟨⟨h.fresh, h.header, h.count, h.pages, fun p hp => nomatch hp⟩, rfl, fun rc hrc => nomatch hrc⟩

theorem ok_created (R : Nat) (header : PageData) {alloc : PageAllocator} (hfresh : alloc.Fresh) :
    Ok R (created header alloc) where
  fresh := hfresh
  header := rfl
  count := le_refl _
  pages p d hp hget := by
    rw [created] at hget
    dsimp only at hget
    rw [if_neg hp.ne'] at hget
    cases hget
  cursor p hp := by cases hp

/-- After every run of allowed calls on a new file, an allowed call does to the map of records what it should. -/
theorem recordFile_refines {R : Nat} (hR : RecordFits R) (header : PageData) {alloc : PageAllocator}
    (hfresh : alloc.Fresh) (calls : List Act) (hcalls : Run.Meets step (Allowed R) (created header alloc) calls)
    (a : Act) (ha : Allowed R (Run.run step (created header alloc) calls) a) :
    let f := Run.run step (created header alloc) calls
    Spec f.live (f.perform a).1 (f.perform a).2.live a ∧
        (∀ rc, (f.perform a).1 = .failed rc → (f.perform a).2 = f) := by
  have hok : Ok R (Run.run step (created header alloc) calls) :=
    Run.invariant (Ok R) (fun f b h hb => (h.perform hR hb).1) (ok_created R header hfresh) hcalls
  exact (hok.perform hR ha).2

def appendPage : PageAllocator := fun s => (max s.count 1, fun _ => 0)

theorem appendPage_fresh : appendPage.Fresh := fun s _ =>
  ⟨s.get_of_count_le _ (le_max_left _ _), Int.lt_of_lt_of_le Int.one_pos (le_max_right _ _)⟩

def sampleRecord (b : UInt8) : Bytes := List.replicate 16 b

theorem recordFile_refines_sample :
    let calls := [.insert (sampleRecord 1), .insert (sampleRecord 2), .recreate, .update ⟨1, 0⟩ (sampleRecord 3),
      .delete ⟨1, 1⟩]
    let f := Run.run step (created (fun _ => 0) appendPage) calls
    Run.Meets step (Allowed 16) (created (fun _ => 0) appendPage) calls ∧
      f.live ⟨1, 0⟩ = some (sampleRecord 3) ∧ f.live ⟨1, 1⟩ = none ∧
      Spec f.live (f.perform (.get ⟨1, 0⟩)).1 (f.perform (.get ⟨1, 0⟩)).2.live (.get ⟨1, 0⟩) := by
  have hcalls : Run.Meets step (Allowed 16) (created (fun _ => 0) appendPage) [.insert (sampleRecord 1),
      .insert (sampleRecord 2), .recreate, .update ⟨1, 0⟩ (sampleRecord 3), .delete ⟨1, 1⟩] := by decide +kernel
  refine ⟨hcalls, by decide +kernel, by decide +kernel, ?_⟩
  exact (recordFile_refines (by decide) (fun _ => 0) appendPage_fresh _ hcalls (.get ⟨1, 0⟩) (by decide +kernel)).1

/-- A file whose only record has been deleted after a restart, so that page 1 is out of use: every call on the record
    returns `SUCCESS`, and after another restart `insert_record` fails. In a page of records of eight bytes, the last
    slot keeps only the first four of them. -/
theorem recordFile_forgets_page :
    let f := Run.run step (created (fun _ => 0) appendPage) [.insert (sampleRecord 1), .recreate, .delete ⟨1, 0⟩]
    f.live ⟨1, 0⟩ = none ∧ (f.perform (.delete ⟨1, 0⟩)).1 = .done ∧
      (f.perform (.update ⟨1, 0⟩ (sampleRecord 2))).1 = .done ∧ (f.perform (.get ⟨1, 0⟩)).1 = .bytes none ∧
      (f.recreate.perform (.insert (sampleRecord 2))).1 = .failed .bufferpoolInvalidPageNum ∧
      ((PageData.setBit (initEmptyPage (fun _ => 0) 8) 500).updateRecord 500 (List.replicate 8 1) >>=
        (PageData.getRecord · 500)) = .ok [1, 1, 1, 1, 0, 0, 0, 0] := by
  decide +kernel

end RecordFile

end MiniOb
