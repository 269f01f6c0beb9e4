import MiniOb.Table.LargeUpdate
import MiniOb.Theorems.LargeRecord
import MiniOb.Theorems.RecordFormat

/-! # What an update leaves of a large record

`connect_record` skips four bytes in front of each later chunk; `split_record` fills every chunk from the beginning of
the record. -/

namespace MiniOb
variable {R offset : Nat} {literal behind : Bytes}

variable {total : Nat}

open Slots PageData List

def chunkByte (chunks : Nat → Pointed) (k : Nat) : UInt8 :=
  if k < 4056 then chunks 0 k else chunks (k / 4056) (k % 4056 + 4)

namespace Assembly

theorem push_data {a : Assembly} {chunks : Nat → Pointed} {m : Nat} (rid : RID) (hoffset : a.offset = 4056 * m)
    (hfirst : a.first = m) (filled : ∀ k < 4056 * m, k < R → a.data k = chunkByte chunks k) :
    (a.push R rid (chunks m)).offset = 4056 * (m + 1) ∧ (a.push R rid (chunks m)).first = m + 1 ∧
      ∀ k < 4056 * (m + 1), k < R → (a.push R rid (chunks m)).data k = chunkByte chunks k := by
  refine ⟨?_, ?_, fun k hk hR => ?_⟩
  · unfold push connect
    dsimp only
    omega
  · unfold push connect
    rw [hfirst]
  · unfold push connect
    dsimp only
    rw [hoffset, hfirst]
    have hlen : ∀ n, 4056 * m ≤ n → n < 4056 * (m + 1) → n < R →
        n < 4056 * m + if R - 4056 * m > 4056 then 4056 else R - 4056 * m := by
      intro n _ _ _
      split <;> omega
    by_cases hm : m = 0
    · subst hm
      rw [if_pos rfl, Pointed.copy, if_pos ⟨Nat.zero_le _, hlen k (Nat.zero_le _) hk hR⟩, chunkByte, if_pos (by omega),
        Nat.sub_zero]
    · rw [if_neg hm, Pointed.copy]
      by_cases hk' : k < 4056 * m
      · rw [if_neg (fun h => Nat.not_le.mpr hk' h.1)]
        exact filled k hk' hR
      · have hge : 4056 * m ≤ k := Nat.not_lt.mp hk'
        have hdiv : k / 4056 = m := by omega
        have hmod : k % 4056 = k - 4056 * m := by omega
        rw [if_pos ⟨hge, hlen k hge hk hR⟩, chunkByte, if_neg (by omega), hdiv, hmod]

theorem pushAll_data {chunks : Nat → Pointed} {pointed : RID → Pointed} {rids : List RID} :
    ∀ {a : Assembly} {m : Nat}, a.offset = 4056 * m → a.first = m →
      (∀ k < 4056 * m, k < R → a.data k = chunkByte chunks k) →
      (∀ i rid, rids[i]? = some rid → pointed rid = chunks (m + i)) →
      ∀ k < 4056 * (m + rids.length), k < R →
        (rids.foldl (fun (a : Assembly) rid => a.push R rid (pointed rid)) a).data k = chunkByte chunks k := by
  induction rids with
  | nil =>
    intro a m _ _ filled _ k hk hR
    exact filled k hk hR
  | cons rid rids ih =>
    intro a m hoffset hfirst filled hchunks k hk hR
    rw [foldl_cons, hchunks 0 rid rfl, Nat.add_zero]
    obtain ⟨hoffset', hfirst', filled'⟩ := push_data rid hoffset hfirst filled
    refine ih hoffset' hfirst' filled' (fun i rid' hrid => ?_) k ?_ hR
    · rw [Nat.add_assoc, Nat.add_comm 1]
      exact hchunks (i + 1) rid' hrid
    · rw [Nat.add_assoc, Nat.add_comm 1]
      exact hk

end Assembly

theorem le_perSize (R : Nat) : R ≤ 4056 * perSize R := by
  unfold perSize
  omega

namespace LargeTable
variable {t : LargeTable} {ps : List PageNum}

def chunkRids (ps : List PageNum) : List RID := ps.map fun p => ⟨p, 0⟩

def chunksAt (t : LargeTable) (ps : List PageNum) (i : Nat) : Pointed := t.pointed ⟨ps.getD i 0, 0⟩

theorem length_assemble (rids : List RID) : (t.assemble rids).length = t.recordSize := firstN_length _ _

theorem chunk_le_length (t : LargeTable) (rids : List RID) (i : Nat) :
    t.recordSize - 4056 * i ≤ (t.assemble rids).length := by
  rw [length_assemble]
  exact Nat.sub_le _ _

theorem getD_assemble (number : ps.length = perSize t.recordSize) {k : Nat} (hk : k < t.recordSize) :
    (t.assemble (chunkRids ps)).getD k 0 = chunkByte (t.chunksAt ps) k := by
  unfold assemble assembly
  rw [getD_firstN _ hk]
  refine Assembly.pushAll_data (m := 0) rfl rfl (fun k hk => absurd hk (Nat.not_lt_zero k))
    (fun i rid hrid => ?_) k ?_ hk
  · rw [chunkRids, getElem?_map] at hrid
    obtain ⟨p, hp, rfl⟩ := Option.map_eq_some_iff.mp hrid
    rw [chunksAt, Nat.zero_add, getD_eq_getElem?_getD, hp, Option.getD_some]
  · rw [chunkRids, length_map, number, Nat.zero_add]
    exact hk.trans_le (le_perSize _)

theorem updateRecord_chunk {f : RecordFile} {p : PageNum} {d : PageData} (hget : f.pages.get p = some d)
    (chunk : ChunkPage d) (data : Bytes) :
    f.updateRecord ⟨p, 0⟩ data = (.ok (), { f with pages := f.pages.set p (d.writeBytes 24 (data.take 4056)) }) := by
  have hpage : d.updateRecord 0 data = .ok (d.writeBytes 24 (data.take 4056)) := by
    unfold PageData.updateRecord
    rw [chunk.checkSlot, Int.toNat_zero, chunk.recordOffset, chunk.formatted.realSize]
    rfl
  unfold RecordFile.updateRecord
  rw [hget]
  dsimp only
  rw [hpage]

theorem writeChunks_pages {page : Nat → PageNum} (data : Nat → Bytes) {is : List Nat} : ∀ {f : RecordFile},
    (∀ i ∈ is, ∃ d, f.pages.get (page i) = some d ∧ ChunkPage d) → (is.map page).Nodup →
    (∀ i ∈ is, ∀ d, f.pages.get (page i) = some d →
      (RecordFile.writeChunks (is.map fun i => (⟨page i, 0⟩, data i)) f).2.pages.get (page i) =
        some (d.writeBytes 24 ((data i).take 4056))) ∧
      ∀ q, q ∉ is.map page →
        (RecordFile.writeChunks (is.map fun i => (⟨page i, 0⟩, data i)) f).2.pages.get q = f.pages.get q := by
  induction is with
  | nil =>
    intro f _ _
    exact ⟨fun i hi => absurd hi not_mem_nil, fun _ _ => rfl⟩
  | cons i is ih =>
    intro f chunks distinct
    obtain ⟨fresh, distinct⟩ := nodup_cons.mp distinct
    obtain ⟨d, hget, chunk⟩ := chunks i mem_cons_self
    have hother : ∀ q, q ≠ page i → (f.pages.set (page i) (d.writeBytes 24 ((data i).take 4056))).get q =
      f.pages.get q :=
      fun q hq => if_neg hq
    have hne : ∀ j ∈ is, page j ≠ page i := fun j hj heq => fresh (heq ▸ mem_map_of_mem hj)
    rw [map_cons, RecordFile.writeChunks, updateRecord_chunk hget chunk]
    obtain ⟨hwritten, hkept⟩ :=
      ih (f := { f with pages := f.pages.set (page i) (d.writeBytes 24 ((data i).take 4056)) }) (fun j hj => by
        obtain ⟨e, he, chunk'⟩ := chunks j (mem_cons_of_mem i hj)
        exact ⟨e, (hother _ (hne j hj)).trans he, chunk'⟩) distinct
    constructor
    · intro j hj e he
      rcases mem_cons.mp hj with rfl | hj
      · rw [hkept _ fresh, Option.some.inj (hget.symm.trans he)]
        exact if_pos rfl
      · exact hwritten j hj e ((hother _ (hne j hj)).trans he)
    · intro q hq
      obtain ⟨hqi, hqis⟩ := not_or.mp (mt mem_cons.mpr hq)
      rw [hkept q hqis]
      exact hother q hqi

structure Chunked (t : LargeTable) (ps : List PageNum) : Prop where
  large : 4056 < t.recordSize
  number : ps.length = perSize t.recordSize
  distinct : ps.Nodup
  pages : ∀ p ∈ ps, ∃ d, t.file.pages.get p = some d ∧ ChunkPage d

def withChunks (t : LargeTable) (ps : List PageNum) (data : Nat → Bytes) : LargeTable :=
  { t with file := (RecordFile.writeChunks ((List.range ps.length).map fun i => (⟨ps.getD i 0, 0⟩, data i)) t.file).2 }

theorem range_map_getD (ps : List PageNum) : (List.range ps.length).map (fun i => ps.getD i 0) = ps := by
  refine ext_getElem (by rw [length_map, length_range]) fun i hi hi' => ?_
  rw [getElem_map, getElem_range, getD_eq_getElem _ _ hi']

theorem Chunked.chunksAt_withChunks (chunked : Chunked t ps) {data : Nat → Bytes} {i : Nat} (hi : i < ps.length)
    (hdata : 4056 ≤ (data i).length) (j : Nat) :
    (t.withChunks ps data).chunksAt ps i j = if j < 4056 then (data i).getD j 0 else t.chunksAt ps i j := by
  have hpage : ∀ i ∈ List.range ps.length, ∃ d, t.file.pages.get (ps.getD i 0) = some d ∧ ChunkPage d := by
    intro i hi
    have hi := mem_range.mp hi
    rw [getD_eq_getElem _ _ hi]
    exact chunked.pages _ (getElem_mem hi)
  obtain ⟨hwritten, -⟩ := writeChunks_pages data hpage ((range_map_getD ps).symm ▸ chunked.distinct)
  obtain ⟨d, hget, chunk⟩ := hpage i (mem_range.mpr hi)
  have hnew : (t.withChunks ps data).file.pages.get (ps.getD i 0) = some (d.writeBytes 24 ((data i).take 4056)) :=
    hwritten i (mem_range.mpr hi) d hget
  unfold chunksAt
  rw [pointed_of_get hnew (chunk.write _), pointed_of_get hget chunk, writeBytes, length_take, Nat.min_eq_left hdata]
  have hroom : bpPageDataSize = 4092 := rfl
  by_cases hj : j < 4056
  · rw [if_pos hj, if_pos ⟨by omega, by omega, by omega⟩, Nat.add_sub_cancel_left, getD_eq_getElem?_getD,
      getElem?_take_of_lt hj, ← getD_eq_getElem?_getD]
  · rw [if_neg hj, if_neg (fun h => hj (by omega))]

theorem Chunked.getD_withChunks (chunked : Chunked t ps) {data : Nat → Bytes}
    (hdata : ∀ i < ps.length, 4056 ≤ (data i).length) {k : Nat} (hk : k < t.recordSize) :
    ((t.withChunks ps data).assemble (chunkRids ps)).getD k 0 = if k < 4056 then (data 0).getD k 0
      else if k % 4056 + 4 < 4056 then (data (k / 4056)).getD (k % 4056 + 4) 0
        else (t.assemble (chunkRids ps)).getD k 0 := by
  have hlen : t.recordSize ≤ 4056 * ps.length := chunked.number ▸ le_perSize _
  have hsize : (t.withChunks ps data).recordSize = t.recordSize := rfl
  rw [getD_assemble (t := t.withChunks ps data) (hsize.symm ▸ chunked.number) hk, getD_assemble chunked.number hk,
    chunkByte, chunkByte]
  by_cases hfirst : k < 4056
  · have hpos : 0 < ps.length := by omega
    rw [if_pos hfirst, if_pos hfirst, chunked.chunksAt_withChunks hpos (hdata 0 hpos), if_pos hfirst]
  · have hlt : k / 4056 < ps.length := by omega
    rw [if_neg hfirst, if_neg hfirst, if_neg hfirst, chunked.chunksAt_withChunks hlt (hdata _ hlt)]

end LargeTable

/-- A chunk of `split_record`, with `total` bytes left to copy. -/
def splitChunk (record : Bytes) (total : Nat) : Bytes :=
  record.take (if total > 4056 then 4056 else total) ++ List.replicate (4056 - if total > 4056 then 4056 else total) 0

theorem perSize_succ (h : total ≠ 0) : perSize total = perSize (total - 4056) + 1 := by
  unfold perSize
  omega

theorem splitLoop_eq (record : Bytes) (rids : List RID) (total count : Nat) :
    splitLoop record rids total count =
      (List.range (perSize total)).map fun i => (rids.getD (count + i) ⟨0, 0⟩,
        splitChunk record (total - 4056 * i)) := by
  induction total using Nat.strongRecOn generalizing count with
  | ind total ih =>
    rw [splitLoop]
    by_cases hzero : total = 0
    · rw [if_pos hzero, hzero]
      rfl
    · rw [if_neg hzero, perSize_succ hzero, range_succ_eq_map, map_cons, map_map, ih (total - 4056) (by omega)]
      refine congrArg₂ List.cons rfl (map_congr_left fun i _ => ?_)
      have htotal : total - 4056 - 4056 * i = total - 4056 * (i + 1) := by omega
      rw [Function.comp_apply, Nat.add_right_comm, Nat.add_assoc, htotal]

theorem length_splitChunk {record : Bytes} (h : total ≤ record.length) : (splitChunk record total).length = 4056 := by
  unfold splitChunk
  rw [length_append, length_take, length_replicate]
  split <;> omega

theorem getD_splitChunk {record : Bytes} {j : Nat} (h : total ≤ record.length) (hj : j < 4056) :
    (splitChunk record total).getD j 0 = if j < total then record.getD j 0 else 0 := by
  unfold splitChunk
  have hlen : (record.take (if total > 4056 then 4056 else total)).length = if total > 4056 then 4056 else total := by
    rw [length_take]
    split <;> omega
  by_cases htotal : j < total
  · have hin : j < if total > 4056 then 4056 else total := by split <;> omega
    rw [if_pos htotal, getD_append _ _ _ _ (hlen.symm ▸ hin), getD_eq_getElem?_getD, getElem?_take_of_lt hin,
      ← getD_eq_getElem?_getD]
  · have hout : (if total > 4056 then 4056 else total) ≤ j := by split <;> omega
    have hzero : ∀ (c : Prop) [Decidable c], (if c then some (0 : UInt8) else none).getD 0 = 0 := fun c _ => by
      split <;> rfl
    rw [if_neg htotal, getD_append_right _ _ _ _ (hlen.symm ▸ hout), getD_eq_getElem?_getD, getElem?_replicate, hzero]

theorem getD_writeAt {data bytes : Bytes} {off : Nat} (h : off + bytes.length ≤ data.length) (j : Nat) :
    (writeAt data off bytes).getD j 0 = if off ≤ j ∧ j < off + bytes.length then bytes.getD (j - off) 0
      else data.getD j 0 := by
  have htake : (data.take off).length = off := by
    rw [length_take]
    omega
  unfold writeAt
  rw [append_assoc]
  rcases Nat.lt_or_ge j off with hj | hj
  · rw [if_neg (fun h => Nat.not_le.mpr hj h.1), getD_append _ _ _ _ (htake.symm ▸ hj), getD_eq_getElem?_getD,
      getElem?_take_of_lt hj, ← getD_eq_getElem?_getD]
  · rw [getD_append_right _ _ _ _ (htake.symm ▸ hj), htake]
    rcases Nat.lt_or_ge (j - off) bytes.length with hin | hout
    · rw [if_pos ⟨hj, by omega⟩, getD_append _ _ _ _ hin]
    · have hrest : off + bytes.length + (j - off - bytes.length) = j := by omega
      rw [if_neg (fun h => by omega), getD_append_right _ _ _ _ hout, getD_eq_getElem?_getD, getElem?_drop, hrest,
        ← getD_eq_getElem?_getD]

theorem length_writeAt {data bytes : Bytes} {off : Nat} (h : off + bytes.length ≤ data.length) :
    (writeAt data off bytes).length = data.length := by
  unfold writeAt
  rw [length_append, length_append, length_take, length_drop]
  omega

theorem getD_updateChunk {chunk : Bytes} (hchunk : chunk.length = 4056) (large : 4056 < R)
    (memory : R ≤ 4056 + behind.length) (column : offset + literal.length ≤ R) :
    4056 ≤ (updateChunk R offset literal behind chunk).length ∧
      ∀ j < 4056, (updateChunk R offset literal behind chunk).getD j 0 =
        if offset ≤ j ∧ j < offset + literal.length then literal.getD (j - offset) 0 else chunk.getD j 0 := by
  have hcopy : ((chunk ++ behind).take R).length = R := by
    rw [length_take, length_append]
    omega
  unfold updateChunk
  constructor
  · rw [length_writeAt (hcopy.symm ▸ column), hcopy]
    exact large.le
  · intro j hj
    have hbyte : ((chunk ++ behind).take R).getD j 0 = chunk.getD j 0 := by
      rw [getD_eq_getElem?_getD, getElem?_take_of_lt (hj.trans large), ← getD_eq_getElem?_getD,
        getD_append _ _ _ _ (hchunk.symm ▸ hj)]
    rw [getD_writeAt (hcopy.symm ▸ column), hbyte]

namespace LargeTable
variable {t : LargeTable} {ps : List PageNum} {k : Nat}

theorem getD_chunkRids (ps : List PageNum) (i : Nat) : (chunkRids ps).getD i ⟨0, 0⟩ = ⟨ps.getD i 0, 0⟩ := by
  unfold chunkRids
  rw [getD_eq_getElem?_getD, getD_eq_getElem?_getD, getElem?_map]
  cases ps[i]? with
  | none => rfl
  | some p => rfl

theorem Chunked.splitRecord_eq (chunked : Chunked t ps) :
    splitRecord (t.assemble (chunkRids ps)) (chunkRids ps) = (List.range ps.length).map fun i =>
      (⟨ps.getD i 0, 0⟩, splitChunk (t.assemble (chunkRids ps)) (t.recordSize - 4056 * i)) := by
  unfold splitRecord
  rw [splitLoop_eq, length_assemble, ← chunked.number]
  refine map_congr_left fun i _ => ?_
  rw [Nat.zero_add, getD_chunkRids]

def SplitsBack (t : LargeTable) (ps : List PageNum) : Prop :=
  (splitRecord (t.assemble (chunkRids ps)) (chunkRids ps)).map Prod.fst = chunkRids ps ∧
    (t.rewrite (chunkRids ps)).assemble (chunkRids ps) = t.assemble (chunkRids ps)

/-- An update of the column at `offset` leaves the other bytes of a record as they are. -/
def UpdatesOnly (t : LargeTable) (ps : List PageNum) (offset : Nat) (literal behind : Bytes) : Prop :=
  ∀ k < t.recordSize, ¬(offset ≤ k ∧ k < offset + literal.length) →
    ((t.updateLarge (chunkRids ps) offset literal behind).assemble (chunkRids ps)).getD k 0 =
      (t.assemble (chunkRids ps)).getD k 0

/-- Every later part of the record repeats its beginning, moved by four bytes and with zeros at the end of the record,
    and where the column has its place in the beginning, it has the literal. -/
def Repeats (R : Nat) (record : Bytes) (offset : Nat) (literal : Bytes) : Prop :=
  ∀ k, 4056 ≤ k → k < R → k % 4056 + 4 < 4056 →
    record.getD k 0 = (if k + 4 < R then record.getD (k % 4056 + 4) 0 else 0) ∧
    (offset ≤ k % 4056 + 4 → k % 4056 + 4 < offset + literal.length → ¬(offset ≤ k ∧ k < offset + literal.length) →
      record.getD k 0 = literal.getD (k % 4056 + 4 - offset) 0)

theorem eq_of_getD {b b' : Bytes} (length : b.length = b'.length) (h : ∀ k < b.length, b.getD k 0 = b'.getD k 0) :
    b = b' := by
  refine ext_getElem length fun k hk hk' => ?_
  have hbyte := h k hk
  rwa [getD_eq_getElem _ _ hk, getD_eq_getElem _ _ hk'] at hbyte

theorem Chunked.getD_rewrite (chunked : Chunked t ps) (hk : k < t.recordSize) :
    ((t.rewrite (chunkRids ps)).assemble (chunkRids ps)).getD k 0 =
      if 4056 ≤ k ∧ k % 4056 + 4 < 4056 then if k + 4 < t.recordSize then
        (t.assemble (chunkRids ps)).getD (k % 4056 + 4) 0 else 0
      else (t.assemble (chunkRids ps)).getD k 0 := by
  have hlength := chunk_le_length t (chunkRids ps)
  have hrewrite : t.rewrite (chunkRids ps) =
      t.withChunks ps fun i => splitChunk (t.assemble (chunkRids ps)) (t.recordSize - 4056 * i) := by
    unfold rewrite withChunks
    rw [chunked.splitRecord_eq]
  rw [hrewrite, chunked.getD_withChunks (fun i _ => (length_splitChunk (hlength i)).ge) hk]
  by_cases hfirst : k < 4056
  · rw [if_pos hfirst, if_neg (fun h => Nat.not_le.mpr hfirst h.1), getD_splitChunk (hlength 0) hfirst,
      if_pos (by omega)]
  · by_cases hinside : k % 4056 + 4 < 4056
    · rw [if_neg hfirst, if_pos hinside, if_pos ⟨Nat.not_lt.mp hfirst, hinside⟩, getD_splitChunk (hlength _) hinside]
      refine if_congr ?_ rfl rfl
      omega
    · rw [if_neg hfirst, if_neg hinside, if_neg (fun h => hinside h.2)]

theorem Chunked.getD_updateLarge (chunked : Chunked t ps)
    (memory : t.recordSize ≤ 4056 + behind.length) (column : offset + literal.length ≤ t.recordSize)
    (hk : k < t.recordSize) (outside : ¬(offset ≤ k ∧ k < offset + literal.length)) :
    ((t.updateLarge (chunkRids ps) offset literal behind).assemble (chunkRids ps)).getD k 0 =
      if 4056 ≤ k ∧ k % 4056 + 4 < 4056 then
        if offset ≤ k % 4056 + 4 ∧ k % 4056 + 4 < offset + literal.length then literal.getD (k % 4056 + 4 - offset) 0
        else if k + 4 < t.recordSize then (t.assemble (chunkRids ps)).getD (k % 4056 + 4) 0 else 0
      else (t.assemble (chunkRids ps)).getD k 0 := by
  have hlength := chunk_le_length t (chunkRids ps)
  have hchunk := fun i => getD_updateChunk (length_splitChunk (hlength i)) chunked.large memory column
  have hupdate : t.updateLarge (chunkRids ps) offset literal behind = t.withChunks ps fun i =>
      updateChunk t.recordSize offset literal behind
          (splitChunk (t.assemble (chunkRids ps)) (t.recordSize - 4056 * i)) := by
    unfold updateLarge withChunks
    rw [chunked.splitRecord_eq, map_map]
    rfl
  rw [hupdate, chunked.getD_withChunks (fun i _ => (hchunk i).1) hk]
  by_cases hfirst : k < 4056
  · rw [if_pos hfirst, if_neg (fun h => Nat.not_le.mpr hfirst h.1), (hchunk 0).2 k hfirst, if_neg outside,
      getD_splitChunk (hlength 0) hfirst, if_pos (by omega)]
  · by_cases hinside : k % 4056 + 4 < 4056
    · rw [if_neg hfirst, if_pos hinside, if_pos ⟨Nat.not_lt.mp hfirst, hinside⟩, (hchunk _).2 _ hinside,
        getD_splitChunk (hlength _) hinside]
      refine if_congr Iff.rfl rfl (if_congr ?_ rfl rfl)
      omega
    · rw [if_neg hfirst, if_neg hinside, if_neg (fun h => hinside h.2)]

/-- The chunks of `split_record` give a large record back, and an update changes nothing but its column, if and only if
    the record repeats its beginning. -/
theorem largeUpdate_iff (chunked : Chunked t ps) {offset : Nat} {literal behind : Bytes}
    (column : offset + literal.length ≤ t.recordSize) (memory : t.recordSize ≤ 4056 + behind.length) :
    (SplitsBack t ps ∧ UpdatesOnly t ps offset literal behind) ↔
      Repeats t.recordSize (t.assemble (chunkRids ps)) offset literal := by
  constructor
  · rintro ⟨⟨-, back⟩, only⟩ k hk hR hinside
    constructor
    · have hbyte := chunked.getD_rewrite hR
      rw [back, if_pos ⟨hk, hinside⟩] at hbyte
      exact hbyte
    · intro low high outside
      have hbyte := chunked.getD_updateLarge memory column hR outside
      rw [only k hR outside, if_pos ⟨hk, hinside⟩, if_pos ⟨low, high⟩] at hbyte
      exact hbyte
  · intro repeats
    refine ⟨⟨?_, eq_of_getD ?_ fun k hk => ?_⟩, fun k hk outside => ?_⟩
    · have hrids : chunkRids ((List.range ps.length).map fun i => ps.getD i 0) = chunkRids ps :=
        congrArg _ (range_map_getD ps)
      rw [chunked.splitRecord_eq, map_map]
      refine Eq.trans ?_ hrids
      unfold chunkRids
      rw [map_map]
      rfl
    · rw [length_assemble, length_assemble]
      rfl
    · have hk : k < t.recordSize := by rwa [length_assemble] at hk
      rw [chunked.getD_rewrite hk]
      split
      next h => exact (repeats k h.1 hk h.2).1.symm
      next => rfl
    · rw [chunked.getD_updateLarge memory column hk outside]
      split
      next h =>
        split
        next hcolumn => exact ((repeats k h.1 hk h.2).2 hcolumn.1 hcolumn.2 outside).symm
        next => exact (repeats k h.1 hk h.2).1.symm
      next => rfl

def chunkPage (c : Nat → UInt8) : PageData := fun i =>
  if i < 24 then [1, 0, 0, 0, 1, 0, 0, 0, 216, 15, 0, 0, 216, 15, 0, 0, 24, 0, 0, 0, 1, 0, 0, 0].getD i 0
    else c (i - 24)

theorem chunkPage_chunk (c : Nat → UInt8) : ChunkPage (chunkPage c) := by
  have hzero : ChunkPage (chunkPage fun _ => 0) :=
    ⟨⟨by decide +kernel, by decide +kernel, by decide +kernel, by decide +kernel, by decide +kernel⟩, by decide +kernel⟩
  exact hzero.of_header fun i hi => (if_pos hi).trans (if_pos hi).symm

def twoPages (a b : Nat → UInt8) : LargeTable where
  recordSize := 5000
  file := {
    pages := ((RecordFile.created (fun _ => 0) firstFree).pages.set 1 (chunkPage a)).set 2 (chunkPage b)
    cursor := ⟨none, false⟩
    alloc := firstFree }
  trx := ⟨0, []⟩
  lastId := 0
  first := 0
  rollbackRids := []

section TwoPages
variable (a b : Nat → UInt8)

theorem twoPages_chunked : Chunked (twoPages a b) [1, 2] where
  large := (by decide : 4056 < 5000)
  number := (by decide : 2 = perSize 5000)
  distinct := by decide
  pages p hp := by
    rcases mem_cons.mp hp with rfl | hp
    · exact ⟨chunkPage a, rfl, chunkPage_chunk a⟩
    · rw [mem_singleton.mp hp]
      exact ⟨chunkPage b, rfl, chunkPage_chunk b⟩

theorem chunkPage_byte (c : Nat → UInt8) (j : Nat) : chunkPage c (24 + j) = c j := by
  rw [chunkPage, if_neg (by omega), Nat.add_sub_cancel_left]

theorem twoPages_byte (hk : k < 5000) :
    ((twoPages a b).assemble (chunkRids [1, 2])).getD k 0 = if k < 4056 then a k else b (k % 4056 + 4) := by
  have hfirst : ∀ j, (twoPages a b).chunksAt [1, 2] 0 j = a j := fun j =>
    (pointed_of_get (d := chunkPage a) rfl (chunkPage_chunk a) j).trans (chunkPage_byte a j)
  have hsecond : ∀ j, (twoPages a b).chunksAt [1, 2] 1 j = b j := fun j =>
    (pointed_of_get (d := chunkPage b) rfl (chunkPage_chunk b) j).trans (chunkPage_byte b j)
  rw [getD_assemble (t := twoPages a b) (twoPages_chunked a b).number hk, chunkByte]
  by_cases hk' : k < 4056
  · rw [if_pos hk', if_pos hk', hfirst]
  · have hdiv : k / 4056 = 1 := by omega
    rw [if_neg hk', if_neg hk', hdiv, hsecond]

end TwoPages

/-- A record of 4996 letters `a` and four zeros. -/
def letters : LargeTable := twoPages (fun _ => 97) fun j => if j < 944 then 97 else 0

theorem largeUpdate_letters :
    (SplitsBack letters [1, 2] ∧ UpdatesOnly letters [1, 2] 2000 [98, 99] (List.replicate 944 0)) ∧
      (letters.assemble (chunkRids [1, 2])).getD 2001 0 = 97 ∧
      ((letters.updateLarge (chunkRids [1, 2]) 2000 [98, 99] (List.replicate 944 0)).assemble (chunkRids [1, 2])).getD
        2001 0 = 99 := by
  have memory : letters.recordSize ≤ 4056 + (List.replicate 944 (0 : UInt8)).length := by
    rw [length_replicate]
    decide
  have column : 2000 + [98, 99].length ≤ letters.recordSize := show 2002 ≤ 5000 by omega
  have repeats : Repeats letters.recordSize (letters.assemble (chunkRids [1, 2])) 2000 [98, 99] := by
    intro k hk hR hinside
    have hR : k < 5000 := hR
    refine ⟨?_, fun low _ _ => absurd low (by omega)⟩
    show (letters.assemble _).getD k 0 = if k + 4 < 5000 then (letters.assemble _).getD (k % 4056 + 4) 0 else 0
    rw [letters, twoPages_byte _ _ hR, twoPages_byte _ _ (by omega), if_neg (by omega), if_pos hinside]
    exact if_congr (by omega) rfl rfl
  refine ⟨(largeUpdate_iff (twoPages_chunked _ _) column memory).mpr repeats, ?_, by decide +kernel⟩
  exact twoPages_byte _ _ (by omega)

/-- A record of 4056 bytes `a` and 944 bytes `b` comes back with an `a` in place of its first `b`. -/
theorem splitRecord_mixes :
    let t := twoPages (fun _ => 97) fun _ => 98
    (t.assemble (chunkRids [1, 2])).getD 4056 0 = 98 ∧
      ((t.rewrite (chunkRids [1, 2])).assemble (chunkRids [1, 2])).getD 4056 0 = 97 ∧ ¬SplitsBack t [1, 2] := by
  intro t
  have hbefore : (t.assemble (chunkRids [1, 2])).getD 4056 0 = 98 := twoPages_byte _ _ (by decide)
  have hafter : ((t.rewrite (chunkRids [1, 2])).assemble (chunkRids [1, 2])).getD 4056 0 = 97 :=
    ((twoPages_chunked _ _).getD_rewrite (k := 4056) (by decide)).trans
      (twoPages_byte (fun _ => 97) (fun _ => 98) (k := 4) (by decide))
  refine ⟨hbefore, hafter, fun back => ?_⟩
  rw [back.2, hbefore] at hafter
  exact absurd hafter (by decide)

end LargeTable

end MiniOb
