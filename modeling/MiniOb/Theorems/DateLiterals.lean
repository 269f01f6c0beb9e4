import MiniOb.Query.ConditionFilter

/-! # Literals of dates

`DefaultConditionFilter::init` writes the number of days over the text of a date literal and leaves its type as it
was. -/

namespace MiniOb
open List ConDesc ConditionField Catalog
variable {s rest : Bytes} {t : Day} {k : Nat}

def Consumes (s rest : Bytes) (k : Nat) : Prop := ∃ p, s = p ++ rest ∧ k ≤ p.length ∧ 0 ∉ p

theorem Consumes.trans {t u : Bytes} {m : Nat} (h : Consumes s t k) (h' : Consumes t u m) : Consumes s u (k + m) := by
  obtain ⟨p, rfl, hk, hp⟩ := h
  obtain ⟨q, rfl, hm, hq⟩ := h'
  refine ⟨p ++ q, (append_assoc p q u).symm, ?_, ?_⟩
  · rw [length_append]
    exact Nat.add_le_add hk hm
  · rw [mem_append, not_or]
    exact ⟨hp, hq⟩

theorem Consumes.cons {c : UInt8} (hc : c ≠ 0) (h : Consumes s rest k) : Consumes (c :: s) rest (k + 1) := by
  obtain ⟨p, rfl, hk, hp⟩ := h
  refine ⟨c :: p, rfl, Nat.succ_le_succ hk, ?_⟩
  rw [mem_cons, not_or]
  exact ⟨hc.symm, hp⟩

theorem Consumes.refl (s : Bytes) : Consumes s s 0 := ⟨[], rfl, Nat.le_refl 0, not_mem_nil⟩

theorem Consumes.mono {m : Nat} (h : Consumes s rest k) (hm : m ≤ k) : Consumes s rest m := by
  obtain ⟨p, hs, hk, hp⟩ := h
  exact ⟨p, hs, hm.trans hk, hp⟩

theorem ne_zero_of_isDigit {c : UInt8} (h : isDigit c = true) : c ≠ 0 := by
  rintro rfl
  exact absurd h (by decide)

theorem moreDigits_consumes (high : Nat) : ∀ n val s, Consumes s (moreDigits high n val s).2 0
  | 0, _, s => .refl s
  | _ + 1, _, [] => .refl []
  | n + 1, val, c :: s => by
    rw [moreDigits]
    split
    · rename_i h
      exact ((moreDigits_consumes high n _ s).cons (ne_zero_of_isDigit h.2)).mono (Nat.zero_le _)
    · exact .refl _

theorem dropWhile_consumes : ∀ s : Bytes, Consumes s (s.dropWhile fun c => decide (c = 32)) 0
  | [] => .refl []
  | c :: s => by
    rw [dropWhile_cons]
    split
    · rename_i h
      have hc : c ≠ 0 := by
        rintro rfl
        exact absurd h (by decide)
      exact ((dropWhile_consumes s).cons hc).mono (Nat.zero_le _)
    · exact .refl _

theorem getNumber_consumes {low high n val : Nat} (h : getNumber low high n s = some (val, rest)) :
    Consumes s rest 1 ∧ low ≤ val ∧ val ≤ high := by
  have hblank := dropWhile_consumes s
  unfold getNumber at h
  split at h
  · cases h
  · rename_i c s' hs
    rw [hs] at hblank
    split at h
    · rename_i hc
      have hmore := moreDigits_consumes high (n - 1) (c.toNat - 48) s'
      rcases moreDigits high (n - 1) (c.toNat - 48) s' with ⟨val', rest'⟩
      dsimp only at h
      split at h
      · rename_i bounds
        cases h
        exact ⟨hblank.trans (hmore.cons (ne_zero_of_isDigit hc)), bounds⟩
      · cases h
    · cases h

theorem matchDash_consumes : ∀ {s rest : Bytes}, matchDash s = some rest → Consumes s rest 1
  | [], _, h => nomatch h
  | c :: s, rest, h => by
    rw [matchDash] at h
    split at h
    · rename_i hc
      cases h
      exact (Consumes.refl s).cons (by rw [hc]; decide)
    · cases h

theorem strptime_consumes (h : strptime s = some t) :
    (∃ rest, Consumes s rest 5) ∧ t.year ≤ 9999 ∧ (1 ≤ t.month ∧ t.month ≤ 12) ∧ 1 ≤ t.day ∧ t.day ≤ 31 := by
  simp only [strptime, Option.bind_eq_bind, Option.bind_eq_some_iff] at h
  obtain ⟨⟨year, s1⟩, hyear, s2, hdash, ⟨month, s3⟩, hmonth, s4, hdash', ⟨day, s5⟩, hday, ht⟩ := h
  cases ht
  obtain ⟨c1, -, hyear⟩ := getNumber_consumes hyear
  obtain ⟨c3, hmonth⟩ := getNumber_consumes hmonth
  obtain ⟨c5, hday⟩ := getNumber_consumes hday
  exact ⟨⟨s5, c1.trans ((matchDash_consumes hdash).trans (c3.trans ((matchDash_consumes hdash').trans c5)))⟩, hyear,
    hmonth, hday⟩

theorem validateDataFormat_terminated (h : s.getD 3 0 = 0) : validateDataFormat s = none := by
  unfold validateDataFormat
  split
  · rename_i t ht
    obtain ⟨⟨rest, p, rfl, hlength, hzero⟩, -⟩ := strptime_consumes ht
    rw [getD_append _ _ _ _ (by omega), getD_eq_getElem _ _ (by omega)] at h
    exact absurd (h ▸ getElem_mem _) hzero
  · rfl

theorem daysBefore_le (year month : Nat) : daysBefore year month ≤ 335 := by
  have hleap : (if year % 4 = 0 ∧ (year % 100 ≠ 0 ∨ year % 400 = 0) then 1 else 0) ≤ 1 := by
    split <;> decide
  unfold daysBefore
  generalize (if year % 4 = 0 ∧ (year % 100 ≠ 0 ∨ year % 400 = 0) then 1 else 0) = leap at hleap ⊢
  have hall : ∀ days ∈ [0, 31, 59 + leap, 90 + leap, 120 + leap, 151 + leap, 181 + leap, 212 + leap,
    243 + leap, 273 + leap,
      304 + leap, 334 + leap], days ≤ 335 := by
    simp only [forall_mem_cons, not_mem_nil, false_imp_iff, implies_true, and_true]
    omega
  dsimp only
  rw [getD_eq_getElem?_getD]
  cases hget : [0, 31, 59 + leap, 90 + leap, 120 + leap, 151 + leap, 181 + leap, 212 + leap, 243 + leap, 273 + leap,
      304 + leap, 334 + leap][month - 1]? with
  | none => exact Nat.zero_le _
  | some days => exact hall days (mem_of_getElem? hget)

theorem number_bounds (low : 1970 ≤ t.year) (high : t.year ≤ 9999) (hday : 1 ≤ t.day ∧ t.day ≤ 31) :
    0 ≤ t.number ∧ t.number < 2 ^ 22 := by
  have hbefore := daysBefore_le t.year t.month
  unfold Day.number leapDays
  omega

theorem toRawData_bounds (zone : TimeZone) (low : 1970 ≤ t.year) (high : t.year ≤ 9999)
    (hday : 1 ≤ t.day ∧ t.day ≤ 31) : 0 ≤ toRawData zone t ∧ toRawData zone t < 2 ^ 24 := by
  have hnumber := number_bounds low high hday
  have hzone := zone.within_a_day t
  have htime : -86399 ≤ mktime zone t ∧ mktime zone t ≤ 2 ^ 22 * 86400 := by
    unfold mktime
    omega
  have hhours : -23 ≤ (mktime zone t).tdiv 3600 ∧ (mktime zone t).tdiv 3600 ≤ 2 ^ 22 * 24 :=
    ⟨Int.tdiv_le_tdiv (by decide) htime.1, Int.tdiv_le_tdiv (by decide) htime.2⟩
  have hlow : Int.tdiv (-15) 24 ≤ toRawData zone t := Int.tdiv_le_tdiv (by decide) (by omega)
  have hhigh : toRawData zone t ≤ Int.tdiv (2 ^ 22 * 24 + 8) 24 := Int.tdiv_le_tdiv (by decide) (by omega)
  exact ⟨hlow, hhigh.trans_lt (by decide)⟩

theorem validateDataFormat_bounds (h : validateDataFormat s = some t) : 1970 ≤ t.year ∧ t.year ≤ 9999 ∧ 1 ≤ t.day ∧
    t.day ≤ 31 := by
  unfold validateDataFormat at h
  split at h
  · rename_i t' ht
    split at h
    · rename_i hcheck
      cases h
      obtain ⟨-, high, -, hday⟩ := strptime_consumes ht
      refine ⟨?_, high, hday⟩
      by_contra before
      rw [checkDateManually, if_pos (by omega)] at hcheck
      cases hcheck
    · cases h
  · cases h

theorem validateDataFormat_overwriteDate (zone : TimeZone) (h : validateDataFormat s = some t) :
    validateDataFormat (overwriteDate zone s t) = none := by
  obtain ⟨low, high, hday⟩ := validateDataFormat_bounds h
  have hraw := toRawData_bounds zone low high hday
  refine validateDataFormat_terminated ?_
  have hzero : (toRawData zone t % 2 ^ 32).toNat / 2 ^ 24 = 0 := by omega
  rw [overwriteDate, rawBytes, littleEndian, hzero]
  rfl

namespace ConditionField

def isText : ConditionField → Bool
  | value v => v.type = .chars
  | _ => false

def isDate (outer : Name → TableMeta) (table : TableMeta) : ConditionField → Bool
  | value _ => false
  | attr a refersOuter => ((if refersOuter then outer (a.relationName.getD []) else table).field a.attributeName).any
      fun f => f.type = .date
  | subquery q => q.resultType = .date

end ConditionField

def Condition.DatesText (outer : Name → TableMeta) (table : TableMeta) (c : Condition) : Prop :=
  (c.left.isText = true ∧ c.right.isDate outer table = true) ∨
    (c.left.isDate outer table = true ∧ c.right.isText = true)

def Condition.text (c : Condition) : Bytes :=
  match c.left, c.right with
  | .value v, _ => v.data
  | _, .value v => v.data
  | _, _ => []

/-- The two calls find the same content in what `init` does not set: an attribute sets all fields of its `ConDesc`. -/
def Condition.SameUnset (c : Condition) (unset unset' : Unset × Unset) : Prop :=
  (c.left.isAttr = false → unset.1 = unset'.1) ∧ (c.right.isAttr = false → unset.2 = unset'.2)

def Condition.rewriteDate (zone : TimeZone) (t : Day) (c : Condition) : Condition :=
  { c with left := c.left.rewriteDate zone t, right := c.right.rewriteDate zone t }

section Init
variable {outer : Name → TableMeta} {table : TableMeta} {unset : Unset} {operand : ConditionField} {d l r : ConDesc}
  {type typeLeft typeRight : AttrType} {zone : TimeZone} {t : Day} {c : Condition}

theorem ConDesc.init_kind (h : init outer table unset operand = .ok (d, type)) :
    (operand.isText = true ↔ d.isValue = true ∧ type = .chars) ∧
      (operand.isDate outer table = true ↔ d.isValue = false ∧ type = .date) := by
  cases operand with
  | value v =>
    cases h
    simp [isText, isDate, isValue]
  | subquery q =>
    cases h
    simp [isText, isDate, isValue]
  | attr a refersOuter =>
    rw [init] at h
    split at h
    · cases h
    · rename_i field hfield
      cases h
      simp [isText, isDate, isValue, hfield]

theorem ConDesc.init_same {unset' : Unset} (same : operand.isAttr = false → unset = unset') :
    init outer table unset operand = init outer table unset' operand := by
  cases operand with
  | value v => rw [same rfl]
  | subquery q => rw [same rfl]
  | attr a refersOuter => rfl

theorem ConDesc.init_unset (unset' : Unset) (h : init outer table unset operand = .ok (d, type)) :
    ∃ d', init outer table unset' operand = .ok (d', type) ∧ d'.isAttr = d.isAttr := by
  cases operand with
  | value v =>
    cases h
    exact ⟨_, rfl, rfl⟩
  | subquery q =>
    cases h
    exact ⟨_, rfl, rfl⟩
  | attr a refersOuter => exact ⟨d, h, rfl⟩

theorem datesText_iff {unset' : Unset} (hl : init outer table unset c.left = .ok (l, typeLeft))
    (hr : init outer table unset' c.right = .ok (r, typeRight)) :
    datesText l r typeLeft typeRight = true ↔ c.DatesText outer table := by
  obtain ⟨textLeft, dateLeft⟩ := init_kind hl
  obtain ⟨textRight, dateRight⟩ := init_kind hr
  unfold Condition.DatesText datesText
  rw [textLeft, dateLeft, textRight, dateRight]
  simp only [Bool.or_eq_true, Bool.and_eq_true, Bool.not_eq_true', decide_eq_true_eq]
  exact or_congr and_and_and_comm and_and_and_comm

theorem Condition.DatesText.rewriteDate (h : c.DatesText outer table) :
    (c.rewriteDate zone t).DatesText outer table := by
  have hsame : ∀ f : ConditionField, (f.rewriteDate zone t).isText = f.isText ∧
      (f.rewriteDate zone t).isDate outer table = f.isDate outer table := by
    intro f
    cases f <;> exact ⟨rfl, rfl⟩
  unfold Condition.DatesText Condition.rewriteDate
  rw [(hsame c.left).1, (hsame c.left).2, (hsame c.right).1, (hsame c.right).2]
  exact h

theorem Condition.DatesText.text_rewriteDate (h : c.DatesText outer table) :
    (c.rewriteDate zone t).text = overwriteDate zone c.text t := by
  obtain ⟨left, right, comp⟩ := c
  rcases h with ⟨hl, -⟩ | ⟨hl, hr⟩
  · cases left with
    | value v => rfl
    | attr a outer => cases hl
    | subquery q => cases hl
  · cases right with
    | value v =>
      cases left with
      | value v => cases hl
      | attr a outer => rfl
      | subquery q => rfl
    | attr a outer => cases hr
    | subquery q => cases hr

theorem ConDesc.init_ok (unset : Unset) (h : operand.isText = true ∨ operand.isDate outer table = true) :
    ∃ d type, init outer table unset operand = .ok (d, type) := by
  cases operand with
  | value v => exact ⟨_, _, rfl⟩
  | subquery q => exact ⟨_, _, rfl⟩
  | attr a refersOuter =>
    have hdate := h.resolve_left Bool.false_ne_true
    rw [isDate] at hdate
    cases hfield : (if refersOuter then outer (a.relationName.getD []) else table).field a.attributeName with
    | none =>
      rw [hfield] at hdate
      cases hdate
    | some field =>
      exact ⟨.attr a refersOuter field.offset.toNat field.nullable, field.type, by rw [init, hfield]⟩

theorem Condition.DatesText.literalText (h : c.DatesText outer table) {unset' : Unset}
    (hl : init outer table unset c.left = .ok (l, typeLeft))
    (hr : init outer table unset' c.right = .ok (r, typeRight)) : literalText l r = c.text := by
  obtain ⟨left, right, comp⟩ := c
  rcases h with ⟨isText, -⟩ | ⟨isDate, isText⟩
  · cases left with
    | value v =>
      cases hl
      rfl
    | attr a outer => cases isText
    | subquery q => cases isText
  · cases right with
    | value v =>
      cases hr
      have hvalue := ((init_kind hl).2.mp isDate).1
      cases l with
      | value unset data isNull => cases hvalue
      | attr a outer offset nullable =>
        cases left with
        | value v => cases isDate
        | attr a outer => rfl
        | subquery q => rfl
      | subquery unset q =>
        cases left with
        | value v => cases isDate
        | attr a outer => rfl
        | subquery q => rfl
    | attr a outer => cases isText
    | subquery q => cases isText

end Init

namespace DefaultConditionFilter
variable {zone : TimeZone} {outer : Name → TableMeta} {table : TableMeta} {unset : Unset × Unset} {c c' : Condition}
  {f : DefaultConditionFilter}

theorem init_unchanged (plain : ¬c.DatesText outer table) : (init zone outer table unset c).2 = c := by
  unfold init
  split
  · rfl
  · rename_i hl
    split
    · rfl
    · rename_i hr
      split
      · rfl
      · split
        · rfl
        · split
          · rename_i hdates
            exact absurd ((datesText_iff hl hr).mp hdates) plain
          · rfl

theorem init_same {unset' : Unset × Unset} (same : c.SameUnset unset unset') :
    init zone outer table unset c = init zone outer table unset' c := by
  unfold init
  rw [ConDesc.init_same same.1, ConDesc.init_same same.2]

theorem init_datesText (h : c.DatesText outer table) :
    (validateDataFormat c.text = none → (init zone outer table unset c).1 = .error .invalidArgument) ∧
      ∀ t, validateDataFormat c.text = some t → (init zone outer table unset c).2 = c.rewriteDate zone t := by
  have hkinds : (c.left.isText = true ∨ c.left.isDate outer table = true) ∧
      (c.right.isText = true ∨ c.right.isDate outer table = true) := by
    rcases h with ⟨hl, hr⟩ | ⟨hl, hr⟩
    · exact ⟨.inl hl, .inr hr⟩
    · exact ⟨.inr hl, .inl hr⟩
  obtain ⟨l, typeLeft, hl⟩ := init_ok unset.1 hkinds.1
  obtain ⟨r, typeRight, hr⟩ := init_ok unset.2 hkinds.2
  have htypes : typeLeft = .chars ∧ typeRight = .date ∨ typeLeft = .date ∧ typeRight = .chars := by
    rcases h with ⟨textLeft, dateRight⟩ | ⟨dateLeft, textRight⟩
    · exact .inl ⟨((init_kind hl).1.mp textLeft).2, ((init_kind hr).2.mp dateRight).2⟩
    · exact .inr ⟨((init_kind hl).2.mp dateLeft).2, ((init_kind hr).1.mp textRight).2⟩
  have hinit : init zone outer table unset c = (validateDataFormat c.text).elim (.error .invalidArgument, c)
      fun t => (.ok ⟨l.rewriteDate zone t, r.rewriteDate zone t, .date, c.comp, false, false⟩,
          c.rewriteDate zone t) := by
    unfold init
    rw [hl, hr]
    dsimp only
    rw [if_pos ((datesText_iff hl hr).mpr h), h.literalText hl hr]
    rcases htypes with ⟨rfl, rfl⟩ | ⟨rfl, rfl⟩ <;> cases validateDataFormat c.text <;> rfl
  refine ⟨fun hnone => ?_, fun t ht => ?_⟩
  · rw [hinit, hnone, Option.elim]
  · rw [hinit, ht, Option.elim]

theorem init_ok_unset (unset' : Unset × Unset) (plain : ¬c.DatesText outer table)
    (h : (init zone outer table unset c).1 = .ok f) : ∃ f', (init zone outer table unset' c).1 = .ok f' := by
  unfold init at h
  split at h
  · cases h
  · rename_i l typeLeft hl
    obtain ⟨l', hl', hattr⟩ := init_unset unset'.1 hl
    split at h
    · cases h
    · rename_i r typeRight hr
      obtain ⟨r', hr', hattr'⟩ := init_unset unset'.2 hr
      unfold init
      rw [hl', hr']
      dsimp only
      split at h
      · rename_i same
        exact ⟨_, by rw [if_pos same]⟩
      · rename_i differ
        rw [if_neg differ]
        split at h
        · rename_i mixed
          rw [← hattr, ← hattr'] at mixed
          exact ⟨_, by rw [if_pos mixed]⟩
        · split at h
          · rename_i hdates
            exact absurd ((datesText_iff hl hr).mp hdates) plain
          · cases h

/-- After a success a second `init` with the condition as the first one left it succeeds exactly if no DATE is compared
    with a text, whatever is in the memory of its operands; where it finds there what the first one found, that is also
    when its filter accepts the same records. -/
theorem init_repeats_iff (zone : TimeZone) (outer : Name → TableMeta) (table : TableMeta) (unset unset' : Unset × Unset)
    (c c' : Condition) (f : DefaultConditionFilter) (first : init zone outer table unset c = (.ok f, c')) :
    ((∃ f', (init zone outer table unset' c').1 = .ok f') ↔ ¬c.DatesText outer table) ∧
      (c.SameUnset unset unset' →
        ((∃ f', (init zone outer table unset' c').1 = .ok f' ∧
            ∀ std evaluate context data, f'.filter std evaluate context data = f.filter std evaluate context data) ↔
          ¬c.DatesText outer table)) := by
  have hok : (init zone outer table unset c).1 = .ok f := congrArg Prod.fst first
  have hleft : (init zone outer table unset c).2 = c' := congrArg Prod.snd first
  by_cases hdates : c.DatesText outer table
  · obtain ⟨refuses, rewrites⟩ := @init_datesText zone outer table unset c hdates
    cases ht : validateDataFormat c.text with
    | none =>
      rw [refuses ht] at hok
      cases hok
    | some t =>
      rw [← hleft, rewrites t ht]
      have hnone : validateDataFormat (c.rewriteDate zone t).text = none := by
        rw [hdates.text_rewriteDate]
        exact validateDataFormat_overwriteDate zone ht
      have hrefused : ∀ unset, (init zone outer table unset (c.rewriteDate zone t)).1 = .error .invalidArgument :=
        fun unset => (init_datesText hdates.rewriteDate).1 hnone
      refine ⟨iff_of_false ?_ (not_not.mpr hdates), fun _ => iff_of_false ?_ (not_not.mpr hdates)⟩
      · rintro ⟨f', hf'⟩
        rw [hrefused] at hf'
        cases hf'
      · rintro ⟨f', hf', -⟩
        rw [hrefused] at hf'
        cases hf'
  · rw [init_unchanged hdates] at hleft
    subst hleft
    refine ⟨iff_of_true (init_ok_unset unset' hdates hok) hdates,
      fun same => iff_of_true ⟨f, ?_, fun _ _ _ _ => rfl⟩ hdates⟩
    rw [← init_same same, hok]

def datedTable : TableMeta :=
  ⟨[116], [trxField, ⟨[100], .date, 4, 4, true, false⟩, ⟨[110], .ints, 8, 4, true, false⟩], [], [], 12⟩

def nIsOne : Condition := ⟨.attr ⟨none, [110]⟩ false, .value ⟨.ints, [1, 0, 0, 0]⟩, .equalTo⟩

theorem nIsOne_repeats : ∃ f f', (init .utc (fun _ => datedTable) datedTable (.zero, .zero) nIsOne) = (.ok f, nIsOne) ∧
    (init .utc (fun _ => datedTable) datedTable (⟨⟨none, [7]⟩, true⟩, .zero) nIsOne).1 = .ok f' ∧
    ∀ std evaluate context data, f'.filter std evaluate context data = f.filter std evaluate context data := by
  have h := init_repeats_iff .utc (fun _ => datedTable) datedTable (.zero, .zero) (⟨⟨none, [7]⟩, true⟩, .zero)
    nIsOne nIsOne _ rfl
  obtain ⟨f', hf'⟩ := (h.2 ⟨nofun, fun _ => rfl⟩).mpr (by unfold Condition.DatesText; decide)
  exact ⟨_, f', rfl, hf'⟩

def dIsNewYear : Condition := ⟨.attr ⟨none, [100]⟩ false, .value ⟨.chars, [50, 48, 50, 49, 45, 49, 45, 49]⟩, .equalTo⟩

theorem dIsNewYear_once : ∃ f c', init .utc (fun _ => datedTable) datedTable (.zero, .zero) dIsNewYear = (.ok f, c') ∧
    (init .utc (fun _ => datedTable) datedTable (.zero, .zero) c').1 = .error .invalidArgument :=
  ⟨_, _, rfl, rfl⟩

end DefaultConditionFilter

end MiniOb
