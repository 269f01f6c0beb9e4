import MiniOb.Theorems.DateLiterals

/-! # Dates of the calendar

`validate_data_format` takes a text that goes on behind the date, and 29 February of every century. `from_raw_data`
counts seconds in 32 bits, which end on 7 February 2106. -/

namespace MiniOb
variable {year n high val : Nat} {s : Bytes}

def Day.Exists (t : Day) : Prop := (1 ≤ t.month ∧ t.month ≤ 12) ∧ 1 ≤ t.day ∧ t.day ≤ monthDays t.year t.month

instance (t : Day) : Decidable t.Exists := inferInstanceAs (Decidable (_ ∧ _))

def readDate (s : Bytes) : Option (Day × Bytes) := do
  let (year, s) ← getNumber 0 9999 4 s
  let s ← matchDash s
  let (month, s) ← getNumber 1 12 2 s
  let s ← matchDash s
  let (day, s) ← getNumber 1 31 2 s
  some (⟨year, month, day⟩, s)

theorem strptime_eq (s : Bytes) : strptime s = (readDate s).map Prod.fst := by
  simp [strptime, readDate, Option.map_bind]

def Day.CenturyLeapDay (t : Day) : Prop := t.month = 2 ∧ t.day = 29 ∧ t.year % 100 = 0 ∧ t.year % 400 ≠ 0

theorem checkDateManually_iff {t : Day} (hmonth : 1 ≤ t.month ∧ t.month ≤ 12) (hday : 1 ≤ t.day ∧ t.day ≤ 31) :
    checkDateManually t = true ↔ 1970 ≤ t.year ∧ (t.Exists ∨ t.CenturyLeapDay) := by
  unfold checkDateManually Day.Exists Day.CenturyLeapDay monthDays
  split_ifs <;> simp <;> omega

/-- A text is accepted exactly if it is a day of the calendar from 1970 on as a whole, as long as nothing stands behind
    such a day and it is not the leap day that a century lacks. -/
theorem validates_iff (s : Bytes) :
    ((∃ t, validateDataFormat s = some t) ↔ ∃ t, readDate s = some (t, []) ∧ t.Exists ∧ 1970 ≤ t.year) ↔
      ∀ t rest, readDate s = some (t, rest) → 1970 ≤ t.year → (t.Exists → rest = []) ∧ ¬t.CenturyLeapDay := by
  unfold validateDataFormat
  cases hread : readDate s with
  | none => simp [strptime_eq, hread]
  | some p =>
    obtain ⟨t, rest⟩ := p
    have hs : strptime s = some t := by rw [strptime_eq, hread]; rfl
    obtain ⟨-, -, hmonth, hday⟩ := strptime_consumes hs
    have hcentury : t.CenturyLeapDay → ¬t.Exists := by
      unfold Day.Exists Day.CenturyLeapDay monthDays
      split_ifs <;> omega
    have hcheck := checkDateManually_iff hmonth hday
    rw [hs]
    by_cases hyear : 1970 ≤ t.year
    · by_cases hold : t.Exists
      · have hnot : ¬t.CenturyLeapDay := fun h => hcentury h hold
        simp [hcheck, hyear, hold, hnot]
      · simp [hcheck, hyear, hold]
    · simp [hcheck, hyear]

/-- `2021-01-01x` and `2100-02-29` are accepted. -/
theorem accepted_no_dates :
    validateDataFormat [50, 48, 50, 49, 45, 48, 49, 45, 48, 49, 120] = some ⟨2021, 1, 1⟩ ∧
      readDate [50, 48, 50, 49, 45, 48, 49, 45, 48, 49, 120] = some (⟨2021, 1, 1⟩, [120]) ∧
      validateDataFormat [50, 49, 48, 48, 45, 48, 50, 45, 50, 57] = some ⟨2100, 2, 29⟩ ∧
      ¬(⟨2100, 2, 29⟩ : Day).Exists := by decide

section Numbers
variable {t u : Day}

def Day.Before (t u : Day) : Prop :=
  t.year < u.year ∨ t.year = u.year ∧ (t.month < u.month ∨ t.month = u.month ∧ t.day < u.day)

theorem monthDays_bounds (year month : Nat) : 1 ≤ monthDays year month ∧ monthDays year month ≤ 31 := by
  unfold monthDays
  split_ifs <;> decide

theorem daysBefore_succ {month : Nat} (low : 1 ≤ month) (high : month < 12) :
    daysBefore year (month + 1) = daysBefore year month + monthDays year month := by
  unfold daysBefore monthDays
  interval_cases month <;> simp <;> split_ifs <;> omega

theorem daysBefore_add_le (year : Nat) {month : Nat} (low : 1 ≤ month) :
    ∀ {later : Nat}, month < later → later ≤ 12 → daysBefore year month + monthDays year month ≤ daysBefore year later
  | later + 1, hlt, high => by
    rcases Nat.lt_succ_iff_lt_or_eq.mp hlt with hlt' | rfl
    · have ih := daysBefore_add_le year low hlt' (by omega)
      rw [daysBefore_succ (low.trans hlt'.le) high]
      omega
    · exact (daysBefore_succ low high).ge

def yearStart (year : Nat) : Int := 365 * ((year : Int) - 1970) + leapDays (year - 1) - leapDays 1969

theorem leapDays_succ (year : Nat) : leapDays (year + 1) = leapDays year +
    if (year + 1) % 4 = 0 ∧ ((year + 1) % 100 ≠ 0 ∨ (year + 1) % 400 = 0) then 1 else 0 := by
  have hle : year / 100 ≤ year / 4 := Nat.div_le_div_left (by decide) (by decide)
  simp only [leapDays, Nat.succ_div, Nat.dvd_iff_mod_eq_zero]
  split_ifs <;> omega

theorem yearStart_succ (h : 1970 ≤ year) :
    yearStart (year + 1) = yearStart year + daysBefore year 12 + monthDays year 12 := by
  obtain ⟨year, rfl⟩ := Nat.exists_eq_succ_of_ne_zero (show year ≠ 0 by omega)
  simp only [yearStart, Nat.succ_eq_add_one, Nat.add_sub_cancel, leapDays_succ year, daysBefore, monthDays]
  split_ifs <;> simp <;> omega

theorem yearStart_add_le (h : 1970 ≤ year) :
    ∀ {later : Nat}, year < later → yearStart year + daysBefore year 12 + monthDays year 12 ≤ yearStart later
  | later + 1, hlt => by
    rcases Nat.lt_succ_iff_lt_or_eq.mp hlt with hlt' | rfl
    · have ih := yearStart_add_le h hlt'
      rw [yearStart_succ (h.trans hlt'.le)]
      omega
    · exact (yearStart_succ h).ge

theorem number_eq (t : Day) : t.number = yearStart t.year + daysBefore t.year t.month + t.day - 1 := rfl

theorem year_le (ht : 1 ≤ t.day) (h : t.number < 2 ^ 16) : t.year ≤ 9999 := by
  have hleap : leapDays 1969 = 477 := rfl
  rw [number_eq, yearStart, hleap] at h
  omega

theorem number_lt (ht : t.Exists) (hu : u.Exists) (hyear : 1970 ≤ t.year) (h : t.Before u) : t.number < u.number := by
  obtain ⟨⟨low, high⟩, -, hday⟩ := ht
  rw [number_eq, number_eq]
  rcases h with hlt | ⟨hy, hlt | ⟨hm, hlt⟩⟩
  · have hyears := yearStart_add_le hyear hlt
    rcases Nat.lt_or_eq_of_le high with hm | hm
    · have hmonths := daysBefore_add_le t.year low hm (le_refl 12)
      have := hu.2.1
      omega
    · have := hu.2.1
      rw [hm] at hday ⊢
      omega
  · have hmonths := daysBefore_add_le t.year low hlt hu.1.2
    have := hu.2.1
    rw [← hy]
    omega
  · rw [← hy, ← hm]
    omega

theorem Day.before_trichotomy (t u : Day) : t.Before u ∨ t = u ∨ u.Before t := by
  obtain ⟨y, m, d⟩ := t
  obtain ⟨y', m', d'⟩ := u
  simp only [Before, Day.mk.injEq]
  omega

theorem number_lt_iff (ht : t.Exists) (hu : u.Exists) (hyear : 1970 ≤ t.year) (hyear' : 1970 ≤ u.year) :
    t.number < u.number ↔ t.Before u := by
  refine ⟨fun h => ?_, number_lt ht hu hyear⟩
  rcases t.before_trichotomy u with hb | rfl | hb
  · exact hb
  · omega
  · have := number_lt hu ht hyear' hb
    omega

theorem dayOf_spec : ∀ n, (dayOf n).Exists ∧ 1970 ≤ (dayOf n).year ∧ (dayOf n).number = n
  | 0 => by decide
  | n + 1 => by
    obtain ⟨⟨⟨low, high⟩, hday, hlast⟩, hyear, hnumber⟩ := dayOf_spec n
    rw [dayOf]
    generalize dayOf n = t at *
    rw [number_eq] at hnumber
    unfold Day.next
    split_ifs with hd hm
    · refine ⟨⟨⟨low, high⟩, Nat.le_add_left 1 _, hd⟩, hyear, ?_⟩
      rw [number_eq]
      push_cast
      omega
    · refine ⟨⟨⟨Nat.le_add_left 1 _, hm⟩, le_refl 1, (monthDays_bounds _ _).1⟩, hyear, ?_⟩
      rw [number_eq]
      dsimp only
      rw [daysBefore_succ low hm]
      omega
    · have htwelve : t.month = 12 := by omega
      rw [htwelve] at hnumber hlast hd
      refine ⟨⟨⟨le_refl 1, Nat.le_add_left 1 11⟩, le_refl 1, (monthDays_bounds _ _).1⟩, hyear.trans (Nat.le_succ _), ?_⟩
      rw [number_eq]
      dsimp only
      rw [yearStart_succ hyear]
      have : daysBefore (t.year + 1) 1 = 0 := rfl
      omega

theorem dayOf_eq_iff (ht : t.Exists) (hyear : 1970 ≤ t.year) : dayOf n = t ↔ (n : Int) = t.number := by
  obtain ⟨hold, hyear', hnumber⟩ := dayOf_spec n
  rw [← hnumber]
  refine ⟨fun h => h ▸ rfl, fun h => ?_⟩
  rcases (dayOf n).before_trichotomy t with hb | heq | hb
  · exact absurd h (number_lt hold ht hyear' hb).ne
  · exact heq
  · exact absurd h (number_lt ht hold hyear hb).ne'

end Numbers

theorem digit_spec : ∀ d < 10, UInt8.ofNat (48 + d) ≠ 32 ∧ isDigit (.ofNat (48 + d)) = true ∧
    (UInt8.ofNat (48 + d)).toNat - 48 = d := by
  decide

theorem moreDigits_digit {d : Nat} (hd : d < 10) (hval : val * 10 ≤ high) (s : Bytes) :
    moreDigits high (n + 1) val (.ofNat (48 + d) :: s) = moreDigits high n (val * 10 + d) s := by
  obtain ⟨-, hdigit, hvalue⟩ := digit_spec d hd
  rw [moreDigits, if_pos ⟨hval, hdigit⟩, hvalue]

theorem getNumber_digit {low d : Nat} {rest : Bytes} (hd : d < 10) (hmore : moreDigits high n d s = (val, rest))
    (hval : low ≤ val ∧ val ≤ high) : getNumber low high (n + 1) (.ofNat (48 + d) :: s) = some (val, rest) := by
  obtain ⟨hblank, hdigit, hvalue⟩ := digit_spec d hd
  rw [getNumber, List.dropWhile_cons, if_neg fun h => hblank (of_decide_eq_true h)]
  dsimp only
  rw [if_pos hdigit, hvalue, Nat.add_sub_cancel, hmore]
  exact if_pos hval

theorem getNumber_two {low : Nat} (hval : low ≤ val ∧ val ≤ high) (hhigh : high < 100) (rest : Bytes) :
    getNumber low high 2 (digits 2 val ++ rest) = some (val, rest) := by
  refine getNumber_digit (by omega) ?_ hval
  change moreDigits high 1 _ (.ofNat (48 + val % 10) :: rest) = _
  rw [moreDigits_digit (by omega) (by omega), show val / 10 % 10 * 10 + val % 10 = val by omega]
  cases rest <;> rfl

theorem getNumber_four (hval : val ≤ 9999) (rest : Bytes) :
    getNumber 0 9999 4 (digits 4 val ++ rest) = some (val, rest) := by
  refine getNumber_digit (by omega) ?_ ⟨Nat.zero_le _, hval⟩
  change moreDigits 9999 3 _ (.ofNat (48 + val / 10 / 10 % 10) :: .ofNat (48 + val / 10 % 10) :: .ofNat
    (48 + val % 10) :: rest) = _
  rw [moreDigits_digit (by omega) (by omega), moreDigits_digit (by omega) (by omega),
    moreDigits_digit (by omega) (by omega),
      show ((val / 10 / 10 / 10 % 10 * 10 + val / 10 / 10 % 10) * 10 + val / 10 % 10) * 10 + val % 10 = val by omega]
  cases rest <;> rfl

theorem strptime_strftime {t : Day} (hyear : t.year ≤ 9999) (hmonth : 1 ≤ t.month ∧ t.month ≤ 12)
    (hday : 1 ≤ t.day ∧ t.day ≤ 31) : strptime (strftime t) = some t := by
  have hlast := getNumber_two hday (by decide) []
  rw [List.append_nil] at hlast
  simp [strptime, strftime, getNumber_four hyear, matchDash, getNumber_two hmonth, hlast]

def TimeZone.utc8 : TimeZone := ⟨fun _ => 28800, fun _ => by decide⟩

theorem toRawData_utc8 (t : Day) : toRawData .utc8 t = t.number := by
  have hhours : mktime .utc8 t = 3600 * (t.number * 24 - 8) := by
    rw [mktime, show TimeZone.utc8.ahead t = 28800 from rfl]
    omega
  rw [toRawData, hhours, Int.mul_tdiv_cancel_left _ (by decide), Int.sub_add_cancel, Int.mul_tdiv_cancel _ (by decide)]

/-- What a `DateValue` keeps of a day. -/
def rawDays (t : Day) : Nat := (toRawData .utc8 t % 2 ^ 32).toNat

theorem rawDays_eq {t : Day} (h : validateDataFormat s = some t) : (rawDays t : Int) = t.number := by
  obtain ⟨low, high, hday⟩ := validateDataFormat_bounds h
  have := number_bounds low high hday
  rw [rawDays, toRawData_utc8]
  omega

/-- A day of the calendar that is accepted is printed as it was, exactly up to 7 February 2106; the numbers of days are
    in the order of the days. -/
theorem date_roundTrip_iff {s : Bytes} {t : Day} (ht : validateDataFormat s = some t) (hold : t.Exists) :
    (strptime (initStr (rawDays t)) = some t ↔ ¬Day.Before ⟨2106, 2, 7⟩ t) ∧
      ∀ s' u, validateDataFormat s' = some u → u.Exists → t.Before u → rawDays t < rawDays u := by
  obtain ⟨low, -, -⟩ := validateDataFormat_bounds ht
  have hraw := rawDays_eq ht
  refine ⟨?_, fun s' u hu hold' hb => ?_⟩
  · have hlast : Day.Before ⟨2106, 2, 7⟩ t ↔ (49710 : Int) < t.number :=
      (number_lt_iff (t := ⟨2106, 2, 7⟩) (by decide) hold (by decide) low).symm
    obtain ⟨⟨hmonth', hday'⟩, -, hnumber⟩ := dayOf_spec (rawDays t * 86400 % 2 ^ 32 / 86400)
    have hyear := year_le hday'.1 (by omega)
    rw [initStr, fromRawData, gmtime, strptime_strftime hyear hmonth' ⟨hday'.1, hday'.2.trans (monthDays_bounds _ _).2⟩,
      Option.some_inj, dayOf_eq_iff hold low, hlast]
    omega
  · have hlt := number_lt hold hold' low hb
    rw [← hraw, ← rawDays_eq hu] at hlt
    exact Int.ofNat_lt.mp hlt

theorem date_roundTrip_today : strptime (initStr (rawDays ⟨2021, 10, 19⟩)) = some ⟨2021, 10, 19⟩ :=
  (date_roundTrip_iff (s := [50, 48, 50, 49, 45, 49, 48, 45, 49, 57]) (by decide) (by decide)).1.mpr
    (by unfold Day.Before; decide)

/-- 8 February 2106 is printed as 1970-01-01. -/
theorem date_wraps : validateDataFormat [50, 49, 48, 54, 45, 48, 50, 45, 48, 56] = some ⟨2106, 2, 8⟩ ∧
    (⟨2106, 2, 8⟩ : Day).Exists ∧ initStr (rawDays ⟨2106, 2, 8⟩) = [49, 57, 55, 48, 45, 48, 49, 45, 48, 49] := by decide

end MiniOb
