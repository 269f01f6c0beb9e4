import MiniOb.Types

/-! # Dates

The functions of `DateValue`, with the part of `strptime`, `mktime`, `gmtime_r` and `strftime` that they use. -/

namespace MiniOb

def isDigit (c : UInt8) : Bool := 48 ≤ c && c ≤ 57

/-- The further digits of a number of `strptime`: at most `n`, and none that would bring it above `high` for sure. -/
def moreDigits (high : Nat) : Nat → Nat → Bytes → Nat × Bytes
  | n + 1, val, c :: s => if val * 10 ≤ high ∧ isDigit c then moreDigits high n (val * 10 + (c.toNat - 48)) s
      else (val, c :: s)
  | _, val, s => (val, s)

/-- `get_number` of `strptime`, behind blanks: the number and what follows it. -/
def getNumber (low high n : Nat) (s : Bytes) : Option (Nat × Bytes) :=
  match s.dropWhile (fun c => decide (c = 32)) with
  | [] => none
  | c :: s =>
    if isDigit c then
      let (val, rest) := moreDigits high (n - 1) (c.toNat - 48) s
      if low ≤ val ∧ val ≤ high then some (val, rest) else none
    else none

def matchDash : Bytes → Option Bytes
  | [] => none
  | c :: s => if c = 45 then some s else none

/-- The fields of `tm` that are set: the year, the month from 1 on, the day. -/
structure Day where
  year : Nat
  month : Nat
  day : Nat
  deriving DecidableEq, Repr

/-- `strptime(value, "%Y-%m-%d", …)`. Text behind the date is allowed. -/
def strptime (s : Bytes) : Option Day := do
  let (year, s) ← getNumber 0 9999 4 s
  let s ← matchDash s
  let (month, s) ← getNumber 1 12 2 s
  let s ← matchDash s
  let (day, _) ← getNumber 1 31 2 s
  some ⟨year, month, day⟩

/-- `check_date_manually`. Every fourth year is a leap year here. -/
def checkDateManually (t : Day) : Bool :=
  if t.year < 1970 then false
  else if t.month = 2 then if t.year % 4 = 0 then t.day ≤ 29 else t.day ≤ 28
  else if t.month = 4 ∨ t.month = 6 ∨ t.month = 9 ∨ t.month = 11 then t.day ≤ 30
  else true

def validateDataFormat (s : Bytes) : Option Day :=
  match strptime s with
  | some t => if checkDateManually t then some t else none
  | none => none

def leapDays (year : Nat) : Nat := year / 4 - year / 100 + year / 400

def daysBefore (year month : Nat) : Nat :=
  let leap := if year % 4 = 0 ∧ (year % 100 ≠ 0 ∨ year % 400 = 0) then 1 else 0
  [0, 31, 59 + leap, 90 + leap, 120 + leap, 151 + leap, 181 + leap, 212 + leap, 243 + leap, 273 + leap, 304 + leap,
    334 + leap].getD (month - 1) 0

def Day.number (t : Day) : Int :=
  365 * ((t.year : Int) - 1970) + leapDays (t.year - 1) - leapDays 1969 + daysBefore t.year t.month + t.day - 1

/-- The time zone of the server: how many seconds its clock is ahead of UTC on each day. -/
structure TimeZone where
  ahead : Day → Int
  within_a_day : ∀ t, -86400 < ahead t ∧ ahead t < 86400

def TimeZone.utc : TimeZone := ⟨fun _ => 0, fun _ => by decide⟩

/-- `mktime`, at midnight. -/
def mktime (zone : TimeZone) (t : Day) : Int := t.number * 86400 - zone.ahead t

/-- `to_raw_data`. The divisions round towards zero. -/
def toRawData (zone : TimeZone) (t : Day) : Int := Int.tdiv (Int.tdiv (mktime zone t) 3600 + 8) 24

def littleEndian (n : Nat) : Bytes := [.ofNat n, .ofNat (n / 2 ^ 8), .ofNat (n / 2 ^ 16), .ofNat (n / 2 ^ 24)]

def rawBytes (zone : TimeZone) (t : Day) : Bytes := littleEndian (toRawData zone t % 2 ^ 32).toNat

def monthDays (year month : Nat) : Nat :=
  if month = 2 then if year % 4 = 0 ∧ (year % 100 ≠ 0 ∨ year % 400 = 0) then 29 else 28
  else if month = 4 ∨ month = 6 ∨ month = 9 ∨ month = 11 then 30 else 31

def Day.next (t : Day) : Day :=
  if t.day < monthDays t.year t.month then { t with day := t.day + 1 }
  else if t.month < 12 then ⟨t.year, t.month + 1, 1⟩ else ⟨t.year + 1, 1, 1⟩

def dayOf : Nat → Day
  | 0 => ⟨1970, 1, 1⟩
  | n + 1 => (dayOf n).next

def gmtime (secs : Nat) : Day := dayOf (secs / 86400)

/-- `from_raw_data`. The product is one of unsigned integers of 32 bits. -/
def fromRawData (days : Nat) : Day := gmtime (days * 86400 % 2 ^ 32)

def digits : Nat → Nat → Bytes
  | 0, _ => []
  | n + 1, val => digits n (val / 10) ++ [.ofNat (48 + val % 10)]

/-- `strftime` with the format `%Y-%m-%d`, for a year of four digits. -/
def strftime (t : Day) : Bytes := digits 4 t.year ++ 45 :: (digits 2 t.month ++ 45 :: digits 2 t.day)

def initStr (days : Nat) : Bytes := strftime (fromRawData days)

end MiniOb
