import MiniOb.Index.Key

/-! # Values of tuples

`TupleValue` of `value.h`, with its comparison. A number is compared by the subtraction of C `int`s. -/

namespace MiniOb

def wrapInt (n : Int) : Int := (n + 2 ^ 31) % 2 ^ 32 - 2 ^ 31

theorem wrapInt_eq {n : Int} (low : -2 ^ 31 ≤ n) (high : n < 2 ^ 31) : wrapInt n = n := by
  unfold wrapInt
  omega

theorem wrapInt_isInt (n : Int) : IsInt (wrapInt n) := by
  unfold IsInt wrapInt
  omega

theorem wrapInt_add_wrapInt (m n : Int) : wrapInt (m + wrapInt n) = wrapInt (m + n) := by
  unfold wrapInt
  omega

/-- `TupleValue` and its subclasses. A string is without its terminator, a date is a number of days, a float is its
    word: `hash` tells `-0.0` from `0.0`, `compare` does not. -/
inductive TupleValue
  | null
  | int (value : Int)
  | float (word : Nat)
  | string (value : Bytes)
  | date (value : Nat)
  deriving DecidableEq, Repr

namespace TupleValue

def type : TupleValue → AttrType
  | null => .nulls
  | int _ => .ints
  | float _ => .floats
  | string _ => .chars
  | date _ => .date

def isNull (v : TupleValue) : Bool := v.type = .nulls

theorem eq_null_of_isNull {v : TupleValue} (h : v.isNull = true) : v = .null := by
  cases v with
  | null => rfl
  | int _ => cases h
  | float _ => cases h
  | string _ => cases h
  | date _ => cases h

/-- The constant `1e-7` of `FloatValue::compare`, a double, in units of `2^-149`. -/
def tolerance : Int := 7555786372591432 * 2 ^ 73

/-- `compare`. NULL compares equal to everything, and everything else less than NULL. Values of two other types are
    never compared; the code reads the second one as if it had the type of the first. -/
def compare : TupleValue → TupleValue → Int
  | null, _ => 0
  | _, null => -1
  | int a, int b => wrapInt (a - b)
  | float a, float b =>
    let result := Single.sub (Single.decode a) (Single.decode b)
    if Single.lt result tolerance ∧ Single.gt result (-tolerance) then 0 else if Single.gt result 0 then 1 else -1
  | string a, string b => strncmp a b (a.length + b.length + 1)
  | date a, date b => wrapInt ((a : Int) - b)
  | _, _ => 0

end TupleValue

end MiniOb
