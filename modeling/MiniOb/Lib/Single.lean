import Mathlib

/-! # Single-precision numbers

IEEE 754 binary32. A finite value is an integer number of units of `2^-149`, so that only the last step of a subtraction
rounds. -/

namespace MiniOb.Single

/-- A value; the sign of zero is not kept, no comparison sees it. -/
inductive Value
  | nan
  | inf (negative : Bool)
  | finite (units : Int)
  deriving DecidableEq, Repr

/-- The value with the bits `u`: sign, eight bits of exponent, 23 bits of fraction. -/
def decode (u : Nat) : Value :=
  let negative := u / 2 ^ 31 % 2 = 1
  let exponent : Nat := u / 2 ^ 23 % 256
  let fraction : Nat := u % 2 ^ 23
  if exponent = 255 then
    if fraction = 0 then .inf negative else .nan
  else
    let magnitude : Nat := if exponent = 0 then fraction else (2 ^ 23 + fraction) * 2 ^ (exponent - 1)
    .finite (if negative then -(magnitude : Int) else magnitude)

/-- The bits of a value. -/
def encode : Value → Nat
  | .nan => 0x7fc00000
  | .inf negative => (if negative then 2 ^ 31 else 0) + 0x7f800000
  | .finite units =>
    let magnitude := units.natAbs
    let exponent := magnitude.log2 - 22
    (if units < 0 then 2 ^ 31 else 0) +
      if magnitude < 2 ^ 23 then magnitude else exponent * 2 ^ 23 + (magnitude / 2 ^ (exponent - 1) - 2 ^ 23)

def roundEven (n : Nat) : Nat :=
  if n < 2 ^ 24 then n
  else
    let step := 2 ^ (n.log2 - 23)
    if 2 * (n % step) < step ∨ 2 * (n % step) = step ∧ n / step % 2 = 0 then n / step * step
    else (n / step + 1) * step

/-- The value nearest to a number of units; `2^128` and above is infinite. -/
def ofUnits (d : Int) : Value :=
  if 2 ^ 128 ≤ roundEven d.natAbs / 2 ^ 149 then .inf (d < 0)
  else .finite (if d < 0 then -(roundEven d.natAbs : Int) else roundEven d.natAbs)

def ofInt (n : Int) : Value := ofUnits (n * 2 ^ 149)

def sub : Value → Value → Value
  | .nan, _ | _, .nan => .nan
  | .inf a, .inf b => if a = b then .nan else .inf a
  | .inf a, .finite _ => .inf a
  | .finite _, .inf b => .inf !b
  | .finite a, .finite b => ofUnits (a - b)

def add : Value → Value → Value
  | .nan, _ | _, .nan => .nan
  | .inf a, .inf b => if a = b then .inf a else .nan
  | .inf a, .finite _ => .inf a
  | .finite _, .inf b => .inf b
  | .finite a, .finite b => ofUnits (a + b)

/-- The number of units nearest to `n / d`, with 24 significant bits. -/
def roundQuotient (n d : Nat) : Nat :=
  let step := d * 2 ^ ((n / d).log2 - 23)
  if 2 * (n % step) < step ∨ 2 * (n % step) = step ∧ n / step % 2 = 0 then n / step * (step / d)
  else (n / step + 1) * (step / d)

def div : Value → Value → Value
  | .nan, _ | _, .nan => .nan
  | .inf _, .inf _ => .nan
  | .inf a, .finite b => .inf (a != decide (b < 0))
  | .finite _, .inf _ => .finite 0
  | .finite a, .finite b =>
    let negative := decide (a < 0) != decide (b < 0)
    if b = 0 then if a = 0 then .nan else .inf negative
    else
      let magnitude := roundQuotient (a.natAbs * 2 ^ 149) b.natAbs
      if 2 ^ 128 ≤ magnitude / 2 ^ 149 then .inf negative
      else .finite (if negative then -(magnitude : Int) else magnitude)

def lt (v : Value) (c : Int) : Bool :=
  match v with
  | .nan => false
  | .inf negative => negative
  | .finite m => m < c

def gt (v : Value) (c : Int) : Bool :=
  match v with
  | .nan => false
  | .inf negative => !negative
  | .finite m => c < m

def less : Value → Value → Bool
  | .nan, _ | _, .nan => false
  | .inf a, .inf b => a && !b
  | .inf a, .finite _ => a
  | .finite _, .inf b => !b
  | .finite a, .finite b => a < b

def lessEq : Value → Value → Bool
  | .nan, _ | _, .nan => false
  | .inf a, .inf b => a || !b
  | .inf a, .finite _ => a
  | .finite _, .inf b => !b
  | .finite a, .finite b => a ≤ b

example : decode 0x3f800000 = .finite (2 ^ 149) := by decide

example : encode (decode 0x322bcc77) = 0x322bcc77 := by decide +kernel

example : div (ofInt 1) (ofInt 3) = decode 0x3eaaaaab := by decide +kernel

example : sub (decode 0x3f800001) (decode 0x3f800000) = decode 0x34000000 := by decide

end MiniOb.Single
