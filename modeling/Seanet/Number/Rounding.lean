/-!
# Rounding to binary floating point

A positive rational `num / den` is rounded to a multiple of a power of two that fits a format:
at most `precision` significant bits and no exponent below `minExponent`. The nearest such number
is taken, the one with an even mantissa when two are equally near. All of it is exact arithmetic
on natural numbers.
-/

set_option autoImplicit false

namespace Seanet

structure Dyadic where
  mantissa : Nat
  exponent : Int
  deriving DecidableEq, Repr

/-- A binary floating-point format: numbers reach up to, but not including, `2 ^ maxExponent`. -/
structure BinaryFormat where
  precision : Nat
  minExponent : Int
  maxExponent : Int

namespace BinaryFormat

def double : BinaryFormat := ⟨53, -1074, 1024⟩

def single : BinaryFormat := ⟨24, -149, 128⟩

end BinaryFormat

/-- The whole number nearest to `num / den`; a half goes to the even neighbour. -/
def roundDiv (num den : Nat) : Nat :=
  let q := num / den
  let twice := 2 * (num % den)
  if twice < den then q
  else if den < twice then q + 1
  else q + q % 2

def scaled (num den : Nat) (e : Int) : Nat × Nat :=
  match e with
  | .ofNat k => (num, den * Nat.pow 2 k)
  | .negSucc k => (num * Nat.pow 2 (k + 1), den)

def floorLog (num den : Nat) : Int :=
  let k : Int := (num.log2 : Int) - den.log2
  let (a, b) := scaled num den k
  if b ≤ a then k else k - 1

def BinaryFormat.nearest? (f : BinaryFormat) (num den : Nat) : Option Dyadic :=
  if num = 0 then some ⟨0, f.minExponent⟩
  else
    let e := max f.minExponent (floorLog num den - (f.precision - 1 : Nat))
    let (a, b) := scaled num den e
    let m := roundDiv a b
    if m ≠ 0 ∧ f.maxExponent ≤ (m.log2 : Int) + e then none else some ⟨m, e⟩

namespace Dyadic

def ratio (d : Dyadic) : Nat × Nat :=
  match d.exponent with
  | .ofNat k => (d.mantissa * Nat.pow 2 k, 1)
  | .negSucc k => (d.mantissa, Nat.pow 2 (k + 1))

def bits (d : Dyadic) : Nat :=
  if d.mantissa = 0 then 0
  else
    let top : Int := (d.mantissa.log2 : Int) + d.exponent
    if top < -1022 then
      let (a, b) := scaled d.mantissa 1 (-1074 - d.exponent)
      a / b
    else
      let (a, b) := scaled d.mantissa 1 ((d.mantissa.log2 : Int) - 52)
      (top + 1023).toNat * Nat.pow 2 52 + (a / b - Nat.pow 2 52)

end Dyadic

structure Decimal where
  digits : Nat
  width : Nat
  exponent : Int

namespace Decimal

/-- The exponent kept within reach of the double format: beyond these bounds every number is out
of range, or rounds to zero, whatever its digits. -/
def boundedExponent (d : Decimal) : Int := max (-(d.width + 400 : Int)) (min 400 d.exponent)

def ratio (d : Decimal) : Nat × Nat :=
  match d.boundedExponent with
  | .ofNat k => (d.digits * Nat.pow 10 k, 1)
  | .negSucc k => (d.digits, Nat.pow 10 (k + 1))

def toDouble? (d : Decimal) : Option Dyadic :=
  BinaryFormat.double.nearest? d.ratio.1 d.ratio.2

/-- The single nearest to the nearest double: the number is rounded twice. -/
def toSingle? (d : Decimal) : Option Dyadic := do
  let x ← d.toDouble?
  BinaryFormat.single.nearest? x.ratio.1 x.ratio.2

end Decimal

end Seanet
