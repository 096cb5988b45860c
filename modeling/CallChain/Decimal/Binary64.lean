/-!
# Binary floating-point numbers of 64 bits

The finite numbers without their sign, each a mantissa times a power of two. A mantissa has 53 bits;
numbers below 2⁻¹⁰²² have fewer, so that the power never falls below 2⁻¹⁰⁷⁴.

Every operation rounds the exact result to the nearest number, a tie to the even mantissa. A result
that is too large is no number.
-/

namespace CallChain

structure Binary64 where
  mantissa : Nat
  exponent : Int
deriving DecidableEq, Repr

namespace Binary64

def zero : Binary64 := ⟨0, -1074⟩

def isZero (x : Binary64) : Bool := x.mantissa = 0

/-- The quotient to the nearest integer, a tie to the even one. -/
def roundQuotient (num den : Nat) : Nat :=
  let q := num / den
  let r := num % den
  if 2 * r < den then q else if den < 2 * r then q + 1 else q + q % 2

/-- The factor of a power of two in a numerator. -/
def powerAbove (e : Int) : Nat := Nat.pow 2 e.toNat

/-- The factor of a power of two in a denominator. -/
def powerBelow (e : Int) : Nat := Nat.pow 2 (-e).toNat

/-- The exponent that gives a positive fraction a mantissa of 53 bits, or the least one. -/
def exponentOf (num den : Nat) : Int :=
  let e : Int := (num.log2 : Int) - (den.log2 : Int) - 52
  let e := if num * powerBelow e < Nat.pow 2 52 * (den * powerAbove e) then e - 1 else e
  max e (-1074)

/-- The number nearest to a fraction. -/
def ofFraction? (num den : Nat) : Option Binary64 :=
  if num = 0 then
    some zero
  else
    let e := exponentOf num den
    let m := roundQuotient (num * powerBelow e) (den * powerAbove e)
    let x : Binary64 := if m = Nat.pow 2 53 then ⟨Nat.pow 2 52, e + 1⟩ else ⟨m, e⟩
    if 971 < x.exponent then none else some x

variable (x y : Binary64)

/-- The number as a fraction. -/
def numerator : Nat := x.mantissa * powerAbove x.exponent

def denominator : Nat := powerBelow x.exponent

def mul? : Option Binary64 :=
  ofFraction? (x.numerator * y.numerator) (x.denominator * y.denominator)

def div? : Option Binary64 :=
  ofFraction? (x.numerator * y.denominator) (x.denominator * y.numerator)

/-! ### Powers of ten -/

/-- The greatest power of ten that is a number has this exponent. -/
def greatestTen : Nat := 308

/-- The number nearest to a power of ten. -/
def tenTo? (k : Nat) : Option Binary64 := ofFraction? (Nat.pow 10 k) 1

/-- Scales by a power of ten: one multiplication or division if the power is a number; otherwise a
positive power is too much, and a negative one is taken in several steps. -/
def scaleSteps : Nat → Binary64 → Int → Option Binary64
  | 0, x, _ => some x
  | fuel + 1, x, k =>
    if k.natAbs ≤ greatestTen then
      (tenTo? k.natAbs).bind fun ten => if 0 ≤ k then x.mul? ten else x.div? ten
    else if x.isZero then
      some x
    else if 0 ≤ k then
      none
    else
      ((tenTo? greatestTen).bind x.div?).bind fun x => scaleSteps fuel x (k + greatestTen)

/-- A number scaled by a power of ten. -/
def scale? (x : Binary64) (k : Int) : Option Binary64 :=
  scaleSteps (k.natAbs / greatestTen + 1) x k

end Binary64
end CallChain
