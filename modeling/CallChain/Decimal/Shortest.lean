import CallChain.Decimal.Binary64

/-!
# The shortest decimal of a number

Of the decimals that are read back as a given number, `shortest` takes one with the fewest digits,
and of those the one nearest to the number, a tie going to the even one.

`Binary64.text` writes it positionally if the first digit stands for a power of ten between 10⁻⁵ and
10¹⁵, and with an exponent otherwise; a positional number always has a digit behind the point.
-/

namespace CallChain

/-- Digits, read as an integer, times a power of ten. -/
structure Decimal where
  digits : Nat
  exponent : Int
deriving DecidableEq, Repr

namespace Decimal

/-- The decimal without zeros at the end of its digits. -/
def trim : Nat → Decimal → Decimal
  | 0, d => d
  | fuel + 1, d =>
    if d.digits ≠ 0 && d.digits % 10 = 0 then trim fuel ⟨d.digits / 10, d.exponent + 1⟩ else d

def digitText (n : Nat) : List Char := Nat.toDigits 10 n

def zeros (count : Nat) : List Char := List.replicate count '0'

/-- The decimal without an exponent. -/
def positional (d : Decimal) : List Char :=
  let digits := digitText d.digits
  let point : Int := digits.length + d.exponent
  if 0 ≤ d.exponent then digits ++ zeros d.exponent.toNat ++ ['.', '0']
  else if 0 < point then digits.take point.toNat ++ ['.'] ++ digits.drop point.toNat
  else ['0', '.'] ++ zeros (-point).toNat ++ digits

/-- The decimal with one digit before the point and an exponent. -/
def withExponent (d : Decimal) : List Char :=
  let digits := digitText d.digits
  let power : Int := digits.length + d.exponent - 1
  let fraction := if digits.length = 1 then [] else '.' :: digits.drop 1
  digits.take 1 ++ fraction ++ ['e', if power < 0 then '-' else '+'] ++ digitText power.natAbs

def text (d : Decimal) : String :=
  let power : Int := (digitText d.digits).length + d.exponent - 1
  String.ofList (if -5 ≤ power && power ≤ 15 then d.positional else d.withExponent)

end Decimal

namespace Binary64

variable (x : Binary64)

/-- Four times the least fraction that is read back as the number, over its denominator. The gap
below a power of two is half as wide as the one above. -/
def lowerQuarter : Nat :=
  if x.mantissa = Nat.pow 2 52 && -1074 < x.exponent then 4 * x.mantissa - 1 else 4 * x.mantissa - 2

/-- Is a fraction read back as the number? -/
def isReadFrom (num den : Nat) : Bool :=
  let unit := powerAbove x.exponent
  let low := x.lowerQuarter * unit * den
  let high := (4 * x.mantissa + 2) * unit * den
  let value := 4 * num * x.denominator
  if x.mantissa % 2 = 0 then low ≤ value && value ≤ high else low < value && value < high

/-- The exponent of the greatest power of ten that is not above the number. -/
def decimalPower : Int :=
  let k : Int := (Nat.toDigits 10 x.numerator).length - (Nat.toDigits 10 x.denominator).length
  if x.denominator * Nat.pow 10 k.toNat ≤ x.numerator * Nat.pow 10 (-k).toNat then k else k - 1

/-- The neighbours of the number on the grid of a power of ten that are read back as it. -/
def nearest? (exponent : Int) : Option Decimal :=
  let above := Nat.pow 10 exponent.toNat
  let below := Nat.pow 10 (-exponent).toNat
  let num := x.numerator * below
  let den := x.denominator * above
  let first := num / den
  let rest := num % den
  let hit (n : Nat) : Bool := x.isReadFrom (n * above) below
  let upperFirst := den < 2 * rest || (den = 2 * rest && first % 2 = 1)
  match hit first, hit (first + 1) with
  | true, true => some ⟨if upperFirst then first + 1 else first, exponent⟩
  | true, false => some ⟨first, exponent⟩
  | false, true => some ⟨first + 1, exponent⟩
  | false, false => none

/-- The decimal with the fewest digits that is read back as the number. -/
def shortest : Decimal :=
  let power := x.decimalPower
  match (List.range 17).findSome? fun (k : Nat) => x.nearest? (power - k) with
  | some d => d.trim 20
  | none => ⟨x.mantissa, x.exponent⟩

def text : String := if x.isZero then "0.0" else x.shortest.text

end Binary64
end CallChain
