import Patchbay.Number.Binary64

/-! Decimals and binary64 numbers. A decimal has a nearest number; a number is written with the
fewest digits whose nearest number it is, and of those decimals as the one nearest to it. -/

-- Powers of naturals are core's own here, whatever other powers are in scope.
attribute [local instance (1100)] instPowNat

namespace Patchbay

/-- The number `digits · 10 ^ exponent`. -/
structure Decimal where
  digits : Nat
  exponent : Int
deriving DecidableEq

def decimalLength (n : Nat) : Nat := (Nat.toDigits 10 n).length

namespace Decimal

/-- Beyond this power of ten a decimal is too large, and below its inverse it rounds to zero. -/
def farPower : Int := 400

def nearest? (negative : Bool) (d : Decimal) : Option Binary64 :=
  let top := decimalLength d.digits + d.exponent
  if d.digits = 0 ∨ top < -farPower then some (Binary64.zero negative)
  else if farPower < top then none
  else if 0 ≤ d.exponent then
    Binary64.round? negative (d.digits * 10 ^ d.exponent.toNat * unitsPerOne) 1
  else Binary64.round? negative (d.digits * unitsPerOne) (10 ^ (-d.exponent).toNat)

/-- Leaves out zeros at the end of the digits; `places` bounds how many there are. -/
def trim : Nat → Decimal → Decimal
  | 0, d => d
  | places + 1, d =>
    if d.digits % 10 = 0 then trim places ⟨d.digits / 10, d.exponent + 1⟩ else d

end Decimal

namespace Binary64

/-- The first digit of the smallest number stands so many places after the point. -/
def smallestPlace : Nat := 324

/-- Digits before the decimal point; zero or negative counts zeros after it. -/
def pointPosition (magnitude : Nat) : Int :=
  decimalLength (magnitude * 10 ^ smallestPlace / unitsPerOne) - smallestPlace

/-- The two neighbours of a magnitude among the multiples of `10 ^ exponent`, the nearer first
and of equally near ones the even first. -/
def neighbours (magnitude : Nat) (exponent : Int) : List Decimal :=
  let num := if exponent < 0 then magnitude * 10 ^ (-exponent).toNat else magnitude
  let den := if exponent < 0 then unitsPerOne else unitsPerOne * 10 ^ exponent.toNat
  let below := num / den
  if nearestEven num den = below then [⟨below, exponent⟩, ⟨below + 1, exponent⟩]
  else [⟨below + 1, exponent⟩, ⟨below, exponent⟩]

def exactDecimal (magnitude : Nat) : Decimal := ⟨magnitude * 5 ^ unitPlaces, -unitPlaces⟩

def isNearest (magnitude : Nat) (d : Decimal) : Bool :=
  match d.nearest? false with
  | some x => x.magnitude == magnitude
  | none => false

/-- The first of the decimals with one, two, … seventeen digits whose nearest number this is. -/
def shortest (magnitude : Nat) : Decimal :=
  let position := pointPosition magnitude
  let grids := (List.range 17).flatMap fun n => neighbours magnitude (position - (n + 1 : Nat))
  (grids.find? (isNearest magnitude)).getD (exactDecimal magnitude)

end Binary64

/-- Layout of a nonzero decimal: the first digit stands at the power of ten `top`, plain from
10⁻⁵ to 10¹⁵ with at least one digit after the point, in scientific form otherwise. -/
def Decimal.layout (d : Decimal) : String :=
  let digits := Nat.toDigits 10 d.digits
  let top : Int := d.exponent + (digits.length - 1 : Nat)
  if top < -5 ∨ 15 < top then
    let fraction := if digits.length = 1 then [] else '.' :: digits.drop 1
    let sign := if top < 0 then '-' else '+'
    String.ofList (digits.take 1 ++ fraction ++ 'e' :: sign :: Nat.toDigits 10 top.natAbs)
  else if top < 0 then
    String.ofList ('0' :: '.' :: List.replicate (-top - 1).toNat '0' ++ digits)
  else
    let whole := top.toNat + 1
    let padded := digits ++ List.replicate (whole + 1 - digits.length) '0'
    String.ofList (padded.take whole ++ '.' :: padded.drop whole)

namespace Binary64

/-- Text of a number: its shortest decimal, laid out as `Decimal.layout` says. -/
def text (x : Binary64) : String :=
  let body := if x.magnitude = 0 then "0.0" else ((shortest x.magnitude).trim 800).layout
  if x.negative then "-" ++ body else body

end Binary64

end Patchbay
