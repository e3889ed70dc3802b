import Patchbay.Number.Decimal

/-! Reading numerals. The first digits are kept, as many as form a number below 2⁶⁴, and the
binary64 number nearest to them is multiplied or divided by the one nearest to a power of ten. Every
step rounds, so a numeral need not be read as the number nearest to it. -/

-- Powers of naturals are core's own here, whatever other powers are in scope.
attribute [local instance (1100)] instPowNat

namespace Patchbay

/-- A number as spelled: `digits · 10 ^ (exponent - places)`, where `places` digits stand after
the point; `plain` if it has neither a fraction nor an exponent. -/
structure Numeral where
  negative : Bool
  digits : Nat
  places : Nat
  exponent : Int
  plain : Bool
deriving DecidableEq

/-- The digits kept of a numeral form a number below this bound. -/
def keptLimit : Nat := 18446744073709551616

/-- Leaves out digits at the end while those before them reach the bound; `places` bounds how many
there are. -/
def Decimal.keep : Nat → Decimal → Decimal
  | 0, d => d
  | places + 1, d =>
    if d.digits < keptLimit then d else keep places ⟨d.digits / 10, d.exponent + 1⟩

namespace Binary64

def tenPower? (exponent : Nat) : Option Binary64 := Decimal.nearest? false ⟨1, exponent⟩

/-- The exponent of the largest power of ten that is not too large. -/
def topPower : Nat := 308

/-- Divides a number below `keptLimit` by a power of ten. A power too large for one step takes two,
and after these nothing is left. -/
def shrink? (x : Binary64) (exponent : Nat) : Option Binary64 := do
  if exponent ≤ topPower then x.div? (← tenPower? exponent)
  else if exponent ≤ 2 * topPower then
    (← x.div? (← tenPower? topPower)).div? (← tenPower? (exponent - topPower))
  else return zero x.negative

end Binary64

namespace Numeral

/-- What is kept: first of the digits before the point, then of these and the digits after it. -/
def kept (n : Numeral) : Decimal :=
  let whole := Decimal.keep n.digits.log2 ⟨n.digits / 10 ^ n.places, 0⟩
  let digits := whole.digits * 10 ^ n.places + n.digits % 10 ^ n.places
  Decimal.keep n.digits.log2 ⟨digits, whole.exponent - n.places + n.exponent⟩

def toBinary64? (n : Numeral) : Option Binary64 := do
  let d := n.kept
  let x ← Decimal.nearest? n.negative ⟨d.digits, 0⟩
  if d.digits = 0 then return x
  else if 0 ≤ d.exponent then x.mul? (← Binary64.tenPower? d.exponent.toNat)
  else x.shrink? (-d.exponent).toNat

end Numeral

end Patchbay
