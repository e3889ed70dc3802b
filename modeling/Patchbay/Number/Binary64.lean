/-! Binary64 numbers in exact arithmetic. A magnitude counts units of 2⁻¹⁰⁷⁴, the smallest positive
number, so every finite binary64 number is an integer here, and rounding is a division of
naturals. -/

-- Powers of naturals are core's own here, whatever other powers are in scope.
attribute [local instance (1100)] instPowNat

namespace Patchbay

def significandBits : Nat := 53

/-- One is 2 to this power in units. -/
def unitPlaces : Nat := 1074

def exponentLimit : Nat := 1024

/-- Distance between neighbouring representable magnitudes around `m`: 53 significant bits, and
never less than one unit. -/
def spacing (m : Nat) : Nat := 2 ^ (m.log2 - 52)

/-- The first magnitude, 2¹⁰²⁴ in units, that is too large. -/
def magnitudeLimit : Nat := 2 ^ (exponentLimit + unitPlaces)

def unitsPerOne : Nat := 2 ^ unitPlaces

def Representable (m : Nat) : Prop := m % spacing m = 0 ∧ m < magnitudeLimit

instance (m : Nat) : Decidable (Representable m) :=
  inferInstanceAs (Decidable (_ ∧ _))

/-- A finite binary64 number; both zeros are told apart by `negative`. -/
structure Binary64 where
  negative : Bool
  magnitude : Nat
  representable : Representable magnitude
deriving DecidableEq

/-- The integer nearest to `num / den`, a tie going to the even one. -/
def nearestEven (num den : Nat) : Nat :=
  let q := num / den
  let r := num % den
  if 2 * r < den ∨ (2 * r = den ∧ q % 2 = 0) then q else q + 1

/-- The magnitude nearest to `num / den` units, regardless of the limit. -/
def roundMagnitude (num den : Nat) : Nat :=
  let s := spacing (num / den)
  nearestEven num (den * s) * s

theorem nearestEven_eq (num den : Nat) :
    nearestEven num den = num / den ∨ nearestEven num den = num / den + 1 := by
  unfold nearestEven
  dsimp only
  split
  · exact Or.inl rfl
  · exact Or.inr rfl

theorem spacing_le_succ (m : Nat) : spacing m ≤ m + 1 := by
  unfold spacing
  by_cases h : m = 0
  · subst h; decide
  · have h1 : 2 ^ (m.log2 - 52) ≤ 2 ^ m.log2 := Nat.pow_le_pow_right (by decide) (Nat.sub_le _ _)
    have h2 : 2 ^ m.log2 ≤ m := (Nat.le_log2 h).1 (Nat.le_refl _)
    omega

theorem roundMagnitude_le (num den : Nat) : roundMagnitude num den ≤ 2 * (num / den) + 1 := by
  have hs := spacing_le_succ (num / den)
  have hle : nearestEven num (den * spacing (num / den)) ≤ num / den / spacing (num / den) + 1 := by
    rw [Nat.div_div_eq_div_mul]
    rcases nearestEven_eq num (den * spacing (num / den)) with h | h <;> omega
  have hm := Nat.mul_le_mul_right (spacing (num / den)) hle
  have hd := Nat.div_mul_le_self (num / den) (spacing (num / den))
  rw [Nat.add_mul, Nat.one_mul] at hm
  unfold roundMagnitude
  dsimp only
  omega

theorem log2_eq_of_bounds {m k : Nat} (h1 : 2 ^ k ≤ m) (h2 : m < 2 ^ (k + 1)) : m.log2 = k := by
  have hm : m ≠ 0 := by have := Nat.two_pow_pos k; omega
  have h3 := (Nat.le_log2 hm).2 h1
  have h4 := (Nat.log2_lt hm).2 h2
  omega

theorem spacing_eq_one {m : Nat} (h : m < 2 ^ significandBits) : spacing m = 1 := by
  unfold spacing
  by_cases h0 : m = 0
  · subst h0; decide
  · have : m.log2 < 53 := (Nat.log2_lt h0).2 h
    have : m.log2 - 52 = 0 := by omega
    rw [this, Nat.pow_zero]

/-- Rounding never leaves the grid, also where it carries into the next power of two. -/
theorem roundMagnitude_mod_spacing (num den : Nat) :
    roundMagnitude num den % spacing (roundMagnitude num den) = 0 := by
  have hq : num / (den * spacing (num / den)) = num / den / spacing (num / den) :=
    (Nat.div_div_eq_div_mul _ _ _).symm
  have hs := nearestEven_eq num (den * spacing (num / den))
  rw [hq] at hs
  have hr : roundMagnitude num den =
      nearestEven num (den * spacing (num / den)) * spacing (num / den) := rfl
  rw [hr]
  generalize nearestEven num (den * spacing (num / den)) = s at hs
  generalize num / den = q at hs
  by_cases hsmall : q < 2 ^ 53
  · rw [spacing_eq_one hsmall, Nat.div_one] at hs
    rw [spacing_eq_one hsmall, Nat.mul_one]
    by_cases hlt : s < 2 ^ 53
    · rw [spacing_eq_one hlt, Nat.mod_one]
    · have : s = 2 ^ 53 := by omega
      subst this
      decide
  · have hq0 : q ≠ 0 := by
      intro h
      subst h
      exact hsmall (by decide)
    have hL : 53 ≤ q.log2 := (Nat.le_log2 hq0).2 (by omega)
    obtain ⟨e, he⟩ : ∃ e, q.log2 = e + 52 := ⟨q.log2 - 52, by omega⟩
    have hsp : spacing q = 2 ^ e := by unfold spacing; rw [he, Nat.add_sub_cancel]
    have hpos : 0 < 2 ^ e := Nat.two_pow_pos e
    have hlow : 2 ^ (e + 52) ≤ q := (Nat.le_log2 hq0).1 (by omega)
    have hhigh : q < 2 ^ (e + 53) := (Nat.log2_lt hq0).1 (by omega)
    rw [hsp] at hs ⊢
    have hlow' : 2 ^ 52 ≤ q / 2 ^ e := by
      rw [Nat.le_div_iff_mul_le hpos, ← Nat.pow_add, Nat.add_comm]; exact hlow
    have hhigh' : q / 2 ^ e < 2 ^ 53 := by
      rw [Nat.div_lt_iff_lt_mul hpos, ← Nat.pow_add, Nat.add_comm]; exact hhigh
    by_cases hlt : s < 2 ^ 53
    · have h1 : 2 ^ (e + 52) ≤ s * 2 ^ e := by
        rw [Nat.add_comm, Nat.pow_add]
        exact Nat.mul_le_mul_right _ (by omega)
      have h2 : s * 2 ^ e < 2 ^ (e + 52 + 1) := by
        rw [Nat.add_assoc, Nat.add_comm, Nat.pow_add]
        exact Nat.mul_lt_mul_of_pos_right hlt hpos
      have : spacing (s * 2 ^ e) = 2 ^ e := by
        unfold spacing; rw [log2_eq_of_bounds h1 h2, Nat.add_sub_cancel]
      rw [this, Nat.mul_mod_left]
    · have hs53 : s = 2 ^ 53 := by omega
      rw [hs53, ← Nat.pow_add]
      unfold spacing
      rw [Nat.log2_two_pow, show 53 + e - 52 = e + 1 by omega]
      exact Nat.mod_eq_zero_of_dvd (Nat.pow_dvd_pow 2 (by omega))

theorem magnitudeLimit_pos : 0 < magnitudeLimit := Nat.two_pow_pos _

namespace Binary64

/-- The number nearest to `num / den` units; none if it is too large. -/
def round? (negative : Bool) (num den : Nat) : Option Binary64 :=
  if h : roundMagnitude num den < magnitudeLimit then
    some ⟨negative, roundMagnitude num den, roundMagnitude_mod_spacing num den, h⟩
  else none

def zero (negative : Bool) : Binary64 := ⟨negative, 0, rfl, magnitudeLimit_pos⟩

def units (x : Binary64) : Int := if x.negative then -x.magnitude else x.magnitude

/-- Both zeros are equal. -/
def order (x y : Binary64) : Ordering := compare x.units y.units

/-- The rounded sum; none if it is too large. A zero sum is negative only if both terms are. -/
def add? (x y : Binary64) : Option Binary64 :=
  let sum := x.units + y.units
  if sum = 0 then some (zero (x.negative && y.negative))
  else round? (decide (sum < 0)) sum.natAbs 1

def mul? (x y : Binary64) : Option Binary64 :=
  round? (x.negative != y.negative) (x.magnitude * y.magnitude) unitsPerOne

def div? (x y : Binary64) : Option Binary64 :=
  round? (x.negative != y.negative) (x.magnitude * unitsPerOne) y.magnitude

theorem double_mul_pow_succ_lt {n b k l : Nat} (hn : n < 2 ^ b) (hl : b + k + 1 < l) :
    2 * (n * 2 ^ k) + 1 < 2 ^ l := by
  have h1 : 2 ^ (b + k + 2) ≤ 2 ^ l := Nat.pow_le_pow_right (by decide) hl
  have h2 : n * 2 ^ k ≤ 2 ^ b * 2 ^ k := Nat.mul_le_mul_right _ (Nat.le_of_lt hn)
  have h3 := Nat.two_pow_pos (b + k)
  rw [Nat.pow_succ, Nat.pow_succ] at h1
  rw [← Nat.pow_add] at h2
  omega

/-- Integers of so many bits never round to a number that is too large. -/
def integerBits : Nat := 65

theorem roundMagnitude_int_lt {i : Int} (h : i.natAbs < 2 ^ integerBits) :
    roundMagnitude (i.natAbs * unitsPerOne) 1 < magnitudeLimit := by
  have h1 := roundMagnitude_le (i.natAbs * unitsPerOne) 1
  rw [Nat.div_one] at h1
  exact Nat.lt_of_le_of_lt h1 (double_mul_pow_succ_lt h (by decide))

def ofInt (i : Int) (h : i.natAbs < 2 ^ integerBits) : Binary64 :=
  ⟨decide (i < 0), roundMagnitude (i.natAbs * unitsPerOne) 1,
    roundMagnitude_mod_spacing _ _, roundMagnitude_int_lt h⟩

/-- The value without its sign as an integer; none if it has a fraction. -/
def natAbs? (x : Binary64) : Option Nat :=
  if x.magnitude % unitsPerOne = 0 then some (x.magnitude / unitsPerOne) else none

end Binary64

end Patchbay
