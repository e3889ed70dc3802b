import Patchbay.Number

/-! Rounding to binary64 keeps the order of what is rounded, and words lie within 1024 of the
numbers that they are rounded to. -/

-- Powers of naturals are core's own here, whatever other powers are in scope.
attribute [local instance (1100)] instPowNat

namespace Patchbay

/-! Nearest integers -/

section

variable {num num' den k : Nat} (hden : 0 < den)

include hden

theorem nearestEven_le (h : num ≤ k * den) : nearestEven num den ≤ k := by
  have hq : num / den ≤ k := Nat.div_le_of_le_mul (by rwa [Nat.mul_comm])
  by_cases hk : num / den = k
  · have hr : num % den = 0 := by
      have hdiv := Nat.div_add_mod' num den
      rw [hk] at hdiv
      omega
    simp [nearestEven, hr, hk, hden]
  · have hne := nearestEven_eq num den
    omega

theorem le_nearestEven (h : k * den ≤ num) : k ≤ nearestEven num den := by
  have hq : k ≤ num / den := (Nat.le_div_iff_mul_le hden).mpr h
  have hne := nearestEven_eq num den
  omega

omit hden in
theorem nearestEven_mono (h : num ≤ num') : nearestEven num den ≤ nearestEven num' den := by
  have hq : num / den ≤ num' / den := Nat.div_le_div_right h
  by_cases heq : num / den = num' / den
  · -- Between the same two integers the larger remainder is the one nearer to the upper.
    have hr : num % den ≤ num' % den := by
      have hdiv := Nat.div_add_mod' num den
      have hdiv' := Nat.div_add_mod' num' den
      rw [heq] at hdiv
      omega
    unfold nearestEven
    dsimp only
    rw [heq]
    split <;> split <;> omega
  · have hne := nearestEven_eq num den
    have hne' := nearestEven_eq num' den
    omega

theorem nearestEven_error : 2 * (nearestEven num den * den) ≤ 2 * num + den ∧
    2 * num ≤ 2 * (nearestEven num den * den) + den := by
  have hdiv := Nat.div_add_mod' num den
  have hmod := Nat.mod_lt num hden
  unfold nearestEven
  dsimp only
  split
  · omega
  · rw [Nat.add_mul, Nat.one_mul]
    omega

end

/-! Magnitudes -/

theorem spacing_pos (m : Nat) : 0 < spacing m := Nat.two_pow_pos _

theorem spacing_dvd_pow {m k : Nat} (h : m.log2 - 52 ≤ k) : spacing m ∣ 2 ^ k :=
  Nat.pow_dvd_pow 2 h

theorem spacing_le_pow {m k : Nat} (h : m < 2 ^ (k + significandBits)) : spacing m ≤ 2 ^ k := by
  apply Nat.pow_le_pow_right (by decide)
  by_cases hm : m = 0
  · subst hm
    simp
  · have hlog : m.log2 < k + significandBits := (Nat.log2_lt hm).mpr h
    unfold significandBits at hlog
    omega

theorem two_mul_spacing_le (m : Nat) : 2 * spacing m ≤ m + 2 := by
  unfold spacing
  by_cases hlow : m.log2 ≤ 52
  · have hzero : m.log2 - 52 = 0 := by omega
    rw [hzero]
    omega
  · have hm : m ≠ 0 := by
      rintro rfl
      exact hlow (by decide)
    have hpow : 2 ^ (m.log2 - 52 + 1) ≤ 2 ^ m.log2 := Nat.pow_le_pow_right (by decide) (by omega)
    have hlog : 2 ^ m.log2 ≤ m := (Nat.le_log2 hm).mp (Nat.le_refl _)
    rw [Nat.pow_succ] at hpow
    omega

/-- A rounded magnitude is off by half at most. -/
theorem roundMagnitude_bounds (num den : Nat) :
    num / den ≤ 2 * roundMagnitude num den ∧ 2 * roundMagnitude num den ≤ 3 * (num / den) + 2 := by
  have hs := two_mul_spacing_le (num / den)
  have hround : roundMagnitude num den =
      nearestEven num (den * spacing (num / den)) * spacing (num / den) := rfl
  have hnearest := nearestEven_eq num (den * spacing (num / den))
  rw [← Nat.div_div_eq_div_mul] at hnearest
  rw [hround]
  generalize nearestEven num (den * spacing (num / den)) = r at hnearest
  generalize num / den = q at hs hnearest
  have hpos : 0 < spacing q := Nat.two_pow_pos _
  have hmod := Nat.mod_lt q hpos
  have hdiv := Nat.div_add_mod' q (spacing q)
  rcases hnearest with rfl | rfl
  · omega
  · rw [Nat.add_mul, Nat.one_mul]
    omega

section

variable {num num' den k : Nat} (hden : 0 < den)

include hden

theorem roundMagnitude_le_pow (h : num < 2 ^ k * den) : roundMagnitude num den ≤ 2 ^ k := by
  have hq : num / den < 2 ^ k := Nat.div_lt_of_lt_mul (by rwa [Nat.mul_comm])
  have hlog : (num / den).log2 - 52 ≤ k := by
    by_cases h0 : num / den = 0
    · simp [h0]
    · have := (Nat.log2_lt h0).mpr hq
      omega
  obtain ⟨c, hc⟩ := spacing_dvd_pow hlog
  have hpos : 0 < den * spacing (num / den) := Nat.mul_pos hden (spacing_pos _)
  have hle : nearestEven num (den * spacing (num / den)) ≤ c := by
    apply nearestEven_le hpos
    calc num ≤ 2 ^ k * den := Nat.le_of_lt h
      _ = c * (den * spacing (num / den)) := by rw [hc]; ac_rfl
  rw [hc, Nat.mul_comm]
  exact Nat.mul_le_mul_right _ hle

theorem pow_log2_le_roundMagnitude (h : num / den ≠ 0) :
    2 ^ (num / den).log2 ≤ roundMagnitude num den := by
  obtain ⟨c, hc⟩ := spacing_dvd_pow (m := num / den) (Nat.sub_le _ 52)
  have hpos : 0 < den * spacing (num / den) := Nat.mul_pos hden (spacing_pos _)
  have hnum : 2 ^ (num / den).log2 * den ≤ num :=
    (Nat.le_div_iff_mul_le hden).mp (Nat.log2_self_le h)
  have hle : c ≤ nearestEven num (den * spacing (num / den)) := by
    apply le_nearestEven hpos
    calc c * (den * spacing (num / den)) = 2 ^ (num / den).log2 * den := by rw [hc]; ac_rfl
      _ ≤ num := hnum
  rw [hc, Nat.mul_comm]
  exact Nat.mul_le_mul_right _ hle

theorem roundMagnitude_mono (h : num ≤ num') :
    roundMagnitude num den ≤ roundMagnitude num' den := by
  have hq : num / den ≤ num' / den := Nat.div_le_div_right h
  by_cases heq : (num / den).log2 = (num' / den).log2
  · have hs : spacing (num / den) = spacing (num' / den) := by rw [spacing, spacing, heq]
    unfold roundMagnitude
    dsimp only
    rw [hs]
    exact Nat.mul_le_mul_right _ (nearestEven_mono h)
  · -- A power of two lies between the two, and neither is rounded past it.
    have h0 : num' / den ≠ 0 := by
      intro h0
      rw [h0, Nat.le_zero] at hq
      rw [h0, hq] at heq
      exact heq rfl
    have hlt : num < 2 ^ (num' / den).log2 * den := by
      refine (Nat.div_lt_iff_lt_mul hden).mp ?_
      by_cases hn : num / den = 0
      · rw [hn]
        exact Nat.two_pow_pos _
      · have hle : (num / den).log2 ≤ (num' / den).log2 :=
          (Nat.le_log2 h0).mpr (Nat.le_trans (Nat.log2_self_le hn) hq)
        exact (Nat.log2_lt hn).mp (by omega)
    exact Nat.le_trans (roundMagnitude_le_pow hden hlt) (pow_log2_le_roundMagnitude hden h0)

end

theorem roundMagnitude_error (m : Nat) : 2 * roundMagnitude m 1 ≤ 2 * m + spacing m ∧
    2 * m ≤ 2 * roundMagnitude m 1 + spacing m := by
  have hround : roundMagnitude m 1 = nearestEven m (spacing m) * spacing m := by
    simp [roundMagnitude]
  rw [hround]
  exact nearestEven_error (spacing_pos m)

namespace Binary64

theorem magnitudeLimit_eq : magnitudeLimit = 2 ^ exponentLimit * unitsPerOne := by
  rw [magnitudeLimit, unitsPerOne, Nat.pow_add]

theorem pow_mul_unitsPerOne (k : Nat) : 2 ^ k * unitsPerOne = 2 ^ (k + unitPlaces) := by
  rw [unitsPerOne, Nat.pow_add]

theorem exists_round? (negative : Bool) {num den k : Nat} (hq : num / den < k * unitsPerOne)
    (hk : 3 * k ≤ 2 * 2 ^ exponentLimit) : ∃ x, round? negative num den = some x ∧
      x.magnitude < 2 * k * unitsPerOne ∧ num / den ≤ 2 * x.magnitude := by
  obtain ⟨hlow, hhigh⟩ := roundMagnitude_bounds num den
  have hlimit : 3 * k * unitsPerOne ≤ 2 * magnitudeLimit := by
    rw [magnitudeLimit_eq, ← Nat.mul_assoc]
    exact Nat.mul_le_mul_right _ hk
  rw [Nat.mul_assoc] at hlimit
  have hlt : roundMagnitude num den < magnitudeLimit := by omega
  refine ⟨_, dif_pos hlt, ?_, hlow⟩
  rw [Nat.mul_assoc]
  dsimp only
  omega

/-! Words -/

theorem units_ofInt (i : Int) (h : i.natAbs < 2 ^ integerBits) : (ofInt i h).units =
    if i < 0 then -(roundMagnitude (i.natAbs * unitsPerOne) 1 : Int)
    else roundMagnitude (i.natAbs * unitsPerOne) 1 := by
  simp [units, ofInt]

theorem units_ofInt_mono {i j : Int} (hij : i ≤ j) (hi : i.natAbs < 2 ^ integerBits)
    (hj : j.natAbs < 2 ^ integerBits) : (ofInt i hi).units ≤ (ofInt j hj).units := by
  have hround : ∀ {m n : Nat}, m ≤ n → roundMagnitude (m * unitsPerOne) 1 ≤
      roundMagnitude (n * unitsPerOne) 1 :=
    fun h => roundMagnitude_mono Nat.one_pos (Nat.mul_le_mul_right _ h)
  rw [units_ofInt, units_ofInt]
  by_cases hneg : j < 0
  · have hle := hround (show j.natAbs ≤ i.natAbs by omega)
    rw [if_pos hneg, if_pos (by omega)]
    omega
  · by_cases hneg' : i < 0
    · rw [if_pos hneg', if_neg hneg]
      omega
    · have hle := hround (show i.natAbs ≤ j.natAbs by omega)
      rw [if_neg hneg', if_neg hneg]
      omega

def wordBits : Nat := 64

theorem two_pow_wordBits : 2 ^ wordBits = 18446744073709551616 := rfl

/-- So far at most a magnitude below 2⁶⁴ is from the number that it is rounded to. -/
def wordError : Nat := 1024 * unitsPerOne

theorem roundMagnitude_word_error {m : Nat} (h : m < 2 ^ wordBits * unitsPerOne) :
    roundMagnitude m 1 ≤ m + wordError ∧ m ≤ roundMagnitude m 1 + wordError := by
  have hs : spacing m ≤ 2 * wordError := by
    have hplaces : wordBits + unitPlaces = 11 + unitPlaces + significandBits := rfl
    rw [pow_mul_unitsPerOne, hplaces] at h
    have hle : spacing m ≤ 2 ^ (11 + unitPlaces) := spacing_le_pow h
    rw [← pow_mul_unitsPerOne 11] at hle
    unfold wordError
    omega
  have herr := roundMagnitude_error m
  omega

theorem units_ofInt_error {i : Int} (h : i.natAbs < 2 ^ integerBits)
    (hi : i.natAbs < 2 ^ wordBits) : ((ofInt i h).units - i * unitsPerOne).natAbs ≤ wordError := by
  have herr :=
    roundMagnitude_word_error (Nat.mul_lt_mul_of_pos_right hi (Nat.two_pow_pos unitPlaces))
  have habs : i * unitsPerOne = if i < 0 then -((i.natAbs * unitsPerOne : Nat) : Int)
      else (i.natAbs * unitsPerOne : Nat) := by
    split
    · have : i = -(i.natAbs : Int) := by omega
      rw [Int.natCast_mul, ← Int.neg_mul, ← this]
    · have : i = i.natAbs := by omega
      rw [Int.natCast_mul, ← this]
  rw [units_ofInt, habs]
  split <;> omega

/-- A sum below 2⁶⁴ is a number, rounded once. -/
theorem exists_add? {x y : Binary64} (h : (x.units + y.units).natAbs < 2 ^ wordBits * unitsPerOne) :
    ∃ z, x.add? y = some z ∧ (z.units - (x.units + y.units)).natAbs ≤ wordError := by
  unfold add?
  generalize x.units + y.units = sum at *
  have herr := roundMagnitude_word_error h
  by_cases hzero : sum = 0
  · subst hzero
    exact ⟨_, if_pos rfl, by simp [units, zero]⟩
  · have hlimit : roundMagnitude sum.natAbs 1 < magnitudeLimit := by
      rw [pow_mul_unitsPerOne] at h
      have hle : roundMagnitude sum.natAbs 1 ≤ 2 ^ (wordBits + unitPlaces) :=
        roundMagnitude_le_pow Nat.one_pos (by rwa [Nat.mul_one])
      have hlt : 2 ^ (wordBits + unitPlaces) < magnitudeLimit :=
        Nat.pow_lt_pow_right Nat.one_lt_two (Nat.add_lt_add_right (by decide) unitPlaces)
      exact Nat.lt_of_le_of_lt hle hlt
    refine ⟨_, (if_neg hzero).trans (dif_pos hlimit), ?_⟩
    simp only [units, decide_eq_true_eq]
    split <;> omega

end Binary64

end Patchbay
