import Patchbay.Blocks.Builtin
import Patchbay.Proofs.Rounding

/-! Integers as values. Two signed words are compared and added exactly. With an unsigned word among
them a pair goes through binary64, where two words may coincide and a sum is no integer any more. -/

-- Powers of naturals are core's own here, whatever other powers are in scope.
attribute [local instance (1100)] instPowNat

namespace Patchbay

theorem IsWord.natAbs_lt_pow {i : Int} (h : IsWord i) : i.natAbs < 2 ^ Binary64.wordBits := by
  unfold IsWord signedMin unsignedLimit at h
  rw [Binary64.two_pow_wordBits]
  omega

namespace Number

variable {i j : Int} {hi : IsWord i} {hj : IsWord j} {a b : Number}

theorem signed?_of_isSigned (h : IsSigned i) : (int i hi).signed? = some i := if_pos h.2

theorem signed?_of_not_isSigned (h : ¬IsSigned i) : (int i hi).signed? = none :=
  if_neg fun hlt => h ⟨hi.1, hlt⟩

theorem signed?_eq_some_iff {n : Number} :
    n.signed? = some i ↔ ∃ h : IsSigned i, n = int i h.isWord := by
  constructor
  · intro hs
    cases n with
    | int k hk =>
      by_cases hlt : k < signedLimit
      · rw [signed?, if_pos hlt] at hs
        cases hs
        exact ⟨⟨hk.1, hlt⟩, rfl⟩
      · rw [signed?, if_neg hlt] at hs
        cases hs
    | float x => cases hs
  · rintro ⟨h, rfl⟩
    exact signed?_of_isSigned h

/-- Whether two numbers are one binary64 number. -/
def Coincide (a b : Number) : Prop := a.toBinary64.units = b.toBinary64.units

instance (a b : Number) : Decidable (a.Coincide b) := inferInstanceAs (Decidable (_ = _))

theorem units_error (hi : IsWord i) : ((int i hi).toBinary64.units - i * unitsPerOne).natAbs ≤
    Binary64.wordError :=
  Binary64.units_ofInt_error hi.natAbs_lt hi.natAbs_lt_pow

/-- Two words that coincide are both within 1024 of one number. -/
theorem Coincide.natAbs_sub_le (h : (int i hi).Coincide (int j hj)) : (i - j).natAbs ≤ 2048 := by
  have herr := units_error hi
  have herr' := units_error hj
  rw [h] at herr
  have habs : (i - j).natAbs * unitsPerOne = (i * unitsPerOne - j * unitsPerOne).natAbs := by
    rw [← Int.sub_mul, Int.natAbs_mul, Int.natAbs_natCast]
  have hle : (i - j).natAbs * unitsPerOne ≤ 2048 * unitsPerOne := by
    unfold Binary64.wordError at herr herr'
    omega
  exact Nat.le_of_mul_le_mul_right hle (Nat.two_pow_pos _)

/-! Order -/

theorem order_of_signed? (ha : a.signed? = some i) (hb : b.signed? = some j) :
    a.order b = compare i j := by
  rw [order, ha, hb]

theorem order_of_not_signed? (h : a.signed? = none ∨ b.signed? = none) :
    a.order b = compare a.toBinary64.units b.toBinary64.units := by
  obtain ha | hb := h
  · rw [order, ha]
    rfl
  · cases ha : a.signed? with
    | none => rw [order, ha]; rfl
    | some i => rw [order, ha, hb]; rfl

theorem order_of_isSigned (h : IsSigned i ∧ IsSigned j) :
    (int i hi).order (int j hj) = compare i j :=
  order_of_signed? (signed?_of_isSigned h.1) (signed?_of_isSigned h.2)

theorem order_of_not_isSigned (h : ¬(IsSigned i ∧ IsSigned j)) : (int i hi).order (int j hj) =
    compare (int i hi).toBinary64.units (int j hj).toBinary64.units := by
  apply order_of_not_signed?
  by_cases hs : IsSigned i
  · exact Or.inr (signed?_of_not_isSigned fun ht => h ⟨hs, ht⟩)
  · exact Or.inl (signed?_of_not_isSigned hs)

theorem compare_units (h : ¬(int i hi).Coincide (int j hj)) :
    compare (int i hi).toBinary64.units (int j hj).toBinary64.units = compare i j := by
  have hmono : ∀ {k l : Int} (hk : IsWord k) (hl : IsWord l), k < l →
      (int k hk).toBinary64.units ≤ (int l hl).toBinary64.units := fun hk hl hlt =>
    Binary64.units_ofInt_mono (Int.le_of_lt hlt) hk.natAbs_lt hl.natAbs_lt
  unfold Coincide at h
  rcases Int.lt_trichotomy i j with hlt | rfl | hgt
  · have hle := hmono hi hj hlt
    rw [Int.compare_eq_lt.mpr hlt, Int.compare_eq_lt]
    omega
  · exact absurd rfl h
  · have hle := hmono hj hi hgt
    rw [Int.compare_eq_gt.mpr hgt, Int.compare_eq_gt]
    omega

/-! Sums -/

theorem add?_of_isSigned (h : IsSigned i ∧ IsSigned j) (hsum : IsSigned (i + j)) :
    (int i hi).add? (int j hj) = some (int (i + j) hsum.isWord) := by
  rw [add?, signed?_of_isSigned h.1, signed?_of_isSigned h.2]
  exact dif_pos hsum

theorem add?_of_not_isSigned (h : ¬(IsSigned i ∧ IsSigned j)) : (int i hi).add? (int j hj) =
    ((int i hi).toBinary64.add? (int j hj).toBinary64).map float := by
  by_cases hs : IsSigned i
  · rw [add?, signed?_of_isSigned hs, signed?_of_not_isSigned fun ht => h ⟨hs, ht⟩]
  · rw [add?, signed?_of_not_isSigned hs]

/-- Each of the two words is rounded, and then their sum. -/
theorem add?_error (hi : IsWord i) (hj : IsWord j) (hs : ¬(IsSigned i ∧ IsSigned j))
    (hsum : IsSigned (i + j)) : ∃ x, (int i hi).add? (int j hj) = some (float x) ∧
      (x.units - (i + j) * unitsPerOne).natAbs ≤ 3072 * unitsPerOne := by
  have herr := units_error hi
  have herr' := units_error hj
  have hmul : (i + j) * unitsPerOne = i * unitsPerOne + j * unitsPerOne := Int.add_mul _ _ _
  have hlt : ((i + j) * unitsPerOne).natAbs ≤ 9223372036854775808 * unitsPerOne := by
    rw [Int.natAbs_mul, Int.natAbs_natCast]
    apply Nat.mul_le_mul_right
    unfold IsSigned signedMin signedLimit at hsum
    omega
  have hword : Binary64.wordError = 1024 * unitsPerOne := rfl
  have hpos : 0 < unitsPerOne := Nat.two_pow_pos _
  obtain ⟨x, hx, herror⟩ := Binary64.exists_add? (x := (int i hi).toBinary64)
    (y := (int j hj).toBinary64) (by rw [Binary64.two_pow_wordBits]; omega)
  refine ⟨x, ?_, by omega⟩
  rw [add?_of_not_isSigned hs, hx]
  rfl

end Number

/-! Values -/

namespace Value

/-- The order of two words is exact unless they coincide and one of them is unsigned; then they
count as equal, which is off by at most 2048. -/
theorem order_of_words {i j : Int} (hi : IsWord i) (hj : IsWord j) :
    let a := Number.int i hi
    let b := Number.int j hj
    ((number a).order? (number b) = some (compare i j) ↔
      (IsSigned i ∧ IsSigned j) ∨ i = j ∨ ¬a.Coincide b) ∧
    ((number a).order? (number b) ≠ some (compare i j) →
      (number a).order? (number b) = some .eq ∧ (i - j).natAbs ≤ 2048) ∧
    (Builtin.route (number a) (number b) = Builtin.equalOutput ↔
      i = j ∨ (¬(IsSigned i ∧ IsSigned j) ∧ a.Coincide b)) := by
  intro a b
  have horder : (number a).order? (number b) = some (a.order b) := rfl
  have hroute : Builtin.route (number a) (number b) = Builtin.equalOutput ↔ a.order b = .eq := by
    unfold Builtin.route
    rw [horder]
    cases a.order b <;> simp [Builtin.lessOutput, Builtin.equalOutput, Builtin.greaterOutput]
  rw [horder, hroute]
  by_cases hs : IsSigned i ∧ IsSigned j
  · have hexact : a.order b = compare i j := Number.order_of_isSigned hs
    simp [hexact, hs]
  · by_cases hc : a.Coincide b
    · have heq : a.order b = .eq := by
        rw [Number.order_of_not_isSigned hs, hc, Int.compare_eq_eq]
      have hself : .eq = compare i j ↔ i = j := by rw [eq_comm, Int.compare_eq_eq]
      simp [heq, hs, hc, hself, hc.natAbs_sub_le]
    · have hexact : a.order b = compare i j :=
        (Number.order_of_not_isSigned hs).trans (Number.compare_units hc)
      simp [hexact, hs, hc]

/-- Halfway between two numbers a word goes to the even one. -/
theorem order_of_words_at_tie :
    (number (.int 9223372036854776832 (by decide))).order?
      (number (.int 9223372036854775807 (by decide))) = some .eq := by
  have hw :=
    order_of_words (i := 9223372036854776832) (j := 9223372036854775807) (by decide) (by decide)
  refine (hw.2.1 ?_).1
  rw [Ne, hw.1]
  decide +kernel

/-- Two words in a row, of which the comparison makes no difference. -/
theorem order_of_words_inexact : ∃ (i j : Int) (hi : IsWord i) (hj : IsWord j),
    (number (.int i hi)).order? (number (.int j hj)) = some .eq ∧ compare i j = .lt ∧
      Builtin.route (number (.int i hi)) (number (.int j hj)) = Builtin.equalOutput ∧ i ≠ j :=
  ⟨9223372036854775808, 9223372036854775809, by decide, by decide, by decide +kernel,
    by decide, by decide +kernel, by decide⟩

/-- A sum that fits the signed word is exact if both words are signed. Otherwise it is no integer,
and off by at most 3072. -/
theorem sum_of_words {i j : Int} (hi : IsWord i) (hj : IsWord j) (hsum : IsSigned (i + j)) :
    let sum := (number (.int i hi)).add? (number (.int j hj))
    (sum = some (number (.int (i + j) hsum.isWord)) ↔ IsSigned i ∧ IsSigned j) ∧
    (¬(IsSigned i ∧ IsSigned j) → ∃ x, sum = some (number (.float x)) ∧
      (x.units - (i + j) * unitsPerOne).natAbs ≤ 3072 * unitsPerOne) := by
  intro sum
  have hadd : sum = ((Number.int i hi).add? (.int j hj)).map number := rfl
  by_cases hs : IsSigned i ∧ IsSigned j
  · have hexact : sum = some (number (.int (i + j) hsum.isWord)) := by
      rw [hadd, Number.add?_of_isSigned hs hsum]
      rfl
    exact ⟨⟨fun _ => hs, fun _ => hexact⟩, fun h => absurd hs h⟩
  · obtain ⟨x, hx, herr⟩ := Number.add?_error hi hj hs hsum
    have hsum' : sum = some (number (.float x)) := by rw [hadd, hx]; rfl
    rw [hsum']
    exact ⟨by simp [hs], fun _ => ⟨x, rfl, herr⟩⟩

theorem sum_of_mixed_words : ∃ x,
    (number (.int 18446744073709551615 (by decide))).add?
      (number (.int (-9223372036854775808) (by decide))) = some (number (.float x)) ∧
    (x.units - 9223372036854775807 * unitsPerOne).natAbs ≤ 3072 * unitsPerOne :=
  (sum_of_words (i := 18446744073709551615) (j := -9223372036854775808) (by decide) (by decide)
    (by decide)).2 (by decide)

/-- Less than the first unsigned word by one is a signed word, but as a sum it is no integer. -/
theorem sum_of_words_inexact : ∃ (i j : Int) (hi : IsWord i) (hj : IsWord j) (x : Binary64),
    IsSigned (i + j) ∧ (number (.int i hi)).add? (number (.int j hj)) = some (number (.float x)) ∧
      x.units = (i + j + 1) * unitsPerOne :=
  ⟨9223372036854775808, -1, by decide, by decide, .ofInt 9223372036854775808 (by decide), by decide,
    by decide +kernel, by decide +kernel⟩

end Value

end Patchbay
