import Patchbay.Proofs.NumberTexts
import Patchbay.Proofs.Rounding

/-! The range of numerals. A numeral with few digits before its point and no large power of ten is
read as a number, and so is each numeral that a cut leaves of a number's text. -/

-- Powers of naturals are core's own here, whatever other powers are in scope.
attribute [local instance (1100)] instPowNat

namespace Patchbay

/-! Digits that are kept -/

namespace Decimal

variable {d : Decimal} {places : Nat}

theorem keep_of_lt (hd : d.digits < keptLimit) : d.keep places = d := by
  cases places with
  | zero => rfl
  | succ places => rw [keep, if_pos hd]

theorem digits_keep_lt (hd : d.digits / 10 ^ places < keptLimit) :
    (d.keep places).digits < keptLimit := by
  induction places generalizing d with
  | zero => simpa [keep] using hd
  | succ places ih =>
    by_cases hlt : d.digits < keptLimit
    · rwa [keep_of_lt hlt]
    · rw [keep, if_neg hlt]
      refine ih ?_
      rwa [Nat.div_div_eq_div_mul, Nat.mul_comm, ← Nat.pow_succ]

theorem exponent_keep_le {j : Nat} (hd : d.digits / 10 ^ j < keptLimit) :
    (d.keep places).exponent ≤ d.exponent + j := by
  induction places generalizing d j with
  | zero =>
    rw [keep]
    omega
  | succ places ih =>
    by_cases hlt : d.digits < keptLimit
    · rw [keep_of_lt hlt]
      omega
    · cases j with
      | zero => exact absurd (by simpa using hd) hlt
      | succ j =>
        have hten : d.digits / 10 / 10 ^ j < keptLimit := by
          rwa [Nat.div_div_eq_div_mul, Nat.mul_comm, ← Nat.pow_succ]
        have hrest := ih (d := ⟨d.digits / 10, d.exponent + 1⟩) hten
        rw [keep, if_neg hlt]
        refine Int.le_trans hrest ?_
        dsimp only
        omega

end Decimal

theorem div_ten_pow_log2_lt (n : Nat) : n / 10 ^ n.log2 < keptLimit := by
  have hlog : n < 2 ^ (n.log2 + 1) := Nat.lt_log2_self
  have hpow : 2 ^ n.log2 ≤ 10 ^ n.log2 := Nat.pow_le_pow_left (by decide) _
  have htwo : 2 ≤ keptLimit := by decide
  refine Nat.div_lt_of_lt_mul ?_
  calc n < 2 ^ n.log2 * 2 := hlog
    _ ≤ 10 ^ n.log2 * keptLimit := Nat.mul_le_mul hpow htwo

namespace Numeral

variable {n : Numeral}

theorem kept_eq (hn : n.whole < keptLimit) :
    n.kept = Decimal.keep n.digits.log2 ⟨n.digits, n.exponent - n.places⟩ := by
  have hwhole : Decimal.keep n.digits.log2 ⟨n.digits / 10 ^ n.places, 0⟩ =
      ⟨n.digits / 10 ^ n.places, 0⟩ := Decimal.keep_of_lt hn
  have hdigits : n.digits / 10 ^ n.places * 10 ^ n.places + n.digits % 10 ^ n.places = n.digits :=
    Nat.div_add_mod' _ _
  have hexponent : 0 - (n.places : Int) + n.exponent = n.exponent - n.places := by omega
  rw [kept, hwhole]
  dsimp only
  rw [hdigits, hexponent]

theorem digits_kept_lt (hn : n.whole < keptLimit) : n.kept.digits < keptLimit := by
  rw [kept_eq hn]
  exact Decimal.digits_keep_lt (div_ten_pow_log2_lt n.digits)

theorem exponent_kept_le (hn : n.whole < keptLimit) : n.kept.exponent ≤ n.exponent := by
  have hle : (Decimal.keep n.digits.log2 ⟨n.digits, n.exponent - n.places⟩).exponent ≤
      n.exponent - n.places + n.places := Decimal.exponent_keep_le hn
  rw [kept_eq hn]
  omega

end Numeral

namespace Binary64

theorem decimalLength_le {n k : Nat} (hk : 0 < k) (hn : n < 10 ^ k) : decimalLength n ≤ k :=
  (Nat.length_toDigits_le_iff (by decide) hk).mpr hn

theorem exists_nearest? (negative : Bool) {k : Nat} (hk : k < keptLimit) :
    ∃ x, Decimal.nearest? negative ⟨k, 0⟩ = some x ∧
      x.magnitude < 2 * keptLimit * unitsPerOne := by
  have hlength : decimalLength k ≤ 20 :=
    decimalLength_le (by decide) (Nat.lt_of_lt_of_le hk (by decide))
  have hpos : 0 < unitsPerOne := Nat.two_pow_pos _
  by_cases hzero : k = 0
  · have hbound : 0 < 2 * keptLimit * unitsPerOne := Nat.mul_pos (by decide) hpos
    exact ⟨zero negative, by simp [Decimal.nearest?, hzero], hbound⟩
  · have hq : k * 10 ^ 0 * unitsPerOne / 1 < keptLimit * unitsPerOne := by
      rw [Nat.pow_zero, Nat.mul_one, Nat.div_one]
      exact Nat.mul_lt_mul_of_pos_right hk hpos
    obtain ⟨x, hx, hmagnitude, -⟩ := exists_round? negative hq (by decide +kernel)
    refine ⟨x, ?_, hmagnitude⟩
    have hfar : ¬(k = 0 ∨ (decimalLength k : Int) + 0 < -Decimal.farPower) := by
      simp only [Decimal.farPower]
      omega
    have hnear : ¬Decimal.farPower < (decimalLength k : Int) + 0 := by
      simp only [Decimal.farPower]
      omega
    rw [Decimal.nearest?]
    dsimp only
    rw [if_neg hfar, if_neg hnear, if_pos (Int.le_refl 0)]
    exact hx

theorem exists_tenPower? {k : Nat} (hk : k ≤ topPower) : ∃ y, tenPower? k = some y ∧
    y.magnitude < 2 * (10 ^ k + 1) * unitsPerOne ∧ unitsPerOne ≤ 2 * y.magnitude := by
  have hpos : 0 < 10 ^ k := Nat.pow_pos (by decide)
  have hlimit : 3 * (10 ^ k + 1) ≤ 2 * 2 ^ exponentLimit := by
    have hpow : 10 ^ k ≤ 10 ^ topPower := Nat.pow_le_pow_right (by decide) hk
    have htop : 3 * (10 ^ topPower + 1) ≤ 2 * 2 ^ exponentLimit := by decide +kernel
    calc 3 * (10 ^ k + 1) ≤ 3 * (10 ^ topPower + 1) :=
          Nat.mul_le_mul_left 3 (Nat.add_le_add_right hpow 1)
      _ ≤ 2 * 2 ^ exponentLimit := htop
  have hq : 1 * 10 ^ k * unitsPerOne / 1 < (10 ^ k + 1) * unitsPerOne := by
    rw [Nat.one_mul, Nat.div_one]
    exact Nat.mul_lt_mul_of_pos_right (Nat.lt_succ_self _) (Nat.two_pow_pos _)
  obtain ⟨y, hy, hhigh, hlow⟩ := exists_round? false hq hlimit
  have hlength : decimalLength 1 = 1 := rfl
  have hbound : k ≤ 308 := hk
  have hfar : ¬(1 = 0 ∨ (decimalLength 1 : Int) + k < -Decimal.farPower) := by
    simp only [Decimal.farPower]
    omega
  have hnear : ¬Decimal.farPower < (decimalLength 1 : Int) + k := by
    simp only [Decimal.farPower]
    omega
  refine ⟨y, ?_, hhigh, ?_⟩
  · rw [tenPower?, Decimal.nearest?]
    dsimp only
    rw [if_neg hfar, if_neg hnear, if_pos (Int.natCast_nonneg k), Int.toNat_natCast]
    exact hy
  · rw [Nat.one_mul, Nat.div_one] at hlow
    exact Nat.le_trans (Nat.le_mul_of_pos_left _ hpos) hlow

theorem exists_mul? {x y : Binary64} {k l : Nat} (hx : x.magnitude < k * unitsPerOne)
    (hy : y.magnitude < l * unitsPerOne) (hkl : 3 * (k * l) ≤ 2 * 2 ^ exponentLimit) :
    ∃ z, x.mul? y = some z := by
  have hq : x.magnitude * y.magnitude / unitsPerOne < k * l * unitsPerOne := by
    generalize unitsPerOne = u at hx hy
    refine Nat.div_lt_of_lt_mul ?_
    calc x.magnitude * y.magnitude < (k * u) * (l * u) := Nat.mul_lt_mul'' hx hy
      _ = u * (k * l * u) := by ac_rfl
  obtain ⟨z, hz, -⟩ := exists_round? (x.negative != y.negative) hq hkl
  exact ⟨z, hz⟩

theorem exists_div? {x y : Binary64} {k : Nat} (hx : x.magnitude < k * unitsPerOne)
    (hy : unitsPerOne ≤ 2 * y.magnitude) (hk : 3 * (2 * k) ≤ 2 * 2 ^ exponentLimit) :
    ∃ z, x.div? y = some z ∧ z.magnitude < 2 * (2 * k) * unitsPerOne := by
  have hpos : 0 < unitsPerOne := Nat.two_pow_pos _
  have hq : x.magnitude * unitsPerOne / y.magnitude < 2 * k * unitsPerOne := by
    have hle : x.magnitude * unitsPerOne / y.magnitude ≤ 2 * x.magnitude := by
      refine Nat.div_le_of_le_mul ?_
      calc x.magnitude * unitsPerOne ≤ x.magnitude * (2 * y.magnitude) := Nat.mul_le_mul_left _ hy
        _ = y.magnitude * (2 * x.magnitude) := by ac_rfl
    rw [Nat.mul_assoc]
    omega
  obtain ⟨z, hz, hz', -⟩ := exists_round? (x.negative != y.negative) hq hk
  exact ⟨z, hz, hz'⟩

theorem exists_shrink? {x : Binary64} (hx : x.magnitude < 2 * keptLimit * unitsPerOne) (k : Nat) :
    ∃ z, x.shrink? k = some z := by
  obtain ⟨top, htop, -, htop'⟩ := exists_tenPower? (Nat.le_refl topPower)
  obtain ⟨y, hy, hbound⟩ := exists_div? hx htop' (by decide +kernel)
  by_cases hone : k ≤ topPower
  · obtain ⟨ten, hten, -, hten'⟩ := exists_tenPower? hone
    obtain ⟨z, hz, -⟩ := exists_div? hx hten' (by decide +kernel)
    refine ⟨z, ?_⟩
    rw [shrink?, if_pos hone, hten, Option.bind_eq_bind, Option.bind_some, hz]
  · by_cases htwo : k ≤ 2 * topPower
    · have hrest : k - topPower ≤ topPower := by omega
      obtain ⟨ten, hten, -, hten'⟩ := exists_tenPower? hrest
      obtain ⟨z, hz, -⟩ := exists_div? hbound hten' (by decide +kernel)
      refine ⟨z, ?_⟩
      rw [shrink?, if_neg hone, if_pos htwo, htop, Option.bind_eq_bind, Option.bind_some, hy,
        Option.bind_some, hten, Option.bind_some, hz]
    · exact ⟨zero x.negative, by rw [shrink?, if_neg hone, if_neg htwo]; rfl⟩

end Binary64

/-- No numeral is too large with few digits before its point and no large power. -/
theorem Numeral.exists_toBinary64? {n : Numeral} (hn : n.whole < keptLimit)
    (he : n.exponent ≤ 100) : ∃ x, n.toBinary64? = some x := by
  obtain ⟨x, hx, hbound⟩ := Binary64.exists_nearest? n.negative (digits_kept_lt hn)
  have hexponent := exponent_kept_le hn
  unfold toBinary64?
  dsimp only
  rw [hx, Option.bind_eq_bind, Option.bind_some]
  by_cases hzero : n.kept.digits = 0
  · exact ⟨x, by rw [if_pos hzero]; rfl⟩
  · by_cases hsign : 0 ≤ n.kept.exponent
    · have htop : n.kept.exponent.toNat ≤ 100 := by omega
      obtain ⟨ten, hten, hsmall, -⟩ := Binary64.exists_tenPower? (Nat.le_trans htop (by decide))
      have hpow : 10 ^ n.kept.exponent.toNat ≤ 10 ^ 100 := Nat.pow_le_pow_right (by decide) htop
      have hlimit : 3 * (2 * keptLimit * (2 * (10 ^ 100 + 1))) ≤ 2 * 2 ^ exponentLimit := by
        decide +kernel
      obtain ⟨z, hz⟩ := Binary64.exists_mul? hbound hsmall
        (Nat.le_trans (Nat.mul_le_mul_left 3 (Nat.mul_le_mul_left _ (Nat.mul_le_mul_left 2
          (Nat.succ_le_succ hpow)))) hlimit)
      exact ⟨z, by rw [if_neg hzero, if_pos hsign, hten, Option.bind_some, hz]⟩
    · obtain ⟨z, hz⟩ := Binary64.exists_shrink? hbound (-n.kept.exponent).toNat
      exact ⟨z, by rw [if_neg hzero, if_neg hsign, hz]⟩

theorem Number.exists_ofNumeral? {n : Numeral} (hn : n.whole < keptLimit) (he : n.exponent ≤ 100) :
    ∃ x, ofNumeral? n = some x := by
  obtain ⟨x, hx⟩ := Numeral.exists_toBinary64? hn he
  unfold ofNumeral?
  extract_lets value
  split
  · exact ⟨_, rfl⟩
  · exact ⟨.float x, by rw [hx]; rfl⟩

/-! The numerals of texts -/

namespace Decimal

variable {d : Decimal}

theorem decimalLength_div_ten {n : Nat} (hn : n ≠ 0) (hten : n % 10 = 0) :
    decimalLength n = decimalLength (n / 10) + 1 := by
  have hbase : 10 ≤ n := by omega
  rw [decimalLength, Nat.toDigits_of_base_le (by decide) hbase, List.length_append]
  rfl

theorem top_trim (places : Nat) (hd : d.digits ≠ 0) : (d.trim places).top = d.top := by
  induction places generalizing d with
  | zero => rfl
  | succ places ih =>
    unfold trim
    split
    · next hten =>
      have hdiv : d.digits / 10 ≠ 0 := by omega
      have hlength := decimalLength_div_ten hd hten
      have hpos : 0 < decimalLength (d.digits / 10) := List.length_pos_iff.mpr Nat.toDigits_ne_nil
      rw [ih hdiv, top, top, hlength]
      dsimp only
      omega
    · rfl

theorem exponent_parts_le (negative : Bool) :
    (d.parts negative).numeral.exponent ≤ max d.top 0 := by
  unfold parts
  dsimp only
  split
  · have hdigits := Nat.ofDigitChars_ten_toDigits (n := d.top.natAbs)
    simp only [Json.NumberParts.numeral, Option.elim_some, hdigits, Json.signedPower,
      decide_eq_true_eq]
    split <;> omega
  · split <;> exact Int.le_max_right _ _

end Decimal

theorem Binary64.top_shortest_le {m : Nat} (hm : m ≠ 0) (hlt : m < magnitudeLimit) :
    (shortest m).top ≤ 400 := by
  rcases shortest_cases m with hexact | ⟨x, hx, hxm⟩
  · have hlength : decimalLength (m * 5 ^ unitPlaces) ≤ 1383 := by
      have hdigits :=
        Nat.mul_lt_mul_of_pos_right (k := 5 ^ unitPlaces) hlt (Nat.pow_pos (by decide))
      refine decimalLength_le (by decide) (Nat.lt_of_lt_of_le hdigits ?_)
      decide +kernel
    have htop : (exactDecimal m).top =
        -(unitPlaces : Int) + (decimalLength (m * 5 ^ unitPlaces) - 1 : Nat) := rfl
    have hplaces : unitPlaces = 1074 := rfl
    rw [hexact, htop]
    omega
  · have hd := Decimal.digits_ne_zero_of_nearest? hx (hxm ▸ hm)
    by_cases hfar : Decimal.farPower <
        (decimalLength (shortest m).digits : Int) + (shortest m).exponent
    · have hnot : ¬((shortest m).digits = 0 ∨
          (decimalLength (shortest m).digits : Int) + (shortest m).exponent <
            -Decimal.farPower) := by
        simp only [Decimal.farPower] at hfar ⊢
        omega
      rw [Decimal.nearest?] at hx
      rw [if_neg hnot, if_pos hfar] at hx
      cases hx
    · simp only [Decimal.farPower] at hfar
      rw [Decimal.top]
      omega

theorem Json.NumberParts.Valid.whole_numeral {p : Json.NumberParts} (hp : p.Valid) :
    p.numeral.whole = Nat.ofDigitChars 10 p.whole 0 := by
  have hfraction := ofDigitChars_lt hp.fraction
  rw [Numeral.whole, numeral]
  dsimp only
  rw [Nat.ofDigitChars_append, Nat.ofDigitChars_eq_ofDigitChars_zero,
    Nat.add_comm, Nat.add_mul_div_left _ _ (Nat.pow_pos (by decide)), Nat.div_eq_of_lt hfraction,
    Nat.zero_add]

namespace Number

theorem exponent_numeral_le (x : Number) : x.numeral.exponent ≤ 400 := by
  cases x with
  | int i h => simp [numeral_int]
  | float x =>
    rw [numeral, parts, Binary64.parts]
    split
    · exact Int.natCast_nonneg 400
    · next hm =>
      have htop := Binary64.top_shortest_le hm x.representable.2
      have hle :=
        Decimal.exponent_parts_le x.negative (d := (Binary64.shortest x.magnitude).trim 800)
      rw [Decimal.top_trim 800 (Binary64.shortest_ne_zero hm)] at hle
      omega

theorem whole_numeral_lt (x : Number) : x.numeral.whole < keptLimit := by
  cases x with
  | int i h =>
    rw [numeral_int, Numeral.whole]
    unfold IsWord signedMin unsignedLimit at h
    unfold keptLimit
    dsimp only
    omega
  | float x =>
    have hlength : x.parts.whole.length ≤ 16 := by
      unfold Binary64.parts
      split
      · exact Nat.le_of_ble_eq_true rfl
      · exact Decimal.length_whole_parts _ _
    have hdigits := ofDigitChars_lt x.valid_parts.digits
    have hpow : 10 ^ x.parts.whole.length ≤ 10 ^ 16 := Nat.pow_le_pow_right (by decide) hlength
    rw [numeral, parts, x.valid_parts.whole_numeral]
    exact Nat.lt_trans (Nat.lt_of_lt_of_le hdigits hpow) (by decide)

theorem ofNumeral?_of_not_plain {n : Numeral} (hn : n.plain = false) :
    ofNumeral? n = n.toBinary64?.map float :=
  dif_neg fun h => Bool.false_ne_true (hn ▸ h.1)

theorem ofNumeral?_of_plain {n : Numeral} (hn : n.plain = true) (hsign : n.negative = false)
    (hw : IsWord n.digits) : ofNumeral? n = some (.int n.digits hw) := by
  have hvalue : (if n.negative then -(n.digits : Int) else n.digits) = n.digits := by simp [hsign]
  have hzero : ¬(n.negative = true ∧ n.digits = 0) := fun h => Bool.false_ne_true (hsign ▸ h.1)
  rw [ofNumeral?]
  simp only [hvalue]
  rw [dif_pos ⟨hn, hw, hzero⟩]

theorem plain_numeral_float (x : Binary64) : (float x).numeral.plain = false := by
  have hparts : ∀ d : Decimal, (d.parts x.negative).numeral.plain = false := by
    intro d
    have hpos : 0 < (Nat.toDigits 10 d.digits).length := List.length_pos_iff.mpr Nat.toDigits_ne_nil
    unfold Decimal.parts
    dsimp only
    split
    · simp [Json.NumberParts.numeral]
    · split
      · simp [Json.NumberParts.numeral]
      · have hlong : ((Nat.toDigits 10 d.digits ++ List.replicate
            (d.top.toNat + 1 + 1 - (Nat.toDigits 10 d.digits).length) '0').drop
              (d.top.toNat + 1)).length ≠ 0 := by
          simp only [List.length_drop, List.length_append, List.length_replicate]
          omega
        simp only [Json.NumberParts.numeral, Option.isNone_none, Bool.and_true,
          List.isEmpty_eq_false_iff, ne_eq, ← List.length_eq_zero_iff]
        exact hlong
  rw [numeral, parts, Binary64.parts]
  split
  · rfl
  · exact hparts _

section

variable {x : Number} {n : Numeral} {cs rest : List Char}

/-- What is left of a number's text, where it is a numeral at all, is the numeral of a number. -/
theorem exists_ofNumeral?_cut (hx : x.text.toList = cs ++ rest) (hn : Json.Scans n cs)
    (hr : rest ≠ []) : ∃ y, ofNumeral? n = some y := by
  have hscans : Json.Scans x.numeral (cs ++ rest) := hx ▸ x.scans_text
  obtain ⟨hextends, hten⟩ := hscans.cut hn hr
  have hexponent := x.exponent_numeral_le
  exact exists_ofNumeral? (Nat.lt_of_le_of_lt hextends.whole x.whole_numeral_lt) (by omega)

theorem ofNumeral?_cut_of_nonneg {i : Int} {h : IsWord i} (hi : 0 ≤ i)
    (hread : ofNumeral? x.numeral = some (.int i h)) (hx : x.text.toList = cs ++ rest)
    (hn : Json.Scans n cs) (hr : rest ≠ []) :
    ∃ (j : Int) (hj : IsWord j), 0 ≤ j ∧ ofNumeral? n = some (.int j hj) := by
  have hscans : Json.Scans x.numeral (cs ++ rest) := hx ▸ x.scans_text
  obtain ⟨hextends, -⟩ := hscans.cut hn hr
  cases x with
  | float x =>
    rw [ofNumeral?_of_not_plain (plain_numeral_float x)] at hread
    cases hb : (float x).numeral.toBinary64? <;> rw [hb] at hread <;> cases hread
  | int i' h' =>
    rw [ofNumeral?_int] at hread
    cases hread
    rw [numeral_int] at hextends
    have hneg : ¬i < 0 := by omega
    have hsign : n.negative = false := hextends.negative.symm.trans (decide_eq_false hneg)
    have hdigits : n.digits ≤ i.natAbs := hextends.digits
    have hle : (n.digits : Int) ≤ i := by omega
    have hw : IsWord n.digits :=
      ⟨Int.le_trans (by decide) (Int.natCast_nonneg n.digits), Int.lt_of_le_of_lt hle h.2⟩
    exact ⟨n.digits, hw, Int.natCast_nonneg _, ofNumeral?_of_plain (hextends.plain rfl) hsign hw⟩

end

end Number

end Patchbay
