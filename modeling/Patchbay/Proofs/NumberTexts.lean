import Patchbay.Proofs.Numerals
import Patchbay.Number

/-! Texts of numbers. Each is the text of valid parts, with at most sixteen digits before the point
unless it is an integer. -/

-- Powers of naturals are core's own here, whatever other powers are in scope.
attribute [local instance (1100)] instPowNat

namespace Patchbay

open Json (NumberParts)

/-! Decimals -/

namespace Decimal

variable {d : Decimal}

/-- The power of ten of the first digit. -/
def top (d : Decimal) : Int := d.exponent + (decimalLength d.digits - 1 : Nat)

def parts (negative : Bool) (d : Decimal) : NumberParts :=
  let digits := Nat.toDigits 10 d.digits
  if d.top < -5 ∨ 15 < d.top then
    ⟨negative, digits.take 1, digits.drop 1,
      some (decide (d.top < 0), Nat.toDigits 10 d.top.natAbs)⟩
  else if d.top < 0 then
    ⟨negative, ['0'], List.replicate (-d.top - 1).toNat '0' ++ digits, none⟩
  else
    let whole := d.top.toNat + 1
    let padded := digits ++ List.replicate (whole + 1 - digits.length) '0'
    ⟨negative, padded.take whole, padded.drop whole, none⟩

theorem chars_parts (negative : Bool) (d : Decimal) :
    (d.parts negative).chars = (if negative then ['-'] else []) ++ d.layout.toList := by
  obtain ⟨c, cs, hdigits⟩ :=
    List.exists_cons_of_ne_nil (Nat.toDigits_ne_nil (n := d.digits) (b := 10))
  unfold parts layout top decimalLength
  dsimp only
  split
  · cases cs <;>
      simp [NumberParts.chars, NumberParts.fractionChars, NumberParts.powerChars, hdigits]
  · split
    · simp [NumberParts.chars, NumberParts.fractionChars, NumberParts.powerChars, hdigits]
    · have hlong : ∀ k : Nat, (Nat.toDigits 10 d.digits ++
          List.replicate (k + 1 - (Nat.toDigits 10 d.digits).length) '0').drop k ≠ [] := by
        intro k hnil
        have hlen := congrArg List.length hnil
        simp only [List.length_drop, List.length_append, List.length_replicate,
          List.length_nil] at hlen
        omega
      simp [NumberParts.chars, NumberParts.fractionChars, NumberParts.powerChars, hlong]

theorem valid_parts (negative : Bool) (hd : d.digits ≠ 0) : (d.parts negative).Valid := by
  obtain ⟨c, cs, hdigits, hc⟩ := toDigits_eq_cons hd
  have hall : ∀ x ∈ c :: cs, x.isDigit := hdigits ▸ isDigit_toDigits
  have hzeros : ∀ k, ∀ x ∈ List.replicate k '0', x.isDigit := by
    intro k x hx
    rw [List.eq_of_mem_replicate hx]
    rfl
  have hpadded : ∀ k, ∀ x ∈ c :: cs ++ List.replicate k '0', x.isDigit := by
    intro k x hx
    rcases List.mem_append.mp hx with hx | hx
    · exact hall x hx
    · exact hzeros k x hx
  unfold parts
  dsimp only
  rw [hdigits]
  split
  · refine ⟨fun x hx => hall x (List.mem_of_mem_take hx), .inr ⟨c, [], rfl, hc⟩,
      fun x hx => hall x (List.mem_of_mem_drop hx), fun x hx => ?_⟩
    cases hx
    exact ⟨Nat.toDigits_ne_nil, isDigit_toDigits⟩
  · split
    · refine ⟨by simp, .inl rfl, fun x hx => ?_, nofun⟩
      rcases List.mem_append.mp hx with hx | hx
      · exact hzeros _ x hx
      · exact hall x hx
    · exact ⟨fun x hx => hpadded _ x (List.mem_of_mem_take hx), .inr ⟨c, _, rfl, hc⟩,
        fun x hx => hpadded _ x (List.mem_of_mem_drop hx), nofun⟩

theorem length_whole_parts (negative : Bool) (d : Decimal) :
    (d.parts negative).whole.length ≤ 16 := by
  unfold parts
  dsimp only
  split
  · simp only [List.length_take]
    omega
  · split
    · exact Nat.le_of_ble_eq_true rfl
    · simp only [List.length_take]
      omega

theorem trim_ne_zero (places : Nat) (hd : d.digits ≠ 0) : (d.trim places).digits ≠ 0 := by
  induction places generalizing d with
  | zero => exact hd
  | succ places ih =>
    unfold trim
    split
    · next hten =>
      have hdiv : d.digits / 10 ≠ 0 := by omega
      exact ih hdiv
    · exact hd

theorem digits_ne_zero_of_nearest? {negative : Bool} {x : Binary64}
    (hx : d.nearest? negative = some x) (hm : x.magnitude ≠ 0) : d.digits ≠ 0 := by
  intro hzero
  simp only [nearest?, hzero, true_or, if_true, Option.some.injEq] at hx
  exact hm (hx ▸ rfl)

end Decimal

namespace Binary64

theorem shortest_cases (m : Nat) : shortest m = exactDecimal m ∨
    ∃ x, (shortest m).nearest? false = some x ∧ x.magnitude = m := by
  unfold shortest
  dsimp only
  cases hf : ((List.range 17).flatMap fun n =>
      neighbours m (pointPosition m - (n + 1 : Nat))).find? (isNearest m) with
  | none => exact .inl rfl
  | some d =>
    have hnearest := List.find?_some hf
    simp only [isNearest] at hnearest
    split at hnearest
    · next x hx => exact .inr ⟨x, hx, by simpa using hnearest⟩
    · cases hnearest

theorem shortest_ne_zero {m : Nat} (hm : m ≠ 0) : (shortest m).digits ≠ 0 := by
  rcases shortest_cases m with hexact | ⟨x, hx, hxm⟩
  · rw [hexact]
    exact Nat.mul_ne_zero hm (Nat.pos_iff_ne_zero.mp (Nat.pow_pos (by decide)))
  · exact Decimal.digits_ne_zero_of_nearest? hx (hxm ▸ hm)

def parts (x : Binary64) : NumberParts :=
  if x.magnitude = 0 then ⟨x.negative, ['0'], ['0'], none⟩
  else ((shortest x.magnitude).trim 800).parts x.negative

theorem toList_signed (negative : Bool) (s : String) :
    (if negative then "-" ++ s else s).toList = (if negative then ['-'] else []) ++ s.toList := by
  cases negative <;> simp

theorem chars_parts (x : Binary64) : x.parts.chars = x.text.toList := by
  unfold text
  rw [toList_signed, parts]
  by_cases hm : x.magnitude = 0
  · rw [if_pos hm, if_pos hm]
    simp [NumberParts.chars, NumberParts.fractionChars, NumberParts.powerChars]
  · rw [if_neg hm, if_neg hm, Decimal.chars_parts]

theorem valid_parts (x : Binary64) : x.parts.Valid := by
  unfold parts
  split
  · exact ⟨by simp, .inl rfl, by simp, nofun⟩
  · next hm => exact Decimal.valid_parts _ (Decimal.trim_ne_zero 800 (shortest_ne_zero hm))

end Binary64

/-! Numbers -/

namespace Number

def parts : Number → NumberParts
  | .int i _ => ⟨decide (i < 0), Nat.toDigits 10 i.natAbs, [], none⟩
  | .float x => x.parts

/-- The numeral that a number's text is. -/
def numeral (x : Number) : Numeral := x.parts.numeral

theorem chars_parts (x : Number) : x.parts.chars = x.text.toList := by
  cases x with
  | int i h =>
    by_cases hi : 0 ≤ i
    · have hneg : ¬i < 0 := by omega
      have habs : i.natAbs = i.toNat := by omega
      simp [parts, text, NumberParts.chars, NumberParts.fractionChars, NumberParts.powerChars,
        Int.repr_eq_if, hi, hneg, habs]
    · have hneg : i < 0 := by omega
      have habs : i.natAbs = (-i).toNat := by omega
      simp [parts, text, NumberParts.chars, NumberParts.fractionChars, NumberParts.powerChars,
        Int.repr_eq_if, hi, hneg, habs]
  | float x => exact x.chars_parts

theorem valid_parts (x : Number) : x.parts.Valid := by
  cases x with
  | int i h =>
    refine ⟨isDigit_toDigits, ?_, nofun, nofun⟩
    by_cases hi : i.natAbs = 0
    · left
      simp [parts, hi]
    · obtain ⟨c, cs, hdigits, hc⟩ := toDigits_eq_cons hi
      exact .inr ⟨c, cs, hdigits, hc⟩
  | float x => exact x.valid_parts

theorem scans_text (x : Number) : Json.Scans x.numeral x.text.toList :=
  x.chars_parts ▸ x.valid_parts.scans

theorem numeral_int (i : Int) (h : IsWord i) :
    (Number.int i h).numeral = ⟨decide (i < 0), i.natAbs, 0, 0, true⟩ := by
  simp [numeral, parts, NumberParts.numeral]

theorem ofNumeral?_int (i : Int) (h : IsWord i) :
    ofNumeral? (Number.int i h).numeral = some (.int i h) := by
  have hvalue : (if decide (i < 0) then -(i.natAbs : Int) else i.natAbs) = i := by
    by_cases hi : i < 0
    · simp only [hi, decide_true, if_true]
      omega
    · simp only [hi, decide_false, Bool.false_eq_true, if_false]
      omega
  have hzero : ¬(decide (i < 0) = true ∧ i.natAbs = 0) := by
    simp only [decide_eq_true_eq]
    omega
  rw [numeral_int, ofNumeral?]
  simp only [hvalue]
  rw [dif_pos ⟨trivial, h, hzero⟩]

end Number

end Patchbay
