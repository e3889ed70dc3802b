import Patchbay.Json.Reader
import Mathlib.Tactic.Common

/-! Numerals as texts: which numeral a text with a whole part, a fraction and a power of ten is read
as, and what is left of it if the text is cut. -/

-- Powers of naturals are core's own here, whatever other powers are in scope.
attribute [local instance (1100)] instPowNat

namespace Patchbay

/-! Digits -/

theorem digitValue_lt {c : Char} (hc : c.isDigit) : Json.digitValue c < 10 := by
  have hbounds : '0'.toNat ≤ c.toNat ∧ c.toNat ≤ '9'.toNat := by
    simpa [Char.isDigit, UInt32.le_iff_toNat_le] using hc
  have hnine : '9'.toNat = '0'.toNat + 9 := rfl
  unfold Json.digitValue
  omega

theorem ofDigitChars_cons_digit (a : Nat) (c : Char) (cs : List Char) :
    Nat.ofDigitChars 10 (c :: cs) a = Nat.ofDigitChars 10 cs (a * 10 + Json.digitValue c) := by
  rw [Nat.ofDigitChars_cons, Nat.mul_comm]
  rfl

theorem ofDigitChars_lt {ds : List Char} (hd : ∀ c ∈ ds, c.isDigit) :
    Nat.ofDigitChars 10 ds 0 < 10 ^ ds.length := by
  induction ds with
  | nil => simp
  | cons c cs ih =>
    have hc := digitValue_lt (hd c List.mem_cons_self)
    have hcs := ih fun x hx => hd x (List.mem_cons_of_mem _ hx)
    have hle : 10 ^ cs.length * Json.digitValue c ≤ 10 ^ cs.length * 9 :=
      Nat.mul_le_mul_left _ (by omega)
    rw [ofDigitChars_cons_digit, Nat.ofDigitChars_eq_ofDigitChars_zero, List.length_cons,
      Nat.pow_succ]
    simp only [Nat.zero_mul, Nat.zero_add]
    omega

theorem isDigit_toDigits {n : Nat} : ∀ c ∈ Nat.toDigits 10 n, c.isDigit := fun _ hc =>
  Nat.isDigit_of_mem_toDigits (by decide) (by decide) hc

theorem toDigits_eq_cons {n : Nat} (hn : n ≠ 0) :
    ∃ c rest, Nat.toDigits 10 n = c :: rest ∧ c ≠ '0' := by
  induction n using Nat.strongRecOn with
  | _ n ih =>
    by_cases hlt : n < 10
    · refine ⟨n.digitChar, [], Nat.toDigits_of_lt_base hlt, fun hzero => hn ?_⟩
      have hdigit := Nat.ofDigitChars_ten_toDigits (n := n)
      rw [Nat.toDigits_of_lt_base hlt, hzero] at hdigit
      exact hdigit.symm
    · obtain ⟨c, rest, heq, hc⟩ := ih (n / 10) (by omega) (by omega)
      have hdigits := Nat.toDigits_of_base_le (b := 10) (n := n) (by decide) (by omega)
      rw [heq] at hdigits
      exact ⟨c, _, hdigits, hc⟩

namespace Json

/-! Reading a numeral -/

/-- Goes on with a numeral until the text ends; none where the numeral ends before. -/
def scan : NumberPart → Numeral → List Char → Option (NumberPart × Numeral)
  | part, n, [] => some (part, n)
  | part, n, c :: cs =>
    match advance part n c with
    | .more part n => scan part n cs
    | _ => none

def scanNumeral : List Char → Option (NumberPart × Numeral)
  | '-' :: cs => scan .sign (startNumeral true) cs
  | cs => scan .sign (startNumeral false) cs

/-- Whether all of a text is read as one numeral. -/
def Scans (n : Numeral) (cs : List Char) : Prop :=
  ∃ part : NumberPart, part.isWhole = true ∧ scanNumeral cs = some (part, n)

theorem scan_append (part : NumberPart) (n : Numeral) (cs ds : List Char) :
    scan part n (cs ++ ds) = (scan part n cs).bind fun x => scan x.1 x.2 ds := by
  induction cs generalizing part n with
  | nil => rfl
  | cons c cs ih =>
    simp only [List.cons_append, scan]
    split
    · exact ih _ _
    · rfl

theorem scan_whole (n : Numeral) {ds : List Char} (hd : ∀ c ∈ ds, c.isDigit) (rest : List Char) :
    scan .whole n (ds ++ rest) =
      scan .whole { n with digits := Nat.ofDigitChars 10 ds n.digits } rest := by
  induction ds generalizing n with
  | nil => simp
  | cons c cs ih =>
    have hc := hd c List.mem_cons_self
    have hcs := ih { n with digits := n.digits * 10 + digitValue c }
      fun x hx => hd x (List.mem_cons_of_mem _ hx)
    rw [ofDigitChars_cons_digit]
    simpa [scan, advance, hc] using hcs

theorem scan_fraction (n : Numeral) {ds : List Char} (hd : ∀ c ∈ ds, c.isDigit)
    (hn : n.plain = false) (rest : List Char) :
    scan .fraction n (ds ++ rest) =
      scan .fraction { n with
        digits := Nat.ofDigitChars 10 ds n.digits, places := n.places + ds.length } rest := by
  induction ds generalizing n with
  | nil => simp
  | cons c cs ih =>
    have hc := hd c List.mem_cons_self
    have hcs := ih { n with digits := n.digits * 10 + digitValue c, places := n.places + 1 }
      (fun x hx => hd x (List.mem_cons_of_mem _ hx)) hn
    rw [ofDigitChars_cons_digit]
    simpa [scan, advance, hc, ← hn, Nat.add_comm, Nat.add_left_comm] using hcs

def signedPower (negative : Bool) (power : Nat) : Int := if negative then -power else power

theorem scan_exponent (n : Numeral) (negative : Bool) (power : Nat) {ds : List Char}
    (hd : ∀ c ∈ ds, c.isDigit) (hn : n.plain = false)
    (he : n.exponent = signedPower negative power) : scan (.exponent negative) n ds =
      some (.exponent negative,
        { n with exponent := signedPower negative (Nat.ofDigitChars 10 ds power) }) := by
  induction ds generalizing n power with
  | nil => simp [scan, ← he]
  | cons c cs ih =>
    have hc := hd c List.mem_cons_self
    have hpower :
        (if negative then n.exponent * 10 - digitValue c else n.exponent * 10 + digitValue c) =
        signedPower negative (power * 10 + digitValue c) := by
      cases negative with
      | true =>
        simp only [signedPower, he, if_true]
        omega
      | false => simp [signedPower, he]
    have hcs := ih { n with exponent := signedPower negative (power * 10 + digitValue c) }
      (power * 10 + digitValue c) (fun x hx => hd x (List.mem_cons_of_mem _ hx)) hn rfl
    rw [ofDigitChars_cons_digit]
    simpa [scan, advance, hc, hpower, ← hn] using hcs

/-! The parts of a text -/

structure NumberParts where
  negative : Bool
  whole : List Char
  fraction : List Char
  /-- The digits of the power of ten, and whether it is negative. -/
  power : Option (Bool × List Char)

namespace NumberParts

def powerChars : Option (Bool × List Char) → List Char
  | none => []
  | some (negative, ds) => 'e' :: (if negative then '-' else '+') :: ds

def fractionChars (ds : List Char) : List Char := if ds = [] then [] else '.' :: ds

def chars (p : NumberParts) : List Char :=
  (if p.negative then ['-'] else []) ++
    (p.whole ++ (fractionChars p.fraction ++ powerChars p.power))

def numeral (p : NumberParts) : Numeral where
  negative := p.negative
  digits := Nat.ofDigitChars 10 (p.whole ++ p.fraction) 0
  places := p.fraction.length
  exponent := p.power.elim 0 fun x => signedPower x.1 (Nat.ofDigitChars 10 x.2 0)
  plain := p.fraction.isEmpty && p.power.isNone

structure Valid (p : NumberParts) : Prop where
  digits : ∀ c ∈ p.whole, c.isDigit
  whole : p.whole = ['0'] ∨ ∃ c rest, p.whole = c :: rest ∧ c ≠ '0'
  fraction : ∀ c ∈ p.fraction, c.isDigit
  power : ∀ x ∈ p.power, x.2 ≠ [] ∧ ∀ c ∈ x.2, c.isDigit

variable {p : NumberParts}

theorem Valid.scan_sign (hp : p.Valid) (n : Numeral) (hn : n.digits = 0) : ∃ part,
    (part = .zero ∨ part = .whole) ∧ ∀ rest, scan .sign n (p.whole ++ rest) =
      scan part { n with digits := Nat.ofDigitChars 10 p.whole 0 } rest := by
  rcases hp.whole with hzero | ⟨c, cs, hwhole, hc⟩
  · refine ⟨.zero, .inl rfl, fun rest => ?_⟩
    obtain ⟨negative, digits, places, exponent, plain⟩ := n
    obtain rfl : digits = 0 := hn
    rw [hzero]
    rfl
  · have hdigit : c.isDigit := hp.digits c (hwhole ▸ List.mem_cons_self)
    have hdigits : ∀ x ∈ cs, x.isDigit := fun x hx =>
      hp.digits x (hwhole ▸ List.mem_cons_of_mem _ hx)
    refine ⟨.whole, .inr rfl, fun rest => ?_⟩
    have hcs := scan_whole { n with digits := digitValue c } hdigits rest
    rw [hwhole, ofDigitChars_cons_digit]
    simpa [scan, advance, hc, hdigit, hn] using hcs

theorem scan_point {part : NumberPart} (hpart : part = .zero ∨ part = .whole) (n : Numeral)
    {ds : List Char} (hds : ds ≠ []) (hd : ∀ c ∈ ds, c.isDigit) (rest : List Char) :
    scan part n ('.' :: (ds ++ rest)) = scan .fraction { n with
      digits := Nat.ofDigitChars 10 ds n.digits, places := n.places + ds.length
      plain := false } rest := by
  obtain ⟨c, cs, rfl⟩ := List.exists_cons_of_ne_nil hds
  have hc := hd c List.mem_cons_self
  have hcs := scan_fraction
    { n with digits := n.digits * 10 + digitValue c, places := n.places + 1, plain := false }
    (fun x hx => hd x (List.mem_cons_of_mem _ hx)) rfl rest
  rw [ofDigitChars_cons_digit]
  rcases hpart with rfl | rfl <;>
    simpa [scan, advance, hc, Nat.add_comm, Nat.add_left_comm] using hcs

theorem scan_mark {part : NumberPart} (hpart : part = .zero ∨ part = .whole ∨ part = .fraction)
    (n : Numeral) (hn : n.exponent = 0) (negative : Bool) {ds : List Char} (hds : ds ≠ [])
    (hd : ∀ c ∈ ds, c.isDigit) : scan part n ('e' :: (if negative then '-' else '+') :: ds) =
      some (.exponent negative, { n with
        exponent := signedPower negative (Nat.ofDigitChars 10 ds 0), plain := false }) := by
  obtain ⟨c, cs, rfl⟩ := List.exists_cons_of_ne_nil hds
  have hc := hd c List.mem_cons_self
  have hcs := scan_exponent
    { n with exponent := signedPower negative (digitValue c), plain := false }
    negative (digitValue c) (fun x hx => hd x (List.mem_cons_of_mem _ hx)) rfl rfl
  rw [ofDigitChars_cons_digit]
  rcases hpart with rfl | rfl | rfl <;> cases negative <;>
    simpa [scan, advance, hc, hn, signedPower] using hcs

/-- A text of valid parts is read as its numeral. -/
theorem Valid.scans (hp : p.Valid) : Scans p.numeral p.chars := by
  obtain ⟨part, hpart, hwhole⟩ := hp.scan_sign (startNumeral p.negative) rfl
  have hsign : scanNumeral p.chars = scan .sign (startNumeral p.negative)
      (p.whole ++ (fractionChars p.fraction ++ powerChars p.power)) := by
    cases hneg : p.negative with
    | true => simp [chars, hneg, scanNumeral]
    | false =>
      rcases hp.whole with hw | ⟨c, cs, hw, hc⟩
      · simp [chars, hneg, scanNumeral, hw]
      · have hdigit : c.isDigit := hp.digits c (hw ▸ List.mem_cons_self)
        have hminus : c ≠ '-' := fun h => by simp [h] at hdigit
        simp [chars, hneg, scanNumeral, hw, hminus]
  -- What comes after the fraction is read from one of three parts.
  have hpower : ∀ part n, part = .zero ∨ part = .whole ∨ part = .fraction → n.exponent = 0 →
      ∃ part', part'.isWhole = true ∧ scan part n (powerChars p.power) = some (part', { n with
        exponent := p.power.elim 0 fun x => signedPower x.1 (Nat.ofDigitChars 10 x.2 0)
        plain := n.plain && p.power.isNone }) := by
    intro part n hpart hn
    cases hpow : p.power with
    | none =>
      refine ⟨part, by rcases hpart with rfl | rfl | rfl <;> rfl, ?_⟩
      simp [powerChars, scan, ← hn]
    | some x =>
      obtain ⟨hne, hd⟩ := hp.power x hpow
      exact ⟨.exponent x.1, rfl, by simpa [powerChars] using scan_mark hpart n hn x.1 hne hd⟩
  by_cases hfraction : p.fraction = []
  · obtain ⟨part', hwhole', hscan⟩ := hpower part
      { startNumeral p.negative with digits := Nat.ofDigitChars 10 p.whole 0 }
      (hpart.imp_right .inl) rfl
    refine ⟨part', hwhole', ?_⟩
    rw [hsign, hwhole, fractionChars, if_pos hfraction, List.nil_append, hscan]
    simp [numeral, hfraction, startNumeral]
  · obtain ⟨part', hwhole', hscan⟩ := hpower .fraction
      ⟨p.negative, Nat.ofDigitChars 10 p.fraction (Nat.ofDigitChars 10 p.whole 0),
        0 + p.fraction.length, 0, false⟩ (.inr (.inr rfl)) rfl
    refine ⟨part', hwhole', ?_⟩
    rw [hsign, hwhole, fractionChars, if_neg hfraction, List.cons_append,
      scan_point hpart _ hfraction hp.fraction]
    refine hscan.trans ?_
    simp [numeral, hfraction, Nat.ofDigitChars_append]

end NumberParts

/-! A numeral that is cut -/

end Json

/-- The digits before the point as a number. -/
def Numeral.whole (n : Numeral) : Nat := n.digits / 10 ^ n.places

namespace Json

/-- What the numeral read so far keeps to before each part: no fraction, no power, or one of a
sign. -/
def NumberPart.Keeps (n : Numeral) : NumberPart → Prop
  | .sign | .zero | .whole | .point => n.places = 0 ∧ n.exponent = 0
  | .fraction | .mark | .exponentSign _ => n.exponent = 0
  | .exponent negative => if negative then n.exponent ≤ 0 else 0 ≤ n.exponent

/-- What going on with a numeral does to it. -/
structure Extends (n m : Numeral) : Prop where
  negative : m.negative = n.negative
  plain : m.plain = true → n.plain = true
  digits : n.digits ≤ m.digits
  places : n.places ≤ m.places
  whole : n.whole ≤ m.whole
  exponent : n.exponent ≤ max m.exponent 0

theorem Extends.refl (n : Numeral) : Extends n n :=
  ⟨rfl, id, Nat.le_refl _, Nat.le_refl _, Nat.le_refl _, by omega⟩

theorem Extends.trans {n m k : Numeral} (h : Extends n m) (h' : Extends m k) : Extends n k where
  negative := h'.negative.trans h.negative
  plain hk := h.plain (h'.plain hk)
  digits := Nat.le_trans h.digits h'.digits
  places := Nat.le_trans h.places h'.places
  whole := Nat.le_trans h.whole h'.whole
  exponent := by
    have hn := h.exponent
    have hm := h'.exponent
    omega

theorem whole_le_of_digit (n : Numeral) (d places : Nat) (hp : n.places ≤ places)
    (hp' : places ≤ n.places + 1) : n.whole ≤ (n.digits * 10 + d) / 10 ^ places := by
  have hcases : places = n.places ∨ places = n.places + 1 := by omega
  rcases hcases with rfl | rfl
  · exact Nat.div_le_div_right (by omega)
  · have hten : n.digits ≤ (n.digits * 10 + d) / 10 := by omega
    rw [Nat.pow_succ, Nat.mul_comm (10 ^ n.places), ← Nat.div_div_eq_div_mul]
    exact Nat.div_le_div_right hten

/-- A step leaves the numeral as it is or appends a digit to one of its three parts. -/
theorem advance_cases {part part' : NumberPart} {n m : Numeral} {c : Char}
    (ha : advance part n c = .more part' m) :
    (m = n ∧ ((part' = .zero ∧ part = .sign) ∨ (part' = .point ∧ (part = .zero ∨ part = .whole)) ∨
      (part' = .mark ∧ (part = .zero ∨ part = .whole ∨ part = .fraction)) ∨
      ∃ negative, part' = .exponentSign negative ∧ part = .mark)) ∨
    (m = { n with digits := n.digits * 10 + digitValue c } ∧ part' = .whole ∧
      (part = .sign ∨ part = .whole)) ∨
    (m = { n with
        digits := n.digits * 10 + digitValue c, places := n.places + 1, plain := false } ∧
      part' = .fraction ∧ (part = .point ∨ part = .fraction)) ∨
    ∃ negative : Bool, m = { n with
        exponent :=
          if negative then n.exponent * 10 - digitValue c else n.exponent * 10 + digitValue c
        plain := false } ∧ part' = .exponent negative ∧
      (part = .mark ∨ part = .exponentSign negative ∨ part = .exponent negative) := by
  cases part <;> simp only [advance] at ha <;> grind

theorem extends_of_advance {part part' : NumberPart} {n m : Numeral} {c : Char}
    (hk : part.Keeps n) (ha : advance part n c = .more part' m) :
    part'.Keeps m ∧ Extends n m ∧ 10 * n.exponent ≤ max m.exponent 0 := by
  have hdigits : n.digits ≤ n.digits * 10 + digitValue c := by omega
  rcases advance_cases ha with ⟨rfl, hpart⟩ | ⟨rfl, rfl, hpart⟩ | ⟨rfl, rfl, hpart⟩ |
    ⟨negative, rfl, rfl, hpart⟩
  · have hexp : m.exponent = 0 := by
      rcases hpart with ⟨-, rfl⟩ | ⟨-, rfl | rfl⟩ | ⟨-, rfl | rfl | rfl⟩ | ⟨negative, -, rfl⟩ <;>
        first | exact hk.2 | exact hk
    refine ⟨?_, .refl m, by omega⟩
    rcases hpart with ⟨rfl, rfl⟩ | ⟨rfl, rfl | rfl⟩ | ⟨rfl, -⟩ | ⟨negative, rfl, -⟩ <;>
      first | exact hk | exact hexp
  · have hzero : n.places = 0 ∧ n.exponent = 0 := by rcases hpart with rfl | rfl <;> exact hk
    have hwhole := whole_le_of_digit n (digitValue c) n.places (Nat.le_refl _) (Nat.le_succ _)
    refine ⟨hzero, ⟨rfl, id, hdigits, Nat.le_refl _, hwhole, ?_⟩, ?_⟩ <;>
      simp only [hzero.2] <;> omega
  · have hexp : n.exponent = 0 := by
      rcases hpart with rfl | rfl
      · exact hk.2
      · exact hk
    have hwhole := whole_le_of_digit n (digitValue c) (n.places + 1) (Nat.le_succ _) (Nat.le_refl _)
    refine ⟨hexp, ⟨rfl, nofun, hdigits, Nat.le_succ _, hwhole, ?_⟩, ?_⟩ <;>
      simp only [hexp] <;> omega
  · have hsign : if negative then n.exponent ≤ 0 else 0 ≤ n.exponent := by
      rcases hpart with rfl | rfl | rfl
      · have hexp : n.exponent = 0 := hk
        simp [hexp]
      · have hexp : n.exponent = 0 := hk
        simp [hexp]
      · exact hk
    cases negative with
    | true =>
      have hle : n.exponent ≤ 0 := hsign
      have hnext : n.exponent * 10 - digitValue c ≤ 0 := by omega
      exact ⟨hnext, ⟨rfl, nofun, Nat.le_refl _, Nat.le_refl _, Nat.le_refl _,
        Int.le_trans hle (Int.le_max_right _ _)⟩, by omega⟩
    | false =>
      have hle : 0 ≤ n.exponent := hsign
      have hnext : 0 ≤ n.exponent * 10 + digitValue c := by omega
      have hmore : n.exponent ≤ n.exponent * 10 + digitValue c := by omega
      refine ⟨hnext, ⟨rfl, nofun, Nat.le_refl _, Nat.le_refl _, Nat.le_refl _,
        Int.le_trans hmore (Int.le_max_left _ _)⟩, ?_⟩
      simp only [Bool.false_eq_true, if_false]
      omega

theorem extends_of_scan {part part' : NumberPart} {n m : Numeral} {cs : List Char}
    (hk : part.Keeps n) (hs : scan part n cs = some (part', m)) :
    part'.Keeps m ∧ Extends n m ∧ (cs ≠ [] → 10 * n.exponent ≤ max m.exponent 0) := by
  induction cs generalizing part n with
  | nil =>
    cases hs
    exact ⟨hk, .refl m, fun h => absurd rfl h⟩
  | cons c cs ih =>
    rw [scan] at hs
    split at hs
    · next part₁ n₁ ha =>
      obtain ⟨hk', hstep, hten⟩ := extends_of_advance hk ha
      obtain ⟨hkm, hrest, -⟩ := ih hk' hs
      have hexp := hrest.exponent
      exact ⟨hkm, hstep.trans hrest, fun _ => by omega⟩
    · cases hs

theorem scanNumeral_eq {cs : List Char} (hc : cs ≠ []) : ∃ negative ds, ∀ rest,
    scanNumeral (cs ++ rest) = scan .sign (startNumeral negative) (ds ++ rest) := by
  obtain ⟨c, cs, rfl⟩ := List.exists_cons_of_ne_nil hc
  by_cases hminus : c = '-'
  · exact ⟨true, cs, fun rest => by simp [hminus, scanNumeral]⟩
  · exact ⟨false, c :: cs, fun rest => by simp [hminus, scanNumeral]⟩

/-- A proper beginning of a numeral that is a numeral is an earlier state of it, with at most the
first digits of its power. -/
theorem Scans.cut {n m : Numeral} {cs rest : List Char} (hs : Scans n (cs ++ rest))
    (hc : Scans m cs) (hr : rest ≠ []) : Extends m n ∧ 10 * m.exponent ≤ max n.exponent 0 := by
  obtain ⟨part, -, hs⟩ := hs
  obtain ⟨part', hwhole, hc⟩ := hc
  have hne : cs ≠ [] := by
    rintro rfl
    cases hc
    cases hwhole
  obtain ⟨negative, ds, hstart⟩ := scanNumeral_eq hne
  have hds : scan .sign (startNumeral negative) ds = some (part', m) := by
    have hnil := hstart []
    simpa only [List.append_nil, hc, eq_comm] using hnil
  rw [hstart rest, scan_append, hds] at hs
  have hstart' : NumberPart.sign.Keeps (startNumeral negative) := ⟨rfl, rfl⟩
  obtain ⟨hk, -, -⟩ := extends_of_scan hstart' hds
  obtain ⟨-, hextends, hten⟩ := extends_of_scan hk hs
  exact ⟨hextends, hten hr⟩

end Json

end Patchbay
