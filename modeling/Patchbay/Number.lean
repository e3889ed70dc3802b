import Patchbay.Number.Numeral

/-! Numbers are integers of one machine word, signed or unsigned, or binary64 numbers. Two integers
that fit the signed word are compared and added exactly; any other pair goes through binary64. -/

-- Powers of naturals are core's own here, whatever other powers are in scope.
attribute [local instance (1100)] instPowNat

namespace Patchbay

def signedMin : Int := -9223372036854775808

def signedLimit : Int := 9223372036854775808

def unsignedLimit : Int := 18446744073709551616

def IsWord (i : Int) : Prop := signedMin ≤ i ∧ i < unsignedLimit

instance (i : Int) : Decidable (IsWord i) := inferInstanceAs (Decidable (_ ∧ _))

def IsSigned (i : Int) : Prop := signedMin ≤ i ∧ i < signedLimit

instance (i : Int) : Decidable (IsSigned i) := inferInstanceAs (Decidable (_ ∧ _))

theorem IsSigned.isWord {i : Int} (h : IsSigned i) : IsWord i := by
  unfold IsSigned IsWord signedMin signedLimit unsignedLimit at *
  omega

theorem IsWord.natAbs_lt {i : Int} (h : IsWord i) : i.natAbs < 2 ^ Binary64.integerBits := by
  unfold IsWord signedMin unsignedLimit at h
  have : (2 : Nat) ^ Binary64.integerBits = 36893488147419103232 := rfl
  omega

inductive Number where
  | int (value : Int) (isWord : IsWord value)
  | float (value : Binary64)
deriving DecidableEq

namespace Number

def ofNat? (n : Nat) : Option Number :=
  if h : IsWord n then some (int n h) else none

def signed? : Number → Option Int
  | int i _ => if i < signedLimit then some i else none
  | float _ => none

def toBinary64 : Number → Binary64
  | int i h => Binary64.ofInt i h.natAbs_lt
  | float x => x

def order (a b : Number) : Ordering :=
  match a.signed?, b.signed? with
  | some i, some j => compare i j
  | _, _ => a.toBinary64.order b.toBinary64

theorem order_self (n : Number) : n.order n = .eq := by
  unfold order Binary64.order
  split <;> simp_all

/-- The exact sum of two signed integers where it is signed too, else the binary64 sum. -/
def add? (a b : Number) : Option Number :=
  let rounded := (a.toBinary64.add? b.toBinary64).map float
  match a.signed?, b.signed? with
  | some i, some j => if h : IsSigned (i + j) then some (int (i + j) h.isWord) else rounded
  | _, _ => rounded

/-- A plain numeral is an integer where it fits a word, except that `-0` is the negative zero;
any other numeral is a binary64 number, and none where that is too large. -/
def ofNumeral? (n : Numeral) : Option Number :=
  let value : Int := if n.negative then -n.digits else n.digits
  if h : n.plain ∧ IsWord value ∧ ¬(n.negative ∧ n.digits = 0) then some (int value h.2.1)
  else n.toBinary64?.map float

def text : Number → String
  | int i _ => toString i
  | float x => x.text

/-- Integral binary64 numbers below this bound drop their fraction in running text. -/
def integralTextLimit : Nat := 1000000000000000

/-- Text of a number inside a message: an integral binary64 number reads like an integer. -/
def plainText : Number → String
  | float x =>
    match x.natAbs? with
    | some n =>
      if n < integralTextLimit then toString (if x.negative then -n else n : Int) else x.text
    | none => x.text
  | n => n.text

end Number

end Patchbay
