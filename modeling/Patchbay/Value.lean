import Patchbay.Dict
import Patchbay.Number

/-! The dynamic values that flow between blocks: how they are ordered, added and spelled. -/

namespace Patchbay

inductive Value where
  | null
  | bool (b : Bool)
  | number (n : Number)
  | string (s : String)
  | array (items : List Value)
  | object (members : List (String × Value))

namespace Value

instance : Inhabited Value := ⟨null⟩

def ofDict (d : Dict Value) : Value := object d.entries

/-- Two numbers, two strings, two booleans and two nulls have an order; no other pair has. -/
def order? : Value → Value → Option Ordering
  | number a, number b => some (a.order b)
  | string a, string b => some (compare a b)
  | bool a, bool b => some (compare a b)
  | null, null => some .eq
  | _, _ => none

def scalarText? : Value → Option String
  | string s => some s
  | number n => some n.plainText
  | bool true => some "true"
  | bool false => some "false"
  | null => some "null"
  | array _ => none
  | object _ => none

/-- Numbers add; a string on either side joins the texts of both. -/
def add? : Value → Value → Option Value
  | number a, number b => (a.add? b).map number
  | string a, b => b.scalarText?.map fun t => string (a ++ t)
  | a, string b => a.scalarText?.map fun t => string (t ++ b)
  | _, _ => none

mutual

def decEq : (a b : Value) → Decidable (a = b)
  | null, null => isTrue rfl
  | bool a, bool b => decidable_of_iff (a = b) (by simp)
  | number a, number b => decidable_of_iff (a = b) (by simp)
  | string a, string b => decidable_of_iff (a = b) (by simp)
  | array a, array b =>
    match decEqItems a b with
    | isTrue h => isTrue (by rw [h])
    | isFalse h => isFalse fun he => h (by injection he)
  | object a, object b =>
    match decEqMembers a b with
    | isTrue h => isTrue (by rw [h])
    | isFalse h => isFalse fun he => h (by injection he)
  | null, bool _ | null, number _ | null, string _ | null, array _ | null, object _
  | bool _, null | bool _, number _ | bool _, string _ | bool _, array _ | bool _, object _
  | number _, null | number _, bool _ | number _, string _ | number _, array _
  | number _, object _ | string _, null | string _, bool _ | string _, number _
  | string _, array _ | string _, object _ | array _, null | array _, bool _
  | array _, number _ | array _, string _ | array _, object _ | object _, null
  | object _, bool _ | object _, number _ | object _, string _ | object _, array _ =>
    isFalse (by simp)

def decEqItems : (a b : List Value) → Decidable (a = b)
  | [], [] => isTrue rfl
  | [], _ :: _ => isFalse (by simp)
  | _ :: _, [] => isFalse (by simp)
  | x :: xs, y :: ys =>
    match decEq x y, decEqItems xs ys with
    | isTrue hx, isTrue hxs => isTrue (by rw [hx, hxs])
    | isFalse hx, _ => isFalse fun he => hx (by injection he)
    | _, isFalse hxs => isFalse fun he => hxs (by injection he)

def decEqMembers : (a b : List (String × Value)) → Decidable (a = b)
  | [], [] => isTrue rfl
  | [], _ :: _ => isFalse (by simp)
  | _ :: _, [] => isFalse (by simp)
  | (j, x) :: xs, (k, y) :: ys =>
    match (inferInstance : Decidable (j = k)), decEq x y, decEqMembers xs ys with
    | isTrue hk, isTrue hx, isTrue hxs => isTrue (by rw [hk, hx, hxs])
    | isFalse hk, _, _ => isFalse fun he => hk (by injection he with h; injection h)
    | _, isFalse hx, _ => isFalse fun he => hx (by injection he with h; injection h)
    | _, _, isFalse hxs => isFalse fun he => hxs (by injection he)

end

instance : DecidableEq Value := decEq

end Value

end Patchbay
