import Patchbay.Proofs.Integers

/-! Values under their comparison are a strict partial order. The point is numbers of different
kinds: two signed words are compared exactly, any other pair as binary64 numbers, where many words
are one number. Both ways are one lexicographic order, since conversion to binary64 is monotone:
binary64 first, and words that coincide there by their exact values, if both have one. -/

namespace Patchbay

namespace Number

variable {a b c : Number}

/-- Conversion keeps the order of signed words, though not strictly. -/
theorem units_mono {i j : Int} (ha : a.signed? = some i) (hb : b.signed? = some j) (h : i ≤ j) :
    a.toBinary64.units ≤ b.toBinary64.units := by
  obtain ⟨hi, rfl⟩ := signed?_eq_some_iff.mp ha
  obtain ⟨hj, rfl⟩ := signed?_eq_some_iff.mp hb
  exact Binary64.units_ofInt_mono h hi.isWord.natAbs_lt hj.isWord.natAbs_lt

/-- The order is lexicographic: binary64 numbers first, then what is known exactly. -/
theorem order_eq_lt_iff : a.order b = .lt ↔ a.toBinary64.units < b.toBinary64.units ∨
    a.Coincide b ∧ ∃ i j, a.signed? = some i ∧ b.signed? = some j ∧ i < j := by
  by_cases hs : a.signed? = none ∨ b.signed? = none
  · rw [order_of_not_signed? hs, Int.compare_eq_lt]
    refine ⟨Or.inl, fun h => ?_⟩
    obtain h | ⟨-, i, j, ha, hb, -⟩ := h
    · exact h
    · simp [ha, hb] at hs
  · obtain ⟨i, ha⟩ := Option.ne_none_iff_exists'.mp fun h => hs (Or.inl h)
    obtain ⟨j, hb⟩ := Option.ne_none_iff_exists'.mp fun h => hs (Or.inr h)
    rw [order_of_signed? ha hb, Int.compare_eq_lt]
    constructor
    · intro hlt
      obtain h | h := Int.lt_or_eq_of_le (units_mono ha hb (Int.le_of_lt hlt))
      · exact Or.inl h
      · exact Or.inr ⟨h, i, j, ha, hb, hlt⟩
    · rintro (h | ⟨-, i', j', ha', hb', hlt⟩)
      · -- A word that is not less than another cannot be so after conversion.
        refine Int.not_le.mp fun hle => ?_
        exact absurd (units_mono hb ha hle) (Int.not_le.mpr h)
      · rw [ha] at ha'
        rw [hb] at hb'
        cases ha'
        cases hb'
        exact hlt

theorem order_swap (a b : Number) : b.order a = (a.order b).swap := by
  by_cases hs : a.signed? = none ∨ b.signed? = none
  · rw [order_of_not_signed? hs, order_of_not_signed? hs.symm, Std.OrientedOrd.eq_swap]
  · obtain ⟨i, ha⟩ := Option.ne_none_iff_exists'.mp fun h => hs (Or.inl h)
    obtain ⟨j, hb⟩ := Option.ne_none_iff_exists'.mp fun h => hs (Or.inr h)
    rw [order_of_signed? ha hb, order_of_signed? hb ha, Std.OrientedOrd.eq_swap]

theorem order_trans (hab : a.order b = .lt) (hbc : b.order c = .lt) : a.order c = .lt := by
  rw [order_eq_lt_iff] at hab hbc ⊢
  obtain hab | ⟨hcab, i, j, ha, hb, hij⟩ := hab
  · obtain hbc | ⟨hcbc, -⟩ := hbc
    · exact Or.inl (Int.lt_trans hab hbc)
    · exact Or.inl (Int.lt_of_lt_of_le hab (Int.le_of_eq hcbc))
  · obtain hbc | ⟨hcbc, j', k, hb', hc, hjk⟩ := hbc
    · exact Or.inl (Int.lt_of_le_of_lt (Int.le_of_eq hcab) hbc)
    · rw [hb] at hb'
      cases hb'
      exact Or.inr ⟨hcab.trans hcbc, i, k, ha, hc, Int.lt_trans hij hjk⟩

end Number

namespace Value

/-- The pairs that can be compared: two numbers of whatever representation, or two of one other
kind. -/
inductive SameKind : Value → Value → Prop
  | numbers (a b : Number) : SameKind (number a) (number b)
  | strings (a b : String) : SameKind (string a) (string b)
  | bools (a b : Bool) : SameKind (bool a) (bool b)
  | nulls : SameKind null null

def IsScalar : Value → Prop
  | array _ | object _ => False
  | _ => True

theorem SameKind.symm {a b : Value} (h : a.SameKind b) : b.SameKind a := by
  cases h with
  | numbers a b => exact .numbers b a
  | strings a b => exact .strings b a
  | bools a b => exact .bools b a
  | nulls => exact .nulls

theorem SameKind.exists_order? {a b : Value} (h : a.SameKind b) : ∃ o, a.order? b = some o := by
  cases h <;> exact ⟨_, rfl⟩

theorem sameKind_of_order? {a b : Value} {o : Ordering} (h : a.order? b = some o) :
    a.SameKind b := by
  revert h
  fun_cases order? a b with
  | case1 a b => exact fun _ => .numbers a b
  | case2 a b => exact fun _ => .strings a b
  | case3 a b => exact fun _ => .bools a b
  | case4 => exact fun _ => .nulls
  | case5 => exact fun h => nomatch h

theorem order?_eq_none_iff {a b : Value} : a.order? b = none ↔ ¬a.SameKind b := by
  constructor
  · intro h hk
    obtain ⟨o, ho⟩ := hk.exists_order?
    rw [h] at ho
    cases ho
  · intro h
    cases ho : a.order? b with
    | none => rfl
    | some o => exact absurd (sameKind_of_order? ho) h

theorem order?_swap (a b : Value) : b.order? a = (a.order? b).map Ordering.swap := by
  by_cases h : a.SameKind b
  · cases h with
    | numbers a b => exact congrArg some (Number.order_swap a b)
    | strings a b => exact congrArg some Std.OrientedOrd.eq_swap
    | bools a b => exact congrArg some Std.OrientedOrd.eq_swap
    | nulls => rfl
  · rw [order?_eq_none_iff.mpr h, order?_eq_none_iff.mpr fun hs => h hs.symm]
    rfl

theorem order?_self_iff {a : Value} : a.order? a = some .eq ↔ a.IsScalar := by
  cases a with
  | null => exact ⟨fun _ => trivial, fun _ => rfl⟩
  | bool b => exact ⟨fun _ => trivial, fun _ => congrArg some Std.ReflOrd.compare_self⟩
  | number n => exact ⟨fun _ => trivial, fun _ => congrArg some n.order_self⟩
  | string s => exact ⟨fun _ => trivial, fun _ => congrArg some Std.ReflOrd.compare_self⟩
  | array items => exact ⟨fun h => (nomatch h), fun h => h.elim⟩
  | object members => exact ⟨fun h => (nomatch h), fun h => h.elim⟩

theorem order?_trans {a b c : Value} (hab : a.order? b = some .lt) (hbc : b.order? c = some .lt) :
    a.order? c = some .lt := by
  cases sameKind_of_order? hab with
  | numbers a b =>
    cases sameKind_of_order? hbc with
    | numbers b c =>
      exact congrArg some (Number.order_trans (Option.some.inj hab) (Option.some.inj hbc))
  | strings a b =>
    cases sameKind_of_order? hbc with
    | strings b c =>
      exact congrArg some (Std.TransCmp.lt_trans (Option.some.inj hab) (Option.some.inj hbc))
  | bools a b =>
    cases sameKind_of_order? hbc with
    | bools b c =>
      exact congrArg some (Std.TransCmp.lt_trans (Option.some.inj hab) (Option.some.inj hbc))
  | nulls => cases hab

/-- Comparison is a strict partial order on all values: it is turned around with its sides, every
scalar is equal to itself, only two of a kind are compared, and being less carries over. -/
theorem strictly_partially_ordered (a b c : Value) :
    b.order? a = (a.order? b).map Ordering.swap ∧
    (a.order? a = some .eq ↔ a.IsScalar) ∧
    (a.order? b = none ↔ ¬a.SameKind b) ∧
    (a.order? b = some .lt → b.order? c = some .lt → a.order? c = some .lt) :=
  ⟨order?_swap a b, order?_self_iff, order?_eq_none_iff, order?_trans⟩

/-- A signed word that is no binary64 number, a binary64 number and an unsigned word. -/
theorem strictly_partially_ordered_mixed :
    (number (.int 9007199254740993 (by decide))).order?
      (number (.int 18446744073709551615 (by decide))) = some .lt :=
  (strictly_partially_ordered (number (.int 9007199254740993 (by decide)))
    (number (.float (.ofInt 9007199254740994 (by decide))))
    (number (.int 18446744073709551615 (by decide)))).2.2.2 (by decide +kernel) (by decide +kernel)

/-- Equality does not carry over: two words that differ are both equal to one binary64 number. -/
example :
    let a := number (.int 9007199254740992 (by decide))
    let b := number (.float (.ofInt 9007199254740992 (by decide)))
    let c := number (.int 9007199254740993 (by decide))
    a.order? b = some .eq ∧ b.order? c = some .eq ∧ a.order? c = some .lt := by
  decide +kernel

end Value

end Patchbay
