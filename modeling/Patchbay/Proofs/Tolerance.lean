import Patchbay.Proofs.Interruption
import Patchbay.Proofs.Variants

/-! Changes that decoders do not notice. Maps and records take their members one by one; two steps
for different keys can be exchanged, so the order of the members makes no difference. -/

namespace Patchbay

namespace Dict

theorem insert_comm {α : Type} (d : Dict α) {key key' : String} (h : key ≠ key') (a b : α) :
    (d.insert key a).insert key' b = (d.insert key' b).insert key a := by
  refine ext_find? fun k => ?_
  simp only [find?_insert]
  by_cases hk : k = key
  · subst hk
    simp [h]
  · simp [hk]

end Dict

namespace Json

open Relation (ReflTransGen)

variable {α β σ : Type} {n m k : Nat} {R : Tree → Tree → Prop} {decode : Decoder α}

/-! Answers, errors apart -/

theorem toOption_eq_some {x : Except ReadError α} {a : α} : x.toOption = some a ↔ x = .ok a := by
  cases x <;> simp [Except.toOption]

theorem toOption_bind (x : Except ReadError α) (f : α → Except ReadError β) :
    (x >>= f).toOption = x.toOption.bind fun a => (f a).toOption := by
  cases x <;> rfl

theorem toOption_map (x : Except ReadError α) (f : α → β) :
    (x.map f).toOption = x.toOption.map f := by
  cases x <;> rfl

theorem toOption_refuse (wanted : String) (t : Tree) :
    (refuse wanted t : Except ReadError α).toOption = none := by
  unfold refuse
  split <;> rfl

theorem toOption_descend_bind {f g : Nat → Except ReadError α} (hm : n ≤ m - 1) (hk : m ≤ k)
    (h : ∀ j, n ≤ j → (f j).toOption = (g j).toOption) :
    (descend k >>= f).toOption = (descend k >>= g).toOption := by
  unfold descend
  split
  · rfl
  · exact h (k - 1) (by omega)

/-- Whether a decoder that may go so deep reads a tree the same after a change, errors apart. -/
def Tolerates (n : Nat) (R : Tree → Tree → Prop) (decode : Decoder α) : Prop :=
  ∀ t t', R t t' → ∀ k, n ≤ k → (decode k t').toOption = (decode k t).toOption

theorem Tolerates.many (h : Tolerates n R decode) : Tolerates n (ReflTransGen R) decode := by
  intro t t' hc k hk
  induction hc with
  | refl => rfl
  | tail _ hstep ih => exact (h _ _ hstep k hk).trans ih

theorem Tolerates.map (h : Tolerates n R decode) (f : α → β) :
    Tolerates n R fun k t => (decode k t).map f := by
  intro t t' hc k hk
  rw [toOption_map, toOption_map, h t t' hc k hk]

theorem tolerates_unchanged : Tolerates n Unchanged decode := nofun

theorem tolerates_string : Tolerates n (Change R) decodeString := by
  intro t t' hc k _
  cases hc with
  | escapes hq => rw [decodeString, decodeString, hq]
  | item | key | member | reorder => simp only [decodeString, toOption_refuse]

/-! Lists -/

theorem toOption_decodeItems (decode : Decoder α) (k : Nat) (ts : List Tree) :
    (decodeItems decode k ts).toOption = ts.mapM fun t => (decode k t).toOption := by
  induction ts with
  | nil => rfl
  | cons t ts ih =>
    rw [decodeItems, toOption_bind, List.mapM_cons]
    simp only [toOption_bind, ih]
    rfl

theorem Tolerates.list (h : Tolerates n R decode) (hm : n ≤ m - 1) :
    Tolerates m (Change R) (decodeList decode) := by
  intro t t' hc k hk
  cases hc with
  | escapes | key | member | reorder => simp only [decodeList, toOption_refuse]
  | @item before after t t' hR =>
    refine toOption_descend_bind hm hk fun j hj => ?_
    have ht := h t t' hR j hj
    simp only [toOption_bind, toOption_decodeItems, List.mapM_append, List.mapM_cons, ht]

/-! Members one by one -/

theorem foldlM_perm {γ δ : Type} {f : γ → δ → Option γ} {l l' : List δ} (h : l.Perm l')
    (hc : l.Pairwise fun x y => ∀ s, (f s x).bind (f · y) = (f s y).bind (f · x)) (s : γ) :
    l.foldlM f s = l'.foldlM f s := by
  induction h generalizing s with
  | nil => rfl
  | cons x _ ih =>
    have ih' := ih (List.pairwise_cons.mp hc).2
    simp only [List.foldlM_cons, ih']
  | swap x y l =>
    have hxy := (List.pairwise_cons.mp hc).1 x List.mem_cons_self s
    simp only [List.foldlM_cons, bind, ← Option.bind_assoc, hxy]
  | trans h _ ih ih' =>
    have hsymm : ∀ x y, (∀ s, (f s x).bind (f · y) = (f s y).bind (f · x)) →
        ∀ s, (f s y).bind (f · x) = (f s x).bind (f · y) := fun _ _ h s => (h s).symm
    have hc' := (h.pairwise_iff @hsymm).mp hc
    exact (ih hc s).trans (ih' hc' s)

/-- A step that can be exchanged with each of the others may as well come last. -/
theorem foldlM_move {γ δ : Type} {f : γ → δ → Option γ} {x : δ} {l : List δ}
    (hc : ∀ y ∈ l, ∀ s, (f s x).bind (f · y) = (f s y).bind (f · x)) (s : γ) :
    (x :: l).foldlM f s = (l.foldlM f s).bind (f · x) := by
  induction l generalizing s with
  | nil =>
    simp [List.foldlM_cons]
  | cons y l ih =>
    have hxy := hc y List.mem_cons_self s
    have hrest := ih fun z hz => hc z (List.mem_cons_of_mem _ hz)
    simp only [List.foldlM_cons, bind, Option.bind_assoc] at hrest ⊢
    rw [← Option.bind_assoc, hxy, Option.bind_assoc]
    simp only [hrest]

/-! Dictionaries -/

def addBinding? (decode : Decoder α) (k : Nat) (d : Dict α) (m : Quoted × Tree) :
    Option (Dict α) := do
  let name ← m.1.text.toOption
  let a ← (decode k m.2).toOption
  return d.insert name a

theorem toOption_decodeBindings (decode : Decoder α) (k : Nat) (ms : List (Quoted × Tree))
    (d : Dict α) :
    (decodeBindings decode k ms d).toOption = ms.foldlM (addBinding? decode k) d := by
  induction ms generalizing d with
  | nil => rfl
  | cons m ms ih =>
    simp only [decodeBindings, toOption_bind, ih, List.foldlM_cons, addBinding?]
    cases m.1.text <;> cases decode k m.2 <;> rfl

theorem addBinding?_comm (decode : Decoder α) (k : Nat) {m m' : Quoted × Tree}
    (h : m.1.text ≠ m'.1.text) (d : Dict α) :
    (addBinding? decode k d m).bind (addBinding? decode k · m') =
      (addBinding? decode k d m').bind (addBinding? decode k · m) := by
  unfold addBinding?
  cases hname : m.1.text with
  | error e => cases m'.1.text <;> cases decode k m'.2 <;> rfl
  | ok name =>
    cases hname' : m'.1.text with
    | error e => cases decode k m.2 <;> rfl
    | ok name' =>
      have hne : name ≠ name' := fun heq => h (by rw [hname, hname', heq])
      cases decode k m.2 with
      | error e => cases decode k m'.2 <;> rfl
      | ok a =>
        cases decode k m'.2 with
        | error e => rfl
        | ok b => exact congrArg some (d.insert_comm hne a b)

theorem Tolerates.dict (h : Tolerates n R decode) (hm : n ≤ m - 1) :
    Tolerates m (Change R) (decodeDict decode) := by
  intro t t' hc k hk
  cases hc with
  | escapes | item => simp only [decodeDict, toOption_refuse]
  | key hkey =>
    refine toOption_descend_bind hm hk fun j hj => ?_
    simp only [toOption_bind, toOption_decodeBindings, List.foldlM_append, List.foldlM_cons,
      addBinding?, hkey]
  | @member before after key t t' hR =>
    refine toOption_descend_bind hm hk fun j hj => ?_
    have ht := h t t' hR j hj
    simp only [toOption_bind, toOption_decodeBindings, List.foldlM_append, List.foldlM_cons,
      addBinding?, ht]
  | reorder hd hp =>
    refine toOption_descend_bind hm hk fun j hj => ?_
    have hfold := foldlM_perm hp (hd.imp fun hne => addBinding?_comm decode j hne)
    simp only [toOption_bind, toOption_decodeBindings, hfold]

/-! Dynamic data -/

theorem tolerates_within (depth : Nat) : Tolerates 0 (ChangeWithin depth) decodeValue := by
  -- On how far in the change is. No depth is asked of the decoder: where it goes too deep, it does
  -- so both times.
  induction depth with
  | zero => exact nofun
  | succ depth ih =>
    intro t t' hc k hk
    have hlist := (ih.list (m := 0) (Nat.zero_le _)).map Value.array t t' hc k hk
    have hdict := (ih.dict (m := 0) (Nat.zero_le _)).map Value.ofDict t t' hc k hk
    cases hc with
    | escapes hq => rw [decodeValue, decodeValue, hq]
    | item => simpa only [decodeValue_array] using hlist
    | key | member | reorder => simpa only [decodeValue_object] using hdict

theorem tolerates_data : Tolerates n DataChange decodeValue :=
  fun t t' ⟨depth, hc⟩ k _ => tolerates_within depth t t' hc k (Nat.zero_le k)

end Json

end Patchbay
