import Mathlib.Logic.Relation
import Patchbay.Document
import Patchbay.Proofs.Spelling

/-! Other ways to write a document. One change at a time turns the tree of what is written into
another tree: strings may take other escapes and members another order; in records there may also be
members that are no fields, fields with their default may be left out, and a record may be written
as an array. -/

namespace Patchbay

open Relation (ReflTransGen)

namespace Json

variable {S S' : Numeral → List Char → Prop}

theorem Spells.mono (hS : ∀ n cs, S n cs → S' n cs) {φ : Phrase} {cs : List Char}
    (h : Spells S φ cs) : Spells S' φ cs := by
  induction h with
  | null => exact .null
  | bool b => exact .bool b
  | number h => exact .number (hS _ _ h)
  | string hq => exact .string hq
  | emptyArray hb => exact .emptyArray hb
  | array _ ih => exact .array ih
  | emptyObject hb => exact .emptyObject hb
  | object _ ih => exact .object ih
  | lastItem hb _ ha ih => exact .lastItem hb ih ha
  | item hb _ ha _ ih ihrest => exact .item hb ih ha ihrest
  | lastMember hb hq hm hs _ ha ih => exact .lastMember hb hq hm hs ih ha
  | member hb hq hm hs _ ha _ ih ihrest => exact .member hb hq hm hs ih ha ihrest

/-- Whether a text is one of a tree's, blanks around it included. -/
def Writes (t : Tree) (text : String) : Prop :=
  ∃ before cs after, Blank before ∧ Spells Scans (.value t) cs ∧ Blank after ∧
    text.toList = before ++ (cs ++ after)

def DistinctKeys (ms : List (Quoted × Tree)) : Prop := ms.Pairwise fun m m' => m.1.text ≠ m'.1.text

/-- A change that data of any kind allows, with `R` for the elements of an array and the members of
an object. -/
inductive Change (R : Tree → Tree → Prop) : Tree → Tree → Prop
  | escapes {q q' : Quoted} : q.text = q'.text → Change R (.string q) (.string q')
  | item {before after : List Tree} {t t' : Tree} : R t t' →
    Change R (.array (before ++ t :: after) none) (.array (before ++ t' :: after) none)
  | key {before after : List (Quoted × Tree)} {key key' : Quoted} {t : Tree} :
    key.text = key'.text →
    Change R (.object (before ++ (key, t) :: after) none)
      (.object (before ++ (key', t) :: after) none)
  | member {before after : List (Quoted × Tree)} {key : Quoted} {t t' : Tree} : R t t' →
    Change R (.object (before ++ (key, t) :: after) none)
      (.object (before ++ (key, t') :: after) none)
  | reorder {ms ms' : List (Quoted × Tree)} : DistinctKeys ms → ms.Perm ms' →
    Change R (.object ms none) (.object ms' none)

/-- A change inside at most so many arrays and objects. -/
def ChangeWithin : Nat → Tree → Tree → Prop
  | 0 => fun _ _ => False
  | depth + 1 => Change (ChangeWithin depth)

/-- A change somewhere in dynamic data. -/
def DataChange (t t' : Tree) : Prop := ∃ depth, ChangeWithin depth t t'

/-- A field as it is written: its name, its default if one is declared, and the changes that its
value allows. -/
structure FieldForm where
  name : String
  standard : Option Value
  change : Tree → Tree → Prop

/-- A change that a record allows. What a member that is no field holds does not matter, as long as
it is a value, and it may stand anywhere. -/
inductive RecordChange (forms : List FieldForm) : Tree → Tree → Prop
  | field {before after : List (Quoted × Tree)} {key : Quoted} {t t' : Tree} {form : FieldForm} :
    form ∈ forms → key.text = .ok form.name → form.change t t' →
    RecordChange forms (.object (before ++ (key, t) :: after) none)
      (.object (before ++ (key, t') :: after) none)
  | key {before after : List (Quoted × Tree)} {key key' : Quoted} {t : Tree} :
    key.text = key'.text →
    RecordChange forms (.object (before ++ (key, t) :: after) none)
      (.object (before ++ (key', t) :: after) none)
  | reorder {ms ms' : List (Quoted × Tree)} : DistinctKeys ms → ms.Perm ms' →
    RecordChange forms (.object ms none) (.object ms' none)
  | extra {before after : List (Quoted × Tree)} {key : Quoted} {t : Tree} {name : String}
    {cs : List Char} :
    key.text = .ok name → (∀ form ∈ forms, form.name ≠ name) → Spells Scans (.value t) cs →
    RecordChange forms (.object (before ++ after) none) (.object (before ++ (key, t) :: after) none)
  | omission {before after : List (Quoted × Tree)} {key : Quoted} {form : FieldForm} {v : Value} :
    form ∈ forms → form.standard = some v → key.text = .ok form.name →
    (∀ m ∈ before ++ after, m.1.text ≠ .ok form.name) →
    RecordChange forms (.object (before ++ (key, valueTree v) :: after) none)
      (.object (before ++ after) none)
  | listing {ms : List (Quoted × Tree)} : ms.map (·.1.text) = forms.map (.ok ·.name) →
    RecordChange forms (.object ms none) (.array (ms.map (·.2)) none)

end Json

open Json (FieldForm Change DataChange RecordChange)

/-- No change at all. -/
def Unchanged : Json.Tree → Json.Tree → Prop := fun _ _ => False

def SubscriberRecord.forms : List FieldForm :=
  [⟨"block", none, Unchanged⟩, ⟨"input", none, Change Unchanged⟩]

def BlockRecord.forms : List FieldForm :=
  [⟨"id", none, Unchanged⟩, ⟨"type", none, Change Unchanged⟩,
    ⟨"values", some (.object []), Change DataChange⟩,
    ⟨"subscribers", some (.object []), Change (Change (RecordChange SubscriberRecord.forms))⟩,
    ⟨"meta", some (.object []), Change DataChange⟩]

def RunSettings.forms : List FieldForm :=
  [⟨"max_rounds", some .null, Unchanged⟩, ⟨"trace_values", some (.bool false), Unchanged⟩]

def Document.forms : List FieldForm :=
  [⟨"version", none, Change Unchanged⟩,
    ⟨"blocks", some (.array []), Change (RecordChange BlockRecord.forms)⟩,
    ⟨"meta", some (.object []), Change DataChange⟩,
    ⟨"variables", some (.object []), Change DataChange⟩,
    ⟨"settings", some RunSettings.standard.toValue, RecordChange RunSettings.forms⟩]

/-- Whether a text is what is written for a document, after any number of changes. -/
def Document.SpelledBy (d : Document) (text : String) : Prop :=
  ∃ t, ReflTransGen (RecordChange forms) (Json.valueTree d.toValue) t ∧ Json.Writes t text

end Patchbay
