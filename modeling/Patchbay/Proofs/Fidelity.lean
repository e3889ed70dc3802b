import Patchbay.Document
import Patchbay.Proofs.Dict
import Patchbay.Proofs.Reading

/-! Reading back what was written. A text that does not nest too deeply is read as the value it was
written for, with numbers of the same kind, and a text that does is refused for that reason. -/

namespace Patchbay

/-! Nesting -/

namespace Value

mutual

/-- How many arrays and objects stand inside each other. -/
def nesting : Value → Nat
  | .null | .bool _ | .number _ | .string _ => 0
  | .array items => itemNesting items + 1
  | .object members => memberNesting members + 1

def itemNesting : List Value → Nat
  | [] => 0
  | v :: rest => max v.nesting (itemNesting rest)

def memberNesting : List (String × Value) → Nat
  | [] => 0
  | (_, v) :: rest => max v.nesting (memberNesting rest)

end

end Value

namespace Json

section

variable {α β : Type} {p q : Prop} [Decidable p] [Decidable q]

/-- An answer where the nesting allows it. -/
def within (p : Prop) [Decidable p] (a : α) : Except ReadError α :=
  if p then .ok a else .error (.violation .nestingLimit)

theorem within_congr (h : p ↔ q) (a : α) : within p a = within q a := by
  by_cases hp : p <;> simp [within, hp, ← h]

theorem within_true (hp : p) (a : α) : within p a = .ok a := if_pos hp

theorem within_bind {a : α} {b : β} {f : α → Except ReadError β} (hf : f a = within q b) :
    (within p a >>= f) = within (p ∧ q) b := by
  by_cases hp : p <;> simp [within, hp, bind, Except.bind, hf]

theorem within_bind_ok {a : α} {b : β} {f : α → Except ReadError β} (hf : f a = .ok b) :
    (within p a >>= f) = within p b := by
  by_cases hp : p <;> simp [within, hp, bind, Except.bind, hf]

theorem within_map (f : α → β) (a : α) : (within p a).map f = within p (f a) := by
  by_cases hp : p <;> simp [within, hp, Except.map]

theorem descend_bind {a : α} {f : Nat → Except ReadError α} {k : Nat}
    (hf : ∀ depth, f depth = within (k ≤ depth - 1) a) (depth : Nat) :
    (descend depth >>= f) = within (k + 1 ≤ depth - 1) a := by
  by_cases hd : depth ≤ 1
  · have hno : ¬(k + 1 ≤ depth - 1) := by omega
    rw [within, if_neg hno, descend, if_pos hd]
    rfl
  · have hdeep : descend depth = .ok (depth - 1) := if_neg hd
    have hiff : k ≤ depth - 1 - 1 ↔ k + 1 ≤ depth - 1 := by omega
    rw [hdeep, ← within_congr hiff]
    exact hf (depth - 1)

end

/-! Reading back -/

theorem decodeText_of_spells {α : Type} (decode : Decoder α) {t : Tree} {text : String}
    (ht : Spells Printed (.value t) text.toList) :
    decodeText decode text = decode nestingDepth t := by
  have hread : read text = ⟨t, false⟩ := ht.readChars_eq scans_of_printed
  rw [decodeText, hread]
  cases decode nestingDepth t <;> rfl

/-- Whether `decode` reads the tree of a value as `a`, if it may go so deep. -/
def Recovers {α : Type} (decode : Decoder α) (v : Value) (a : α) : Prop :=
  ∀ depth, decode depth (valueTree v) = within (v.nesting ≤ depth - 1) a

section

variable {α : Type} {decode : Decoder α}

theorem recovers_flat {v : Value} {a : α} (hv : v.nesting = 0)
    (h : ∀ depth, decode depth (valueTree v) = .ok a) : Recovers decode v a := by
  intro depth
  rw [h, within_true (by omega)]

theorem quotedChars_map (s : List Char) : quotedChars none (s.map pieceOf) = .ok s := by
  induction s with
  | nil => rfl
  | cons c cs ih =>
    rw [List.map_cons, pieceOf]
    split
    · next hc =>
      have hlow : isLowSurrogate c.toNat = false := by simp [isLowSurrogate]; omega
      have hhigh : isHighSurrogate c.toNat = false := by simp [isHighSurrogate]; omega
      unfold quotedChars
      simp [hlow, hhigh, ih, Except.map]
    · simp [quotedChars, ih, Except.map]

@[simp] theorem text_ofString (s : String) : (Quoted.ofString s).text = .ok s := by
  simp [Quoted.text, Quoted.ofString, quotedChars_map, Except.map]

theorem recovers_string (s : String) : Recovers decodeString (.string s) s :=
  recovers_flat rfl fun _ => text_ofString s

theorem recovers_bool (b : Bool) : Recovers decodeBool (.bool b) b := recovers_flat rfl fun _ => rfl

theorem decodeNumeral_int (i : Int) (h : IsWord i) :
    decodeNumeral (Number.int i h).numeral = .ok (.int i h) := by
  rw [decodeNumeral, Number.ofNumeral?_int]

theorem ofNat_eq {n : Nat} (hn : IsWord n) : Value.ofNat n = .number (.int n hn) := by
  have hnumber : Number.ofNat? n = some (.int n hn) := dif_pos hn
  rw [Value.ofNat, hnumber]
  rfl

theorem recovers_nat {n : Nat} (hn : IsWord n) : Recovers decodeNat (.ofNat n) n := by
  rw [ofNat_eq hn]
  refine recovers_flat rfl fun depth => ?_
  rw [valueTree, decodeNat, decodeNumeral_int]
  simp [bind, Except.bind, pure, Except.pure]

theorem recovers_nat? {o : Option Nat} (ho : ∀ n ∈ o, IsWord n) :
    Recovers decodeNat? (o.elim .null .ofNat) o := by
  cases o with
  | none => exact recovers_flat rfl fun _ => rfl
  | some n =>
    intro depth
    have hn := recovers_nat (ho n rfl) depth
    have hmap := congrArg (Except.map some) hn
    rw [within_map] at hmap
    rw [Option.elim_some, ← hmap, ofNat_eq (ho n rfl)]
    rfl

theorem recovers_variant {variants : List (String × α)} {name : String} {a : α}
    (h : decodeVariantName variants name = .ok a) :
    Recovers (decodeVariant variants) (.string name) a :=
  recovers_flat rfl fun _ => by simp [valueTree, decodeVariant, bind, Except.bind, h]

/-! Lists and dictionaries -/

theorem decodeItems_eq {w : α → Value} {l : List α} (h : ∀ a ∈ l, Recovers decode (w a) a)
    (depth : Nat) : decodeItems decode depth (itemTrees (l.map w)) =
      within (Value.itemNesting (l.map w) ≤ depth - 1) l := by
  induction l with
  | nil => exact (within_true (Nat.zero_le _) _).symm
  | cons a rest ih =>
    have ha := h a List.mem_cons_self depth
    have hrest := ih fun x hx => h x (List.mem_cons_of_mem _ hx)
    have hiff : ((w a).nesting ≤ depth - 1 ∧ Value.itemNesting (rest.map w) ≤ depth - 1) ↔
        Value.itemNesting ((a :: rest).map w) ≤ depth - 1 := by
      rw [List.map_cons, Value.itemNesting, Nat.max_le]
    rw [← within_congr hiff, List.map_cons, itemTrees, decodeItems, ha, hrest]
    exact within_bind (within_bind_ok rfl)

theorem recovers_list {w : α → Value} {l : List α} (h : ∀ a ∈ l, Recovers decode (w a) a) :
    Recovers (decodeList decode) (.array (l.map w)) l :=
  descend_bind fun depth => by
    rw [decodeItems_eq h]
    exact within_bind_ok rfl

theorem decodeBindings_eq {w : α → Value} {l : List (String × α)}
    (h : ∀ e ∈ l, Recovers decode (w e.2) e.2) (depth : Nat) (d : Dict α) :
    decodeBindings decode depth (memberTrees (l.map fun e => (e.1, w e.2))) d =
      within (Value.memberNesting (l.map fun e => (e.1, w e.2)) ≤ depth - 1)
        (l.foldl (fun d e => d.insert e.1 e.2) d) := by
  induction l generalizing d with
  | nil => exact (within_true (Nat.zero_le _) _).symm
  | cons e rest ih =>
    have he := h e List.mem_cons_self depth
    have hrest := ih (fun x hx => h x (List.mem_cons_of_mem _ hx)) (d.insert e.1 e.2)
    have hiff : ((w e.2).nesting ≤ depth - 1 ∧
        Value.memberNesting (rest.map fun e => (e.1, w e.2)) ≤ depth - 1) ↔
        Value.memberNesting ((e :: rest).map fun e => (e.1, w e.2)) ≤ depth - 1 := by
      rw [List.map_cons, Value.memberNesting, Nat.max_le]
    rw [← within_congr hiff, List.map_cons, memberTrees, decodeBindings, text_ofString, he]
    exact within_bind hrest

theorem recovers_dict {w : α → Value} {d : Dict α}
    (h : ∀ e ∈ d.entries, Recovers decode (w e.2) e.2) :
    Recovers (decodeDict decode) (.object (d.map w).entries) d :=
  descend_bind fun depth => by
    have hfold : (Dict.empty : Dict α).overlay d = d :=
      Dict.overlay_of_contains fun key hkey => absurd hkey Bool.false_ne_true
    have hbindings := decodeBindings_eq h depth .empty
    rw [Dict.overlay] at hfold
    rw [hfold] at hbindings
    rw [Dict.map, hbindings]
    exact within_bind_ok rfl

end

/-! Values -/

theorem decodeValues_eq (depth : Nat) (ts : List Tree) :
    decodeValues depth ts = decodeItems decodeValue depth ts := by
  induction ts with
  | nil => rfl
  | cons t rest ih => rw [decodeValues, decodeItems, ih]

theorem decodeMembers_eq (depth : Nat) (ms : List (Quoted × Tree)) (d : Dict Value) :
    decodeMembers depth ms d = decodeBindings decodeValue depth ms d := by
  induction ms generalizing d with
  | nil => rfl
  | cons m rest ih => simp only [decodeMembers, decodeBindings, ih]

theorem decodeValue_array (depth : Nat) (ts : List Tree) (fault : Option Fault) :
    decodeValue depth (.array ts fault) =
      (decodeList decodeValue depth (.array ts fault)).map .array := by
  rw [decodeValue, decodeList]
  cases descend depth with
  | error e => rfl
  | ok depth =>
    simp only [bind, Except.bind, decodeValues_eq]
    cases decodeItems decodeValue depth ts with
    | error e => rfl
    | ok vs => cases fault <;> rfl

theorem decodeValue_object (depth : Nat) (ms : List (Quoted × Tree)) (fault : Option Fault) :
    decodeValue depth (.object ms fault) =
      (decodeDict decodeValue depth (.object ms fault)).map .ofDict := by
  rw [decodeValue, decodeDict]
  cases descend depth with
  | error e => rfl
  | ok depth =>
    simp only [bind, Except.bind, decodeMembers_eq]
    cases decodeBindings decodeValue depth ms .empty with
    | error e => rfl
    | ok d => cases fault <;> rfl

end Json

/-- Whether the text of a number is read as the same number. -/
def Binary64.ReadsBack (x : Binary64) : Prop := Value.ofText x.text = .ok (.number (.float x))

/-- The values that a text can hold: each object with its members in the order of their keys, and
floats that their texts bring back. -/
inductive Value.Storable : Value → Prop
  | null : Storable .null
  | bool (b : Bool) : Storable (.bool b)
  | int (i : Int) (h : IsWord i) : Storable (.number (.int i h))
  | float {x : Binary64} : x.ReadsBack → Storable (.number (.float x))
  | string (s : String) : Storable (.string s)
  | array {items : List Value} : (∀ v ∈ items, Storable v) → Storable (.array items)
  | ofDict {d : Dict Value} : (∀ e ∈ d.entries, Storable e.2) → Storable (.ofDict d)

namespace Json

theorem decodeNumeral_of_readsBack {x : Binary64} (hx : x.ReadsBack) :
    decodeNumeral (Number.float x).numeral = .ok (.float x) := by
  have htext : Value.ofText x.text = decodeValue nestingDepth (.number (Number.float x).numeral) :=
    decodeText_of_spells decodeValue (.number ⟨.float x, rfl, rfl⟩)
  rw [Binary64.ReadsBack, htext, decodeValue] at hx
  cases hd : decodeNumeral (Number.float x).numeral with
  | error e => simp [hd, Except.map] at hx
  | ok y => simpa [hd, Except.map] using hx

theorem recovers_value {v : Value} (hv : v.Storable) : Recovers decodeValue v v := by
  induction hv with
  | null => exact recovers_flat rfl fun _ => rfl
  | bool b => exact recovers_flat rfl fun _ => rfl
  | int i h =>
    exact recovers_flat rfl fun _ => by rw [valueTree, decodeValue, decodeNumeral_int]; rfl
  | float hx =>
    exact recovers_flat rfl fun _ => by
      rw [valueTree, decodeValue, decodeNumeral_of_readsBack hx]; rfl
  | string s => exact recovers_flat rfl fun _ => by rw [valueTree, decodeValue, text_ofString]; rfl
  | @array items _ ih =>
    intro depth
    have hlist := recovers_list (w := id) ih depth
    rw [List.map_id] at hlist
    rw [valueTree, decodeValue_array, ← within_map]
    exact congrArg (Except.map Value.array) hlist
  | @ofDict d _ ih =>
    intro depth
    have hdict := recovers_dict (w := id) ih depth
    rw [Dict.map_id] at hdict
    rw [Value.ofDict, valueTree, decodeValue_object, ← Value.ofDict, ← within_map]
    exact congrArg (Except.map Value.ofDict) hdict

/-! Records -/

section

variable {σ α β : Type} {schema : Schema σ α}

/-- Which draft the members of a record make, each being a field that has not been read before. -/
inductive Fills (schema : Schema σ α) : List (String × Value) → σ → σ → Prop
  | nil (s : σ) : Fills schema [] s s
  | cons {name : String} {v : Value} {rest : List (String × Value)} {s s' s'' : σ}
    {field : Field σ} :
    schema.fields.find? (·.name = name) = some field → field.seen s = false →
    (∀ depth, field.decode s depth (valueTree v) = within (v.nesting ≤ depth - 1) s') →
    Fills schema rest s' s'' → Fills schema ((name, v) :: rest) s s''

theorem decode_make {name : String} {required : Bool} {get : σ → Option β} {set : σ → β → σ}
    {decode : Decoder β} {v : Value} {b : β} (h : Recovers decode v b) (s : σ) (depth : Nat) :
    (Field.make name required get set decode).decode s depth (valueTree v) =
      within (v.nesting ≤ depth - 1) (set s b) := by
  rw [← within_map]
  exact congrArg (Except.map (set s)) (h depth)

theorem Fills.decodeFields_eq {members : List (String × Value)} {s s' : σ}
    (h : Fills schema members s s') (depth : Nat) :
    schema.decodeFields depth (memberTrees members) s =
      within (Value.memberNesting members ≤ depth - 1) s' := by
  induction h with
  | nil s => exact (within_true (Nat.zero_le _) _).symm
  | @cons name v rest s s' s'' field hfind hseen hdecode _ ih =>
    have hiff : (v.nesting ≤ depth - 1 ∧ Value.memberNesting rest ≤ depth - 1) ↔
        Value.memberNesting ((name, v) :: rest) ≤ depth - 1 := by
      rw [Value.memberNesting, Nat.max_le]
    rw [← within_congr hiff, memberTrees, Schema.decodeFields, text_ofString]
    simp only [bind, Except.bind, hfind, hseen]
    rw [hdecode]
    exact within_bind ih

theorem recovers_record {members : List (String × Value)} {s : σ} {a : α}
    (h : Fills schema members schema.start s) (ha : schema.finish s = .ok a) :
    Recovers schema.decode (.object members) a :=
  descend_bind fun depth => by
    rw [h.decodeFields_eq]
    exact within_bind_ok ha

end

end Json

end Patchbay
