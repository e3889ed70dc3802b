import Patchbay.Json.Printer
import Patchbay.Proofs.NumberTexts

/-! The texts of a tree: between the parts of an array or object there may be blanks, a string may
use any of the escapes, and a number any of the texts that are allowed for it. What is written for a
value, in either format, is such a text of the value's tree. -/

namespace Patchbay

theorem Value.ind {P : Value → Prop} (null : P .null) (bool : ∀ b, P (.bool b))
    (number : ∀ n, P (.number n)) (string : ∀ s, P (.string s))
    (array : ∀ items : List Value, (∀ v ∈ items, P v) → P (.array items))
    (object : ∀ members : List (String × Value), (∀ m ∈ members, P m.2) → P (.object members))
    (v : Value) : P v := by
  refine @Value.rec P (fun items => ∀ v ∈ items, P v) (fun members => ∀ m ∈ members, P m.2)
    (fun m => P m.2) null bool number string array object ?_ ?_ ?_ ?_ ?_ v
  · exact fun _ h => absurd h List.not_mem_nil
  · intro v rest hv hrest w hw
    rcases List.mem_cons.mp hw with rfl | hw
    · exact hv
    · exact hrest w hw
  · exact fun _ h => absurd h List.not_mem_nil
  · intro m rest hm hrest w hw
    rcases List.mem_cons.mp hw with rfl | hw
    · exact hm
    · exact hrest w hw
  · exact fun _ _ hv => hv

namespace Json

/-! The tree of a value -/

/-- Control characters without a short escape are written by their numbers. -/
def pieceOf (c : Char) : Piece :=
  if c.toNat < 32 ∧ c ∉ ['\x08', '\x0c', '\n', '\r', '\t'] then .unit c.toNat else .char c

def Quoted.ofString (s : String) : Quoted := ⟨s.toList.map pieceOf, none⟩

mutual

def valueTree : Value → Tree
  | .null => .null
  | .bool b => .bool b
  | .number n => .number n.numeral
  | .string s => .string (.ofString s)
  | .array items => .array (itemTrees items) none
  | .object members => .object (memberTrees members) none

def itemTrees : List Value → List Tree
  | [] => []
  | v :: rest => valueTree v :: itemTrees rest

def memberTrees : List (String × Value) → List (Quoted × Tree)
  | [] => []
  | (key, v) :: rest => (.ofString key, valueTree v) :: memberTrees rest

end

theorem itemTrees_eq_map (items : List Value) : itemTrees items = items.map valueTree := by
  induction items with
  | nil => rfl
  | cons v rest ih => rw [itemTrees, ih, List.map_cons]

theorem memberTrees_eq_map (members : List (String × Value)) :
    memberTrees members = members.map fun m => (.ofString m.1, valueTree m.2) := by
  induction members with
  | nil => rfl
  | cons m rest ih => rw [memberTrees, ih, List.map_cons]

/-! Spelling -/

def Blank (cs : List Char) : Prop := ∀ c ∈ cs, isBlank c = true

theorem Blank.nil : Blank [] := fun _ h => absurd h List.not_mem_nil

theorem blank_newLine (indent : Nat) : Blank (newLine indent) := by
  intro c hc
  rcases List.mem_cons.mp hc with rfl | hc
  · rfl
  · rw [List.eq_of_mem_replicate hc]
    rfl

/-- The rest of a quoted text, with the quote that ends it. -/
inductive Quotes : List Piece → List Char → Prop
  | close : Quotes [] ['"']
  | char {c : Char} {ps : List Piece} {cs : List Char} : c ≠ '"' → c ≠ '\\' → 32 ≤ c.toNat →
    Quotes ps cs → Quotes (.char c :: ps) (c :: cs)
  | escape {e c : Char} {ps : List Piece} {cs : List Char} : shortEscape? e = some c →
    Quotes ps cs → Quotes (.char c :: ps) ('\\' :: e :: cs)
  | unit {a b c d : Char} {w x y z : Nat} {ps : List Piece} {cs : List Char} :
    hexValue? a = some w → hexValue? b = some x → hexValue? c = some y → hexValue? d = some z →
    Quotes ps cs → Quotes (.unit (((w * 16 + x) * 16 + y) * 16 + z) :: ps)
      ('\\' :: 'u' :: a :: b :: c :: d :: cs)

/-- A value, or what an array or object still holds after its bracket or a comma. -/
inductive Phrase where
  | value (t : Tree)
  | items (rest : List Tree)
  | members (rest : List (Quoted × Tree))

/-- The texts of a phrase, with numbers as `S` has them. -/
inductive Spells (S : Numeral → List Char → Prop) : Phrase → List Char → Prop
  | null : Spells S (.value .null) nullChars
  | bool (b : Bool) : Spells S (.value (.bool b)) (boolChars b)
  | number {n : Numeral} {cs : List Char} : S n cs → Spells S (.value (.number n)) cs
  | string {ps : List Piece} {cs : List Char} : Quotes ps cs →
    Spells S (.value (.string ⟨ps, none⟩)) ('"' :: cs)
  | emptyArray {bs : List Char} : Blank bs →
    Spells S (.value (.array [] none)) ('[' :: (bs ++ [']']))
  | array {ts : List Tree} {cs : List Char} : Spells S (.items ts) cs →
    Spells S (.value (.array ts none)) ('[' :: cs)
  | emptyObject {bs : List Char} : Blank bs →
    Spells S (.value (.object [] none)) ('\x7b' :: (bs ++ ['\x7d']))
  | object {ms : List (Quoted × Tree)} {cs : List Char} : Spells S (.members ms) cs →
    Spells S (.value (.object ms none)) ('\x7b' :: cs)
  | lastItem {t : Tree} {before cs after : List Char} : Blank before → Spells S (.value t) cs →
    Blank after → Spells S (.items [t]) (before ++ (cs ++ (after ++ [']'])))
  | item {t : Tree} {ts : List Tree} {before cs after rest : List Char} : Blank before →
    Spells S (.value t) cs → Blank after → Spells S (.items ts) rest →
    Spells S (.items (t :: ts)) (before ++ (cs ++ (after ++ ',' :: rest)))
  | lastMember {ps : List Piece} {t : Tree} {before key middle space cs after : List Char} :
    Blank before → Quotes ps key → Blank middle → Blank space → Spells S (.value t) cs →
    Blank after →
    Spells S (.members [(⟨ps, none⟩, t)])
      (before ++ '"' :: (key ++ (middle ++ ':' :: (space ++ (cs ++ (after ++ ['\x7d']))))))
  | member {ps : List Piece} {t : Tree} {ms : List (Quoted × Tree)}
    {before key middle space cs after rest : List Char} :
    Blank before → Quotes ps key → Blank middle → Blank space → Spells S (.value t) cs →
    Blank after → Spells S (.members ms) rest →
    Spells S (.members ((⟨ps, none⟩, t) :: ms))
      (before ++ '"' :: (key ++ (middle ++ ':' :: (space ++ (cs ++ (after ++ ',' :: rest))))))

/-! What is written -/

theorem hexValue?_hexDigit {n : Nat} (hn : n < 16) : hexValue? (hexDigit n) = some n := by
  have hall : ∀ k < 16, hexValue? (hexDigit k) = some k := by decide
  exact hall n hn

theorem quotes_escapedChar (c : Char) {ps : List Piece} {cs : List Char} (h : Quotes ps cs) :
    Quotes (pieceOf c :: ps) (escapedChar c ++ cs) := by
  unfold escapedChar
  split
  case h_8 hquote hslash hback hfeed hline hreturn htab =>
    have hshort : c ∉ ['\x08', '\x0c', '\n', '\r', '\t'] := by simp_all
    by_cases hc : c.toNat < 32
    · have hzero : hexValue? '0' = some 0 := rfl
      have hcode : ((0 * 16 + 0) * 16 + c.toNat / 16) * 16 + c.toNat % 16 = c.toNat := by omega
      have hunit := Quotes.unit hzero hzero (hexValue?_hexDigit (n := c.toNat / 16) (by omega))
        (hexValue?_hexDigit (n := c.toNat % 16) (by omega)) h
      rw [hcode] at hunit
      simpa [pieceOf, hc, hshort] using hunit
    · simpa [pieceOf, hc] using Quotes.char hquote hslash (by omega) h
  all_goals exact .escape rfl h

theorem quotes_string (s : List Char) :
    Quotes (s.map pieceOf) (s.flatMap escapedChar ++ ['"']) := by
  induction s with
  | nil => exact .close
  | cons c cs ih => simpa using quotes_escapedChar c ih

/-- The texts of written numbers. -/
def Printed (n : Numeral) (cs : List Char) : Prop :=
  ∃ x : Number, n = x.numeral ∧ cs = x.text.toList

theorem scans_of_printed : ∀ n cs, Printed n cs → Scans n cs :=
  fun _ _ ⟨x, hn, hcs⟩ => hn ▸ hcs ▸ x.scans_text

theorem spells_compactItems (v : Value) (rest : List Value)
    (h : ∀ w ∈ v :: rest, Spells Printed (.value (valueTree w)) (compactChars w)) :
    Spells Printed (.items (itemTrees (v :: rest))) (compactItems true (v :: rest)) := by
  induction rest generalizing v with
  | nil =>
    have hlast := Spells.lastItem .nil (h v List.mem_cons_self) .nil
    simpa [compactItems, itemTrees] using hlast
  | cons w rest ih =>
    have hrest := ih w fun x hx => h x (List.mem_cons_of_mem _ hx)
    have hitem := Spells.item .nil (h v List.mem_cons_self) .nil hrest
    simpa [compactItems, itemTrees] using hitem

theorem spells_compactMembers (m : String × Value) (rest : List (String × Value))
    (h : ∀ w ∈ m :: rest, Spells Printed (.value (valueTree w.2)) (compactChars w.2)) :
    Spells Printed (.members (memberTrees (m :: rest))) (compactMembers true (m :: rest)) := by
  induction rest generalizing m with
  | nil =>
    have hlast :=
      Spells.lastMember .nil (quotes_string m.1.toList) .nil .nil (h m List.mem_cons_self) .nil
    simpa [compactMembers, memberTrees, stringChars, Quoted.ofString] using hlast
  | cons w rest ih =>
    have hrest := ih w fun x hx => h x (List.mem_cons_of_mem _ hx)
    have hmember := Spells.member .nil (quotes_string m.1.toList) .nil .nil
      (h m List.mem_cons_self) .nil hrest
    simpa [compactMembers, memberTrees, stringChars, Quoted.ofString] using hmember

theorem spells_compact (v : Value) : Spells Printed (.value (valueTree v)) (compactChars v) := by
  induction v using Value.ind with
  | null => exact .null
  | bool b => exact .bool b
  | number n => exact .number ⟨n, rfl, rfl⟩
  | string s => exact .string (quotes_string s.toList)
  | array items ih =>
    cases items with
    | nil => exact .emptyArray .nil
    | cons v rest => exact .array (spells_compactItems v rest ih)
  | object members ih =>
    cases members with
    | nil => exact .emptyObject .nil
    | cons m rest => exact .object (spells_compactMembers m rest ih)

theorem spells_prettyItems (indent : Nat) (v : Value) (rest : List Value)
    (h : ∀ w ∈ v :: rest, Spells Printed (.value (valueTree w)) (prettyChars (indent + 1) w)) :
    Spells Printed (.items (itemTrees (v :: rest))) (prettyItems indent true (v :: rest)) := by
  have hline := blank_newLine (indent + 1)
  induction rest generalizing v with
  | nil =>
    have hlast := Spells.lastItem hline (h v List.mem_cons_self) (blank_newLine indent)
    simpa [prettyItems, itemTrees] using hlast
  | cons w rest ih =>
    have hrest := ih w fun x hx => h x (List.mem_cons_of_mem _ hx)
    have hitem := Spells.item hline (h v List.mem_cons_self) .nil hrest
    simpa [prettyItems, itemTrees] using hitem

theorem spells_prettyMembers (indent : Nat) (m : String × Value) (rest : List (String × Value))
    (h : ∀ w ∈ m :: rest, Spells Printed (.value (valueTree w.2)) (prettyChars (indent + 1) w.2)) :
    Spells Printed (.members (memberTrees (m :: rest)))
      (prettyMembers indent true (m :: rest)) := by
  have hline := blank_newLine (indent + 1)
  have hspace : Blank [' '] := by simp [Blank, isBlank]
  induction rest generalizing m with
  | nil =>
    have hlast := Spells.lastMember hline (quotes_string m.1.toList) .nil hspace
      (h m List.mem_cons_self) (blank_newLine indent)
    simpa [prettyMembers, memberTrees, stringChars, Quoted.ofString] using hlast
  | cons w rest ih =>
    have hrest := ih w fun x hx => h x (List.mem_cons_of_mem _ hx)
    have hmember := Spells.member hline (quotes_string m.1.toList) .nil hspace
      (h m List.mem_cons_self) .nil hrest
    simpa [prettyMembers, memberTrees, stringChars, Quoted.ofString] using hmember

theorem spells_pretty (v : Value) (indent : Nat) :
    Spells Printed (.value (valueTree v)) (prettyChars indent v) := by
  induction v using Value.ind generalizing indent with
  | null => exact .null
  | bool b => exact .bool b
  | number n => exact .number ⟨n, rfl, rfl⟩
  | string s => exact .string (quotes_string s.toList)
  | array items ih =>
    cases items with
    | nil => exact .emptyArray .nil
    | cons v rest =>
      exact .array (spells_prettyItems indent v rest fun w hw => ih w hw (indent + 1))
  | object members ih =>
    cases members with
    | nil => exact .emptyObject .nil
    | cons m rest =>
      exact .object (spells_prettyMembers indent m rest fun w hw => ih w hw (indent + 1))

end Json

end Patchbay
