import Patchbay.Json.Tree

/-! Reading JSON text, one character at a time. The state holds the open arrays and objects and
what is expected next, so the tree of a text that ends early comes from the state it leaves. -/

namespace Patchbay.Json

/-- An open array or object around the value under way. The newest element stands first. -/
inductive Frame where
  | array (items : List Tree)
  | object (members : List (Quoted × Tree)) (key : Quoted)

/-- What a quoted text is: a value, or the next key of an object. -/
inductive Place where
  | value
  | key (members : List (Quoted × Tree))

inductive NumberPart where
  | sign
  | zero
  | whole
  | point
  | fraction
  | mark
  | exponentSign (negative : Bool)
  | exponent (negative : Bool)
deriving DecidableEq

/-- What comes next between two parts of a text, where blanks may stand. An array or object holds
the elements read so far. -/
inductive Gap where
  | value
  | firstItem
  | nextItem (items : List Tree)
  | afterItem (items : List Tree)
  | firstKey
  | nextKey (members : List (Quoted × Tree))
  | colon (members : List (Quoted × Tree)) (key : Quoted)
  | afterMember (members : List (Quoted × Tree))

inductive Mode where
  | between (gap : Gap)
  | word (rest : List Char) (tree : Tree)
  | number (part : NumberPart) (n : Numeral)
  | string (place : Place) (pieces : List Piece)
  | escape (place : Place) (pieces : List Piece)
  | codeUnit (place : Place) (pieces : List Piece) (missing : Nat) (code : Option Nat)

inductive State where
  | reading (stack : List Frame) (mode : Mode)
  | complete (tree : Tree)
  | trailing (tree : Tree)
  | stopped (tree : Tree)

/-- What a text holds: the tree of its value, and whether something other than blanks follows. -/
structure Reading where
  tree : Tree
  trailing : Bool

def isBlank (c : Char) : Bool := c = ' ' || c = '\n' || c = '\t' || c = '\r'

/-- Leaves every frame open around a tree that broke off. -/
def enclose (f : Fault) : Tree → List Frame → Tree
  | t, [] => t
  | t, .array items :: rest => enclose f (.array (items.reverse ++ [t]) (some f)) rest
  | t, .object members key :: rest =>
    enclose f (.object (members.reverse ++ [(key, t)]) (some f)) rest

def leaveArray (f : Fault) (items : List Tree) (stack : List Frame) : Tree :=
  enclose f (.array items.reverse (some f)) stack

def leaveObject (f : Fault) (members : List (Quoted × Tree)) (stack : List Frame) : Tree :=
  enclose f (.object members.reverse (some f)) stack

def leaveQuoted (f : Fault) (place : Place) (pieces : List Piece) (stack : List Frame) : Tree :=
  let q : Quoted := ⟨pieces.reverse, some f⟩
  match place with
  | .value => enclose f (.string q) stack
  | .key members => leaveObject f ((q, .broken f) :: members) stack

def stopAt (f : Fault) (stack : List Frame) : State := .stopped (enclose f (.broken f) stack)

/-- Hands a finished value to the innermost frame. -/
def deliver (t : Tree) : List Frame → State
  | [] => .complete t
  | .array items :: rest => .reading rest (.between (.afterItem (t :: items)))
  | .object members key :: rest =>
    .reading rest (.between (.afterMember ((key, t) :: members)))

def deliverQuoted (q : Quoted) (place : Place) (stack : List Frame) : State :=
  match place with
  | .value => deliver (.string q) stack
  | .key members => .reading stack (.between (.colon members q))

def digitValue (c : Char) : Nat := c.toNat - '0'.toNat

inductive NumberStep where
  | more (part : NumberPart) (n : Numeral)
  | done
  | bad

def advance (part : NumberPart) (n : Numeral) (c : Char) : NumberStep :=
  let digits := n.digits * 10 + digitValue c
  let fractionDigit := { n with digits := digits, places := n.places + 1, plain := false }
  let power (negative : Bool) : Numeral :=
    { n with
      exponent :=
        if negative then n.exponent * 10 - digitValue c else n.exponent * 10 + digitValue c
      plain := false }
  let afterDigits :=
    if c = 'e' ∨ c = 'E' then NumberStep.more .mark n else .done
  match part with
  | .sign =>
    if c = '0' then .more .zero n
    else if c.isDigit then .more .whole { n with digits := digits }
    else .bad
  | .zero => if c.isDigit then .bad else if c = '.' then .more .point n else afterDigits
  | .whole =>
    if c.isDigit then .more .whole { n with digits := digits }
    else if c = '.' then .more .point n
    else afterDigits
  | .point => if c.isDigit then .more .fraction fractionDigit else .bad
  | .fraction => if c.isDigit then .more .fraction fractionDigit else afterDigits
  | .mark =>
    if c = '+' then .more (.exponentSign false) n
    else if c = '-' then .more (.exponentSign true) n
    else if c.isDigit then .more (.exponent false) (power false)
    else .bad
  | .exponentSign negative =>
    if c.isDigit then .more (.exponent negative) (power negative) else .bad
  | .exponent negative =>
    if c.isDigit then .more (.exponent negative) (power negative) else .done

def NumberPart.isWhole : NumberPart → Bool
  | .zero | .whole | .fraction | .exponent _ => true
  | .sign | .point | .mark | .exponentSign _ => false

def startNumeral (negative : Bool) : Numeral := ⟨negative, 0, 0, 0, true⟩

def startValue (stack : List Frame) (c : Char) : State :=
  if c = 'n' then .reading stack (.word ['u', 'l', 'l'] .null)
  else if c = 't' then .reading stack (.word ['r', 'u', 'e'] (.bool true))
  else if c = 'f' then .reading stack (.word ['a', 'l', 's', 'e'] (.bool false))
  else if c = '-' then .reading stack (.number .sign (startNumeral true))
  else if c.isDigit then
    match advance .sign (startNumeral false) c with
    | .more part n => .reading stack (.number part n)
    | _ => stopAt .badNumber stack
  else if c = '"' then .reading stack (.string .value [])
  else if c = '[' then .reading stack (.between .firstItem)
  else if c = '{' then .reading stack (.between .firstKey)
  else stopAt .badValue stack

def startKey (members : List (Quoted × Tree)) (stack : List Frame) (c : Char) : State :=
  if c = '"' then .reading stack (.string (.key members) [])
  else .stopped (leaveObject .badKey members stack)

def shortEscape? (c : Char) : Option Char :=
  match c with
  | '"' => some '"'
  | '\\' => some '\\'
  | '/' => some '/'
  | 'b' => some '\x08'
  | 'f' => some '\x0c'
  | 'n' => some '\n'
  | 'r' => some '\r'
  | 't' => some '\t'
  | _ => none

def hexValue? (c : Char) : Option Nat :=
  if c.isDigit then some (digitValue c)
  else if 'a' ≤ c ∧ c ≤ 'f' then some (c.toNat - 'a'.toNat + 10)
  else if 'A' ≤ c ∧ c ≤ 'F' then some (c.toNat - 'A'.toNat + 10)
  else none

def stepString (stack : List Frame) (place : Place) (pieces : List Piece) (c : Char) : State :=
  if c = '"' then deliverQuoted ⟨pieces.reverse, none⟩ place stack
  else if c = '\\' then .reading stack (.escape place pieces)
  else if c.toNat < 32 then .stopped (leaveQuoted .controlCharacter place pieces stack)
  else .reading stack (.string place (.char c :: pieces))

def stepEscape (stack : List Frame) (place : Place) (pieces : List Piece) (c : Char) : State :=
  if c = 'u' then .reading stack (.codeUnit place pieces 4 (some 0))
  else
    match shortEscape? c with
    | some d => .reading stack (.string place (.char d :: pieces))
    | none => .stopped (leaveQuoted .badEscape place pieces stack)

/-- A code unit takes four bytes at once, whatever they are. -/
def stepCodeUnit (stack : List Frame) (place : Place) (pieces : List Piece) (missing : Nat)
    (code : Option Nat) (c : Char) : State :=
  let code := code.bind fun k => (hexValue? c).map (k * 16 + ·)
  if c.utf8Size < missing then
    .reading stack (.codeUnit place pieces (missing - c.utf8Size) code)
  else
    match code with
    | some k => .reading stack (.string place (.unit k :: pieces))
    | none => .stopped (leaveQuoted .badCodeUnit place pieces stack)

def stepWord (stack : List Frame) (rest : List Char) (tree : Tree) (c : Char) : State :=
  match rest with
  | [] => stopAt .badWord stack
  | d :: more =>
    if c ≠ d then stopAt .badWord stack
    else if more.isEmpty then deliver tree stack
    else .reading stack (.word more tree)

def stepAfterItem (stack : List Frame) (items : List Tree) (c : Char) : State :=
  if c = ',' then .reading stack (.between (.nextItem items))
  else if c = ']' then deliver (.array items.reverse none) stack
  else .stopped (leaveArray .badArray items stack)

def stepAfterMember (stack : List Frame) (members : List (Quoted × Tree)) (c : Char) : State :=
  if c = ',' then .reading stack (.between (.nextKey members))
  else if c = '}' then deliver (.object members.reverse none) stack
  else .stopped (leaveObject .badObject members stack)

def stepGap (stack : List Frame) (gap : Gap) (c : Char) : State :=
  match gap with
  | .value => startValue stack c
  | .firstItem =>
    if c = ']' then deliver (.array [] none) stack else startValue (.array [] :: stack) c
  | .nextItem items =>
    if c = ']' then .stopped (leaveArray .itemTrailingComma items stack)
    else startValue (.array items :: stack) c
  | .afterItem items => stepAfterItem stack items c
  | .firstKey => if c = '}' then deliver (.object [] none) stack else startKey [] stack c
  | .nextKey members =>
    if c = '}' then .stopped (leaveObject .keyTrailingComma members stack)
    else startKey members stack c
  | .colon members key =>
    if c = ':' then .reading (.object members key :: stack) (.between .value)
    else .stopped (leaveObject .badColon ((key, .broken .badColon) :: members) stack)
  | .afterMember members => stepAfterMember stack members c

def stepMode (stack : List Frame) (mode : Mode) (c : Char) : State :=
  match mode with
  | .between gap =>
    if isBlank c then .reading stack (.between gap) else stepGap stack gap c
  | .word rest tree => stepWord stack rest tree c
  | .number _ _ => stopAt .badNumber stack
  | .string place pieces => stepString stack place pieces c
  | .escape place pieces => stepEscape stack place pieces c
  | .codeUnit place pieces missing code => stepCodeUnit stack place pieces missing code c

def stepOutside : State → Char → State
  | .reading stack mode, c => stepMode stack mode c
  | .complete t, c => if isBlank c then .complete t else .trailing t
  | .trailing t, _ => .trailing t
  | .stopped t, _ => .stopped t

/-- A numeral ends at the first character that cannot continue it, and that character is then read
on its own. -/
def step : State → Char → State
  | .reading stack (.number part n), c =>
    match advance part n c with
    | .more part n => .reading stack (.number part n)
    | .bad => stopAt .badNumber stack
    | .done => stepOutside (deliver (.number n) stack) c
  | s, c => stepOutside s c

def cutOffGap (stack : List Frame) : Gap → Tree
  | .value => enclose .valueEnds (.broken .valueEnds) stack
  | .firstItem => leaveArray .arrayEnds [] stack
  | .nextItem items => leaveArray .itemEnds items stack
  | .afterItem items => leaveArray .arrayEnds items stack
  | .firstKey => leaveObject .objectEnds [] stack
  | .nextKey members => leaveObject .keyEnds members stack
  | .colon members key => leaveObject .colonEnds ((key, .broken .colonEnds) :: members) stack
  | .afterMember members => leaveObject .objectEnds members stack

def cutOff (stack : List Frame) : Mode → Tree
  | .between gap => cutOffGap stack gap
  | .word _ _ => enclose .wordEnds (.broken .wordEnds) stack
  | .number _ _ => enclose .numberEnds (.broken .numberEnds) stack
  | .string place pieces | .escape place pieces | .codeUnit place pieces _ _ =>
    leaveQuoted .stringEnds place pieces stack

def finishOutside : State → Reading
  | .reading stack mode => ⟨cutOff stack mode, false⟩
  | .complete t => ⟨t, false⟩
  | .trailing t => ⟨t, true⟩
  | .stopped t => ⟨t, false⟩

def finish : State → Reading
  | .reading stack (.number part n) =>
    if part.isWhole then finishOutside (deliver (.number n) stack)
    else ⟨cutOff stack (.number part n), false⟩
  | s => finishOutside s

def readChars (cs : List Char) : Reading := finish (cs.foldl step (.reading [] (.between .value)))

def read (text : String) : Reading := readChars text.toList

end Patchbay.Json
