import Patchbay.Json.Reader
import Patchbay.Value

/-! Typed reading. A decoder walks a tree in the order of the text and answers its first problem,
be it a fault of the text or data of another shape than wanted. -/

namespace Patchbay.Json

inductive Violation where
  | valueEnds
  | stringEnds
  | arrayEnds
  | objectEnds
  | expectedColon
  | expectedArrayComma
  | expectedObjectComma
  | expectedWord
  | expectedValue
  | invalidEscape
  | invalidNumber
  | numberOutOfRange
  | controlCharacter
  | keyNotString
  | loneSurrogate
  | trailingComma
  | trailingCharacters
  | unpairedSurrogate
  | nestingLimit
deriving DecidableEq

namespace Violation

def message : Violation → String
  | valueEnds => "EOF while parsing a value"
  | stringEnds => "EOF while parsing a string"
  | arrayEnds => "EOF while parsing a list"
  | objectEnds => "EOF while parsing an object"
  | expectedColon => "expected `:`"
  | expectedArrayComma => "expected `,` or `]`"
  | expectedObjectComma => "expected `,` or `\x7d`"
  | expectedWord => "expected ident"
  | expectedValue => "expected value"
  | invalidEscape => "invalid escape"
  | invalidNumber => "invalid number"
  | numberOutOfRange => "number out of range"
  | controlCharacter => "control character (\\u0000-\\u001F) found while parsing a string"
  | keyNotString => "key must be a string"
  | loneSurrogate => "lone leading surrogate in hex escape"
  | trailingComma => "trailing comma"
  | trailingCharacters => "trailing characters"
  | unpairedSurrogate => "unexpected end of hex escape"
  | nestingLimit => "recursion limit exceeded"

/-- Whether the reader needed another byte and the text had ended. -/
def isEnd : Violation → Bool
  | valueEnds | stringEnds | arrayEnds | objectEnds => true
  | _ => false

end Violation

/-- The violation that a fault is where the data is wanted. -/
def Fault.violation : Fault → Violation
  | .valueEnds | .wordEnds | .numberEnds | .itemEnds | .keyEnds => .valueEnds
  | .badValue => .expectedValue
  | .badWord => .expectedWord
  | .badNumber => .invalidNumber
  | .stringEnds => .stringEnds
  | .controlCharacter => .controlCharacter
  | .badEscape | .badCodeUnit => .invalidEscape
  | .arrayEnds => .arrayEnds
  | .itemTrailingComma | .keyTrailingComma => .trailingComma
  | .badArray => .expectedArrayComma
  | .objectEnds | .colonEnds => .objectEnds
  | .badKey => .keyNotString
  | .badObject => .expectedObjectComma
  | .badColon => .expectedColon

/-- Whether no character of a value has been read where the fault is. -/
def Fault.leavesNothing : Fault → Bool
  | .valueEnds | .colonEnds | .badColon => true
  | _ => false

/-- The violation that a fault is inside a member that nobody wants. -/
def Fault.skippedViolation : Fault → Violation
  | .numberEnds => .invalidNumber
  | .itemTrailingComma => .expectedValue
  | .keyTrailingComma => .keyNotString
  | .keyEnds => .objectEnds
  | f => f.violation

inductive Found where
  | null
  | bool (b : Bool)
  | integer (i : Int)
  | float (x : Binary64)
  | string (s : String)
  | sequence
  | map
deriving DecidableEq

inductive ReadError where
  | violation (v : Violation)
  | missingField (name : String)
  | duplicateField (name : String)
  | invalidType (found : Found) (wanted : String)
  | invalidValue (found : Found) (wanted : String)
  | unknownVariant (name : String) (known : List String)
  | invalidLength (length : Nat) (record : String) (fields : Nat)
deriving DecidableEq

/-- Reads a tree inside at most `depth - 1` further arrays and objects. -/
abbrev Decoder (α : Type) := Nat → Tree → Except ReadError α

def descend (depth : Nat) : Except ReadError Nat :=
  if depth ≤ 1 then .error (.violation .nestingLimit) else .ok (depth - 1)

def nestingDepth : Nat := 128

def isHighSurrogate (code : Nat) : Bool := 0xd800 ≤ code && code < 0xdc00

def isLowSurrogate (code : Nat) : Bool := 0xdc00 ≤ code && code < 0xe000

/-- What is wrong with a text that ends, or breaks off, right after a high surrogate. -/
def unpairedViolation : Option Fault → Violation
  | some .stringEnds => .stringEnds
  | some .badCodeUnit => .invalidEscape
  | _ => .unpairedSurrogate

/-- The characters of a quoted text. A high surrogate forms one character with the low surrogate
that must follow it. -/
def quotedChars (fault : Option Fault) : List Piece → Except ReadError (List Char)
  | [] =>
    match fault with
    | none => .ok []
    | some f => .error (.violation f.violation)
  | .char c :: rest => (quotedChars fault rest).map (c :: ·)
  | .unit code :: rest =>
    if isLowSurrogate code then .error (.violation .loneSurrogate)
    else if isHighSurrogate code then
      match rest with
      | .unit low :: rest =>
        if isLowSurrogate low then
          (quotedChars fault rest).map
            (Char.ofNat (0x10000 + (code - 0xd800) * 0x400 + (low - 0xdc00)) :: ·)
        else .error (.violation .loneSurrogate)
      | .char _ :: _ => .error (.violation .unpairedSurrogate)
      | [] => .error (.violation (unpairedViolation fault))
    else (quotedChars fault rest).map (Char.ofNat code :: ·)

def Quoted.text (q : Quoted) : Except ReadError String :=
  (quotedChars q.fault q.pieces).map String.ofList

def decodeNumeral (n : Numeral) : Except ReadError Number :=
  match Number.ofNumeral? n with
  | some x => .ok x
  | none => .error (.violation .numberOutOfRange)

def Found.ofNumber : Number → Found
  | .int i _ => .integer i
  | .float x => .float x

def Tree.found : Tree → Except ReadError Found
  | .null => .ok .null
  | .bool b => .ok (.bool b)
  | .number n => (decodeNumeral n).map Found.ofNumber
  | .string q => q.text.map .string
  | .array _ _ => .ok .sequence
  | .object _ _ => .ok .map
  | .broken f => .error (.violation f.violation)

def refuse {α : Type} (wanted : String) (t : Tree) : Except ReadError α :=
  match t.found with
  | .ok found => .error (.invalidType found wanted)
  | .error e => .error e

def closed (fault : Option Fault) : Except ReadError Unit :=
  match fault with
  | none => .ok ()
  | some f => .error (.violation f.violation)

def decodeString : Decoder String
  | _, .string q => q.text
  | _, t => refuse "a string" t

def decodeBool : Decoder Bool
  | _, .bool b => .ok b
  | _, t => refuse "a boolean" t

def decodeUnit : Decoder Unit
  | _, .null => .ok ()
  | _, t => refuse "unit" t

def decodeNat : Decoder Nat
  | _, .number n => do
    match ← decodeNumeral n with
    | .int i _ =>
      if 0 ≤ i then return i.toNat else throw (.invalidValue (.integer i) "usize")
    | .float x => throw (.invalidType (.float x) "usize")
  | _, t => refuse "usize" t

def decodeNat? : Decoder (Option Nat)
  | _, .null => .ok none
  | depth, t => (decodeNat depth t).map some

mutual

def decodeValue : Nat → Tree → Except ReadError Value
  | _, .null => .ok .null
  | _, .bool b => .ok (.bool b)
  | _, .number n => (decodeNumeral n).map .number
  | _, .string q => q.text.map .string
  | depth, .array items fault => do
    let depth ← descend depth
    let values ← decodeValues depth items
    closed fault
    return .array values
  | depth, .object members fault => do
    let depth ← descend depth
    let dict ← decodeMembers depth members .empty
    closed fault
    return .ofDict dict
  | _, .broken f => .error (.violation f.violation)

def decodeValues : Nat → List Tree → Except ReadError (List Value)
  | _, [] => .ok []
  | depth, t :: rest => do
    let v ← decodeValue depth t
    let vs ← decodeValues depth rest
    return v :: vs

def decodeMembers : Nat → List (Quoted × Tree) → Dict Value → Except ReadError (Dict Value)
  | _, [], dict => .ok dict
  | depth, (key, t) :: rest, dict => do
    let name ← key.text
    let v ← decodeValue depth t
    decodeMembers depth rest (dict.insert name v)

end

mutual

/-- Reads past a member that nobody wants: neither the range of numbers nor the pairing of
surrogates nor the nesting depth matters there. -/
def skip : Tree → Except ReadError Unit
  | .null | .bool _ | .number _ => .ok ()
  | .string q => skipFault q.fault
  | .array items fault => do
    skipItems items
    skipFault fault
  | .object members fault => do
    skipMembers members
    skipFault fault
  | .broken f => .error (.violation f.skippedViolation)

def skipFault : Option Fault → Except ReadError Unit
  | none => .ok ()
  | some f => .error (.violation f.skippedViolation)

def skipItems : List Tree → Except ReadError Unit
  | [] => .ok ()
  | t :: rest => do
    skip t
    skipItems rest

def skipMembers : List (Quoted × Tree) → Except ReadError Unit
  | [] => .ok ()
  | (key, t) :: rest => do
    skipFault key.fault
    skip t
    skipMembers rest

end

def decodeItems {α : Type} (decode : Decoder α) (depth : Nat) :
    List Tree → Except ReadError (List α)
  | [] => .ok []
  | t :: rest => do
    let a ← decode depth t
    let as ← decodeItems decode depth rest
    return a :: as

def decodeList {α : Type} (decode : Decoder α) : Decoder (List α)
  | depth, .array items fault => do
    let depth ← descend depth
    let as ← decodeItems decode depth items
    closed fault
    return as
  | _, t => refuse "a sequence" t

def decodeBindings {α : Type} (decode : Decoder α) (depth : Nat) :
    List (Quoted × Tree) → Dict α → Except ReadError (Dict α)
  | [], dict => .ok dict
  | (key, t) :: rest, dict => do
    let name ← key.text
    let a ← decode depth t
    decodeBindings decode depth rest (dict.insert name a)

/-- A map; the last binding of a key wins. -/
def decodeDict {α : Type} (decode : Decoder α) : Decoder (Dict α)
  | depth, .object members fault => do
    let depth ← descend depth
    let dict ← decodeBindings decode depth members .empty
    closed fault
    return dict
  | _, t => refuse "a map" t

def decodeVariantName {α : Type} (variants : List (String × α)) (name : String) :
    Except ReadError α :=
  match variants.find? (·.1 = name) with
  | some v => .ok v.2
  | none => .error (.unknownVariant name (variants.map (·.1)))

/-- One of a few names, as a string or as the only key of an object that holds null. -/
def decodeVariant {α : Type} (variants : List (String × α)) : Decoder α
  | _, .string q => do
    let name ← q.text
    decodeVariantName variants name
  | depth, .object members fault => do
    let depth ← descend depth
    match members with
    | [] =>
      match fault with
      | some .objectEnds => throw (.violation .valueEnds)
      | _ => throw (.violation .keyNotString)
    | (key, content) :: rest =>
      let name ← key.text
      let a ← decodeVariantName variants name
      decodeUnit depth content
      match rest, fault with
      | [], none => return a
      | [], some .objectEnds => throw (.violation .objectEnds)
      | _, _ => throw (.violation .expectedValue)
  | _, .broken f => .error (.violation (if f.leavesNothing then f.violation else .expectedValue))
  | _, _ => .error (.violation .expectedValue)

structure Field (σ : Type) where
  name : String
  required : Bool
  seen : σ → Bool
  decode : σ → Nat → Tree → Except ReadError σ

/-- A field read by `decode` into the part of the draft that `get` shows. -/
def Field.make {σ α : Type} (name : String) (required : Bool) (get : σ → Option α)
    (set : σ → α → σ) (decode : Decoder α) : Field σ where
  name := name
  required := required
  seen s := (get s).isSome
  decode s depth t := (decode depth t).map (set s)

/-- A record type: its fields in declaration order, and how the fields read so far become a
record. -/
structure Schema (σ α : Type) where
  name : String
  fields : List (Field σ)
  start : σ
  finish : σ → Except ReadError α

def requireField {α : Type} (name : String) : Option α → Except ReadError α
  | some a => .ok a
  | none => .error (.missingField name)

namespace Schema

variable {σ α : Type}

/-- The members of a record written as an object. A second spelling of a field is refused at its
key; members that are no fields are read past. -/
def decodeFields (schema : Schema σ α) (depth : Nat) :
    List (Quoted × Tree) → σ → Except ReadError σ
  | [], s => .ok s
  | (key, t) :: rest, s => do
    let name ← key.text
    match schema.fields.find? (·.name = name) with
    | none =>
      skip t
      schema.decodeFields depth rest s
    | some field =>
      if field.seen s then throw (.duplicateField name)
      let s ← field.decode s depth t
      schema.decodeFields depth rest s

def decodeEnd (items : List Tree) (fault : Option Fault) : Except ReadError Unit :=
  match items, fault with
  | [], none => .ok ()
  | [], some .arrayEnds => .error (.violation .arrayEnds)
  | [], some .itemTrailingComma => .error (.violation .trailingComma)
  | _, _ => .error (.violation .trailingCharacters)

/-- The items of a record written as an array, one for each field in turn; fields that need not be
written may be left out at the end. -/
def decodeSlots (schema : Schema σ α) (depth : Nat) (fault : Option Fault) :
    List (Field σ) → List Tree → σ → Except ReadError σ
  | [], items, s => do
    decodeEnd items fault
    return s
  | field :: fields, t :: items, s => do
    let s ← field.decode s depth t
    schema.decodeSlots depth fault fields items s
  | field :: fields, [], s => do
    closed fault
    if field.required then
      throw (.invalidLength (schema.fields.length - (fields.length + 1)) schema.name
        schema.fields.length)
    schema.decodeSlots depth fault fields [] s

def decode (schema : Schema σ α) : Decoder α
  | depth, .object members fault => do
    let depth ← descend depth
    let s ← schema.decodeFields depth members schema.start
    closed fault
    schema.finish s
  | depth, .array items fault => do
    let depth ← descend depth
    let s ← schema.decodeSlots depth fault schema.fields items schema.start
    schema.finish s
  | _, t => refuse ("struct " ++ schema.name) t

end Schema

def decodeText {α : Type} (decode : Decoder α) (text : String) : Except ReadError α :=
  let reading := read text
  match decode nestingDepth reading.tree with
  | .error e => .error e
  | .ok a => if reading.trailing then .error (.violation .trailingCharacters) else .ok a

end Patchbay.Json

namespace Patchbay

def Value.ofText (text : String) : Except Json.ReadError Value :=
  Json.decodeText Json.decodeValue text

end Patchbay
