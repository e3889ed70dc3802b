import Patchbay.Value

/-! Writing values as JSON text, compact or with two blanks of indent. Members are written in the
order they have. -/

namespace Patchbay.Json

def hexDigit (n : Nat) : Char := Nat.digitChar n

def escapedChar (c : Char) : List Char :=
  match c with
  | '"' => ['\\', '"']
  | '\\' => ['\\', '\\']
  | '\x08' => ['\\', 'b']
  | '\x0c' => ['\\', 'f']
  | '\n' => ['\\', 'n']
  | '\r' => ['\\', 'r']
  | '\t' => ['\\', 't']
  | c =>
    if c.toNat < 32 then ['\\', 'u', '0', '0', hexDigit (c.toNat / 16), hexDigit (c.toNat % 16)]
    else [c]

def stringChars (s : String) : List Char := '"' :: (s.toList.flatMap escapedChar ++ ['"'])

def boolChars : Bool → List Char
  | true => ['t', 'r', 'u', 'e']
  | false => ['f', 'a', 'l', 's', 'e']

def nullChars : List Char := ['n', 'u', 'l', 'l']

mutual

def compactChars : Value → List Char
  | .null => nullChars
  | .bool b => boolChars b
  | .number n => n.text.toList
  | .string s => stringChars s
  | .array items => '[' :: compactItems true items
  | .object members => '\x7b' :: compactMembers true members

def compactItems : Bool → List Value → List Char
  | _, [] => [']']
  | first, v :: rest =>
    (if first then [] else [',']) ++ (compactChars v ++ compactItems false rest)

def compactMembers : Bool → List (String × Value) → List Char
  | _, [] => ['\x7d']
  | first, (key, v) :: rest =>
    (if first then [] else [',']) ++
      (stringChars key ++ ':' :: (compactChars v ++ compactMembers false rest))

end

def newLine (indent : Nat) : List Char := '\n' :: List.replicate (2 * indent) ' '

mutual

def prettyChars (indent : Nat) : Value → List Char
  | .null => nullChars
  | .bool b => boolChars b
  | .number n => n.text.toList
  | .string s => stringChars s
  | .array [] => ['[', ']']
  | .array items => '[' :: prettyItems indent true items
  | .object [] => ['\x7b', '\x7d']
  | .object members => '\x7b' :: prettyMembers indent true members

def prettyItems (indent : Nat) : Bool → List Value → List Char
  | _, [] => newLine indent ++ [']']
  | first, v :: rest =>
    (if first then [] else [',']) ++
      (newLine (indent + 1) ++ (prettyChars (indent + 1) v ++ prettyItems indent false rest))

def prettyMembers (indent : Nat) : Bool → List (String × Value) → List Char
  | _, [] => newLine indent ++ ['\x7d']
  | first, (key, v) :: rest =>
    (if first then [] else [',']) ++
      (newLine (indent + 1) ++
        (stringChars key ++ ':' :: ' ' :: (prettyChars (indent + 1) v ++
          prettyMembers indent false rest)))

end

end Patchbay.Json

namespace Patchbay.Value

def compact (v : Value) : String := String.ofList (Json.compactChars v)

def pretty (v : Value) : String := String.ofList (Json.prettyChars 0 v)

end Patchbay.Value
