import Patchbay.Number

/-! JSON text as read. A text may stop being JSON at any point; its tree then holds everything
before that point and a fault in each place that was left open. -/

namespace Patchbay.Json

/-- Where and how a text stops being JSON. A name with `Ends` stands for a text that is too
short. -/
inductive Fault where
  | valueEnds
  | badValue
  | wordEnds
  | badWord
  | numberEnds
  | badNumber
  | stringEnds
  | controlCharacter
  | badEscape
  | badCodeUnit
  | arrayEnds
  | itemEnds
  | itemTrailingComma
  | badArray
  | objectEnds
  | keyEnds
  | keyTrailingComma
  | badKey
  | badObject
  | colonEnds
  | badColon
deriving DecidableEq

/-- A character as written or by a short escape, or a 16-bit code unit by its number. -/
inductive Piece where
  | char (c : Char)
  | unit (code : Nat)
deriving DecidableEq

/-- The inside of a quoted text, with a fault if it was never closed. -/
structure Quoted where
  pieces : List Piece
  fault : Option Fault
deriving DecidableEq

inductive Tree where
  | null
  | bool (b : Bool)
  | number (n : Numeral)
  | string (q : Quoted)
  | array (items : List Tree) (fault : Option Fault)
  | object (members : List (Quoted × Tree)) (fault : Option Fault)
  | broken (fault : Fault)

instance : Inhabited Tree := ⟨.null⟩

end Patchbay.Json
