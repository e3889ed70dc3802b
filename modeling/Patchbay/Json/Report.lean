import Patchbay.Json.Decoder
import Patchbay.Text.Quoted

/-! The texts of reading errors. -/

namespace Patchbay.Json

def ticked (s : String) : String := "`" ++ s ++ "`"

def Found.text : Found → String
  | .null => "null"
  | .bool b => "boolean " ++ ticked (if b then "true" else "false")
  | .integer i => "integer " ++ ticked (toString i)
  | .float x => "floating point " ++ ticked x.text
  | .string s => "string " ++ Text.quoted s
  | .sequence => "sequence"
  | .map => "map"

/-- Names of an enumeration: two are joined by "or", more are listed. -/
def variantsText : List String → String
  | [a] => ticked a
  | [a, b] => ticked a ++ " or " ++ ticked b
  | names => "one of " ++ ", ".intercalate (names.map ticked)

def ReadError.message : ReadError → String
  | .violation v => v.message
  | .missingField name => "missing field " ++ ticked name
  | .duplicateField name => "duplicate field " ++ ticked name
  | .invalidType found wanted => "invalid type: " ++ found.text ++ ", expected " ++ wanted
  | .invalidValue found wanted => "invalid value: " ++ found.text ++ ", expected " ++ wanted
  | .unknownVariant name known =>
    "unknown variant " ++ ticked name ++ ", expected " ++ variantsText known
  | .invalidLength length record fields =>
    "invalid length " ++ toString length ++ ", expected struct " ++ record ++ " with " ++
      toString fields ++ " elements"

/-- The kinds of reading errors: the text ends too early, is no JSON, or holds other data. -/
inductive Category where
  | textEnds
  | malformed
  | data
deriving DecidableEq

def ReadError.category : ReadError → Category
  | .violation v => if v.isEnd then .textEnds else .malformed
  | _ => .data

end Patchbay.Json
