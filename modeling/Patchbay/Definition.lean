import Patchbay.Port

/-! Definitions of block types: name, category, the parameters a block accepts, and its ports. -/

namespace Patchbay

inductive BlockCategory where
  | sources
  | math
  | logic
  | output
  | general
deriving DecidableEq

namespace BlockCategory

def name : BlockCategory → String
  | sources => "Sources"
  | math => "Math"
  | logic => "Logic"
  | output => "Output"
  | general => "General"

def all : List BlockCategory := [sources, math, logic, output, general]

def decode : Json.Decoder BlockCategory := Json.decodeVariant (all.map fun c => (c.name, c))

end BlockCategory

inductive ParameterKind where
  | number
  | any
deriving DecidableEq

namespace ParameterKind

def name : ParameterKind → String
  | number => "number"
  | any => "any"

def decode : Json.Decoder ParameterKind :=
  Json.decodeVariant ([number, any].map fun k => (k.name, k))

end ParameterKind

structure Parameter where
  kind : ParameterKind
  /-- The value that the parameter has until it is set. -/
  initial : Value
  description : String
deriving DecidableEq

namespace Parameter

def any (description : String) (initial : Value) : Parameter := ⟨.any, initial, description⟩

/-- Without a number the initial value is null. -/
def number (description : String) (initial : Option Binary64) : Parameter :=
  ⟨.number, initial.elim .null fun x => .number (.float x), description⟩

structure Draft where
  kind : Option ParameterKind
  initial : Option Value
  description : Option String

def schema : Json.Schema Draft Parameter where
  name := "ParamDefinition"
  fields := [
    Json.Field.make "type" true Draft.kind (fun d a => { d with kind := some a })
      ParameterKind.decode,
    Json.Field.make "default" false Draft.initial (fun d a => { d with initial := some a })
      Json.decodeValue,
    Json.Field.make "description" false Draft.description
      (fun d a => { d with description := some a }) Json.decodeString]
  start := ⟨none, none, none⟩
  finish d := do
    let kind ← Json.requireField "type" d.kind
    return ⟨kind, d.initial.getD .null, d.description.getD ""⟩

def toValue (p : Parameter) : Value :=
  .object [("type", .string p.kind.name), ("default", p.initial),
    ("description", .string p.description)]

end Parameter

structure BlockDefinition where
  name : String
  description : String
  category : BlockCategory
  parameters : Dict Parameter
  ports : PortLayout
deriving DecidableEq

namespace BlockDefinition

def initialValues (d : BlockDefinition) : Dict Value := d.parameters.map Parameter.initial

structure Draft where
  name : Option String
  description : Option String
  category : Option BlockCategory
  parameters : Option (Dict Parameter)
  ports : Option PortLayout

def schema : Json.Schema Draft BlockDefinition where
  name := "BlockTypeDefinition"
  fields := [
    Json.Field.make "name" true Draft.name (fun d a => { d with name := some a })
      Json.decodeString,
    Json.Field.make "description" false Draft.description
      (fun d a => { d with description := some a }) Json.decodeString,
    Json.Field.make "category" true Draft.category (fun d a => { d with category := some a })
      BlockCategory.decode,
    Json.Field.make "params" false Draft.parameters (fun d a => { d with parameters := some a })
      (Json.decodeDict Parameter.schema.decode),
    Json.Field.make "ports" false Draft.ports (fun d a => { d with ports := some a })
      PortLayout.schema.decode]
  start := ⟨none, none, none, none, none⟩
  finish d := do
    let name ← Json.requireField "name" d.name
    let category ← Json.requireField "category" d.category
    return ⟨name, d.description.getD "", category, d.parameters.getD .empty,
      d.ports.getD .standard⟩

def toValue (d : BlockDefinition) : Value :=
  .object [("name", .string d.name), ("description", .string d.description),
    ("category", .string d.category.name),
    ("params", .object (d.parameters.map Parameter.toValue).entries),
    ("ports", d.ports.toValue)]

def ofText (text : String) : Except Json.ReadError BlockDefinition :=
  Json.decodeText schema.decode text

end BlockDefinition

end Patchbay
