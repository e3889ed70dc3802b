import Patchbay.Json.Decoder

/-! Ports of a block type: names with a direction, in declaration order. -/

namespace Patchbay

inductive PortDirection where
  | input
  | output
deriving DecidableEq

namespace PortDirection

def name : PortDirection → String
  | input => "input"
  | output => "output"

def decode : Json.Decoder PortDirection :=
  Json.decodeVariant ([input, output].map fun d => (d.name, d))

end PortDirection

structure Port where
  name : String
  direction : PortDirection
deriving DecidableEq

structure PortLayout where
  inputs : List Port
  outputs : List Port
deriving DecidableEq

def defaultInput : String := "In"

def defaultOutput : String := "Out"

namespace Port

structure Draft where
  name : Option String
  direction : Option PortDirection

def schema : Json.Schema Draft Port where
  name := "PortDefinition"
  fields := [
    Json.Field.make "name" true Draft.name (fun d a => { d with name := some a })
      Json.decodeString,
    Json.Field.make "direction" true Draft.direction (fun d a => { d with direction := some a })
      PortDirection.decode]
  start := ⟨none, none⟩
  finish d := do
    let name ← Json.requireField "name" d.name
    let direction ← Json.requireField "direction" d.direction
    return ⟨name, direction⟩

def toValue (p : Port) : Value :=
  .object [("name", .string p.name), ("direction", .string p.direction.name)]

end Port

namespace PortLayout

def ofNames (inputs outputs : List String) : PortLayout :=
  ⟨inputs.map (⟨·, .input⟩), outputs.map (⟨·, .output⟩)⟩

/-- One input and one output, for block types that declare no ports. -/
def standard : PortLayout := ofNames [defaultInput] [defaultOutput]

def inputNames (l : PortLayout) : List String := l.inputs.map Port.name

def outputNames (l : PortLayout) : List String := l.outputs.map Port.name

def hasPort (l : PortLayout) (direction : PortDirection) (name : String) : Bool :=
  match direction with
  | .input => l.inputNames.contains name
  | .output => l.outputNames.contains name

structure Draft where
  inputs : Option (List Port)
  outputs : Option (List Port)

def schema : Json.Schema Draft PortLayout where
  name := "PortConfig"
  fields := [
    Json.Field.make "inputs" false Draft.inputs (fun d a => { d with inputs := some a })
      (Json.decodeList Port.schema.decode),
    Json.Field.make "outputs" false Draft.outputs (fun d a => { d with outputs := some a })
      (Json.decodeList Port.schema.decode)]
  start := ⟨none, none⟩
  finish d := return ⟨d.inputs.getD [], d.outputs.getD []⟩

def toValue (l : PortLayout) : Value :=
  .object [("inputs", .array (l.inputs.map Port.toValue)),
    ("outputs", .array (l.outputs.map Port.toValue))]

end PortLayout

end Patchbay
