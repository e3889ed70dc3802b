import Patchbay.Blocks.Builtin
import Patchbay.Blocks.Script

/-! Graphs that mix built-in and scripted blocks. -/

namespace Patchbay

inductive Block where
  | builtin (b : Builtin)
  | script (s : Script)
deriving DecidableEq

namespace Block

def typeName : Block → String
  | builtin b => b.typeName
  | script s => s.typeName

def definition : Block → BlockDefinition
  | builtin b => b.definition
  | script s => s.definition

def process (id : BlockId) : Block → Program Block
  | builtin b => b.process builtin id
  | script s => s.process script id

instance : Behaviour Block := ⟨typeName, definition, process⟩

end Block

end Patchbay
