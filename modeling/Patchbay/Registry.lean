import Patchbay.Blocks.Block
import Patchbay.Dict

/-! Registries of block types. A document names its blocks by type only, so rebuilding a graph takes
a registry that creates them. -/

namespace Patchbay

structure RegistryEntry (β : Type) where
  /-- What every block created is a copy of. -/
  prototype : β
  definition : BlockDefinition

structure Registry (β : Type) where
  entries : Dict (RegistryEntry β)

namespace Registry

variable {β : Type}

def empty : Registry β := ⟨.empty⟩

/-- Registers blocks like `b` under a name, replacing an earlier entry. The name need not be that
of the definition. -/
def register [Behaviour β] (r : Registry β) (name : String) (b : β) : Registry β :=
  ⟨r.entries.insert name ⟨b, Behaviour.definition b⟩⟩

def registerType [Behaviour β] (r : Registry β) (b : β) : Registry β :=
  r.register (Behaviour.typeName b) b

def create (r : Registry β) (name : String) : Except GraphError β :=
  match r.entries.find? name with
  | some e => .ok e.prototype
  | none => .error (.unknownBlockType name)

def contains (r : Registry β) (name : String) : Bool := r.entries.contains name

def definition? (r : Registry β) (name : String) : Option BlockDefinition :=
  (r.entries.find? name).map RegistryEntry.definition

def definitions (r : Registry β) : List BlockDefinition :=
  r.entries.values.map RegistryEntry.definition

def typeNames (r : Registry β) : List String := r.entries.keys

/-- The built-in types, with alerts that show their messages on `screen`. -/
def builtins [Behaviour β] (wrap : Builtin → β) (screen : Screen) : Registry β :=
  [Builtin.forward, .source .null, .sum, .alert screen, .compare].foldl
    (fun r b => r.registerType (wrap b)) empty

end Registry

end Patchbay
