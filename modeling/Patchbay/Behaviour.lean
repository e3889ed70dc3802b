import Patchbay.Graph.Delivery
import Patchbay.Graph.Reach

/-! What blocks do. A behaviour answers, each time its block is processed, with a program: a tree of
calls on the graph, each followed by what the block does with the answer. -/

namespace Patchbay

structure View (β : Type) where
  graph : Graph β
  block : BlockId
  /-- Whether the block has asked to wait. -/
  waiting : Bool

namespace View

variable {β : Type}

def node (v : View β) : Except GraphError Node := v.graph.node v.block

def hasValue (v : View β) (port : String) : Except GraphError Bool := v.node >>= (·.hasValue port)

def peek (v : View β) (port : String) : Except GraphError (Option Value) := v.node >>= (·.peek port)

def parameter (v : View β) (name : String) : Except GraphError Value :=
  v.node >>= (·.parameter name)

def incoming (v : View β) : List BlockId := v.graph.incoming v.block

end View

/-- The calls of one turn of a block. `again` goes on with a further turn of the same invocation. -/
inductive Program (β : Type) where
  | look (next : View β → Program β)
  | pop (port : String) (next : Except GraphError (Option Value) → Program β)
  | emit (port : String) (v : Value) (next : Except GraphError Unit → Program β)
  | assign (name : String) (v : Value) (next : Program β)
  | wait (next : Program β)
  | display (screen : Screen) (message : Value) (next : Program β)
  | say (action : String) (remark : Remark) (next : Program β)
  | again (b : β)
  | finish (b : β) (result : Except GraphError Unit)

class Behaviour (β : Type) where
  typeName : β → String
  definition : β → BlockDefinition
  process : BlockId → β → Program β

inductive Turn (β : Type) where
  | again (b : β) (waiting : Bool) (g : Graph β)
  | finished (b : β) (result : Except GraphError Unit) (waiting : Bool) (g : Graph β)

def Program.run {β : Type} (id : BlockId) : Program β → Bool → Graph β → Turn β
  | look next, waiting, g => (next ⟨g, id, waiting⟩).run id waiting g
  | pop port next, waiting, g =>
    let reply := g.popValue id port
    (next reply.result).run id waiting reply.graph
  | emit port v next, waiting, g =>
    let reply := g.output id port v
    (next reply.result).run id waiting reply.graph
  | assign name v next, waiting, g => next.run id waiting (g.setVariable name v)
  | wait next, _, g => next.run id true g
  | display screen message next, waiting, g =>
    next.run id waiting (g.record (.shown screen message))
  | say action remark next, waiting, g => next.run id waiting (g.record (.said id action remark))
  | again b, waiting, g => .again b waiting g
  | finish b result, waiting, g => .finished b result waiting g

end Patchbay
