import Patchbay.Activity
import Patchbay.Document
import Patchbay.Node

/-! The state of a graph. A block has a slot for its behaviour and its node; the slot of a removed
block stays empty, so a block's number is never used again. -/

namespace Patchbay

structure Entry (β : Type) where
  /-- Absent while the block is being processed. -/
  behaviour : Option β
  node : Node

structure Graph (β : Type) where
  slots : List (Option (Entry β))
  /-- The blocks in the order of adding. -/
  order : List BlockId
  arena : Arena
  /-- The blocks of the round in progress. -/
  processing : List BlockId
  /-- The blocks queued for the next round. -/
  receivers : List BlockId
  vars : Dict Value
  metadata : Dict Value
  settings : RunSettings
  observers : List Observer
  /-- Everything that happened, the newest first. -/
  history : List Occurrence

/-- What an operation answers, and the graph it leaves. -/
inductive Reply (β α : Type) where
  | ok (answer : α) (graph : Graph β)
  | error (cause : GraphError) (graph : Graph β)

namespace Reply

variable {β α : Type}

def graph : Reply β α → Graph β
  | ok _ g => g
  | error _ g => g

def result : Reply β α → Except GraphError α
  | ok a _ => .ok a
  | error e _ => .error e

end Reply

namespace Graph

variable {β α : Type}

def new (settings : RunSettings) : Graph β where
  slots := []
  order := []
  arena := .empty
  processing := []
  receivers := []
  vars := .empty
  metadata := .empty
  settings := settings
  observers := []
  history := []

def slot? (g : Graph β) (id : BlockId) : Option (Entry β) := g.slots[id.index]?.join

def contains (g : Graph β) (id : BlockId) : Bool := (g.slot? id).isSome

def size (g : Graph β) : Nat := g.order.length

def node (g : Graph β) (id : BlockId) : Except GraphError Node :=
  match g.slot? id with
  | some e => .ok e.node
  | none => .error (.unknownBlock id)

/-- The behaviour of a block, unless it is being processed. -/
def behaviour? (g : Graph β) (id : BlockId) : Option β := (g.slot? id).bind Entry.behaviour

def updateEntry (g : Graph β) (id : BlockId) (f : Entry β → Entry β) : Graph β :=
  { g with slots := g.slots.modify id.index (Option.map f) }

def setBehaviour (g : Graph β) (id : BlockId) (b : Option β) : Graph β :=
  g.updateEntry id fun e => { e with behaviour := b }

def updateNode (g : Graph β) (id : BlockId) (f : Node → Node) : Graph β :=
  g.updateEntry id fun e => { e with node := f e.node }

def editNode (g : Graph β) (id : BlockId) (f : Node → Except GraphError (α × Node)) :
    Reply β α :=
  match g.node id >>= f with
  | .ok (a, n) => .ok a (g.updateNode id fun _ => n)
  | .error e => .error e g

def record (g : Graph β) (o : Occurrence) : Graph β := { g with history := o :: g.history }

def notify (g : Graph β) (a : Activity) : Graph β := g.record (.observed g.observers a)

def observe (g : Graph β) (o : Observer) : Graph β := { g with observers := g.observers ++ [o] }

/-! Parameters, buffers and variables -/

def setParameter (g : Graph β) (id : BlockId) (name : String) (v : Value) : Reply β Unit :=
  g.editNode id fun n => (n.setParameter name v).map ((), ·)

def pushValue (g : Graph β) (id : BlockId) (port : String) (v : Value) : Reply β Unit :=
  g.editNode id fun n => (n.push port v).map ((), ·)

def popValue (g : Graph β) (id : BlockId) (port : String) : Reply β (Option Value) :=
  g.editNode id fun n => n.pop port

def clearBlock (g : Graph β) (id : BlockId) : Reply β Unit :=
  g.editNode id fun n => .ok ((), n.clearBuffers)

def clearBuffers (g : Graph β) : Graph β :=
  { g with slots := g.slots.map (Option.map fun e => { e with node := e.node.clearBuffers }) }

def variableValue? (g : Graph β) (name : String) : Option Value := g.vars.find? name

def setVariable (g : Graph β) (name : String) (v : Value) : Graph β :=
  { g with vars := g.vars.insert name v }

end Graph

end Patchbay
