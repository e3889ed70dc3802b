import Patchbay.Definition
import Patchbay.Error

/-! The state that a graph keeps for a block: its ports, parameters, buffered values and wiring.
A buffer is a stack: the value pushed last is the first one popped. -/

namespace Patchbay

structure Node where
  id : BlockId
  typeName : String
  inputs : List String
  outputs : List String
  parameters : Dict Value
  /-- Values that wait on each input, the newest first. -/
  buffers : Dict (List Value)
  /-- What feeds each input, in the order of subscribing. -/
  subscriptions : Dict (List SubscriptionId)
  /-- What each output feeds, in the order of subscribing. -/
  subscribers : Dict (List SubscriptionId)
  metadata : Dict Value

namespace Node

/-- Leaves out repetitions after the first occurrence. -/
def distinct : List String → List String
  | [] => []
  | name :: rest => name :: (distinct rest).filter (· ≠ name)

def ofDefinition (id : BlockId) (d : BlockDefinition) : Node where
  id := id
  typeName := d.name
  inputs := distinct d.ports.inputNames
  outputs := distinct d.ports.outputNames
  parameters := d.initialValues
  buffers := .empty
  subscriptions := .empty
  subscribers := .empty
  metadata := .empty

def hasInput (n : Node) (port : String) : Bool := n.inputs.contains port

def hasOutput (n : Node) (port : String) : Bool := n.outputs.contains port

def checkInput (n : Node) (port : String) : Except GraphError Unit :=
  if n.hasInput port then .ok () else .error (.invalidPort n.id port .input)

def checkOutput (n : Node) (port : String) : Except GraphError Unit :=
  if n.hasOutput port then .ok () else .error (.invalidPort n.id port .output)

/-! Buffers -/

/-- Values on an input, the oldest first. -/
def buffered (n : Node) (port : String) : Except GraphError (List Value) := do
  n.checkInput port
  return (n.buffers.list port).reverse

def hasValue (n : Node) (port : String) : Except GraphError Bool := do
  n.checkInput port
  return !(n.buffers.list port).isEmpty

def peek (n : Node) (port : String) : Except GraphError (Option Value) := do
  n.checkInput port
  return (n.buffers.list port).head?

def pop (n : Node) (port : String) : Except GraphError (Option Value × Node) := do
  n.checkInput port
  let stack := n.buffers.list port
  return (stack.head?, { n with buffers := n.buffers.setList port stack.tail })

def store (n : Node) (port : String) (v : Value) : Node :=
  { n with buffers := n.buffers.setList port (v :: n.buffers.list port) }

def push (n : Node) (port : String) (v : Value) : Except GraphError Node := do
  n.checkInput port
  return n.store port v

def clearBuffers (n : Node) : Node := { n with buffers := .empty }

/-! Parameters -/

def parameter (n : Node) (name : String) : Except GraphError Value :=
  match n.parameters.find? name with
  | some v => .ok v
  | none => .error (.invalidParameter n.id name)

def setParameter (n : Node) (name : String) (v : Value) : Except GraphError Node :=
  if n.parameters.contains name then .ok { n with parameters := n.parameters.insert name v }
  else .error (.invalidParameter n.id name)

/-! Wiring -/

def isFed (n : Node) : Bool := n.subscriptions.values.any fun ids => !ids.isEmpty

/-- The subscriptions at either side of this block, by number. -/
def edges (n : Node) : List SubscriptionId :=
  ((n.subscriptions.values ++ n.subscribers.values).flatten.mergeSort
    (fun a b => a.number ≤ b.number)).eraseDups

def attachSubscription (n : Node) (input : String) (id : SubscriptionId) : Node :=
  { n with subscriptions := n.subscriptions.setList input (n.subscriptions.list input ++ [id]) }

def attachSubscriber (n : Node) (output : String) (id : SubscriptionId) : Node :=
  { n with subscribers := n.subscribers.setList output (n.subscribers.list output ++ [id]) }

def detachSubscription (n : Node) (input : String) (id : SubscriptionId) : Node :=
  { n with
    subscriptions := n.subscriptions.setList input ((n.subscriptions.list input).filter (· ≠ id)) }

def detachSubscriber (n : Node) (output : String) (id : SubscriptionId) : Node :=
  { n with
    subscribers := n.subscribers.setList output ((n.subscribers.list output).filter (· ≠ id)) }

end Node

end Patchbay
