import Patchbay.Graph.Wiring

/-! Emitting values: a value goes to every subscriber of an output at once, in the order of
subscribing, and queues each of them for the next round. -/

namespace Patchbay.Graph

variable {β : Type}

/-- Queues a block for the next round, unless it is queued already. -/
def queue (g : Graph β) (id : BlockId) : Graph β :=
  if g.receivers.contains id then g else { g with receivers := g.receivers ++ [id] }

def input (g : Graph β) (id : BlockId) (subscription : SubscriptionId) (v : Value) :
    Reply β Unit :=
  match g.arena.get? subscription with
  | none => .error (.unknownSubscription subscription) g
  | some edge =>
    if edge.subscriber ≠ id then .error (.subscriberMismatch id subscription edge.subscriber) g
    else
      match g.checkInput id edge.input with
      | .error e => .error e g
      | .ok () => ((g.notify (.received id edge v)).queue id).pushValue id edge.input v

def deliver (v : Value) : List SubscriptionId → Graph β → Reply β Unit
  | [], g => .ok () g
  | id :: rest, g =>
    match g.arena.get? id with
    | none => .error (.unknownSubscription id) g
    | some edge =>
      match g.input edge.subscriber id v with
      | .error e g => .error e g
      | .ok () g => deliver v rest g

def output (g : Graph β) (id : BlockId) (port : String) (v : Value) : Reply β Unit :=
  match g.node id with
  | .error e => .error e g
  | .ok n =>
    match n.checkOutput port with
    | .error e => .error e g
    | .ok () => deliver v (n.subscribers.list port) (g.notify (.emitted id port v))

end Patchbay.Graph
