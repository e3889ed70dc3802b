import Patchbay.Graph.Basic

/-! Subscribing and unsubscribing. An edge stands in the arena and in the lists of both its ends;
every operation here changes all three together. -/

namespace Patchbay.Graph

variable {β : Type}

def checkInput (g : Graph β) (id : BlockId) (port : String) : Except GraphError Unit :=
  g.node id >>= (·.checkInput port)

def checkOutput (g : Graph β) (id : BlockId) (port : String) : Except GraphError Unit :=
  g.node id >>= (·.checkOutput port)

/-- Whether both ends of an edge exist; the subscriber's end is looked at first. -/
def checkEdge (g : Graph β) (edge : Edge) : Except GraphError Unit := do
  g.checkInput edge.subscriber edge.input
  g.checkOutput edge.publisher edge.output

/-- Enters a subscription in the lists of both its ends. -/
def attach (g : Graph β) (id : SubscriptionId) (edge : Edge) : Reply β Unit :=
  match g.editNode edge.subscriber fun n => .ok ((), n.attachSubscription edge.input id) with
  | .error e g => .error e g
  | .ok () g => g.editNode edge.publisher fun n => .ok ((), n.attachSubscriber edge.output id)

/-- Feeds `input` of the subscriber from `output` of the publisher. An edge that exists keeps its
subscription. -/
def subscribe (g : Graph β) (subscriber : BlockId) (input : String) (publisher : BlockId)
    (output : String) : Reply β SubscriptionId :=
  let edge : Edge := ⟨publisher, output, subscriber, input⟩
  match g.checkEdge edge with
  | .error e => .error e g
  | .ok () =>
    match g.arena.find? edge with
    | some id => .ok id g
    | none =>
      let id := g.arena.nextId
      match ({ g with arena := g.arena.add edge } : Graph β).attach id edge with
      | .error e g => .error e g
      | .ok () g => .ok id (g.record (.logged (.subscribed edge)))

/-- `subscribe`, named from the publisher's side. -/
def publish (g : Graph β) (publisher : BlockId) (output : String) (subscriber : BlockId)
    (input : String) : Reply β SubscriptionId :=
  g.subscribe subscriber input publisher output

def disconnect (g : Graph β) (id : SubscriptionId) (edge : Edge) : Graph β :=
  let g := { g with arena := g.arena.erase id edge }
  let g := g.updateNode edge.publisher (·.detachSubscriber edge.output id)
  g.updateNode edge.subscriber (·.detachSubscription edge.input id)

def removeSubscription (g : Graph β) (id : SubscriptionId) : Option Edge × Graph β :=
  match g.arena.get? id with
  | none => (none, g)
  | some edge => (some edge, (g.disconnect id edge).record (.logged (.unsubscribed edge)))

def removeSubscriptions (g : Graph β) (ids : List SubscriptionId) : Graph β :=
  ids.foldl (fun g id => (g.removeSubscription id).2) g

def subscriptionMatches (g : Graph β) (publisher : Option BlockId) (output : Option String)
    (id : SubscriptionId) : Bool :=
  (g.arena.get? id).any (·.matches? publisher output)

/-- Removes what feeds an input, only from the publisher and output that are given; answers how
many subscriptions that were. -/
def unsubscribe (g : Graph β) (id : BlockId) (input : String) (publisher : Option BlockId)
    (output : Option String) : Reply β Nat :=
  match g.node id with
  | .error e => .error e g
  | .ok n =>
    match n.checkInput input with
    | .error e => .error e g
    | .ok () =>
      let doomed := (n.subscriptions.list input).filter (g.subscriptionMatches publisher output)
      .ok doomed.length (g.removeSubscriptions doomed)

def isSubscriber (g : Graph β) (id : BlockId) (publisher : Option BlockId)
    (output : Option String) : Except GraphError Bool := do
  let n ← g.node id
  return n.inputs.any fun input =>
    (n.subscriptions.list input).any (g.subscriptionMatches publisher output)

/-- Removes a block and every subscription at either side of it; answers its behaviour. -/
def remove (g : Graph β) (id : BlockId) : Reply β β :=
  match g.node id with
  | .error e => .error e g
  | .ok n =>
    let g := g.removeSubscriptions n.edges
    match g.slot? id with
    | none => .error (.unknownBlock id) g
    | some e =>
      let g := { g with
        slots := g.slots.set id.index none
        order := g.order.filter (· ≠ id)
        processing := g.processing.filter (· ≠ id)
        receivers := g.receivers.filter (· ≠ id) }
      match e.behaviour with
      | some b => .ok b g
      | none => .error (.unknownBlock id) g

end Patchbay.Graph
