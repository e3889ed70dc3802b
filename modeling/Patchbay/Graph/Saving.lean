import Patchbay.Graph.Run
import Patchbay.Registry

/-! Graphs as documents. A graph is captured with records numbered by position; it is rebuilt in
three passes, so that a record may name subscribers that come later. -/

namespace Patchbay.Graph

variable {β : Type}

def position? (g : Graph β) (id : BlockId) : Option Nat := g.order.idxOf? id

def subscriberRecords (g : Graph β) (n : Node) (output : String) : List SubscriberRecord :=
  ((n.subscribers.list output).filterMap g.arena.get?).filterMap fun edge =>
    (g.position? edge.subscriber).map (⟨·, edge.input⟩)

def blockRecord (g : Graph β) (n : Node) (position : Nat) : BlockRecord where
  id := position
  typeName := n.typeName
  values := n.parameters
  subscribers := n.outputs.foldl (fun d output => d.setList output (g.subscriberRecords n output))
    .empty
  metadata := n.metadata

def toDocument (g : Graph β) : Document where
  version := Document.currentVersion
  blocks := g.order.zipIdx.filterMap fun (id, position) =>
    match g.node id with
    | .ok n => some (g.blockRecord n position)
    | .error _ => none
  metadata := g.metadata
  vars := g.vars
  settings := g.settings

/-- The blocks created for record numbers. -/
abbrev RecordIndex := List (Nat × BlockId)

def RecordIndex.find? (index : RecordIndex) (id : Nat) : Option BlockId :=
  (List.find? (·.1 = id) index).map (·.2)

/-- First pass: one block for each record. -/
def createBlocks [Behaviour β] (registry : Registry β) :
    List BlockRecord → RecordIndex → Graph β → Reply β RecordIndex
  | [], index, g => .ok index g
  | r :: rest, index, g =>
    match RecordIndex.find? index r.id with
    | some _ => .error (.duplicateRecord r.id) g
    | none =>
      match registry.create r.typeName with
      | .error e => .error e g
      | .ok b =>
        let (id, g) := g.add b
        createBlocks registry rest (index ++ [(r.id, id)]) g

def assignValues (id : BlockId) : List (String × Value) → Graph β → Reply β Unit
  | [], g => .ok () g
  | (name, v) :: rest, g =>
    match g.setParameter id name v with
    | .error e g => .error e g
    | .ok () g => assignValues id rest g

/-- Second pass: parameters and metadata. -/
def fillBlocks (index : RecordIndex) : List BlockRecord → Graph β → Reply β Unit
  | [], g => .ok () g
  | r :: rest, g =>
    match RecordIndex.find? index r.id with
    | none => .error (.unknownRecord r.id) g
    | some id =>
      match assignValues id r.values.entries g with
      | .error e g => .error e g
      | .ok () g =>
        fillBlocks index rest (g.updateNode id fun n => { n with metadata := r.metadata })

def publishAll (index : RecordIndex) (publisher : BlockId) :
    List (String × SubscriberRecord) → Graph β → Reply β Unit
  | [], g => .ok () g
  | (output, s) :: rest, g =>
    match RecordIndex.find? index s.block with
    | none => .error (.unknownRecord s.block) g
    | some subscriber =>
      match g.publish publisher output subscriber s.input with
      | .error e g => .error e g
      | .ok _ g => publishAll index publisher rest g

/-- Third pass: subscriptions, by record, output and place in the list. -/
def wireBlocks (index : RecordIndex) : List BlockRecord → Graph β → Reply β Unit
  | [], g => .ok () g
  | r :: rest, g =>
    match RecordIndex.find? index r.id with
    | none => .error (.unknownRecord r.id) g
    | some publisher =>
      let wires := r.subscribers.entries.flatMap fun (output, l) => l.map (output, ·)
      match publishAll index publisher wires g with
      | .error e g => .error e g
      | .ok () g => wireBlocks index rest g

/-- Rebuilds a graph. After an error the graph is what had been built so far. -/
def ofDocument [Behaviour β] (registry : Registry β) (d : Document) : Reply β Unit :=
  match createBlocks registry d.blocks [] (.new d.settings) with
  | .error e g => .error e g
  | .ok index g =>
    match fillBlocks index d.blocks g with
    | .error e g => .error e g
    | .ok () g =>
      match wireBlocks index d.blocks g with
      | .error e g => .error e g
      | .ok () g =>
        let g := { g with metadata := d.metadata, vars := d.vars }
        .ok () (g.record (.logged (.loaded g.size g.arena.size)))

end Patchbay.Graph
