import Patchbay.Behaviour

/-! Running a graph in rounds. A run starts with the blocks that nothing feeds; a round processes
the queued blocks once each, and queues those that receive a value or ask to wait. The run ends with
a round that queues nothing.

A block may take turns for ever, and so may a run, so both have an amount of fuel; an answer that
needs more is `none`. -/

namespace Patchbay.Graph

variable {β : Type} [Behaviour β]

def add (g : Graph β) (b : β) : BlockId × Graph β :=
  let id : BlockId := ⟨g.slots.length⟩
  let node := Node.ofDefinition id (Behaviour.definition b)
  (id, { g with slots := g.slots ++ [some ⟨some b, node⟩], order := g.order ++ [id] })

def takeTurns (id : BlockId) :
    Nat → β → Bool → Graph β → Option (β × Except GraphError Unit × Bool × Graph β)
  | 0, _, _, _ => none
  | fuel + 1, b, waiting, g =>
    match (Behaviour.process id b).run id waiting g with
    | .again b waiting g => takeTurns id fuel b waiting g
    | .finished b result waiting g => some (b, result, waiting, g)

/-- Processes a block, whose behaviour is absent meanwhile; answers whether it asked to wait. -/
def invoke (g : Graph β) (fuel : Nat) (id : BlockId) : Option (Reply β Bool) :=
  match g.behaviour? id with
  | none => some (.error (.unknownBlock id) g)
  | some b =>
    match takeTurns id fuel b false (g.setBehaviour id none) with
    | none => none
    | some (b, .ok (), waiting, g) => some (.ok waiting (g.setBehaviour id (some b)))
    | some (b, .error e, _, g) => some (.error e (g.setBehaviour id (some b)))

/-- After its invocation a block that waits is queued again; any other loses what it left. -/
def endTurn (g : Graph β) (id : BlockId) (waiting : Bool) : Reply β Unit :=
  if waiting then .ok () (g.queue id) else g.clearBlock id

/-- Invokes blocks in turn up to the first error; answers how many there were. -/
def runRound (fuel : Nat) : List BlockId → Graph β → Option (Reply β Nat)
  | [], g => some (.ok 0 g)
  | id :: rest, g =>
    match g.invoke fuel id with
    | none => none
    | some (.error e g) => some (.error e g)
    | some (.ok waiting g) =>
      match g.endTurn id waiting with
      | .error e g => some (.error e g)
      | .ok () g =>
        match runRound fuel rest g with
        | none => none
        | some (.error e g) => some (.error e g)
        | some (.ok count g) => some (.ok (count + 1) g)

def startRound (g : Graph β) (round : Nat) : Graph β :=
  { g with processing := g.receivers, receivers := [] }.notify (.roundStarted round g.receivers)

def runRounds (fuel : Nat) : Nat → RunReport → Graph β → Option (RunReport × Reply β Unit)
  | 0, _, _ => none
  | rounds + 1, report, g =>
    if g.receivers.isEmpty then some (report, .ok () g)
    else if g.settings.maxRounds.any (· ≤ report.rounds) then
      some (report, .error (.notConverged report.rounds) g)
    else
      let report := { report with rounds := report.rounds + 1 }
      let g := g.startRound report.rounds
      match runRound fuel g.processing g with
      | none => none
      | some (.error e g) => some (report, .error e g)
      | some (.ok count g) =>
        runRounds fuel rounds { report with processed := report.processed + count } g

/-- The blocks that nothing feeds, in the order of adding. -/
def roots (g : Graph β) : List BlockId :=
  g.order.filter fun id =>
    match g.node id with
    | .ok n => !n.isFed
    | .error _ => false

/-- A run starts without variables and buffered values. -/
def startRun (g : Graph β) : Graph β :=
  { g with vars := .empty, receivers := g.roots }.clearBuffers

/-- An aborted run leaves nothing buffered or queued. -/
def abortRun (g : Graph β) (report : RunReport) (e : GraphError) : Graph β :=
  ({ g with receivers := [] }.clearBuffers).record
    (.logged (.runAborted e.block? report.rounds e))

def run (g : Graph β) (fuel : Nat) : Option (Reply β RunReport) :=
  match runRounds fuel fuel ⟨0, 0⟩ g.startRun with
  | none => none
  | some (report, .ok () g) =>
    some (.ok report ({ g with processing := [] }.notify (.runFinished report)))
  | some (report, .error e g) =>
    some (.error e ({ g with processing := [] }.abortRun report e))

/-- Processes one block outside of a run; answers whether it asked to wait. What it reached is
not queued, and without waiting it loses what it left. -/
def processBlock (g : Graph β) (fuel : Nat) (id : BlockId) : Option (Reply β Bool) :=
  match g.invoke fuel id with
  | none => none
  | some (.error e g) => some (.error e { g with receivers := [] })
  | some (.ok waiting g) =>
    let g := { g with receivers := [] }
    if waiting then some (.ok waiting g)
    else
      match g.clearBlock id with
      | .error e g => some (.error e g)
      | .ok () g => some (.ok waiting g)

end Patchbay.Graph
