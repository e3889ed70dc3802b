import Patchbay.Behaviour

/-! Scripted blocks. A script is a list of actions that its block performs, in order, each time it
is processed; the first error ends it. -/

namespace Patchbay

inductive ScriptAction where
  | pop (port : String)
  | peek (port : String)
  | has (port : String)
  | parameter (name : String)
  | emit (port : String) (v : Value)
  | emitLast (port : String)
  | drain (input output : String)
  | assign (name : String) (v : Value)
  | assignLast (name : String)
  | variable (name : String)
  | wait
  | waitRuns (count : Nat)
  | waitIfIncoming
  | waiting
  | incoming
  | graph
  | fail (reason : String)
  | idle
deriving DecidableEq

/-- Where a script stands between two turns of one invocation. -/
structure ScriptProgress where
  rest : List ScriptAction
  last : Option Value
deriving DecidableEq

structure Script where
  definition : BlockDefinition
  actions : List ScriptAction
  /-- How often the block has been processed. -/
  runs : Nat
  progress : Option ScriptProgress
deriving DecidableEq

namespace Script

def new (definition : BlockDefinition) (actions : List ScriptAction) : Script :=
  ⟨definition, actions, 0, none⟩

def typeName (s : Script) : String := s.definition.name

section

variable {β : Type} (wrap : Script → β) (id : BlockId)

def overview (view : View β) : Except GraphError Overview := do
  let n ← view.node
  return ⟨view.graph.size, view.graph.processing, view.graph.receivers,
    (view.graph.behaviour? id).isSome, n.typeName⟩

/-- Performs actions; `last` is the value remembered from an earlier one. -/
def perform (s : Script) : List ScriptAction → Option Value → Program β
  | [], _ => .finish (wrap s) (.ok ())
  | .pop port :: rest, _ =>
    .pop port fun
      | .error e => .finish (wrap s) (.error e)
      | .ok v => .say "pop" (.value v) (perform s rest v)
  | .peek port :: rest, last =>
    .look fun view =>
      match view.peek port with
      | .error e => .finish (wrap s) (.error e)
      | .ok v => .say "peek" (.value v) (perform s rest last)
  | .has port :: rest, last =>
    .look fun view =>
      match view.hasValue port with
      | .error e => .finish (wrap s) (.error e)
      | .ok b => .say "has" (.flag b) (perform s rest last)
  | .parameter name :: rest, _ =>
    .look fun view =>
      match view.parameter name with
      | .error e => .finish (wrap s) (.error e)
      | .ok v => .say "param" (.value (some v)) (perform s rest (some v))
  | .emit port v :: rest, last =>
    .emit port v fun
      | .error e => .finish (wrap s) (.error e)
      | .ok () => perform s rest last
  | .emitLast port :: rest, last =>
    match last with
    | none => perform s rest last
    | some v =>
      .emit port v fun
        | .error e => .finish (wrap s) (.error e)
        | .ok () => perform s rest last
  | .drain input output :: rest, last =>
    .pop input fun
      | .error e => .finish (wrap s) (.error e)
      | .ok none => perform s rest last
      | .ok (some v) =>
        .emit output v fun
          | .error e => .finish (wrap s) (.error e)
          | .ok () => .again (wrap { s with progress := some ⟨.drain input output :: rest, last⟩ })
  | .assign name v :: rest, last => .assign name v (perform s rest last)
  | .assignLast name :: rest, last =>
    match last with
    | none => perform s rest last
    | some v => .assign name v (perform s rest last)
  | .variable name :: rest, _ =>
    .look fun view =>
      let v := view.graph.variableValue? name
      .say "var" (.value v) (perform s rest v)
  | .wait :: rest, last => .wait (perform s rest last)
  | .waitRuns count :: rest, last =>
    if s.runs ≤ count then .wait (perform s rest last) else perform s rest last
  | .waitIfIncoming :: rest, last =>
    .look fun view =>
      if view.incoming.isEmpty then perform s rest last else .wait (perform s rest last)
  | .waiting :: rest, last =>
    .look fun view => .say "waiting" (.flag view.waiting) (perform s rest last)
  | .incoming :: rest, last =>
    .look fun view => .say "incoming" (.blocks view.incoming) (perform s rest last)
  | .graph :: rest, last =>
    .look fun view =>
      match overview id view with
      | .error e => .finish (wrap s) (.error e)
      | .ok o => .say "graph" (.overview o) (perform s rest last)
  | .fail reason :: _, _ => .finish (wrap s) (.error (.unsuitableValue id reason))
  | .idle :: rest, last => perform s rest last

/-- What a scripted block does, as a block `wrap self` of a larger type of blocks. -/
def process (self : Script) : Program β :=
  match self.progress with
  | none => perform wrap id { self with runs := self.runs + 1 } self.actions none
  | some p => perform wrap id { self with progress := none } p.rest p.last

end

instance : Behaviour Script := ⟨typeName, definition, process (fun s => s)⟩

end Script

end Patchbay
