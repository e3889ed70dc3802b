import Patchbay.Error
import Patchbay.Json.Printer

/-! What happens in a graph, and who is told. Every occurrence is kept in order: what observers
saw, what the graph logged, what alerts showed and what scripted blocks said. -/

namespace Patchbay

structure RunReport where
  rounds : Nat
  processed : Nat
deriving DecidableEq

/-- What observers of a graph are told. -/
inductive Activity where
  | roundStarted (round : Nat) (blocks : List BlockId)
  | emitted (block : BlockId) (port : String) (value : Value)
  | received (block : BlockId) (edge : Edge) (value : Value)
  | runFinished (report : RunReport)
deriving DecidableEq

/-- A recorder keeps what it sees under its number, a logger writes log lines. -/
inductive Observer where
  | recorder (number : Nat)
  | logger (withValues : Bool)
  | silent
deriving DecidableEq

inductive Notice where
  | subscribed (edge : Edge)
  | unsubscribed (edge : Edge)
  | runAborted (block : Option BlockId) (rounds : Nat) (error : GraphError)
  | loaded (blocks : Nat) (subscriptions : Nat)
deriving DecidableEq

inductive Screen where
  | log
  | record
  | console
deriving DecidableEq

/-- What a block sees of the graph and of itself while it is processed. -/
structure Overview where
  size : Nat
  processing : List BlockId
  receivers : List BlockId
  present : Bool
  typeName : String
deriving DecidableEq

inductive Remark where
  | value (v : Option Value)
  | flag (b : Bool)
  | blocks (ids : List BlockId)
  | overview (o : Overview)
deriving DecidableEq

inductive Occurrence where
  /-- An activity, and the observers told of it in the order of registration. -/
  | observed (observers : List Observer) (activity : Activity)
  | logged (notice : Notice)
  | shown (screen : Screen) (message : Value)
  | said (block : BlockId) (action : String) (remark : Remark)
deriving DecidableEq

/-! Log lines -/

inductive LogLevel where
  | trace
  | debug
  | info
  | warn
deriving DecidableEq

def LogLevel.name : LogLevel → String
  | trace => "TRACE"
  | debug => "DEBUG"
  | info => "INFO"
  | warn => "WARN"

/-- The fields stand in order, the text of the line first. -/
structure LogLine where
  level : LogLevel
  target : String
  fields : List (String × String)
deriving DecidableEq

def logLine (level : LogLevel) (target message : String) (fields : List (String × String)) :
    LogLine :=
  ⟨level, target, ("message", message) :: fields⟩

def graphTarget : String := "blox_core::graph"

def observerTarget : String := "blox_core::observer"

def persistenceTarget : String := "blox_core::persistence"

def alertTarget : String := "blox::alert"

def BlockId.debugText (b : BlockId) : String := "BlockId(" ++ toString b.index ++ ")"

def debugBlock : Option BlockId → String
  | some b => "Some(" ++ b.debugText ++ ")"
  | none => "None"

def Activity.logLine (withValues : Bool) (a : Activity) : LogLine :=
  let value (v : Value) := if withValues then [("value", v.compact)] else []
  match a with
  | roundStarted round blocks =>
    Patchbay.logLine .debug observerTarget "round started"
      [("round", toString round), ("blocks", toString blocks.length)]
  | emitted block port v =>
    Patchbay.logLine .trace observerTarget "output"
      ([("block", block.label), ("port", port)] ++ value v)
  | received block edge v =>
    Patchbay.logLine .trace observerTarget "input"
      ([("block", block.label), ("edge", edge.label)] ++ value v)
  | runFinished report =>
    Patchbay.logLine .debug observerTarget "run finished"
      [("rounds", toString report.rounds), ("processed", toString report.processed)]

def Notice.logLine : Notice → LogLine
  | subscribed edge =>
    Patchbay.logLine .trace graphTarget "subscribed"
      [("publisher", edge.publisher.label), ("output", edge.output),
        ("subscriber", edge.subscriber.label), ("input", edge.input)]
  | unsubscribed edge =>
    Patchbay.logLine .trace graphTarget "unsubscribed" [("edge", edge.label)]
  | runAborted block rounds error =>
    Patchbay.logLine .warn graphTarget "run aborted"
      [("block", debugBlock block), ("rounds", toString rounds), ("error", error.message)]
  | loaded blocks subscriptions =>
    Patchbay.logLine .debug persistenceTarget "graph loaded"
      [("blocks", toString blocks), ("subscriptions", toString subscriptions)]

def Observer.logLine? (a : Activity) : Observer → Option LogLine
  | logger withValues => some (a.logLine withValues)
  | recorder _ => none
  | silent => none

def Occurrence.logLines : Occurrence → List LogLine
  | observed observers activity => observers.filterMap (Observer.logLine? activity)
  | logged notice => [notice.logLine]
  | shown .log message =>
    [Patchbay.logLine .info alertTarget "alert" [("message", message.compact)]]
  | shown _ _ => []
  | said _ _ _ => []

end Patchbay
