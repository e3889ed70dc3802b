import Patchbay.Graph.Saving

/-! The command line: `run` loads a document and runs it, showing alerts as lines of output, and
`types` lists the block types that a document may use. -/

namespace Patchbay

inductive Command where
  | run (file : String) (maxRounds : Option Nat) (traceValues : Bool)
  | types
  | version
deriving DecidableEq

/-- What a command leaves: an exit code and the texts of both outputs. -/
structure Exit where
  code : Nat
  output : String
  errors : String
deriving DecidableEq

namespace Command

/-! Arguments -/

/-- A count: digits, perhaps after a plus sign, within a machine word. -/
def count? (text : String) : Option Nat :=
  let digits := match text.toList with
    | '+' :: rest => rest
    | cs => cs
  if digits.isEmpty || !digits.all Char.isDigit then none
  else
    let n : Nat := digits.foldl (fun n c => n * 10 + Json.digitValue c) 0
    if n < unsignedLimit.toNat then some n else none

structure RunArguments where
  file : Option String
  maxRounds : Option Nat
  traceValues : Bool
  /-- Whether all options have been given. -/
  onlyFiles : Bool

namespace RunArguments

def setMaxRounds (a : RunArguments) (text : String) : Option RunArguments :=
  match a.maxRounds, count? text with
  | none, some n => some { a with maxRounds := some n }
  | _, _ => none

def setFile (a : RunArguments) (text : String) : Option RunArguments :=
  match a.file with
  | none => if text.isEmpty then none else some { a with file := some text }
  | some _ => none

def setTraceValues (a : RunArguments) : Option RunArguments :=
  if a.traceValues then none else some { a with traceValues := true }

end RunArguments

def maxRoundsOption : List Char := "--max-rounds".toList

/-- The value of an argument of the form `--max-rounds=value`. -/
def maxRoundsValue? (text : String) : Option String :=
  let cs := text.toList
  if cs.take maxRoundsOption.length = maxRoundsOption then
    match cs.drop maxRoundsOption.length with
    | '=' :: value => some (String.ofList value)
    | _ => none
  else none

def isOption (text : String) : Bool := text.toList.head? = some '-' && text ≠ "-"

/-- Arguments after `run`. Options may stand before and after the file, once each. -/
def parseRun : List String → RunArguments → Option RunArguments
  | [], a => some a
  | text :: rest, a =>
    if a.onlyFiles then a.setFile text >>= parseRun rest
    else if text = "--" then parseRun rest { a with onlyFiles := true }
    else if text = "--trace-values" then a.setTraceValues >>= parseRun rest
    else if text = "--max-rounds" then
      match rest with
      | [] => none
      | value :: rest => a.setMaxRounds value >>= parseRun rest
    else
      match maxRoundsValue? text with
      | some value => a.setMaxRounds value >>= parseRun rest
      | none => if isOption text then none else a.setFile text >>= parseRun rest

/-- A group of one-letter options: any number of `v`, or the version. -/
inductive Letters where
  | verbose
  | version
  | unknown
deriving DecidableEq

def parseLetters : List Char → Letters
  | [] => .verbose
  | 'v' :: rest => parseLetters rest
  | 'V' :: _ => .version
  | _ => .unknown

def parse : List String → Option Command
  | [] => none
  | "run" :: rest =>
    match parseRun rest ⟨none, none, false, false⟩ with
    | some ⟨some file, maxRounds, traceValues, _⟩ => some (run file maxRounds traceValues)
    | _ => none
  | "types" :: rest => if rest = [] ∨ rest = ["--"] then some types else none
  | "--version" :: _ => some version
  | "--verbose" :: rest => parse rest
  | text :: rest =>
    match text.toList with
    | '-' :: c :: letters =>
      match parseLetters (c :: letters) with
      | .verbose => parse rest
      | .version => some version
      | .unknown => none
    | _ => none

/-! Output -/

def versionText : String := "blox 0.1.0\n"

/-- The command line's block types: the built-in ones, with alerts on the console. -/
def registry : Registry Builtin :=
  (Registry.builtins id .log).registerType (Builtin.alert .console)

def padRight (width : Nat) (s : String) : String :=
  s ++ String.ofList (List.replicate (width - s.length) ' ')

def typeLine (d : BlockDefinition) : String :=
  padRight 10 d.name ++ " " ++ padRight 8 d.category.name ++ " [" ++
    ", ".intercalate d.ports.inputNames ++ "] -> [" ++ ", ".intercalate d.ports.outputNames ++
    "]  " ++ d.description ++ "\n"

/-- The line that an alert shows: a string as it is, any other value as compact text. -/
def messageLine : Value → String
  | .string s => s ++ "\n"
  | v => v.compact ++ "\n"

def consoleOutput (history : List Occurrence) : String :=
  String.join (history.reverse.map fun
    | .shown .console message => messageLine message
    | _ => "")

def indentLines (margin : String) (text : String) : String :=
  String.ofList (text.toList.flatMap fun c => if c = '\n' then '\n' :: margin.toList else [c])

def failureText (failure : String) (causes : List String) : String :=
  let lines : List String := match causes with
    | [cause] => ["    " ++ indentLines "    " cause]
    | _ => causes.zipIdx.map fun entry =>
      "    " ++ toString entry.2 ++ ": " ++ indentLines "       " entry.1
  "Error: " ++ failure ++ "\n\nCaused by:\n" ++ String.join (lines.map (· ++ "\n"))

/-! Commands -/

def load (contents : Except FileFault String) : Except LoadError (Graph Builtin) :=
  match contents with
  | .error f => .error (.file f)
  | .ok text =>
    match Document.ofText text with
    | .error e => .error (.document e)
    | .ok d =>
      match Graph.ofDocument registry d with
      | .error e _ => .error (.graph e)
      | .ok () g => .ok g

/-- The settings of the document, changed by the options, and an observer that logs. -/
def prepare (g : Graph Builtin) (maxRounds : Option Nat) (traceValues : Bool) : Graph Builtin :=
  let settings : RunSettings :=
    ⟨maxRounds.or g.settings.maxRounds, g.settings.traceValues || traceValues⟩
  { g with settings := settings }.observe (.logger settings.traceValues)

def variablesText (g : Graph Builtin) : String :=
  if g.vars.isEmpty then "" else (Value.ofDict g.vars).pretty ++ "\n"

def runFile (file : String) (contents : Except FileFault String) (maxRounds : Option Nat)
    (traceValues : Bool) (fuel : Nat) : Option Exit :=
  match load contents with
  | .error e => some ⟨1, "", failureText ("failed to load " ++ file) e.messages⟩
  | .ok g =>
    match (prepare g maxRounds traceValues).run fuel with
    | none => none
    | some (.error e g) =>
      some ⟨1, consoleOutput g.history, failureText ("run of " ++ file ++ " failed") [e.message]⟩
    | some (.ok _ g) => some ⟨0, consoleOutput g.history ++ variablesText g, ""⟩

def file? : Command → Option String
  | run file _ _ => some file
  | types => none
  | version => none

def execute (contents : Except FileFault String) (fuel : Nat) : Command → Option Exit
  | run file maxRounds traceValues => runFile file contents maxRounds traceValues fuel
  | types => some ⟨0, String.join (registry.definitions.map typeLine), ""⟩
  | version => some ⟨0, versionText, ""⟩

end Command

def Exit.usage : Exit :=
  ⟨2, "", "usage: blox [-v] run FILE [--max-rounds N] [--trace-values] | types\n"⟩

end Patchbay
