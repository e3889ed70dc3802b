import Patchbay.Behaviour

/-! The built-in blocks: one that forwards, a source of a fixed value, a sum, an alert, and a
comparison that sorts values to three outputs. -/

namespace Patchbay

inductive Builtin where
  | forward
  | source (initial : Value)
  | sum
  | alert (screen : Screen)
  | compare
deriving DecidableEq

namespace Builtin

/-! Port and parameter names -/

def dataName : String := "Data"

def valuesInput : String := "Values"

def resultOutput : String := "Result"

def messageInput : String := "Message"

def compareInput : String := "Compare to"

def lessOutput : String := "Less than"

def equalOutput : String := "Equal to"

def greaterOutput : String := "Greater than"

def definition : Builtin → BlockDefinition
  | forward => ⟨"Block", "Forwards its input unchanged", .general, .empty, .standard⟩
  | source initial =>
    ⟨"Data", "Outputs a fixed value", .sources,
      Dict.empty.insert dataName (.any "Value to output" initial), .ofNames [] [dataName]⟩
  | sum =>
    ⟨"Add", "Adds its inputs together", .math, .empty, .ofNames [valuesInput] [resultOutput]⟩
  | alert _ => ⟨"Alert", "Shows a message", .output, .empty, .ofNames [messageInput] []⟩
  | compare =>
    ⟨"Compare", "Routes values by comparing them with a second input", .logic, .empty,
      .ofNames [valuesInput, compareInput] [lessOutput, equalOutput, greaterOutput]⟩

def typeName (b : Builtin) : String := b.definition.name

/-! Programs, ending in a block `b` of any type that has the built-in ones -/

section

variable {β : Type} (b : β)

def done : Program β := .finish b (.ok ())

def fail (e : GraphError) : Program β := .finish b (.error e)

def forwardProgram : Program β :=
  .pop defaultInput fun
    | .error e => fail b e
    | .ok none => done b
    | .ok (some v) => .emit defaultOutput v (.finish b)

def sourceProgram : Program β :=
  .look fun view =>
    match view.parameter dataName with
    | .error e => fail b e
    | .ok v => .emit dataName v (.finish b)

/-- Adds up to `count` further values to the total, the newest first, and emits it. -/
def sumRest (id : BlockId) : Nat → Value → Program β
  | 0, total => .emit resultOutput total (.finish b)
  | count + 1, total =>
    .pop valuesInput fun
      | .error e => fail b e
      | .ok none => .emit resultOutput total (.finish b)
      | .ok (some v) =>
        match total.add? v with
        | some total => sumRest id count total
        | none =>
          fail b (.unsuitableValue id ("cannot add " ++ total.compact ++ " and " ++ v.compact))

def sumProgram (id : BlockId) : Program β :=
  .pop valuesInput fun
    | .error e => fail b e
    | .ok none => done b
    | .ok (some total) =>
      .look fun view =>
        match view.node with
        | .error e => fail b e
        | .ok n => sumRest b id (n.buffers.list valuesInput).length total

def alertProgram (screen : Screen) : Program β :=
  .pop messageInput fun
    | .error e => fail b e
    | .ok none => done b
    | .ok (some message) => .display screen message (done b)

/-- The output of a value by its order to the value it is compared with. Values without an order
count as equal. -/
def route (v other : Value) : String :=
  match v.order? other with
  | some .lt => lessOutput
  | some .gt => greaterOutput
  | _ => equalOutput

def bothWaiting (view : View β) : Except GraphError Bool := do
  if ← view.hasValue valuesInput then view.hasValue compareInput else return false

def anyWaiting (view : View β) : Except GraphError Bool := do
  if ← view.hasValue valuesInput then return true else view.hasValue compareInput

/-- Values without a partner wait as long as something can still arrive. -/
def compareRest : Program β :=
  .look fun view =>
    match anyWaiting view with
    | .error e => fail b e
    | .ok unmatched =>
      if unmatched && !view.incoming.isEmpty then .wait (done b) else done b

/-- Pairs one value of each input, the newest first, and takes another turn. -/
def compareProgram : Program β :=
  .look fun view =>
    match bothWaiting view with
    | .error e => fail b e
    | .ok false => compareRest b
    | .ok true =>
      .pop valuesInput fun
        | .error e => fail b e
        | .ok v? =>
          .pop compareInput fun
            | .error e => fail b e
            | .ok other? =>
              match v?, other? with
              | some v, some other =>
                .emit (route v other) v fun
                  | .error e => fail b e
                  | .ok () => .again b
              | _, _ => compareRest b

end

/-- What a built-in block does, as a block `wrap self` of a larger type of blocks. -/
def process {β : Type} (wrap : Builtin → β) (id : BlockId) (self : Builtin) : Program β :=
  match self with
  | forward => forwardProgram (wrap self)
  | source _ => sourceProgram (wrap self)
  | sum => sumProgram (wrap self) id
  | alert screen => alertProgram (wrap self) screen
  | compare => compareProgram (wrap self)

instance : Behaviour Builtin := ⟨typeName, definition, process id⟩

end Builtin

end Patchbay
