import Patchbay.Definition
import Patchbay.Json.Printer

/-! Saved graphs. A document lists its blocks as records; a record names its block type and the
subscribers of each output by the numbers of their records. -/

namespace Patchbay

/-- A count as a value; one beyond a machine word has none. -/
def Value.ofNat (n : Nat) : Value := (Number.ofNat? n).elim .null .number

/-- One subscriber of an output: the number of its record and its input port. -/
structure SubscriberRecord where
  block : Nat
  input : String
deriving DecidableEq

namespace SubscriberRecord

structure Draft where
  block : Option Nat
  input : Option String

def schema : Json.Schema Draft SubscriberRecord where
  name := "SubscriberRecord"
  fields := [
    Json.Field.make "block" true Draft.block (fun d a => { d with block := some a })
      Json.decodeNat,
    Json.Field.make "input" true Draft.input (fun d a => { d with input := some a })
      Json.decodeString]
  start := ⟨none, none⟩
  finish d := do
    let block ← Json.requireField "block" d.block
    let input ← Json.requireField "input" d.input
    return ⟨block, input⟩

def toValue (r : SubscriberRecord) : Value :=
  .object [("block", .ofNat r.block), ("input", .string r.input)]

end SubscriberRecord

structure BlockRecord where
  id : Nat
  typeName : String
  values : Dict Value
  subscribers : Dict (List SubscriberRecord)
  metadata : Dict Value
deriving DecidableEq

namespace BlockRecord

def new (id : Nat) (typeName : String) : BlockRecord := ⟨id, typeName, .empty, .empty, .empty⟩

def setValue (r : BlockRecord) (name : String) (v : Value) : BlockRecord :=
  { r with values := r.values.insert name v }

def setMetadata (r : BlockRecord) (name : String) (v : Value) : BlockRecord :=
  { r with metadata := r.metadata.insert name v }

def addSubscriber (r : BlockRecord) (output : String) (s : SubscriberRecord) : BlockRecord :=
  { r with subscribers := r.subscribers.insert output (r.subscribers.list output ++ [s]) }

structure Draft where
  id : Option Nat
  typeName : Option String
  values : Option (Dict Value)
  subscribers : Option (Dict (List SubscriberRecord))
  metadata : Option (Dict Value)

def schema : Json.Schema Draft BlockRecord where
  name := "BlockRecord"
  fields := [
    Json.Field.make "id" true Draft.id (fun d a => { d with id := some a }) Json.decodeNat,
    Json.Field.make "type" true Draft.typeName (fun d a => { d with typeName := some a })
      Json.decodeString,
    Json.Field.make "values" false Draft.values (fun d a => { d with values := some a })
      (Json.decodeDict Json.decodeValue),
    Json.Field.make "subscribers" false Draft.subscribers
      (fun d a => { d with subscribers := some a })
      (Json.decodeDict (Json.decodeList SubscriberRecord.schema.decode)),
    Json.Field.make "meta" false Draft.metadata (fun d a => { d with metadata := some a })
      (Json.decodeDict Json.decodeValue)]
  start := ⟨none, none, none, none, none⟩
  finish d := do
    let id ← Json.requireField "id" d.id
    let typeName ← Json.requireField "type" d.typeName
    return ⟨id, typeName, d.values.getD .empty, d.subscribers.getD .empty,
      d.metadata.getD .empty⟩

def toValue (r : BlockRecord) : Value :=
  .object [("id", .ofNat r.id), ("type", .string r.typeName), ("values", .ofDict r.values),
    ("subscribers",
      .ofDict (r.subscribers.map fun l => .array (l.map SubscriberRecord.toValue))),
    ("meta", .ofDict r.metadata)]

end BlockRecord

structure RunSettings where
  /-- A run that still has blocks to process after this many rounds is aborted. -/
  maxRounds : Option Nat
  traceValues : Bool
deriving DecidableEq

namespace RunSettings

def standard : RunSettings := ⟨none, false⟩

structure Draft where
  maxRounds : Option (Option Nat)
  traceValues : Option Bool

def schema : Json.Schema Draft RunSettings where
  name := "RunSettings"
  fields := [
    Json.Field.make "max_rounds" false Draft.maxRounds (fun d a => { d with maxRounds := some a })
      Json.decodeNat?,
    Json.Field.make "trace_values" false Draft.traceValues
      (fun d a => { d with traceValues := some a }) Json.decodeBool]
  start := ⟨none, none⟩
  finish d := return ⟨d.maxRounds.getD none, d.traceValues.getD false⟩

def toValue (s : RunSettings) : Value :=
  .object [("max_rounds", s.maxRounds.elim .null .ofNat), ("trace_values", .bool s.traceValues)]

def ofText (text : String) : Except Json.ReadError RunSettings :=
  Json.decodeText schema.decode text

end RunSettings

structure Document where
  version : String
  blocks : List BlockRecord
  metadata : Dict Value
  vars : Dict Value
  settings : RunSettings
deriving DecidableEq

namespace Document

def currentVersion : String := "1.0.0"

def empty : Document := ⟨currentVersion, [], .empty, .empty, .standard⟩

def block? (d : Document) (id : Nat) : Option BlockRecord := d.blocks.find? (·.id = id)

structure Draft where
  version : Option String
  blocks : Option (List BlockRecord)
  metadata : Option (Dict Value)
  vars : Option (Dict Value)
  settings : Option RunSettings

def schema : Json.Schema Draft Document where
  name := "GraphFile"
  fields := [
    Json.Field.make "version" true Draft.version (fun d a => { d with version := some a })
      Json.decodeString,
    Json.Field.make "blocks" false Draft.blocks (fun d a => { d with blocks := some a })
      (Json.decodeList BlockRecord.schema.decode),
    Json.Field.make "meta" false Draft.metadata (fun d a => { d with metadata := some a })
      (Json.decodeDict Json.decodeValue),
    Json.Field.make "variables" false Draft.vars (fun d a => { d with vars := some a })
      (Json.decodeDict Json.decodeValue),
    Json.Field.make "settings" false Draft.settings (fun d a => { d with settings := some a })
      RunSettings.schema.decode]
  start := ⟨none, none, none, none, none⟩
  finish d := do
    let version ← Json.requireField "version" d.version
    return ⟨version, d.blocks.getD [], d.metadata.getD .empty, d.vars.getD .empty,
      d.settings.getD .standard⟩

def toValue (d : Document) : Value :=
  .object [("version", .string d.version), ("blocks", .array (d.blocks.map BlockRecord.toValue)),
    ("meta", .ofDict d.metadata), ("variables", .ofDict d.vars),
    ("settings", d.settings.toValue)]

def ofText (text : String) : Except Json.ReadError Document :=
  Json.decodeText schema.decode text

def text (d : Document) : String := d.toValue.pretty

end Document

end Patchbay
