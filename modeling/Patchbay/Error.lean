import Patchbay.Edge
import Patchbay.Json.Report
import Patchbay.Port

/-! What can go wrong while a graph is wired, run or loaded. -/

namespace Patchbay

inductive GraphError where
  | invalidPort (block : BlockId) (port : String) (direction : PortDirection)
  | invalidParameter (block : BlockId) (parameter : String)
  | subscriberMismatch (block : BlockId) (subscription : SubscriptionId) (expected : BlockId)
  | unknownSubscription (subscription : SubscriptionId)
  | unknownBlock (block : BlockId)
  | unknownBlockType (name : String)
  | unknownRecord (id : Nat)
  | duplicateRecord (id : Nat)
  | unsuitableValue (block : BlockId) (reason : String)
  | notConverged (rounds : Nat)
deriving DecidableEq

namespace GraphError

def message : GraphError → String
  | invalidPort block port direction =>
    block.label ++ ": invalid " ++ direction.name ++ " port '" ++ port ++ "'"
  | invalidParameter block parameter =>
    block.label ++ ": invalid parameter '" ++ parameter ++ "'"
  | subscriberMismatch block subscription expected =>
    block.label ++ ": received input through " ++ subscription.label ++ ", which feeds " ++
      expected.label
  | unknownSubscription subscription => "unknown subscription " ++ subscription.label
  | unknownBlock block => block.label ++ " is not part of this graph"
  | unknownBlockType name => "no block type registered as '" ++ name ++ "'"
  | unknownRecord id => "graph file refers to missing block record " ++ toString id
  | duplicateRecord id => "graph file has more than one block record with id " ++ toString id
  | unsuitableValue block reason => block.label ++ ": " ++ reason
  | notConverged rounds => "run did not converge after " ++ toString rounds ++ " rounds"

/-- The block at which the error arose, if it is one block's. -/
def block? : GraphError → Option BlockId
  | invalidPort block _ _ | invalidParameter block _ | subscriberMismatch block _ _
  | unsuitableValue block _ | unknownBlock block => some block
  | unknownSubscription _ | unknownBlockType _ | unknownRecord _ | duplicateRecord _
  | notConverged _ => none

end GraphError

inductive FileFault where
  | notFound
  | notDirectory
  | isDirectory
  | nameTooLong
  /-- Any other failure of the system. -/
  | refused (reason : String)
  | notText
deriving DecidableEq

def systemMessage (reason : String) (code : Nat) : String :=
  reason ++ " (os error " ++ toString code ++ ")"

def FileFault.message : FileFault → String
  | notFound => systemMessage "No such file or directory" 2
  | notDirectory => systemMessage "Not a directory" 20
  | isDirectory => systemMessage "Is a directory" 21
  | nameTooLong => systemMessage "File name too long" 36
  | refused reason => reason
  | notText => "stream did not contain valid UTF-8"

inductive LoadError where
  | graph (error : GraphError)
  | document (error : Json.ReadError)
  | file (fault : FileFault)
deriving DecidableEq

namespace LoadError

/-- The message, and the message of the error beneath it if there is one. -/
def messages : LoadError → List String
  | graph e => [e.message]
  | document e => ["JSON error: " ++ e.message, e.message]
  | file f => ["IO error: " ++ f.message, f.message]

end LoadError

end Patchbay
