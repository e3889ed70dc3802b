/-! Subscriptions are edges from an output of one block to an input of another. The arena owns all
edges of a graph and numbers them; a number is never used again. -/

namespace Patchbay

structure BlockId where
  index : Nat
deriving DecidableEq

def BlockId.label (b : BlockId) : String := "block#" ++ toString b.index

structure SubscriptionId where
  number : Nat
deriving DecidableEq

def SubscriptionId.label (s : SubscriptionId) : String := "sub#" ++ toString s.number

/-- Feeds `input` of the subscriber from `output` of the publisher. -/
structure Edge where
  publisher : BlockId
  output : String
  subscriber : BlockId
  input : String
deriving DecidableEq

namespace Edge

def label (e : Edge) : String :=
  e.publisher.label ++ "." ++ e.output ++ " -> " ++ e.subscriber.label ++ "." ++ e.input

/-- Whether the edge comes from this publisher and this output, where they are given. -/
def matches? (e : Edge) (publisher : Option BlockId) (output : Option String) : Bool :=
  publisher.all (· = e.publisher) && output.all (· = e.output)

end Edge

/-- The edges by number, and the numbers by edge. -/
structure Arena where
  lastNumber : Nat
  entries : List (SubscriptionId × Edge)
  numbers : List (Edge × SubscriptionId)

namespace Arena

def empty : Arena := ⟨0, [], []⟩

def get? (a : Arena) (id : SubscriptionId) : Option Edge :=
  (a.entries.find? (·.1 = id)).map (·.2)

def find? (a : Arena) (edge : Edge) : Option SubscriptionId :=
  (a.numbers.find? (·.1 = edge)).map (·.2)

def nextId (a : Arena) : SubscriptionId := ⟨a.lastNumber + 1⟩

/-- Takes in an edge that is not in the arena. -/
def add (a : Arena) (edge : Edge) : Arena where
  lastNumber := a.lastNumber + 1
  entries := a.entries ++ [(a.nextId, edge)]
  numbers := a.numbers ++ [(edge, a.nextId)]

def erase (a : Arena) (id : SubscriptionId) (edge : Edge) : Arena where
  lastNumber := a.lastNumber
  entries := a.entries.filter (·.1 ≠ id)
  numbers := a.numbers.filter (·.1 ≠ edge)

def size (a : Arena) : Nat := a.entries.length

end Arena

end Patchbay
