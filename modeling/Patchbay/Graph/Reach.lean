import Patchbay.Graph.Basic

/-! Which blocks of the round in progress can still feed a block, through any number of edges. -/

namespace Patchbay.Graph

variable {β : Type}

def departures (g : Graph β) (id : BlockId) : List SubscriptionId :=
  match g.node id with
  | .ok n => n.outputs.flatMap n.subscribers.list
  | .error _ => []

/-- Depth-first search for `target`, which goes on with the block found last. Each subscription is
followed once, so the number of edges bounds the number of steps. -/
def search (g : Graph β) (target : BlockId) :
    Nat → List BlockId → List SubscriptionId → Bool
  | 0, _, _ => false
  | _ + 1, [], _ => false
  | steps + 1, id :: stack, visited =>
    let fresh := (g.departures id).filter (!visited.contains ·)
    let found := (fresh.filterMap g.arena.get?).map Edge.subscriber
    if found.contains target then true
    else g.search target steps (found.reverse ++ stack) (fresh ++ visited)

def reaches (g : Graph β) (source target : BlockId) : Bool :=
  g.search target (g.arena.size + 1) [source] []

/-- The blocks of the round in progress, other than `target`, from which `target` can be
reached. -/
def incoming (g : Graph β) (target : BlockId) : List BlockId :=
  g.processing.filter fun id => id ≠ target && g.reaches id target

end Patchbay.Graph
