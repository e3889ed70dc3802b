import Patchbay.Proofs.Operations

/-! The states that a graph is in while blocks of it are processed, down to the single calls of a
block. Through all of them the graph keeps its layout. -/

namespace Patchbay

/-- What is left of a turn's program at the end of the turn. -/
def Turn.rest {β : Type} : Turn β → Program β × Bool × Graph β
  | again b waiting g => (.again b, waiting, g)
  | finished b result waiting g => (.finish b result, waiting, g)

namespace Graph

variable {β : Type} [Behaviour β] {g h k : Graph β} {id : BlockId}

/-- One call of an invocation: what is left of the turn's program, whether the block waits, and the
graph. A further turn begins with the whole program. -/
inductive Proceeds (id : BlockId) : Program β × Bool × Graph β → Program β × Bool × Graph β → Prop
  | look {next : View β → Program β} {waiting : Bool} {g : Graph β} :
    Proceeds id (.look next, waiting, g) (next ⟨g, id, waiting⟩, waiting, g)
  | pop {port : String} {next : Except GraphError (Option Value) → Program β} {waiting : Bool}
    {g : Graph β} :
    Proceeds id (.pop port next, waiting, g)
      (next (g.popValue id port).result, waiting, (g.popValue id port).graph)
  | emit {port : String} {v : Value} {next : Except GraphError Unit → Program β} {waiting : Bool}
    {g : Graph β} :
    Proceeds id (.emit port v next, waiting, g)
      (next (g.output id port v).result, waiting, (g.output id port v).graph)
  | assign {name : String} {v : Value} {next : Program β} {waiting : Bool} {g : Graph β} :
    Proceeds id (.assign name v next, waiting, g) (next, waiting, g.setVariable name v)
  | wait {next : Program β} {waiting : Bool} {g : Graph β} :
    Proceeds id (.wait next, waiting, g) (next, true, g)
  | display {screen : Screen} {message : Value} {next : Program β} {waiting : Bool} {g : Graph β} :
    Proceeds id (.display screen message next, waiting, g)
      (next, waiting, g.record (.shown screen message))
  | say {action : String} {remark : Remark} {next : Program β} {waiting : Bool} {g : Graph β} :
    Proceeds id (.say action remark next, waiting, g)
      (next, waiting, g.record (.said id action remark))
  | again {b : β} {waiting : Bool} {g : Graph β} :
    Proceeds id (.again b, waiting, g) (Behaviour.process id b, waiting, g)

/-- The invocation of a block in a graph as it begins, with the behaviour away. -/
def begun (g : Graph β) (id : BlockId) (b : β) : Program β × Bool × Graph β :=
  (Behaviour.process id b, false, g.setBehaviour id none)

/-- The states that a run of `g` passes through, between two invocations or within one, and those
that processing a single block passes through, whether or not they come to an end. -/
inductive Occurs (g : Graph β) : Graph β → Prop
  | between {μ : Moment β} : g.Visits μ → Occurs g μ.graph
  | within {μ : Moment β} {id : BlockId} {rest : List BlockId} {b : β}
    {x : Program β × Bool × Graph β} :
    g.Visits μ → μ.pending = id :: rest → μ.graph.behaviour? id = some b →
    Relation.ReflTransGen (Proceeds id) (μ.graph.begun id b) x → Occurs g x.2.2
  | alone {id : BlockId} {b : β} {x : Program β × Bool × Graph β} :
    g.behaviour? id = some b → Relation.ReflTransGen (Proceeds id) (g.begun id b) x →
    Occurs g x.2.2

/-! Whole turns and invocations -/

theorem proceeds_run (id : BlockId) (p : Program β) (waiting : Bool) (g : Graph β) :
    Relation.ReflTransGen (Proceeds id) (p, waiting, g) (p.run id waiting g).rest := by
  induction p generalizing waiting g with
  | look next ih => exact .head .look (ih _ waiting g)
  | pop port next ih => exact .head .pop (ih _ waiting _)
  | emit port v next ih => exact .head .emit (ih _ waiting _)
  | assign name v next ih => exact .head .assign (ih waiting _)
  | wait next ih => exact .head .wait (ih true g)
  | display screen message next ih => exact .head .display (ih waiting _)
  | say action remark next ih => exact .head .say (ih waiting _)
  | again b => exact .refl
  | finish b result => exact .refl

theorem proceeds_takeTurns {fuel : Nat} {b b' : β} {waiting waiting' : Bool}
    {result : Except GraphError Unit}
    (ht : takeTurns id fuel b waiting g = some (b', result, waiting', h)) :
    Relation.ReflTransGen (Proceeds id) (Behaviour.process id b, waiting, g)
      (.finish b' result, waiting', h) := by
  induction fuel generalizing b waiting g with
  | zero => cases ht
  | succ fuel ih =>
    have hturn := proceeds_run id (Behaviour.process id b) waiting g
    unfold takeTurns at ht
    cases hr : (Behaviour.process id b).run id waiting g with
    | again c w k =>
      rw [hr] at ht hturn
      exact hturn.trans (.head .again (ih ht))
    | finished c r w k =>
      rw [hr] at ht hturn
      cases ht
      exact hturn

/-! What no call changes -/

theorem Proceeds.layout_eq {x y : Program β × Bool × Graph β} (hp : Proceeds id x y)
    (hw : x.2.2.Wired) : y.2.2.layout = x.2.2.layout := by
  cases hp with
  | pop => exact layout_popValue _ _ _
  | emit => exact hw.layout_output _ _ _
  | _ => rfl

theorem layout_of_proceeds {x y : Program β × Bool × Graph β}
    (hp : Relation.ReflTransGen (Proceeds id) x y) (hw : x.2.2.Wired) :
    y.2.2.layout = x.2.2.layout := by
  induction hp with
  | refl => rfl
  | tail _ hstep ih => exact (hstep.layout_eq (hw.of_layout ih)).trans ih

theorem layout_begun (g : Graph β) (id : BlockId) (b : β) :
    (g.begun id b).2.2.layout = g.layout := layout_setBehaviour g id none

theorem Ready.layout_occurs (hg : g.Ready) (ho : g.Occurs k) : k.layout = g.layout := by
  have hinside : ∀ {h : Graph β} {id : BlockId} {b : β} {x : Program β × Bool × Graph β},
      h.Wired → Relation.ReflTransGen (Proceeds id) (h.begun id b) x →
      x.2.2.layout = h.layout := by
    intro h id b x hw hp
    exact (layout_of_proceeds hp (hw.of_layout (layout_begun h id b))).trans (layout_begun h id b)
  cases ho with
  | between hv => exact (hv.regular hg.toSound hg.complete).layout
  | within hv _ _ hp =>
    have hμ := hv.regular hg.toSound hg.complete
    exact (hinside hμ.sound.wired hp).trans hμ.layout
  | alone _ hp => exact hinside hg.wired hp

theorem Ready.wired_occurs (hg : g.Ready) (ho : g.Occurs k) : k.Wired :=
  hg.wired.of_layout (hg.layout_occurs ho)

end Graph

end Patchbay
