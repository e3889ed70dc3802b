import Patchbay.Proofs.Aftermath

/-! Calls that pass values on. They change buffers, variables and queues and add to the history, and
leave the layout of the graph as it is, whether or not they succeed. -/

namespace Patchbay

/-- Whether a call passes values on, or runs blocks that do. -/
def Operation.transient {β : Type} : Operation β → Bool
  | pushValue _ _ _ | popValue _ _ | clearBlock _ | input _ _ _ | output _ _ _ | setVariable _ _
  | processBlock _ | run => true
  | _ => false

namespace Graph

variable {α β : Type} {g h : Graph β}

theorem layout_editNode (g : Graph β) (id : BlockId) {f : Node → Except GraphError (α × Node)}
    (hf : ∀ n a m, f n = .ok (a, m) → ∃ buffers, m = { n with buffers := buffers }) :
    (g.editNode id f).graph.layout = g.layout := by
  cases he : g.slot? id with
  | none => simp [editNode, node, he, bind, Except.bind]
  | some e =>
    cases hfe : f e.node with
    | error err => simp [editNode, node, he, bind, Except.bind, hfe]
    | ok x =>
      obtain ⟨a, m⟩ := x
      obtain ⟨buffers, rfl⟩ := hf e.node a m hfe
      rw [editNode_eq_ok he (fun n => { n with buffers := buffers }) hfe, Reply.graph_ok]
      exact layout_updateNode g id fun _ => rfl

theorem layout_pushValue (g : Graph β) (id : BlockId) (port : String) (v : Value) :
    (g.pushValue id port v).graph.layout = g.layout := by
  refine g.layout_editNode id fun n u m hm => ?_
  by_cases hp : port ∈ n.inputs
  · simp only [Node.push, Node.checkInput_eq_ok_iff.mpr hp, bind, Except.bind, pure, Except.pure,
      Except.map, Except.ok.injEq, Prod.mk.injEq] at hm
    obtain ⟨-, rfl⟩ := hm
    exact ⟨_, rfl⟩
  · simp [Node.push, Node.checkInput, Node.hasInput, hp, bind, Except.bind, Except.map] at hm

theorem layout_clearBlock (g : Graph β) (id : BlockId) :
    (g.clearBlock id).graph.layout = g.layout := by
  refine g.layout_editNode id fun n u m hm => ?_
  cases hm
  exact ⟨_, rfl⟩

variable [Behaviour β] {fuel : Nat}

theorem Wired.layout_processBlock (hw : g.Wired) {id : BlockId} {reply : Reply β Bool}
    (hp : g.processBlock fuel id = some reply) : reply.graph.layout = g.layout := by
  rw [processBlock_eq] at hp
  obtain ⟨answer, hi, rfl⟩ := Option.map_eq_some_iff.mp hp
  have hl : ({ answer.graph with receivers := [] } : Graph β).layout = g.layout :=
    hw.layout_invoke hi
  cases answer with
  | error err k => exact hl
  | ok waiting k =>
    cases waiting with
    | true => exact hl
    | false => exact (layout_updateNode _ id (f := Node.clearBuffers) fun _ => rfl).trans hl

theorem Ready.layout_run (hg : g.Ready) {reply : Reply β RunReport}
    (hr : g.run fuel = some reply) : reply.graph.layout = g.layout := by
  obtain ⟨μ, r, hv, he, rfl⟩ := run_eq_some_iff.mp ⟨fuel, hr⟩
  exact (layout_closeRun μ.report r).trans (hv.layout_ends hg.toSound hg.complete he)

theorem Ready.layout_perform (hg : g.Ready) {op : Operation β} (ht : op.transient = true)
    (hp : g.perform fuel op = some h) : h.layout = g.layout := by
  cases op with
  | pushValue id port v => cases hp; exact layout_pushValue g id port v
  | popValue id port => cases hp; exact layout_popValue g id port
  | clearBlock id => cases hp; exact layout_clearBlock g id
  | input id s v => cases hp; exact hg.wired.layout_input id s v
  | output id port v => cases hp; exact hg.wired.layout_output id port v
  | setVariable name v => cases hp; rfl
  | processBlock id =>
    obtain ⟨reply, hr, rfl⟩ := Option.map_eq_some_iff.mp hp
    exact hg.wired.layout_processBlock hr
  | run =>
    obtain ⟨reply, hr, rfl⟩ := Option.map_eq_some_iff.mp hp
    exact hg.layout_run hr
  | _ => cases ht

end Graph

end Patchbay
