import Patchbay.Proofs.Endings
import Patchbay.Proofs.Operations

/-! The nodes of built-in blocks have the name, ports and parameters of their definitions, whatever
was done to the graph. Nothing changes these, and no other block turns into a built-in one. -/

namespace Patchbay

namespace Node

variable {n : Node} {d : BlockDefinition}

structure Fits (n : Node) (d : BlockDefinition) : Prop where
  typeName : n.typeName = d.name
  inputs : n.inputs = distinct d.ports.inputNames
  outputs : n.outputs = distinct d.ports.outputNames
  parameters : ∀ name, n.parameters.contains name = d.parameters.contains name

theorem fits_ofDefinition (id : BlockId) (d : BlockDefinition) : (ofDefinition id d).Fits d :=
  ⟨rfl, rfl, rfl, fun name => Dict.contains_map _ _ name⟩

theorem fits_unwired_iff : n.unwired.Fits d ↔ n.Fits d :=
  ⟨fun h => ⟨h.typeName, h.inputs, h.outputs, h.parameters⟩,
    fun h => ⟨h.typeName, h.inputs, h.outputs, h.parameters⟩⟩

theorem fits_outline_iff : n.outline.Fits d ↔ n.Fits d :=
  ⟨fun h => ⟨h.typeName, h.inputs, h.outputs, h.parameters⟩,
    fun h => ⟨h.typeName, h.inputs, h.outputs, h.parameters⟩⟩

theorem Fits.setParameter (h : n.Fits d) {m : Node} {name : String} {v : Value}
    (hm : n.setParameter name v = .ok m) : m.Fits d := by
  unfold Node.setParameter at hm
  split at hm
  · next hc =>
    cases hm
    refine ⟨h.typeName, h.inputs, h.outputs, fun k => ?_⟩
    rw [← h.parameters k, Dict.contains_insert]
    by_cases hk : k = name <;> simp [hk, hc]
  · cases hm

theorem Fits.push (h : n.Fits d) {m : Node} {port : String} {v : Value}
    (hm : n.push port v = .ok m) : m.Fits d := by
  unfold Node.push at hm
  cases hc : n.checkInput port with
  | error err =>
    rw [hc] at hm
    cases hm
  | ok u =>
    rw [hc] at hm
    cases hm
    exact ⟨h.typeName, h.inputs, h.outputs, h.parameters⟩

end Node

namespace Graph

open HostsBuiltins (block)

variable {β : Type} [Behaviour β] [HostsBuiltins β] {g h : Graph β} {id : BlockId}

def Fitted (g : Graph β) : Prop := ∀ id e b, g.slot? id = some e → e.behaviour = some (block b) →
  e.node.Fits b.definition

theorem Fitted.new (settings : RunSettings) : (Graph.new settings : Graph β).Fitted :=
  fun id e b he => by simp [slot?, Graph.new] at he

theorem Fitted.of_slots (hf : g.Fitted) (hs : h.slots = g.slots) : h.Fitted := by
  intro id e b he
  simp only [slot?, hs] at he
  exact hf id e b he

theorem Fitted.of_unwired (hf : g.Fitted) (hu : h.unwired = g.unwired) : h.Fitted := by
  intro id e b he hb
  obtain ⟨e', he', hb', hn⟩ := exists_slot?_of_unwired hu he
  rw [← Node.fits_unwired_iff, ← hn, Node.fits_unwired_iff]
  exact hf id e' b he' (hb'.trans hb)

theorem Fitted.updateNode (hf : g.Fitted) (id : BlockId) {f : Node → Node}
    (hn : ∀ n d, n.Fits d → (f n).Fits d) : (g.updateNode id f).Fitted := by
  intro j e b he hb
  rw [slot?_updateNode] at he
  split at he
  · obtain ⟨e', he', rfl⟩ := Option.map_eq_some_iff.mp he
    exact hn _ _ (hf j e' b he' hb)
  · exact hf j e b he hb

theorem Fitted.editNode {α : Type} (hf : g.Fitted) (id : BlockId)
    {f : Node → Except GraphError (α × Node)}
    (hn : ∀ n d a m, n.Fits d → f n = .ok (a, m) → m.Fits d) : (g.editNode id f).graph.Fitted := by
  unfold Graph.editNode
  split
  · next a m heq =>
    cases hs : g.slot? id with
    | none => simp [node, hs, bind, Except.bind] at heq
    | some e =>
      have hm : f e.node = .ok (a, m) := by simpa [node, hs, bind, Except.bind] using heq
      intro j e' b he hb
      rw [Reply.graph_ok, slot?_updateNode] at he
      split at he
      · next hj =>
        subst hj
        rw [hs] at he
        cases he
        exact hn _ _ _ _ (hf j e b hs hb) hm
      · exact hf j e' b he hb
  · exact hf

theorem Fitted.modifyNode (hf : g.Fitted) (id : BlockId) {f : Node → Except GraphError Node}
    (hn : ∀ n d m, n.Fits d → f n = .ok m → m.Fits d) :
    (g.editNode id fun n => (f n).map ((), ·)).graph.Fitted := by
  refine hf.editNode id fun n d u m hfit hm => ?_
  cases hfn : f n with
  | error err =>
    rw [hfn] at hm
    cases hm
  | ok m' =>
    rw [hfn] at hm
    cases hm
    exact hn n d _ hfit hfn

/-- What changes buffers only leaves the nodes of built-in blocks as they fit, where it makes no
block built-in that was not. -/
theorem Fitted.of_layout (hf : g.Fitted) (hl : h.layout = g.layout)
    (hb : ∀ id b, h.behaviour? id = some (block b) → g.behaviour? id = some (block b)) :
    h.Fitted := by
  intro id e b he heb
  have ho := outline_congr hl id
  rw [outline, outline, he] at ho
  obtain ⟨e', he', hn⟩ := Option.map_eq_some_iff.mp ho.symm
  dsimp only at hn
  rw [← behaviour?_of_slot? he] at heb
  have heb' := hb id b heb
  rw [behaviour?_of_slot? he'] at heb'
  rw [← Node.fits_outline_iff, ← hn, Node.fits_outline_iff]
  exact hf id e' b he' heb'

theorem Fitted.of_effects {id : BlockId} (hf : g.Fitted) (he : Effects id g h) : h.Fitted :=
  hf.of_layout he.layout_eq fun j _ hb => (he.behaviour?_eq j).symm.trans hb

/-! Operations that invoke no block -/

theorem Fitted.setParameter (hf : g.Fitted) (id : BlockId) (name : String) (v : Value) :
    (g.setParameter id name v).graph.Fitted :=
  hf.modifyNode id fun _ _ _ hn hm => hn.setParameter hm

theorem Fitted.annotateBlock (hf : g.Fitted) (id : BlockId) (metadata : Dict Value) :
    (g.updateNode id fun n => { n with metadata := metadata }).Fitted :=
  hf.updateNode id fun _ _ hn => ⟨hn.1, hn.2, hn.3, hn.4⟩

theorem Fitted.pushValue (hf : g.Fitted) (id : BlockId) (port : String) (v : Value) :
    (g.pushValue id port v).graph.Fitted :=
  hf.modifyNode id fun _ _ _ hn hm => hn.push hm

theorem Fitted.popValue (hf : g.Fitted) (id : BlockId) (port : String) :
    (g.popValue id port).graph.Fitted := by
  rcases popValue_cases g id port with ⟨e, -, -, hok⟩ | ⟨err, -, herr⟩
  · rw [hok, Reply.graph_ok]
    exact hf.updateNode id fun n d hn => ⟨hn.1, hn.2, hn.3, hn.4⟩
  · rwa [herr]

theorem Fitted.clearBlock (hf : g.Fitted) (id : BlockId) : (g.clearBlock id).graph.Fitted := by
  refine hf.editNode id fun n d u m hn hm => ?_
  cases hm
  exact Node.fits_outline_iff.mpr hn

theorem Fitted.remove (hf : g.Fitted) (id : BlockId) : (g.remove id).graph.Fitted := by
  cases hx : g.slot? id with
  | none => simpa [remove_eq_unknown hx] using hf
  | some e =>
    have hrest := hf.of_unwired (unwired_removeSubscriptions g e.node.edges)
    rw [graph_remove hx]
    intro j e' b he hb
    rw [slot?_vacate] at he
    split at he
    · cases he
    · exact hrest j e' b he hb

theorem Fitted.unsubscribe (hf : g.Fitted) (id : BlockId) (input : String)
    (publisher : Option BlockId) (output : Option String) :
    (g.unsubscribe id input publisher output).graph.Fitted := by
  unfold Graph.unsubscribe
  split
  · exact hf
  · split
    · exact hf
    · exact hf.of_unwired (unwired_removeSubscriptions g _)

theorem Fitted.input (hf : g.Fitted) (hw : g.Wired) (id : BlockId) (s : SubscriptionId)
    (v : Value) : (g.input id s v).graph.Fitted := by
  rcases hw.input_cases id s v with ⟨edge, hs, -, hok⟩ | ⟨err, herr⟩
  · rw [hok]
    exact hf.of_effects (.single (.accept hs rfl))
  · rwa [herr]

theorem Fitted.output (hf : g.Fitted) (hw : g.Wired) (id : BlockId) (port : String) (v : Value) :
    (g.output id port v).graph.Fitted := by
  rcases hw.output_cases id port v with ⟨e, he, hport, hok⟩ | ⟨err, -, herr⟩
  · rw [hok]
    exact hf.of_effects (hw.effects_broadcast he hport v)
  · rwa [herr]

/-! Invocations and runs -/

variable [KeepsBuiltins β]

theorem Visits.fitted {μ : Moment β} (hf : g.Fitted) (hs : g.Sound) (hc : g.Complete)
    (hv : g.Visits μ) : μ.graph.Fitted :=
  hf.of_layout (hv.regular hs hc).layout fun _ _ hb => hv.block_of_behaviour? hs hc hb

theorem Fitted.run (hf : g.Fitted) (hs : g.Sound) (hc : g.Complete) {fuel : Nat}
    {reply : Reply β RunReport} (hr : g.run fuel = some reply) : reply.graph.Fitted := by
  obtain ⟨μ, r, hv, he, rfl⟩ := run_eq_some_iff.mp ⟨fuel, hr⟩
  have hμ := hv.fitted hf hs hc
  have hend : r.graph.Fitted := by
    cases he with
    | quiet | limit => exact hμ
    | failure hi =>
      have hw := (hv.regular hs hc).sound.wired
      exact hμ.of_layout (hw.layout_invoke hi) fun _ _ hb => hw.block_of_invoke hi hb
  exact hend.of_layout (layout_closeRun μ.report r)
    fun j _ hb => (behaviour?_closeRun μ.report r j).symm.trans hb

theorem Fitted.processBlock (hf : g.Fitted) (hw : g.Wired) {fuel : Nat} {reply : Reply β Bool}
    (hr : g.processBlock fuel id = some reply) : reply.graph.Fitted := by
  rw [processBlock_eq] at hr
  obtain ⟨answer, hi, rfl⟩ := Option.map_eq_some_iff.mp hr
  have hk : answer.graph.Fitted :=
    hf.of_layout (hw.layout_invoke hi) fun _ _ hb => hw.block_of_invoke hi hb
  have hk' : ({ answer.graph with receivers := [] } : Graph β).Fitted := hk.of_slots rfl
  cases answer with
  | error err k => exact hk'
  | ok waiting k =>
    cases waiting with
    | true => exact hk'
    | false => exact hk'.updateNode id fun n d hn => Node.fits_outline_iff.mpr hn

/-! Every operation -/

theorem Fitted.add (hf : g.Fitted) (c : β) : (g.add c).2.Fitted := by
  intro j e b he hb
  rw [slot?_add] at he
  split at he
  · cases he
    rw [Option.some.inj hb, ← KeepsBuiltins.definition_block (β := β) b]
    exact Node.fits_ofDefinition j _
  · exact hf j e b he hb

theorem keptByLoading_fitted : KeptByLoading (Fitted : Graph β → Prop) where
  add _ c hf := hf.add c
  setParameter _ id name v hf := hf.setParameter id name v
  annotateBlock _ id metadata hf := hf.annotateBlock id metadata
  subscribe g subscriber input publisher output hf :=
    hf.of_unwired (unwired_subscribe g subscriber input publisher output)
  finish _ _ _ _ hf := hf.of_slots rfl

theorem Fitted.perform {fuel : Nat} {op : Operation β} (hf : g.Fitted) (hg : g.Ready)
    (hp : g.perform fuel op = some h) : h.Fitted := by
  cases op with
  | add c => cases hp; exact hf.add c
  | remove id => cases hp; exact hf.remove id
  | subscribe subscriber input publisher output =>
    cases hp
    exact hf.of_unwired (unwired_subscribe g subscriber input publisher output)
  | publish publisher output subscriber input =>
    cases hp
    exact hf.of_unwired (unwired_subscribe g subscriber input publisher output)
  | unsubscribe id input publisher output =>
    cases hp
    exact hf.unsubscribe id input publisher output
  | removeSubscription s => cases hp; exact hf.of_unwired (unwired_removeSubscription g s)
  | setParameter id name v => cases hp; exact hf.setParameter id name v
  | pushValue id port v => cases hp; exact hf.pushValue id port v
  | popValue id port => cases hp; exact hf.popValue id port
  | clearBlock id => cases hp; exact hf.clearBlock id
  | input id s v => cases hp; exact hf.input hg.wired id s v
  | output id port v => cases hp; exact hf.output hg.wired id port v
  | setVariable | annotate | configure | observe =>
    cases hp
    exact hf.of_slots rfl
  | annotateBlock id metadata =>
    cases hp
    exact hf.annotateBlock id metadata
  | processBlock id =>
    obtain ⟨reply, hr, rfl⟩ := Option.map_eq_some_iff.mp hp
    exact hf.processBlock hg.wired hr
  | run =>
    obtain ⟨reply, hr, rfl⟩ := Option.map_eq_some_iff.mp hp
    exact hf.run hg.toSound hg.complete hr

theorem Reachable.fitted (hr : g.Reachable) : g.Fitted := by
  induction hr with
  | new settings => exact .new settings
  | @loaded registry d g hd =>
    have hload : (ofDocument registry d).graph.Fitted :=
      keptByLoading_fitted.ofDocument (.new d.settings)
    rwa [hd] at hload
  | perform hr hp ih => exact ih.perform hr.ready hp

end Graph

end Patchbay
