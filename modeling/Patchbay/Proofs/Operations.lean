import Patchbay.Graph.Saving
import Patchbay.Proofs.Running

/-! The operations on a graph and the graphs that they reach. Every operation, also one that fails,
leaves a sound and idle graph when it starts from one. -/

namespace Patchbay

/-- A call on a graph from outside of a run. -/
inductive Operation (β : Type) where
  | add (b : β)
  | remove (id : BlockId)
  | subscribe (subscriber : BlockId) (input : String) (publisher : BlockId) (output : String)
  | publish (publisher : BlockId) (output : String) (subscriber : BlockId) (input : String)
  | unsubscribe (id : BlockId) (input : String) (publisher : Option BlockId)
    (output : Option String)
  | removeSubscription (s : SubscriptionId)
  | setParameter (id : BlockId) (name : String) (v : Value)
  | pushValue (id : BlockId) (port : String) (v : Value)
  | popValue (id : BlockId) (port : String)
  | clearBlock (id : BlockId)
  | input (id : BlockId) (s : SubscriptionId) (v : Value)
  | output (id : BlockId) (port : String) (v : Value)
  | setVariable (name : String) (v : Value)
  | annotate (metadata : Dict Value)
  | annotateBlock (id : BlockId) (metadata : Dict Value)
  | configure (settings : RunSettings)
  | observe (o : Observer)
  | processBlock (id : BlockId)
  | run

namespace Graph

variable {β : Type} [Behaviour β] {g h : Graph β}

/-- The graph that an operation leaves, whether or not it succeeds; none where a block takes turns
for ever, or the fuel is too little. -/
def perform (g : Graph β) (fuel : Nat) : Operation β → Option (Graph β)
  | .add b => some (g.add b).2
  | .remove id => some (g.remove id).graph
  | .subscribe subscriber input publisher output =>
    some (g.subscribe subscriber input publisher output).graph
  | .publish publisher output subscriber input =>
    some (g.publish publisher output subscriber input).graph
  | .unsubscribe id input publisher output => some (g.unsubscribe id input publisher output).graph
  | .removeSubscription s => some (g.removeSubscription s).2
  | .setParameter id name v => some (g.setParameter id name v).graph
  | .pushValue id port v => some (g.pushValue id port v).graph
  | .popValue id port => some (g.popValue id port).graph
  | .clearBlock id => some (g.clearBlock id).graph
  | .input id s v => some (g.input id s v).graph
  | .output id port v => some (g.output id port v).graph
  | .setVariable name v => some (g.setVariable name v)
  | .annotate metadata => some { g with metadata := metadata }
  | .annotateBlock id metadata => some (g.updateNode id fun n => { n with metadata := metadata })
  | .configure settings => some { g with settings := settings }
  | .observe o => some (g.observe o)
  | .processBlock id => (g.processBlock fuel id).map Reply.graph
  | .run => (g.run fuel).map Reply.graph

def performAll (fuel : Nat) : List (Operation β) → Graph β → Option (Graph β)
  | [], g => some g
  | op :: rest, g => (g.perform fuel op).bind (performAll fuel rest)

/-- The graphs that operations reach from an empty graph or from one that was loaded. -/
inductive Reachable : Graph β → Prop
  | new (settings : RunSettings) : Reachable (.new settings)
  | loaded {registry : Registry β} {d : Document} {g : Graph β} :
    ofDocument registry d = .ok () g → Reachable g
  | perform {g h : Graph β} {fuel : Nat} {op : Operation β} :
    Reachable g → g.perform fuel op = some h → Reachable h

structure Ready (g : Graph β) : Prop extends Sound g, Idle g

/-! Operations that change one node, or none -/

omit [Behaviour β]

theorem Ready.new (settings : RunSettings) : (Graph.new settings : Graph β).Ready :=
  ⟨.new settings, .new settings⟩

theorem Ready.of_slots (hg : g.Ready) (hs : h.slots = g.slots) (ho : h.order = g.order)
    (ha : h.arena = g.arena) (hr : h.receivers = g.receivers) (hp : h.processing = g.processing) :
    h.Ready := by
  have hslot : ∀ id, h.slot? id = g.slot? id := fun id => by simp only [slot?, hs]
  have hw : h.Wired := hg.wired.congr ha ho fun id => by simp only [wiring, hslot]
  exact ⟨hg.toSound.of_slots hw hr hp (fun id hl => by rwa [hslot])
    fun id e he => hg.stored id e (hslot id ▸ he),
    hp.trans hg.processing, fun id e he => hg.complete id e (hslot id ▸ he)⟩

theorem Ready.updateNode (hg : g.Ready) {id : BlockId} {f : Node → Node}
    (hf : ∀ e, g.slot? id = some e → (f e.node).wiring = e.node.wiring ∧
      ∀ port, (f e.node).buffers.list port ≠ [] → port ∈ e.node.inputs) :
    (g.updateNode id f).Ready :=
  ⟨hg.toSound.updateNode hf, hg.toIdle.updateNode id f⟩

theorem Ready.editNode {α : Type} (hg : g.Ready) {id : BlockId}
    {f : Node → Except GraphError (α × Node)}
    (hf : ∀ e a n, g.slot? id = some e → f e.node = .ok (a, n) → n.wiring = e.node.wiring ∧
      ∀ port, n.buffers.list port ≠ [] → port ∈ e.node.inputs) :
    (g.editNode id f).graph.Ready := by
  unfold Graph.editNode
  split
  · next a n heq =>
    cases hs : g.slot? id with
    | none => simp [node, hs, bind, Except.bind] at heq
    | some e =>
      rw [Reply.graph_ok]
      refine hg.updateNode fun e' he' => ?_
      rw [hs] at he'
      cases he'
      refine hf e a n hs ?_
      simpa [node, hs, bind, Except.bind] using heq
  · exact hg

theorem Ready.setParameter (hg : g.Ready) (id : BlockId) (name : String) (v : Value) :
    (g.setParameter id name v).graph.Ready := by
  refine hg.editNode fun e a n he hn => ?_
  unfold Node.setParameter at hn
  split at hn
  · cases hn
    exact ⟨rfl, hg.stored id e he⟩
  · cases hn

theorem Ready.pushValue (hg : g.Ready) (id : BlockId) (port : String) (v : Value) :
    (g.pushValue id port v).graph.Ready := by
  refine hg.editNode fun e a n he hn => ?_
  by_cases hp : port ∈ e.node.inputs
  · simp only [Node.push, Node.checkInput_eq_ok_iff.mpr hp, bind, Except.bind, pure, Except.pure,
      Except.map, Except.ok.injEq, Prod.mk.injEq] at hn
    obtain ⟨-, rfl⟩ := hn
    refine ⟨rfl, fun p hb => ?_⟩
    simp only [Node.store, Dict.list_setList] at hb
    split at hb
    · next heq => exact heq ▸ hp
    · exact hg.stored id e he p hb
  · simp [Node.push, Node.checkInput, Node.hasInput, hp, bind, Except.bind, Except.map] at hn

theorem Ready.popValue (hg : g.Ready) (id : BlockId) (port : String) :
    (g.popValue id port).graph.Ready := by
  rcases popValue_cases g id port with ⟨e, -, -, hok⟩ | ⟨err, -, herr⟩
  · rw [hok, Reply.graph_ok]
    exact ⟨hg.toSound.take id port, hg.toIdle.updateNode id _⟩
  · rw [herr]
    exact hg

theorem Ready.clearBlock (hg : g.Ready) (id : BlockId) : (g.clearBlock id).graph.Ready := by
  refine hg.editNode fun e a n he hn => ?_
  cases hn
  exact ⟨rfl, fun _ hb => absurd rfl hb⟩

theorem Ready.annotateBlock (hg : g.Ready) (id : BlockId) (metadata : Dict Value) :
    (g.updateNode id fun n => { n with metadata := metadata }).Ready :=
  hg.updateNode fun e he => ⟨rfl, hg.stored id e he⟩

/-! Wiring -/

theorem Ready.of_unwired (hg : g.Ready) (hw : h.Wired) (hu : h.unwired = g.unwired) : h.Ready :=
  ⟨hg.toSound.of_unwired hw hu, hg.toIdle.of_unwired hu⟩

theorem Ready.subscribe (hg : g.Ready) (subscriber : BlockId) (input : String)
    (publisher : BlockId) (output : String) :
    (g.subscribe subscriber input publisher output).graph.Ready :=
  hg.of_unwired (hg.wired.subscribe subscriber input publisher output)
    (unwired_subscribe g subscriber input publisher output)

theorem Ready.removeSubscriptions (hg : g.Ready) (ids : List SubscriptionId) :
    (g.removeSubscriptions ids).Ready :=
  hg.of_unwired (hg.wired.removeSubscriptions ids).1 (unwired_removeSubscriptions g ids)

theorem Ready.unsubscribe (hg : g.Ready) (id : BlockId) (input : String)
    (publisher : Option BlockId) (output : Option String) :
    (g.unsubscribe id input publisher output).graph.Ready := by
  unfold Graph.unsubscribe
  split
  · exact hg
  · split
    · exact hg
    · exact hg.removeSubscriptions _

/-! Delivery -/

theorem Ready.input (hg : g.Ready) (id : BlockId) (s : SubscriptionId) (v : Value) :
    (g.input id s v).graph.Ready := by
  rcases hg.wired.input_cases id s v with ⟨edge, hs, -, hok⟩ | ⟨err, herr⟩
  · rw [hok, Reply.graph_ok]
    exact ⟨hg.toSound.accept hs v, hg.toIdle.accept v edge⟩
  · rw [herr]
    exact hg

theorem Ready.output (hg : g.Ready) (id : BlockId) (port : String) (v : Value) :
    (g.output id port v).graph.Ready := by
  rcases hg.wired.output_cases id port v with ⟨e, he, hp, hok⟩ | ⟨err, -, herr⟩
  · rw [hok, Reply.graph_ok]
    have heff := hg.wired.effects_broadcast he hp v
    refine ⟨heff.sound hg.toSound, heff.processing_eq.trans hg.processing,
      complete_iff.mpr fun j hj => ?_⟩
    rw [heff.behaviour?_eq]
    exact complete_iff.mp hg.complete j (by rwa [← isSome_slot?_congr heff.layout_eq])
  · rw [herr]
    exact hg

/-! Loading -/

variable [Behaviour β]

/-- Whether all that loading does to a graph keeps a property. -/
structure KeptByLoading (P : Graph β → Prop) : Prop where
  add : ∀ g b, P g → P (g.add b).2
  setParameter : ∀ g id name v, P g → P (g.setParameter id name v).graph
  annotateBlock : ∀ g id metadata,
    P g → P (g.updateNode id fun n => { n with metadata := metadata })
  subscribe : ∀ g subscriber input publisher output, P g →
    P (g.subscribe subscriber input publisher output).graph
  finish : ∀ g metadata vars notice, P g →
    P (({ g with metadata := metadata, vars := vars } : Graph β).record (.logged notice))

section

variable {P : Graph β → Prop} (hk : KeptByLoading P)

include hk

theorem KeptByLoading.createBlocks (registry : Registry β) {records : List BlockRecord}
    {index : RecordIndex} (hp : P g) : P (createBlocks registry records index g).graph := by
  induction records generalizing g index with
  | nil => exact hp
  | cons r rest ih =>
    unfold Graph.createBlocks
    split
    · exact hp
    · split
      · exact hp
      · next b _ => exact ih (hk.add g b hp)

theorem KeptByLoading.assignValues {id : BlockId} {values : List (String × Value)} (hp : P g) :
    P (assignValues id values g).graph := by
  induction values generalizing g with
  | nil => exact hp
  | cons x rest ih =>
    obtain ⟨name, v⟩ := x
    have hset := hk.setParameter g id name v hp
    unfold Graph.assignValues
    split
    · next heq => rwa [heq] at hset
    · next heq =>
      rw [heq] at hset
      exact ih hset

theorem KeptByLoading.fillBlocks {index : RecordIndex} {records : List BlockRecord} (hp : P g) :
    P (fillBlocks index records g).graph := by
  induction records generalizing g with
  | nil => exact hp
  | cons r rest ih =>
    unfold Graph.fillBlocks
    split
    · exact hp
    · next id _ =>
      have hassign : P (Graph.assignValues id r.values.entries g).graph := hk.assignValues hp
      split
      · next heq => rwa [heq] at hassign
      · next heq =>
        rw [heq] at hassign
        exact ih (hk.annotateBlock _ id r.metadata hassign)

theorem KeptByLoading.publishAll {index : RecordIndex} {publisher : BlockId}
    {wires : List (String × SubscriberRecord)} (hp : P g) :
    P (publishAll index publisher wires g).graph := by
  induction wires generalizing g with
  | nil => exact hp
  | cons x rest ih =>
    obtain ⟨output, s⟩ := x
    unfold Graph.publishAll
    split
    · exact hp
    · next subscriber _ =>
      have hsub : P (g.publish publisher output subscriber s.input).graph :=
        hk.subscribe g subscriber s.input publisher output hp
      split
      · next heq => rwa [heq] at hsub
      · next heq =>
        rw [heq] at hsub
        exact ih hsub

theorem KeptByLoading.wireBlocks {index : RecordIndex} {records : List BlockRecord} (hp : P g) :
    P (wireBlocks index records g).graph := by
  induction records generalizing g with
  | nil => exact hp
  | cons r rest ih =>
    unfold Graph.wireBlocks
    split
    · exact hp
    · next publisher _ =>
      have hpub : ∀ wires reply, Graph.publishAll index publisher wires g = reply →
          P reply.graph := fun wires _ heq => heq ▸ hk.publishAll hp
      dsimp only
      split
      · next heq => exact hpub _ _ heq
      · next heq => exact ih (hpub _ _ heq)

theorem KeptByLoading.ofDocument {registry : Registry β} {d : Document} (hp : P (.new d.settings)) :
    P (ofDocument registry d).graph := by
  have hcreate : P (Graph.createBlocks registry d.blocks [] (.new d.settings)).graph :=
    hk.createBlocks registry hp
  unfold Graph.ofDocument
  split
  · next heq => rwa [heq] at hcreate
  · next index g heq =>
    rw [heq, Reply.graph_ok] at hcreate
    have hfill : P (Graph.fillBlocks index d.blocks g).graph := hk.fillBlocks hcreate
    split
    · next heq => rwa [heq] at hfill
    · next g heq =>
      rw [heq, Reply.graph_ok] at hfill
      have hwire : P (Graph.wireBlocks index d.blocks g).graph := hk.wireBlocks hfill
      split
      · next heq => rwa [heq] at hwire
      · next g heq =>
        rw [heq] at hwire
        exact hk.finish g _ _ _ hwire

end

theorem Ready.add (hg : g.Ready) (b : β) : (g.add b).2.Ready := ⟨hg.toSound.add b, hg.toIdle.add b⟩

theorem keptByLoading_ready : KeptByLoading (Ready : Graph β → Prop) where
  add _ b hg := hg.add b
  setParameter _ id name v hg := hg.setParameter id name v
  annotateBlock _ id metadata hg := hg.annotateBlock id metadata
  subscribe _ subscriber input publisher output hg := hg.subscribe subscriber input publisher output
  finish _ _ _ _ hg := hg.of_slots rfl rfl rfl rfl rfl

/-! Every operation -/

theorem Ready.perform {fuel : Nat} {op : Operation β} (hg : g.Ready)
    (hp : g.perform fuel op = some h) : h.Ready := by
  cases op with
  | add b => cases hp; exact hg.add b
  | remove id => cases hp; exact ⟨hg.toSound.remove id, hg.toIdle.remove id⟩
  | subscribe subscriber input publisher output =>
    cases hp
    exact hg.subscribe subscriber input publisher output
  | publish publisher output subscriber input =>
    cases hp
    exact hg.subscribe subscriber input publisher output
  | unsubscribe id input publisher output =>
    cases hp
    exact hg.unsubscribe id input publisher output
  | removeSubscription s => cases hp; exact hg.removeSubscriptions [s]
  | setParameter id name v => cases hp; exact hg.setParameter id name v
  | pushValue id port v => cases hp; exact hg.pushValue id port v
  | popValue id port => cases hp; exact hg.popValue id port
  | clearBlock id => cases hp; exact hg.clearBlock id
  | input id s v => cases hp; exact hg.input id s v
  | output id port v => cases hp; exact hg.output id port v
  | setVariable | annotate | configure | observe =>
    cases hp
    exact hg.of_slots rfl rfl rfl rfl rfl
  | annotateBlock id metadata =>
    cases hp
    exact hg.annotateBlock id metadata
  | processBlock id =>
    obtain ⟨reply, hr, rfl⟩ := Option.map_eq_some_iff.mp hp
    obtain ⟨hs, hi⟩ := hg.toSound.processBlock hg.toIdle hr
    exact ⟨hs, hi⟩
  | run =>
    obtain ⟨reply, hr, rfl⟩ := Option.map_eq_some_iff.mp hp
    obtain ⟨hs, hi⟩ := hg.toSound.run hg.toIdle hr
    exact ⟨hs, hi⟩

theorem Reachable.performAll {fuel : Nat} {ops : List (Operation β)} (hr : g.Reachable)
    (hp : performAll fuel ops g = some h) : h.Reachable := by
  induction ops generalizing g with
  | nil =>
    cases hp
    exact hr
  | cons op rest ih =>
    obtain ⟨k, hk, hrest⟩ := Option.bind_eq_some_iff.mp hp
    exact ih (hr.perform hk) hrest

theorem Reachable.ready (hr : g.Reachable) : g.Ready := by
  induction hr with
  | new settings => exact .new settings
  | @loaded registry d g hd =>
    have hload : (ofDocument registry d).graph.Ready :=
      keptByLoading_ready.ofDocument (.new d.settings)
    rwa [hd] at hload
  | perform _ hp ih => exact ih.perform hp

end Graph

end Patchbay
