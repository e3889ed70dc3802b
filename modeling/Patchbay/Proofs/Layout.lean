import Patchbay.Graph.Run
import Mathlib.Data.List.Basic

/-! The layout of a graph is what no run changes: the blocks with their ports, parameters, wiring
and metadata, the order of adding, the arena and the settings. Buffers, behaviours, queues,
variables and the history are left out of it. -/

namespace Patchbay

namespace Node

/-- The node without the values that wait on its inputs. -/
def outline (n : Node) : Node := { n with buffers := .empty }

theorem clearBuffers_eq (n : Node) : n.clearBuffers = n.outline := rfl

theorem mem_distinct {names : List String} {name : String} :
    name ∈ distinct names ↔ name ∈ names := by
  induction names with
  | nil => exact Iff.rfl
  | cons x rest ih => by_cases h : name = x <;> simp [distinct, ih, h]

theorem checkInput_eq_ok_iff {n : Node} {port : String} :
    n.checkInput port = .ok () ↔ port ∈ n.inputs := by
  by_cases h : port ∈ n.inputs <;> simp [checkInput, hasInput, h]

theorem checkOutput_eq_ok_iff {n : Node} {port : String} :
    n.checkOutput port = .ok () ↔ port ∈ n.outputs := by
  by_cases h : port ∈ n.outputs <;> simp [checkOutput, hasOutput, h]

end Node

namespace Reply

variable {α β : Type}

@[simp] theorem graph_ok (a : α) (g : Graph β) : (ok a g).graph = g := rfl

@[simp] theorem graph_error (e : GraphError) (g : Graph β) :
    (error e g : Reply β α).graph = g := rfl

theorem eq_ok {r : Reply β α} {a : α} (h : r.result = .ok a) : r = .ok a r.graph := by
  cases r <;> cases h
  rfl

theorem eq_ok_of_toOption {r : Reply β α} {a : α} (h : r.result.toOption = some a) :
    r = .ok a r.graph := by
  cases r <;> cases h
  rfl

theorem eq_error {r : Reply β α} {e : GraphError} (h : r.result = .error e) :
    r = .error e r.graph := by
  cases r <;> cases h
  rfl

end Reply

namespace Graph

variable {α β : Type}

/-! Slots -/

theorem slot?_updateEntry (g : Graph β) (id j : BlockId) (f : Entry β → Entry β) :
    (g.updateEntry id f).slot? j = if j = id then (g.slot? j).map f else g.slot? j := by
  obtain ⟨i⟩ := id
  obtain ⟨j⟩ := j
  simp only [slot?, updateEntry, List.getElem?_modify, BlockId.mk.injEq]
  by_cases h : j = i
  · subst h
    cases g.slots[j]? with
    | none => simp
    | some o => cases o <;> simp
  · cases g.slots[j]? <;> simp [h, Ne.symm h]

theorem slot?_updateNode (g : Graph β) (id j : BlockId) (f : Node → Node) :
    (g.updateNode id f).slot? j =
      if j = id then (g.slot? j).map fun e => { e with node := f e.node } else g.slot? j :=
  slot?_updateEntry g id j _

theorem slot?_setBehaviour (g : Graph β) (id j : BlockId) (b : Option β) :
    (g.setBehaviour id b).slot? j =
      if j = id then (g.slot? j).map fun e => { e with behaviour := b } else g.slot? j :=
  slot?_updateEntry g id j _

theorem slot?_clearBuffers (g : Graph β) (j : BlockId) :
    g.clearBuffers.slot? j = (g.slot? j).map fun e => { e with node := e.node.clearBuffers } := by
  simp only [slot?, clearBuffers, List.getElem?_map]
  cases g.slots[j.index]? with
  | none => rfl
  | some o => cases o <;> rfl

theorem slot?_queue (g : Graph β) (id j : BlockId) : (g.queue id).slot? j = g.slot? j := by
  simp only [queue]
  split <;> rfl

/-- An update shows nowhere but in what it changes. -/
theorem map_slots_updateEntry {γ : Type} (g : Graph β) (id : BlockId) {f : Entry β → Entry β}
    {p : Entry β → γ} (hf : ∀ e, p (f e) = p e) :
    (g.updateEntry id f).slots.map (Option.map p) = g.slots.map (Option.map p) := by
  apply List.ext_getElem?
  intro i
  simp only [updateEntry, List.getElem?_map, List.getElem?_modify]
  by_cases h : id.index = i
  · cases g.slots[i]? with
    | none => simp
    | some o => cases o <;> simp [h, hf]
  · cases g.slots[i]? <;> simp [h]

theorem node_eq_ok_iff {g : Graph β} {id : BlockId} {n : Node} :
    g.node id = .ok n ↔ ∃ e, g.slot? id = some e ∧ e.node = n := by
  cases h : g.slot? id <;> simp [node, h]

theorem checkInput_eq_ok_iff {g : Graph β} {id : BlockId} {port : String} :
    g.checkInput id port = .ok () ↔ ∃ e, g.slot? id = some e ∧ port ∈ e.node.inputs := by
  cases h : g.slot? id with
  | none => simp [checkInput, node, h, bind, Except.bind]
  | some e => simp [checkInput, node, h, bind, Except.bind, Node.checkInput_eq_ok_iff]

theorem checkOutput_eq_ok_iff {g : Graph β} {id : BlockId} {port : String} :
    g.checkOutput id port = .ok () ↔ ∃ e, g.slot? id = some e ∧ port ∈ e.node.outputs := by
  cases h : g.slot? id with
  | none => simp [checkOutput, node, h, bind, Except.bind]
  | some e => simp [checkOutput, node, h, bind, Except.bind, Node.checkOutput_eq_ok_iff]

theorem checkEdge_eq_ok_iff {g : Graph β} {edge : Edge} : g.checkEdge edge = .ok () ↔
    g.checkInput edge.subscriber edge.input = .ok () ∧
      g.checkOutput edge.publisher edge.output = .ok () := by
  cases h : g.checkInput edge.subscriber edge.input <;> simp [checkEdge, h, bind, Except.bind]

theorem isSome_slot?_updateEntry (g : Graph β) (id j : BlockId) (f : Entry β → Entry β) :
    ((g.updateEntry id f).slot? j).isSome = (g.slot? j).isSome := by
  rw [slot?_updateEntry]
  split
  · exact Option.isSome_map
  · rfl

theorem updateNode_congr {g : Graph β} {id : BlockId} {e : Entry β} (h : g.slot? id = some e)
    {f f' : Node → Node} (hf : f e.node = f' e.node) : g.updateNode id f = g.updateNode id f' := by
  unfold updateNode updateEntry
  congr 1
  apply List.ext_getElem?
  intro i
  rw [List.getElem?_modify, List.getElem?_modify]
  by_cases hi : id.index = i
  · subst hi
    simp only [slot?] at h
    cases ho : g.slots[id.index]? with
    | none => simp
    | some o =>
      rw [ho] at h
      change o = some e at h
      simp [h, hf]
  · simp [hi]

theorem editNode_eq_ok {g : Graph β} {id : BlockId} {e : Entry β} (h : g.slot? id = some e)
    {f : Node → Except GraphError (α × Node)} {a : α} (f' : Node → Node)
    (hf : f e.node = .ok (a, f' e.node)) : g.editNode id f = .ok a (g.updateNode id f') := by
  have hn : g.node id = .ok e.node := node_eq_ok_iff.mpr ⟨e, h, rfl⟩
  simp only [editNode, hn, bind, Except.bind, hf]
  exact congrArg _ (updateNode_congr h rfl)

theorem isSome_slot?_editNode (g : Graph β) (id j : BlockId)
    (f : Node → Except GraphError (α × Node)) :
    ((g.editNode id f).graph.slot? j).isSome = (g.slot? j).isSome := by
  unfold editNode
  split
  · exact isSome_slot?_updateEntry g id j _
  · rfl

theorem arena_editNode (g : Graph β) (id : BlockId)
    (f : Node → Except GraphError (α × Node)) : (g.editNode id f).graph.arena = g.arena := by
  unfold editNode
  split <;> rfl

theorem slot?_eq_none_of_length_le {g : Graph β} {id : BlockId} (h : g.slots.length ≤ id.index) :
    g.slot? id = none := by
  simp [slot?, List.getElem?_eq_none h]

theorem index_lt_of_slot? {g : Graph β} {id : BlockId} {e : Entry β} (h : g.slot? id = some e) :
    id.index < g.slots.length := by
  by_contra hge
  rw [slot?_eq_none_of_length_le (by omega)] at h
  cases h

/-- What the end of a turn leaves of a block that exists. -/
def settle (g : Graph β) (id : BlockId) (waiting : Bool) : Graph β :=
  if waiting then g.queue id else g.updateNode id Node.clearBuffers

theorem clearBlock_eq {g : Graph β} {id : BlockId} (h : (g.slot? id).isSome) :
    g.clearBlock id = .ok () (g.updateNode id Node.clearBuffers) := by
  obtain ⟨e, he⟩ := Option.isSome_iff_exists.mp h
  exact editNode_eq_ok he _ rfl

theorem endTurn_eq {g : Graph β} {id : BlockId} (h : (g.slot? id).isSome) (waiting : Bool) :
    g.endTurn id waiting = .ok () (g.settle id waiting) := by
  cases waiting with
  | true => rfl
  | false => exact clearBlock_eq h

/-! Layout -/

def layout (g : Graph β) : Graph Unit where
  slots := g.slots.map (Option.map fun e => ⟨none, e.node.outline⟩)
  order := g.order
  arena := g.arena
  processing := []
  receivers := []
  vars := .empty
  metadata := g.metadata
  settings := g.settings
  observers := g.observers
  history := []

/-- The node of a block without its buffers. -/
def outline (g : Graph β) (id : BlockId) : Option Node :=
  (g.slot? id).map fun e => e.node.outline

theorem outline_eq_layout (g : Graph β) (id : BlockId) :
    g.outline id = (g.layout.slot? id).map Entry.node := by
  simp only [outline, layout, slot?, List.getElem?_map]
  cases g.slots[id.index]? with
  | none => rfl
  | some o => cases o <;> rfl

theorem outline_congr {g : Graph α} {h : Graph β} (hl : g.layout = h.layout) (id : BlockId) :
    g.outline id = h.outline id := by
  rw [outline_eq_layout, outline_eq_layout, hl]

theorem order_congr {g : Graph α} {h : Graph β} (hl : g.layout = h.layout) : g.order = h.order :=
  congrArg Graph.order hl

theorem arena_congr {g : Graph α} {h : Graph β} (hl : g.layout = h.layout) : g.arena = h.arena :=
  congrArg Graph.arena hl

theorem settings_congr {g : Graph α} {h : Graph β} (hl : g.layout = h.layout) :
    g.settings = h.settings :=
  congrArg Graph.settings hl

theorem metadata_congr {g : Graph α} {h : Graph β} (hl : g.layout = h.layout) :
    g.metadata = h.metadata :=
  congrArg Graph.metadata hl

theorem observers_congr {g : Graph α} {h : Graph β} (hl : g.layout = h.layout) :
    g.observers = h.observers :=
  congrArg Graph.observers hl

theorem outline_isSome (g : Graph β) (id : BlockId) :
    (g.outline id).isSome = (g.slot? id).isSome := by
  simp [outline]

theorem layout_updateEntry (g : Graph β) (id : BlockId) {f : Entry β → Entry β}
    (hf : ∀ e, (f e).node.outline = e.node.outline) :
    (g.updateEntry id f).layout = g.layout := by
  unfold layout
  rw [map_slots_updateEntry g id fun e => by rw [hf e]]
  rfl

theorem layout_updateNode (g : Graph β) (id : BlockId) {f : Node → Node}
    (hf : ∀ n, (f n).outline = n.outline) : (g.updateNode id f).layout = g.layout :=
  layout_updateEntry g id fun e => hf e.node

@[simp] theorem layout_setBehaviour (g : Graph β) (id : BlockId) (b : Option β) :
    (g.setBehaviour id b).layout = g.layout :=
  layout_updateEntry g id fun _ => rfl

@[simp] theorem layout_record (g : Graph β) (o : Occurrence) : (g.record o).layout = g.layout := rfl

@[simp] theorem layout_notify (g : Graph β) (a : Activity) : (g.notify a).layout = g.layout := rfl

@[simp] theorem layout_setVariable (g : Graph β) (name : String) (v : Value) :
    (g.setVariable name v).layout = g.layout := rfl

@[simp] theorem layout_queue (g : Graph β) (id : BlockId) : (g.queue id).layout = g.layout := by
  simp only [queue]
  split <;> rfl

@[simp] theorem layout_clearBuffers (g : Graph β) : g.clearBuffers.layout = g.layout := by
  simp only [layout, clearBuffers, List.map_map]
  congr 2
  funext o
  cases o <;> rfl

@[simp] theorem layout_startRound (g : Graph β) (round : Nat) :
    (g.startRound round).layout = g.layout := rfl

@[simp] theorem layout_settle (g : Graph β) (id : BlockId) (waiting : Bool) :
    (g.settle id waiting).layout = g.layout := by
  cases waiting with
  | true => exact layout_queue g id
  | false => exact layout_updateNode g id fun _ => rfl

@[simp] theorem layout_startRun (g : Graph β) : g.startRun.layout = g.layout :=
  layout_clearBuffers _

end Graph

end Patchbay
