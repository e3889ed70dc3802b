import Patchbay.Proofs.Arena
import Patchbay.Proofs.Dict
import Patchbay.Proofs.Layout

/-! In a wired graph the lists at both ends of every edge are selections of the arena's entries, so
the arena is the only record of the wiring. Every operation on blocks and subscriptions keeps it
so. -/

namespace Patchbay

namespace Node

/-- A node with only what the wiring of a graph depends on. -/
def wiring (n : Node) : Node :=
  { n with typeName := "", parameters := .empty, buffers := .empty, metadata := .empty }

def unwired (n : Node) : Node := { n with subscriptions := .empty, subscribers := .empty }

@[simp] theorem wiring_outline (n : Node) : n.outline.wiring = n.wiring := rfl

/-- What the node of block `id` becomes when an edge is connected under a number. -/
def connected (n : Node) (id : BlockId) (edge : Edge) (s : SubscriptionId) : Node :=
  let n := if id = edge.subscriber then n.attachSubscription edge.input s else n
  if id = edge.publisher then n.attachSubscriber edge.output s else n

def disconnected (n : Node) (id : BlockId) (edge : Edge) (s : SubscriptionId) : Node :=
  let n := if id = edge.publisher then n.detachSubscriber edge.output s else n
  if id = edge.subscriber then n.detachSubscription edge.input s else n

section

variable (n : Node) (id : BlockId) (edge : Edge) (s : SubscriptionId)

theorem connected_ports : (n.connected id edge s).id = n.id ∧
    (n.connected id edge s).inputs = n.inputs ∧ (n.connected id edge s).outputs = n.outputs := by
  simp only [connected]
  split <;> split <;> exact ⟨rfl, rfl, rfl⟩

theorem disconnected_ports : (n.disconnected id edge s).id = n.id ∧
    (n.disconnected id edge s).inputs = n.inputs ∧
    (n.disconnected id edge s).outputs = n.outputs := by
  simp only [disconnected]
  split <;> split <;> exact ⟨rfl, rfl, rfl⟩

theorem wiring_connected :
    (n.connected id edge s).wiring = n.wiring.connected id edge s := by
  simp only [connected]
  split <;> split <;> rfl

theorem wiring_disconnected :
    (n.disconnected id edge s).wiring = n.wiring.disconnected id edge s := by
  simp only [disconnected]
  split <;> split <;> rfl

theorem connected_subscribers (o : String) : (n.connected id edge s).subscribers.list o =
    n.subscribers.list o ++ if edge.publisher = id ∧ edge.output = o then [s] else [] := by
  have hm : (if id = edge.subscriber then n.attachSubscription edge.input s else n).subscribers =
      n.subscribers := by split <;> rfl
  simp only [connected]
  split
  · next hp =>
    simp only [attachSubscriber, Dict.list_setList, hm]
    by_cases ho : o = edge.output <;> simp [hp, ho, eq_comm]
  · next hp => simp [hm, Ne.symm hp]

theorem connected_subscriptions (i : String) : (n.connected id edge s).subscriptions.list i =
    n.subscriptions.list i ++ if edge.subscriber = id ∧ edge.input = i then [s] else [] := by
  have hm : ∀ m : Node, (if id = edge.publisher then m.attachSubscriber edge.output s
      else m).subscriptions = m.subscriptions := by intro m; split <;> rfl
  simp only [connected]
  rw [hm]
  split
  · next hs =>
    simp only [attachSubscription, Dict.list_setList, hs, true_and]
    by_cases hi : i = edge.input <;> simp [hi, eq_comm]
  · next hs => simp [Ne.symm hs]

theorem disconnected_subscribers (o : String) : (n.disconnected id edge s).subscribers.list o =
    if edge.publisher = id ∧ edge.output = o then (n.subscribers.list o).filter (· ≠ s)
    else n.subscribers.list o := by
  have hm : ∀ m : Node, (if id = edge.subscriber then m.detachSubscription edge.input s
      else m).subscribers = m.subscribers := by intro m; split <;> rfl
  simp only [disconnected]
  rw [hm]
  split
  · next hp =>
    simp only [detachSubscriber, Dict.list_setList, hp, true_and]
    by_cases ho : o = edge.output <;> simp [ho, eq_comm]
  · next hp => simp [Ne.symm hp]

theorem disconnected_subscriptions (i : String) :
    (n.disconnected id edge s).subscriptions.list i =
      if edge.subscriber = id ∧ edge.input = i then (n.subscriptions.list i).filter (· ≠ s)
      else n.subscriptions.list i := by
  have hm : (if id = edge.publisher then n.detachSubscriber edge.output s else n).subscriptions =
      n.subscriptions := by split <;> rfl
  simp only [disconnected]
  split
  · next hs =>
    simp only [detachSubscription, Dict.list_setList, hm]
    by_cases hi : i = edge.input <;> simp [hs, hi, eq_comm]
  · next hs => simp [hm, Ne.symm hs]

end

theorem mem_edges {n : Node} {s : SubscriptionId} : s ∈ n.edges ↔
    (∃ i, s ∈ n.subscriptions.list i) ∨ ∃ o, s ∈ n.subscribers.list o := by
  simp only [edges, List.mem_eraseDups, List.mem_mergeSort, List.flatten_append, List.mem_append,
    Dict.mem_flatten_values]

theorem nodup_distinct (names : List String) : (distinct names).Nodup := by
  induction names with
  | nil => exact List.nodup_nil
  | cons name rest ih =>
    refine List.nodup_cons.mpr ⟨fun hm => ?_, ih.filter _⟩
    simpa using (List.mem_filter.mp hm).2

end Node

namespace Graph

variable {α β : Type}

def wiring (g : Graph β) (id : BlockId) : Option Node := (g.slot? id).map fun e => e.node.wiring

theorem wiring_of_slot? {g : Graph β} {id : BlockId} {e : Entry β} (h : g.slot? id = some e) :
    g.wiring id = some e.node.wiring := by
  simp [wiring, h]

theorem exists_slot?_of_wiring {g : Graph β} {id : BlockId} {n : Node} (h : g.wiring id = some n) :
    ∃ e, g.slot? id = some e ∧ e.node.wiring = n := by
  simpa [wiring, Option.map_eq_some_iff] using h

theorem wiring_isSome (g : Graph β) (id : BlockId) :
    (g.wiring id).isSome = (g.slot? id).isSome := by
  simp [wiring]

theorem wiring_congr {g : Graph α} {h : Graph β} (hl : g.layout = h.layout) (id : BlockId) :
    g.wiring id = h.wiring id := by
  have ho := congrArg (Option.map Node.wiring) (outline_congr hl id)
  simpa [outline, wiring, Option.map_map, Function.comp_def] using ho

def unwired (g : Graph β) : Graph β :=
  { g with
    slots := g.slots.map (Option.map fun e => { e with node := e.node.unwired })
    arena := .empty
    history := [] }

theorem slot?_unwired (g : Graph β) (id : BlockId) :
    g.unwired.slot? id = (g.slot? id).map fun e => { e with node := e.node.unwired } := by
  simp only [slot?, unwired, List.getElem?_map]
  cases g.slots[id.index]? with
  | none => rfl
  | some o => cases o <;> rfl

theorem unwired_updateNode (g : Graph β) (id : BlockId) {f : Node → Node}
    (hf : ∀ n, (f n).unwired = n.unwired) : (g.updateNode id f).unwired = g.unwired := by
  unfold unwired updateNode
  rw [map_slots_updateEntry g id fun e => by rw [hf e.node]]
  rfl

structure Wired (g : Graph β) : Prop where
  arena : g.arena.Sound
  mem_order : ∀ id, id ∈ g.order ↔ (g.wiring id).isSome
  order_rising : g.order.Pairwise fun a b => a.index < b.index
  named : ∀ id n, g.wiring id = some n → n.id = id
  ports : ∀ id n, g.wiring id = some n → n.inputs.Nodup ∧ n.outputs.Nodup
  leaving : ∀ id n, g.wiring id = some n → ∀ o, n.subscribers.list o = g.arena.leaving id o
  entering : ∀ id n, g.wiring id = some n → ∀ i, n.subscriptions.list i = g.arena.entering id i
  publisher : ∀ s e, (s, e) ∈ g.arena.entries →
    ∃ n, g.wiring e.publisher = some n ∧ e.output ∈ n.outputs
  subscriber : ∀ s e, (s, e) ∈ g.arena.entries →
    ∃ n, g.wiring e.subscriber = some n ∧ e.input ∈ n.inputs

theorem Wired.congr {g : Graph α} {h : Graph β} (hw : g.Wired) (ha : h.arena = g.arena)
    (ho : h.order = g.order) (hn : ∀ id, h.wiring id = g.wiring id) : h.Wired where
  arena := ha ▸ hw.arena
  mem_order id := by rw [ho, hn]; exact hw.mem_order id
  order_rising := ho ▸ hw.order_rising
  named id n hs := hw.named id n (hn id ▸ hs)
  ports id n hs := hw.ports id n (hn id ▸ hs)
  leaving id n hs := ha ▸ hw.leaving id n (hn id ▸ hs)
  entering id n hs := ha ▸ hw.entering id n (hn id ▸ hs)
  publisher s e hm := hn e.publisher ▸ hw.publisher s e (ha ▸ hm)
  subscriber s e hm := hn e.subscriber ▸ hw.subscriber s e (ha ▸ hm)

theorem Wired.of_layout {g : Graph α} {h : Graph β} (hw : g.Wired) (hl : h.layout = g.layout) :
    h.Wired :=
  hw.congr (arena_congr hl) (order_congr hl) (wiring_congr hl)

theorem Wired.new (settings : RunSettings) : (Graph.new settings : Graph β).Wired where
  arena := .empty
  mem_order id := by simp [wiring, slot?, Graph.new]
  order_rising := .nil
  named id n hs := by simp [wiring, slot?, Graph.new] at hs
  ports id n hs := by simp [wiring, slot?, Graph.new] at hs
  leaving id n hs := by simp [wiring, slot?, Graph.new] at hs
  entering id n hs := by simp [wiring, slot?, Graph.new] at hs
  publisher s e hm := absurd hm List.not_mem_nil
  subscriber s e hm := absurd hm List.not_mem_nil

/-! Looking at one slot -/

theorem Wired.subscribers_list {g : Graph β} (hw : g.Wired) {id : BlockId} {e : Entry β}
    (h : g.slot? id = some e) (o : String) : e.node.subscribers.list o = g.arena.leaving id o :=
  hw.leaving id _ (wiring_of_slot? h) o

theorem Wired.subscriptions_list {g : Graph β} (hw : g.Wired) {id : BlockId} {e : Entry β}
    (h : g.slot? id = some e) (i : String) : e.node.subscriptions.list i = g.arena.entering id i :=
  hw.entering id _ (wiring_of_slot? h) i

theorem Wired.exists_publisher {g : Graph β} (hw : g.Wired) {s : SubscriptionId} {edge : Edge}
    (h : g.arena.get? s = some edge) :
    ∃ e, g.slot? edge.publisher = some e ∧ edge.output ∈ e.node.outputs := by
  obtain ⟨n, hn, ho⟩ := hw.publisher s edge (hw.arena.get?_eq_some_iff.mp h)
  obtain ⟨e, he, rfl⟩ := exists_slot?_of_wiring hn
  exact ⟨e, he, ho⟩

theorem Wired.exists_subscriber {g : Graph β} (hw : g.Wired) {s : SubscriptionId} {edge : Edge}
    (h : g.arena.get? s = some edge) :
    ∃ e, g.slot? edge.subscriber = some e ∧ edge.input ∈ e.node.inputs := by
  obtain ⟨n, hn, ho⟩ := hw.subscriber s edge (hw.arena.get?_eq_some_iff.mp h)
  obtain ⟨e, he, rfl⟩ := exists_slot?_of_wiring hn
  exact ⟨e, he, ho⟩

theorem Wired.live_publisher {g : Graph β} (hw : g.Wired) {s : SubscriptionId} {edge : Edge}
    (h : g.arena.get? s = some edge) : (g.slot? edge.publisher).isSome := by
  obtain ⟨e, he, -⟩ := hw.exists_publisher h
  exact Option.isSome_iff_exists.mpr ⟨e, he⟩

theorem Wired.live_subscriber {g : Graph β} (hw : g.Wired) {s : SubscriptionId} {edge : Edge}
    (h : g.arena.get? s = some edge) : (g.slot? edge.subscriber).isSome := by
  obtain ⟨e, he, -⟩ := hw.exists_subscriber h
  exact Option.isSome_iff_exists.mpr ⟨e, he⟩

theorem Wired.mem_order_iff {g : Graph β} (hw : g.Wired) (id : BlockId) :
    id ∈ g.order ↔ (g.slot? id).isSome := by
  rw [hw.mem_order, wiring_isSome]

/-- A node may change in whatever the wiring does not depend on. -/
theorem Wired.updateNode {g : Graph β} (hw : g.Wired) {id : BlockId} {f : Node → Node}
    (hf : ∀ e, g.slot? id = some e → (f e.node).wiring = e.node.wiring) :
    (g.updateNode id f).Wired := by
  refine hw.congr rfl rfl fun j => ?_
  simp only [wiring, slot?_updateNode]
  split
  · next h =>
    subst h
    cases hs : g.slot? j with
    | none => rfl
    | some e => simp [hf e hs]
  · rfl

end Graph

end Patchbay
