import Patchbay.Blocks.Builtin
import Patchbay.Proofs.Operations

/-! A graph records its wiring five times: in both maps of the arena, in the lists at both ends of
every edge and in the order of blocks. Whatever was done to a graph, these records agree. -/

namespace Patchbay.Graph

variable {β : Type} {g : Graph β}

def subscribers (g : Graph β) (id : BlockId) (output : String) : List SubscriptionId :=
  ((g.slot? id).map fun e => e.node.subscribers.list output).getD []

def subscriptions (g : Graph β) (id : BlockId) (input : String) : List SubscriptionId :=
  ((g.slot? id).map fun e => e.node.subscriptions.list input).getD []

structure Coherent (g : Graph β) : Prop where
  inverse : ∀ s edge, g.arena.get? s = some edge ↔ g.arena.find? edge = some s
  bounded : ∀ s edge, g.arena.get? s = some edge → s.number ≤ g.arena.lastNumber
  listed : ∀ s edge, g.arena.get? s = some edge ↔
    (g.subscribers edge.publisher edge.output).count s = 1 ∧
      (g.subscriptions edge.subscriber edge.input).count s = 1
  only_subscriber : ∀ s id output, s ∈ g.subscribers id output →
    ∃ edge, g.arena.get? s = some edge ∧ edge.publisher = id ∧ edge.output = output
  only_subscription : ∀ s id input, s ∈ g.subscriptions id input →
    ∃ edge, g.arena.get? s = some edge ∧ edge.subscriber = id ∧ edge.input = input
  publisher : ∀ s edge, g.arena.get? s = some edge →
    ∃ e, g.slot? edge.publisher = some e ∧ edge.output ∈ e.node.outputs
  subscriber : ∀ s edge, g.arena.get? s = some edge →
    ∃ e, g.slot? edge.subscriber = some e ∧ edge.input ∈ e.node.inputs
  subscribers_rising : ∀ id output,
    (g.subscribers id output).Pairwise fun s t => s.number < t.number
  subscriptions_rising : ∀ id input,
    (g.subscriptions id input).Pairwise fun s t => s.number < t.number
  order_count : ∀ id, g.order.count id = if g.contains id then 1 else 0
  order_rising : g.order.Pairwise fun a b => a.index < b.index
  receivers_live : ∀ id ∈ g.receivers, g.contains id
  receivers_nodup : g.receivers.Nodup
  processing : g.processing = []
  behaviour : ∀ id, g.contains id → (g.behaviour? id).isSome
  stored : ∀ id port, g.buffer id port ≠ [] →
    ∃ e, g.slot? id = some e ∧ port ∈ e.node.inputs

theorem Wired.subscribers_eq (hw : g.Wired) (id : BlockId) (output : String) :
    g.subscribers id output = g.arena.leaving id output := by
  cases hs : g.slot? id with
  | some e => simp [subscribers, hs, hw.subscribers_list hs]
  | none =>
    refine Eq.trans (by simp [subscribers, hs])
      (List.eq_nil_iff_forall_not_mem.mpr fun s hm => ?_).symm
    obtain ⟨edge, hm, hp⟩ := Arena.mem_select.mp hm
    obtain ⟨e, he, -⟩ := hw.exists_publisher (hw.arena.get?_eq_some_iff.mpr hm)
    rw [(of_decide_eq_true hp).1, hs] at he
    cases he

theorem Wired.subscriptions_eq (hw : g.Wired) (id : BlockId) (input : String) :
    g.subscriptions id input = g.arena.entering id input := by
  cases hs : g.slot? id with
  | some e => simp [subscriptions, hs, hw.subscriptions_list hs]
  | none =>
    refine Eq.trans (by simp [subscriptions, hs])
      (List.eq_nil_iff_forall_not_mem.mpr fun s hm => ?_).symm
    obtain ⟨edge, hm, hp⟩ := Arena.mem_select.mp hm
    obtain ⟨e, he, -⟩ := hw.exists_subscriber (hw.arena.get?_eq_some_iff.mpr hm)
    rw [(of_decide_eq_true hp).1, hs] at he
    cases he

theorem nodup_of_rising {l : List SubscriptionId} (h : l.Pairwise fun s t => s.number < t.number) :
    l.Nodup :=
  h.imp fun hlt heq => by rw [heq] at hlt; omega

/-- A number stands in the lists of one edge only, as the four ends of an edge make it up. -/
theorem Wired.listed (hw : g.Wired) (s : SubscriptionId) (edge : Edge) :
    g.arena.get? s = some edge ↔ s ∈ g.subscribers edge.publisher edge.output ∧
      s ∈ g.subscriptions edge.subscriber edge.input := by
  rw [hw.arena.get?_eq_some_iff, hw.subscribers_eq, hw.subscriptions_eq]
  constructor
  · intro hm
    exact ⟨Arena.mem_select.mpr ⟨edge, hm, by simp⟩, Arena.mem_select.mpr ⟨edge, hm, by simp⟩⟩
  · rintro ⟨hp, hs⟩
    obtain ⟨⟨p, o, t, i⟩, hm, hpub⟩ := Arena.mem_select.mp hp
    have hsub := of_decide_eq_true ((hw.arena.mem_select_iff hm).mp hs)
    obtain ⟨rfl, rfl⟩ := of_decide_eq_true hpub
    obtain ⟨rfl, rfl⟩ := hsub
    exact hm

theorem Ready.toCoherent (hg : g.Ready) : g.Coherent where
  inverse s edge := by
    rw [hg.wired.arena.get?_eq_some_iff, hg.wired.arena.find?_eq_some_iff]
  bounded s edge hs := hg.wired.arena.bounded _ (hg.wired.arena.get?_eq_some_iff.mp hs)
  listed s edge := by
    have hp : (g.subscribers edge.publisher edge.output).Nodup := by
      rw [hg.wired.subscribers_eq]
      exact nodup_of_rising (hg.wired.arena.select_rising _)
    have hs : (g.subscriptions edge.subscriber edge.input).Nodup := by
      rw [hg.wired.subscriptions_eq]
      exact nodup_of_rising (hg.wired.arena.select_rising _)
    rw [hg.wired.listed, hp.count, hs.count]
    simp
  only_subscriber s id output hm := by
    rw [hg.wired.subscribers_eq] at hm
    obtain ⟨edge, he, hp⟩ := Arena.mem_select.mp hm
    exact ⟨edge, hg.wired.arena.get?_eq_some_iff.mpr he, of_decide_eq_true hp⟩
  only_subscription s id input hm := by
    rw [hg.wired.subscriptions_eq] at hm
    obtain ⟨edge, he, hp⟩ := Arena.mem_select.mp hm
    exact ⟨edge, hg.wired.arena.get?_eq_some_iff.mpr he, of_decide_eq_true hp⟩
  publisher _ _ := hg.wired.exists_publisher
  subscriber _ _ := hg.wired.exists_subscriber
  subscribers_rising id output := by
    rw [hg.wired.subscribers_eq]
    exact hg.wired.arena.select_rising _
  subscriptions_rising id input := by
    rw [hg.wired.subscriptions_eq]
    exact hg.wired.arena.select_rising _
  order_count id := by
    rw [hg.wired.nodup_order.count]
    by_cases hl : g.contains id <;> simp_all [hg.wired.mem_order_iff, contains]
  order_rising := hg.wired.order_rising
  receivers_live := hg.live_receivers
  receivers_nodup := hg.nodup_receivers
  processing := hg.processing
  behaviour := complete_iff.mp hg.complete
  stored id port hb := by
    cases hs : g.slot? id with
    | none => simp [buffer, hs] at hb
    | some e => exact ⟨e, rfl, hg.stored id e hs port (by rwa [← buffer_of_slot? hs])⟩

/-- Any sequence of operations, failing ones included, leaves the records in agreement. -/
theorem Reachable.coherent [Behaviour β] (hr : g.Reachable) : g.Coherent := hr.ready.toCoherent

/-- A block that feeds itself is run, two calls fail, and the block that fed it is removed. -/
def mixedOperations : List (Operation Builtin) :=
  [.add (.source (.bool true)), .add .compare,
    .subscribe ⟨1⟩ Builtin.valuesInput ⟨0⟩ Builtin.dataName,
    .subscribe ⟨1⟩ Builtin.valuesInput ⟨1⟩ Builtin.lessOutput,
    .publish ⟨1⟩ Builtin.equalOutput ⟨1⟩ Builtin.messageInput,
    .pushValue ⟨2⟩ Builtin.valuesInput .null, .run, .remove ⟨0⟩,
    .output ⟨1⟩ Builtin.lessOutput .null]

theorem coherent_after_mixedOperations : ∃ g : Graph Builtin,
    performAll 9 mixedOperations (.new .standard) = some g ∧ g.Coherent := by
  have hsome : (performAll 9 mixedOperations (.new .standard)).isSome := by decide +kernel
  obtain ⟨g, hg⟩ := Option.isSome_iff_exists.mp hsome
  exact ⟨g, hg, Reachable.coherent (Reachable.performAll (.new _) hg)⟩

end Patchbay.Graph
