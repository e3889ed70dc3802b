import Patchbay.Proofs.Delivery
import Patchbay.Proofs.Rewiring

/-! A sound graph is wired, buffers values on declared inputs only and queues live blocks once each.
That holds in the middle of a run too; an idle graph is one between two operations, where no round
is in progress and every block has its behaviour. -/

namespace Patchbay.Graph

variable {β : Type} {g h : Graph β}

structure Sound (g : Graph β) : Prop where
  wired : g.Wired
  stored : ∀ id e, g.slot? id = some e → ∀ port, e.node.buffers.list port ≠ [] →
    port ∈ e.node.inputs
  nodup_receivers : g.receivers.Nodup
  live_receivers : ∀ id ∈ g.receivers, (g.slot? id).isSome
  nodup_processing : g.processing.Nodup
  live_processing : ∀ id ∈ g.processing, (g.slot? id).isSome

def Complete (g : Graph β) : Prop := ∀ id e, g.slot? id = some e → e.behaviour.isSome

structure Idle (g : Graph β) : Prop where
  processing : g.processing = []
  complete : g.Complete

theorem behaviour?_of_slot? {id : BlockId} {e : Entry β} (h : g.slot? id = some e) :
    g.behaviour? id = e.behaviour := by
  simp [behaviour?, h]

theorem complete_iff : g.Complete ↔
    ∀ id, (g.slot? id).isSome → (g.behaviour? id).isSome := by
  constructor
  · intro hc id hl
    obtain ⟨e, he⟩ := Option.isSome_iff_exists.mp hl
    rw [behaviour?_of_slot? he]
    exact hc id e he
  · intro hc id e he
    rw [← behaviour?_of_slot? he]
    exact hc id (Option.isSome_iff_exists.mpr ⟨e, he⟩)

theorem Sound.new (settings : RunSettings) : (Graph.new settings : Graph β).Sound where
  wired := .new settings
  stored id e he := by simp [slot?, Graph.new] at he
  nodup_receivers := List.nodup_nil
  live_receivers _ hm := absurd hm List.not_mem_nil
  nodup_processing := List.nodup_nil
  live_processing _ hm := absurd hm List.not_mem_nil

theorem Idle.new (settings : RunSettings) : (Graph.new settings : Graph β).Idle where
  processing := rfl
  complete id e he := by simp [slot?, Graph.new] at he

/-- What has to be shown of an operation that leaves the queues as they are. -/
theorem Sound.of_slots (hs : g.Sound) (hw : h.Wired) (hr : h.receivers = g.receivers)
    (hp : h.processing = g.processing)
    (hlive : ∀ id, (g.slot? id).isSome → (h.slot? id).isSome)
    (hstored : ∀ id e, h.slot? id = some e → ∀ port, e.node.buffers.list port ≠ [] →
      port ∈ e.node.inputs) : h.Sound where
  wired := hw
  stored := hstored
  nodup_receivers := hr ▸ hs.nodup_receivers
  live_receivers id hm := hlive id (hs.live_receivers id (hr ▸ hm))
  nodup_processing := hp ▸ hs.nodup_processing
  live_processing id hm := hlive id (hs.live_processing id (hp ▸ hm))

/-! Rewiring -/

theorem exists_slot?_of_unwired (hu : h.unwired = g.unwired) {id : BlockId} {e : Entry β}
    (he : h.slot? id = some e) : ∃ e', g.slot? id = some e' ∧ e'.behaviour = e.behaviour ∧
      e'.node.unwired = e.node.unwired := by
  have hs := slot?_unwired h id
  rw [hu, slot?_unwired, he] at hs
  obtain ⟨e', he', heq⟩ := Option.map_eq_some_iff.mp hs
  obtain ⟨hb, hn⟩ := Entry.mk.inj heq
  exact ⟨e', he', hb, hn⟩

theorem Sound.of_unwired (hs : g.Sound) (hw : h.Wired) (hu : h.unwired = g.unwired) : h.Sound := by
  have hr : h.unwired.receivers = g.unwired.receivers := congrArg Graph.receivers hu
  have hp : h.unwired.processing = g.unwired.processing := congrArg Graph.processing hu
  refine hs.of_slots hw hr hp (fun id hl => ?_) fun id e he port hb => ?_
  · have hsome := congrArg Option.isSome (slot?_unwired h id)
    rw [hu, slot?_unwired, Option.isSome_map, Option.isSome_map] at hsome
    rwa [← hsome]
  · obtain ⟨e', he', -, hn⟩ := exists_slot?_of_unwired hu he
    have hbuf : e'.node.unwired.buffers = e.node.unwired.buffers := congrArg Node.buffers hn
    have hin : e'.node.unwired.inputs = e.node.unwired.inputs := congrArg Node.inputs hn
    change e'.node.buffers = e.node.buffers at hbuf
    change e'.node.inputs = e.node.inputs at hin
    exact hin ▸ hs.stored id e' he' port (hbuf ▸ hb)

theorem Idle.of_unwired (hi : g.Idle) (hu : h.unwired = g.unwired) : h.Idle where
  processing := by
    have hp : h.unwired.processing = g.unwired.processing := congrArg Graph.processing hu
    exact hp.trans hi.processing
  complete id e he := by
    obtain ⟨e', he', hb, -⟩ := exists_slot?_of_unwired hu he
    exact hb ▸ hi.complete id e' he'

theorem Sound.vacate (hs : g.Sound) {id : BlockId} (hw : (g.vacate id).Wired) :
    (g.vacate id).Sound where
  wired := hw
  stored j e he := by
    rw [slot?_vacate] at he
    split at he
    · cases he
    · exact hs.stored j e he
  nodup_receivers := hs.nodup_receivers.filter _
  live_receivers j hm := by
    obtain ⟨hm, hne⟩ := List.mem_filter.mp hm
    rw [slot?_vacate, if_neg (by simpa using hne)]
    exact hs.live_receivers j hm
  nodup_processing := hs.nodup_processing.filter _
  live_processing j hm := by
    obtain ⟨hm, hne⟩ := List.mem_filter.mp hm
    rw [slot?_vacate, if_neg (by simpa using hne)]
    exact hs.live_processing j hm

theorem Idle.vacate (hi : g.Idle) (id : BlockId) : (g.vacate id).Idle where
  processing := by simp [Graph.vacate, hi.processing]
  complete j e he := by
    rw [slot?_vacate] at he
    split at he
    · cases he
    · exact hi.complete j e he

theorem Sound.remove (hs : g.Sound) (id : BlockId) : (g.remove id).graph.Sound := by
  have hw := hs.wired.remove id
  cases hx : g.slot? id with
  | none => simpa [remove_eq_unknown hx] using hs
  | some e =>
    rw [graph_remove hx] at hw ⊢
    exact (hs.of_unwired (hs.wired.removeSubscriptions _).1
      (unwired_removeSubscriptions g _)).vacate hw

theorem Idle.remove (hi : g.Idle) (id : BlockId) : (g.remove id).graph.Idle := by
  cases hx : g.slot? id with
  | none => simpa [remove_eq_unknown hx] using hi
  | some e =>
    rw [graph_remove hx]
    exact (hi.of_unwired (unwired_removeSubscriptions g _)).vacate id

theorem remove_eq_ok {id : BlockId} {b : β} (hb : g.behaviour? id = some b) :
    ∃ h, g.remove id = .ok b h := by
  obtain ⟨e, he, hbe⟩ := Option.bind_eq_some_iff.mp hb
  exact ⟨_, by rw [remove_eq he, hbe]⟩

theorem Sound.add [Behaviour β] (hs : g.Sound) (b : β) : (g.add b).2.Sound := by
  refine hs.of_slots (hs.wired.add b) rfl rfl (fun id hl => ?_) fun id e he port hb => ?_
  · rw [slot?_add]
    split
    · rfl
    · exact hl
  · rw [slot?_add] at he
    split at he
    · cases he
      exact absurd rfl hb
    · exact hs.stored id e he port hb

theorem Idle.add [Behaviour β] (hi : g.Idle) (b : β) : (g.add b).2.Idle where
  processing := hi.processing
  complete id e he := by
    rw [slot?_add] at he
    split at he
    · cases he
      rfl
    · exact hi.complete id e he

/-! One node -/

theorem Sound.updateNode (hs : g.Sound) {id : BlockId} {f : Node → Node}
    (hf : ∀ e, g.slot? id = some e → (f e.node).wiring = e.node.wiring ∧
      ∀ port, (f e.node).buffers.list port ≠ [] → port ∈ e.node.inputs) :
    (g.updateNode id f).Sound := by
  refine hs.of_slots (hs.wired.updateNode fun e he => (hf e he).1) rfl rfl (fun j hl => ?_)
    fun j e he port hb => ?_
  · rw [slot?_updateNode]
    split <;> simpa using hl
  · rw [slot?_updateNode] at he
    split at he
    · next hj =>
      subst hj
      obtain ⟨e', he', rfl⟩ := Option.map_eq_some_iff.mp he
      obtain ⟨hw, hb'⟩ := hf e' he'
      have hin : (f e'.node).wiring.inputs = e'.node.wiring.inputs := congrArg Node.inputs hw
      change (f e'.node).inputs = e'.node.inputs at hin
      exact hin ▸ hb' port hb
    · exact hs.stored j e he port hb

theorem Idle.updateNode (hi : g.Idle) (id : BlockId) (f : Node → Node) :
    (g.updateNode id f).Idle where
  processing := hi.processing
  complete j e he := by
    rw [slot?_updateNode] at he
    split at he
    · obtain ⟨e', he', rfl⟩ := Option.map_eq_some_iff.mp he
      exact hi.complete j e' he'
    · exact hi.complete j e he

/-! Queues -/

theorem Sound.queue (hs : g.Sound) {id : BlockId} (hl : (g.slot? id).isSome) :
    (g.queue id).Sound where
  wired := hs.wired.of_layout (layout_queue g id)
  stored j e he := hs.stored j e (slot?_queue g id j ▸ he)
  nodup_receivers := nodup_receivers_queue hs.nodup_receivers
  live_receivers j hm := by
    rw [slot?_queue]
    rcases mem_receivers_queue.mp hm with hm | rfl
    · exact hs.live_receivers j hm
    · exact hl
  nodup_processing := by
    rw [queue_eq]
    exact hs.nodup_processing
  live_processing j hm := by
    rw [queue_eq] at hm
    rw [slot?_queue]
    exact hs.live_processing j hm

theorem Sound.record (hs : g.Sound) (o : Occurrence) : (g.record o).Sound :=
  hs.of_slots (hs.wired.of_layout (layout_record g o)) rfl rfl (fun _ hl => hl) hs.stored

theorem Sound.accept (hs : g.Sound) {s : SubscriptionId} {edge : Edge}
    (hg : g.arena.get? s = some edge) (v : Value) : (g.accept v edge).Sound := by
  obtain ⟨x, hx, hin⟩ := hs.wired.exists_subscriber hg
  refine ((hs.record _).queue ?_).updateNode fun e he => ⟨rfl, fun port hb => ?_⟩
  · exact Option.isSome_iff_exists.mpr ⟨x, hx⟩
  · rw [slot?_queue] at he
    change g.slot? _ = _ at he
    rw [hx] at he
    cases he
    simp only [Node.store, Dict.list_setList] at hb
    split at hb
    · next hp => exact hp ▸ hin
    · exact hs.stored _ x hx port hb

theorem Idle.queue (hi : g.Idle) (id : BlockId) : (g.queue id).Idle := by
  rw [queue_eq]
  exact ⟨hi.processing, hi.complete⟩

theorem Idle.accept (hi : g.Idle) (v : Value) (edge : Edge) : (g.accept v edge).Idle := by
  have hn : (g.notify (.received edge.subscriber edge v)).Idle := ⟨hi.processing, hi.complete⟩
  exact (hn.queue _).updateNode _ _

end Patchbay.Graph
