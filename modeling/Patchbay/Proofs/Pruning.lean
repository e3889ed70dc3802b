import Patchbay.Proofs.Operations
import Patchbay.Proofs.Parts

/-! Removing blocks. Whichever blocks are removed, in whatever order, what is left of the graph is
the selection of what it had by the blocks that are kept. -/

namespace Patchbay.Graph

variable {β : Type} {S T : BlockId → Bool} {g h k : Graph β}

/-- Whether `h` is what is left of `g` without the blocks that do not satisfy `S`. -/
structure Pruned (S : BlockId → Bool) (g h : Graph β) : Prop where
  order : h.order = g.order.filter S
  arena : h.arena.entries = g.arena.entries.filter fun x => S x.2.publisher && S x.2.subscriber
  slots : ∀ id, h.unwired.slot? id = if S id then g.unwired.slot? id else none
  processing : h.processing = g.processing.filter S
  receivers : h.receivers = g.receivers.filter S
  observers : h.observers = g.observers
  settings : h.settings = g.settings

namespace Pruned

theorem trans (hg : Pruned S g h) (hh : Pruned T h k) :
    Pruned (fun id => T id && S id) g k where
  order := by rw [hh.order, hg.order, List.filter_filter]
  arena := by
    rw [hh.arena, hg.arena, List.filter_filter]
    refine List.filter_congr fun x _ => ?_
    rw [Bool.eq_iff_iff]
    simp only [Bool.and_eq_true]
    tauto
  slots id := by
    rw [hh.slots, hg.slots]
    cases S id <;> cases T id <;> rfl
  processing := by rw [hh.processing, hg.processing, List.filter_filter]
  receivers := by rw [hh.receivers, hg.receivers, List.filter_filter]
  observers := hh.observers.trans hg.observers
  settings := hh.settings.trans hg.settings

theorem congr (hs : g.Sound) (hp : Pruned S g h) (hST : ∀ id, g.contains id → S id = T id) :
    Pruned T g h where
  order := by
    rw [hp.order]
    exact List.filter_congr fun id hm => hST id ((hs.wired.mem_order_iff id).mp hm)
  arena := by
    rw [hp.arena]
    refine List.filter_congr fun x hx => ?_
    have hget := hs.wired.arena.get?_eq_some_iff.mpr hx
    rw [hST _ (hs.wired.live_publisher hget), hST _ (hs.wired.live_subscriber hget)]
  slots id := by
    rw [hp.slots]
    by_cases hl : g.contains id
    · rw [hST id hl]
    · have hnone : g.unwired.slot? id = none := by
        rw [slot?_unwired, Option.map_eq_none_iff]
        simpa [contains] using hl
      simp [hnone]
  processing := by
    rw [hp.processing]
    exact List.filter_congr fun id hm => hST id (hs.live_processing id hm)
  receivers := by
    rw [hp.receivers]
    exact List.filter_congr fun id hm => hST id (hs.live_receivers id hm)
  observers := hp.observers
  settings := hp.settings

theorem refl (g : Graph β) : Pruned (fun _ => true) g g := by
  constructor <;> simp

theorem part (hp : Pruned S g h) (hw : g.Wired) (hw' : h.Wired) (hc : g.Ancestral S) :
    Part S g h where
  source := hw
  target := hw'
  order := hp.order
  edges id port := by
    rw [Arena.edgesFrom, Arena.edgesFrom, hp.arena, List.filter_filter, List.filter_map,
      List.filter_filter]
    refine congrArg (List.map Prod.snd) (List.filter_congr fun x hx => ?_)
    obtain ⟨s, edge⟩ := x
    have hpub : S edge.subscriber = true → S edge.publisher = true :=
      hc _ _ ⟨s, edge, hw.arena.get?_eq_some_iff.mpr hx, rfl, rfl⟩
    rw [Bool.eq_iff_iff]
    simp only [Bool.and_eq_true, Function.comp_apply]
    tauto
  closed := hc
  observers := hp.observers
  entries id hid := by rw [hp.slots, if_pos hid]
  processing := hp.processing
  receivers := hp.receivers

end Pruned

theorem frame_removeSubscriptions (g : Graph β) (ids : List SubscriptionId) :
    (g.removeSubscriptions ids).order = g.order ∧
      (g.removeSubscriptions ids).processing = g.processing ∧
      (g.removeSubscriptions ids).receivers = g.receivers ∧
      (g.removeSubscriptions ids).observers = g.observers ∧
      (g.removeSubscriptions ids).settings = g.settings := by
  have hu := unwired_removeSubscriptions g ids
  have ho := congrArg Graph.order hu
  have hp := congrArg Graph.processing hu
  have hr := congrArg Graph.receivers hu
  have hobs := congrArg Graph.observers hu
  have hset := congrArg Graph.settings hu
  exact ⟨ho, hp, hr, hobs, hset⟩

theorem Sound.pruned_remove (hs : g.Sound) (id : BlockId) :
    Pruned (· ≠ id) g (g.remove id).graph := by
  cases he : g.slot? id with
  | none =>
    have hsame : (g.remove id).graph = g := by simp [remove_eq_unknown he]
    rw [hsame]
    refine (Pruned.refl g).congr hs fun j hj => ?_
    have hne : j ≠ id := by
      rintro rfl
      simp [contains, he] at hj
    simp [hne]
  | some e =>
    rw [graph_remove he]
    obtain ⟨ho, hp, hr, hobs, hset⟩ := frame_removeSubscriptions g e.node.edges
    have harena := (hs.wired.removeSubscriptions e.node.edges).2
    refine ⟨congrArg (List.filter _) ho, ?_, fun j => ?_, congrArg (List.filter _) hp,
      congrArg (List.filter _) hr, hobs, hset⟩
    · refine harena.trans (List.filter_congr fun x hx => ?_)
      obtain ⟨s, edge⟩ := x
      have hiff := hs.wired.mem_edges_iff he hx
      rw [Bool.eq_iff_iff]
      simp only [decide_eq_true_eq, Bool.and_eq_true, hiff, not_or]
    · have hkeep := slot?_unwired (g.removeSubscriptions e.node.edges) j
      rw [unwired_removeSubscriptions] at hkeep
      rw [slot?_unwired, slot?_vacate]
      by_cases hj : j = id
      · simp [hj]
      · simp [hj, hkeep]

/-! Removing several blocks -/

def removeAll (g : Graph β) (ids : List BlockId) : Graph β :=
  ids.foldl (fun g id => (g.remove id).graph) g

theorem Ready.removeAll (hg : g.Ready) (ids : List BlockId) :
    (g.removeAll ids).Ready ∧ Pruned (!ids.contains ·) g (g.removeAll ids) := by
  induction ids generalizing g with
  | nil =>
    refine ⟨hg, (Pruned.refl g).congr hg.toSound fun id _ => ?_⟩
    simp
  | cons id rest ih =>
    have hg' : (g.remove id).graph.Ready := ⟨hg.toSound.remove id, hg.toIdle.remove id⟩
    obtain ⟨hready, hpruned⟩ := ih hg'
    refine ⟨hready, ((hg.toSound.pruned_remove id).trans hpruned).congr hg.toSound fun j _ => ?_⟩
    simp [Bool.and_comm]

end Patchbay.Graph
