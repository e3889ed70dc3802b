import Patchbay.Proofs.Moments

/-! A run of an idle sound graph passes through sound graphs only, and leaves an idle one, whichever
way it ends. -/

namespace Patchbay

namespace Graph

variable {β : Type} {g h : Graph β} {id : BlockId}

theorem Sound.clearBuffers (hs : g.Sound) : g.clearBuffers.Sound := by
  have hl := layout_clearBuffers g
  refine hs.of_slots (hs.wired.of_layout hl) rfl rfl
    (fun j hj => by rwa [isSome_slot?_congr hl]) fun j e he port hb => ?_
  rw [slot?_clearBuffers] at he
  obtain ⟨e', -, rfl⟩ := Option.map_eq_some_iff.mp he
  exact absurd rfl hb

theorem Complete.clearBuffers (hc : g.Complete) : g.clearBuffers.Complete := by
  intro j e he
  rw [slot?_clearBuffers] at he
  obtain ⟨e', he', rfl⟩ := Option.map_eq_some_iff.mp he
  exact hc j e' he'

theorem Complete.updateNode (hc : g.Complete) (id : BlockId) (f : Node → Node) :
    (g.updateNode id f).Complete := by
  refine complete_iff.mpr fun j hj => ?_
  rw [behaviour?_updateNode]
  refine complete_iff.mp hc j ?_
  rw [slot?_updateNode] at hj
  split at hj <;> simpa using hj

theorem Sound.clearBlock (hs : g.Sound) (id : BlockId) :
    (g.updateNode id Node.clearBuffers).Sound :=
  hs.updateNode fun _ _ => ⟨rfl, fun _ hb => absurd rfl hb⟩

theorem Sound.requeue (hs : g.Sound) {ids : List BlockId} (hn : ids.Nodup)
    (hl : ∀ id ∈ ids, (g.slot? id).isSome) : ({ g with receivers := ids } : Graph β).Sound where
  wired := hs.wired.of_layout rfl
  stored := hs.stored
  nodup_receivers := hn
  live_receivers := hl
  nodup_processing := hs.nodup_processing
  live_processing := hs.live_processing

theorem Sound.endRound (hs : g.Sound) : ({ g with processing := [] } : Graph β).Sound where
  wired := hs.wired.of_layout rfl
  stored := hs.stored
  nodup_receivers := hs.nodup_receivers
  live_receivers := hs.live_receivers
  nodup_processing := List.nodup_nil
  live_processing _ hm := absurd hm List.not_mem_nil

theorem Sound.dropReceivers (hs : g.Sound) : ({ g with receivers := [] } : Graph β).Sound :=
  hs.requeue List.nodup_nil fun _ hm => absurd hm List.not_mem_nil

theorem Sound.startRound (hs : g.Sound) (round : Nat) : (g.startRound round).Sound where
  wired := hs.wired.of_layout (layout_startRound g round)
  stored := hs.stored
  nodup_receivers := List.nodup_nil
  live_receivers _ hm := absurd hm List.not_mem_nil
  nodup_processing := hs.nodup_receivers
  live_processing := hs.live_receivers

theorem Wired.nodup_order (hw : g.Wired) : g.order.Nodup :=
  hw.order_rising.imp fun hlt heq => by rw [heq] at hlt; omega

theorem Sound.settle (hs : g.Sound) (hl : (g.slot? id).isSome) (waiting : Bool) :
    (g.settle id waiting).Sound := by
  cases waiting with
  | true => exact hs.queue hl
  | false => exact hs.clearBlock id

theorem Complete.settle (hc : g.Complete) (id : BlockId) (waiting : Bool) :
    (g.settle id waiting).Complete := by
  cases waiting with
  | true =>
    simp only [Graph.settle, if_true, queue_eq]
    exact hc
  | false => exact hc.updateNode id _

theorem processing_settle (g : Graph β) (id : BlockId) (waiting : Bool) :
    (g.settle id waiting).processing = g.processing := by
  cases waiting with
  | true => simp only [settle, if_true, queue_eq]
  | false => rfl

theorem history_settle (g : Graph β) (id : BlockId) (waiting : Bool) :
    (g.settle id waiting).history = g.history := by
  cases waiting with
  | true => simp [settle, queue_eq]
  | false => rfl

theorem Sound.startRun (hs : g.Sound) : g.startRun.Sound := by
  have hs' : ({ g with vars := .empty } : Graph β).Sound :=
    hs.of_slots (hs.wired.of_layout rfl) rfl rfl (fun _ hl => hl) hs.stored
  refine (hs'.requeue (hs.wired.nodup_order.filter _) fun id hm => ?_).clearBuffers
  exact (hs.wired.mem_order_iff id).mp (List.mem_of_mem_filter hm)

end Graph

/-- What every moment of a run of `g` satisfies. -/
structure Moment.Regular {β : Type} (g : Graph β) (μ : Moment β) : Prop where
  layout : μ.graph.layout = g.layout
  sound : μ.graph.Sound
  complete : μ.graph.Complete
  pending : μ.pending <:+ μ.graph.processing

namespace Moment

variable {β : Type} {g : Graph β} {μ ν : Moment β} {id : BlockId}

theorem Regular.mem_processing (hr : μ.Regular g) {rest : List BlockId}
    (hp : μ.pending = id :: rest) : id ∈ μ.graph.processing :=
  hr.pending.mem (hp ▸ List.mem_cons_self)

theorem Regular.live_processing (hr : μ.Regular g) (hm : id ∈ μ.graph.processing) :
    g.contains id := by
  have hlive := hr.sound.live_processing id hm
  rwa [Graph.isSome_slot?_congr hr.layout] at hlive

theorem Regular.live_receivers (hr : μ.Regular g) (hm : id ∈ μ.graph.receivers) :
    g.contains id := by
  have hlive := hr.sound.live_receivers id hm
  rwa [Graph.isSome_slot?_congr hr.layout] at hlive

variable [Behaviour β]

theorem Step.regular (hs : μ.Step ν) (hμ : μ.Regular g) : ν.Regular g := by
  obtain ⟨hlayout, hsound, hcomplete, hpending⟩ := hμ
  cases hs with
  | start => exact ⟨hlayout, hsound.startRound _, hcomplete, List.suffix_refl _⟩
  | @invoke k h report id rest fuel waiting hi =>
    have hl : h.layout = k.layout := hsound.wired.layout_invoke hi
    have hp : h.processing = k.processing := hsound.wired.processing_invoke hi
    have hlive : (h.slot? id).isSome := by
      rw [Graph.isSome_slot?_congr hl]
      exact hsound.live_processing id (hpending.mem List.mem_cons_self)
    refine ⟨(Graph.layout_settle _ _ _).trans (hl.trans hlayout),
      (hsound.invoke hi).settle hlive waiting,
      (hsound.wired.complete_invoke hi hcomplete).settle id waiting, ?_⟩
    rw [Graph.processing_settle, hp]
    exact (List.suffix_cons id rest).trans hpending

theorem Step.history_suffix (hr : μ.Regular g) (hs : μ.Step ν) :
    μ.graph.history <:+ ν.graph.history := by
  cases hs with
  | start => exact List.suffix_cons _ _
  | @invoke k h report id rest fuel waiting hi =>
    rw [Graph.history_settle]
    exact hr.sound.wired.history_suffix_invoke hi

theorem history_suffix_of_steps (hr : μ.Regular g) (hs : Relation.ReflTransGen Step μ ν) :
    μ.graph.history <:+ ν.graph.history := by
  have hall : ν.Regular g ∧ μ.graph.history <:+ ν.graph.history := by
    induction hs with
    | refl => exact ⟨hr, List.suffix_refl _⟩
    | tail _ hs ih => exact ⟨hs.regular ih.1, ih.2.trans (hs.history_suffix ih.1)⟩
  exact hall.2

end Moment

namespace Graph

variable {β : Type} [Behaviour β] {g : Graph β} {μ : Moment β}

theorem Visits.regular (hs : g.Sound) (hc : g.Complete) (hv : g.Visits μ) : μ.Regular g := by
  induction hv with
  | refl => exact ⟨layout_startRun g, hs.startRun, hc.clearBuffers, List.nil_suffix⟩
  | tail _ hstep ih => exact hstep.regular ih

theorem Visits.history_suffix (hs : g.Sound) (hc : g.Complete) (hv : g.Visits μ) :
    g.history <:+ μ.graph.history :=
  Moment.history_suffix_of_steps (Visits.regular hs hc .refl) hv

theorem Sound.ends (hs : μ.graph.Sound) (hc : μ.graph.Complete) {r : Reply β Unit}
    (he : μ.Ends r) : r.graph.Sound ∧ r.graph.Complete := by
  cases he with
  | quiet | limit => exact ⟨hs, hc⟩
  | failure hi => exact ⟨hs.invoke hi, hs.wired.complete_invoke hi hc⟩

omit [Behaviour β] in
theorem Sound.closeRun {r : Reply β Unit} (hs : r.graph.Sound) (hc : r.graph.Complete)
    (report : RunReport) : (closeRun report r).graph.Sound ∧ (closeRun report r).graph.Idle := by
  cases r with
  | ok u h => exact ⟨hs.endRound.record _, rfl, hc⟩
  | error e h =>
    have hc' : ({ h with processing := [], receivers := [] } : Graph β).Complete := hc
    exact ⟨hs.endRound.dropReceivers.clearBuffers.record _, rfl, hc'.clearBuffers⟩

theorem Sound.run (hs : g.Sound) (hi : g.Idle) {fuel : Nat} {reply : Reply β RunReport}
    (hr : g.run fuel = some reply) : reply.graph.Sound ∧ reply.graph.Idle := by
  obtain ⟨μ, r, hv, he, rfl⟩ := run_eq_some_iff.mp ⟨fuel, hr⟩
  have hμ := hv.regular hs hi.complete
  obtain ⟨hs', hc'⟩ := hμ.sound.ends hμ.complete he
  exact hs'.closeRun hc' μ.report

theorem processBlock_eq (g : Graph β) (fuel : Nat) (id : BlockId) : g.processBlock fuel id =
    (g.invoke fuel id).map fun
      | .error e h => .error e { h with receivers := [] }
      | .ok true h => .ok true { h with receivers := [] }
      | .ok false h => .ok false ({ h with receivers := [] }.updateNode id Node.clearBuffers) := by
  unfold processBlock
  cases hi : g.invoke fuel id with
  | none => rfl
  | some reply =>
    cases reply with
    | error err h => rfl
    | ok waiting h =>
      cases waiting with
      | true => rfl
      | false =>
        have hl : (h.slot? id).isSome := isSome_slot?_invoke hi
        have hl' : (slot? { h with receivers := [] } id).isSome := hl
        simp [clearBlock_eq hl']

theorem Sound.processBlock (hs : g.Sound) (hi : g.Idle) {fuel : Nat} {id : BlockId}
    {reply : Reply β Bool} (hr : g.processBlock fuel id = some reply) :
    reply.graph.Sound ∧ reply.graph.Idle := by
  rw [processBlock_eq] at hr
  obtain ⟨answer, hinv, rfl⟩ := Option.map_eq_some_iff.mp hr
  have hs' : ({ answer.graph with receivers := [] } : Graph β).Sound :=
    (hs.invoke hinv).dropReceivers
  have hp : answer.graph.processing = [] := (hs.wired.processing_invoke hinv).trans hi.processing
  have hc : answer.graph.Complete := hs.wired.complete_invoke hinv hi.complete
  have hc' : ({ answer.graph with receivers := [] } : Graph β).Complete := hc
  cases answer with
  | error err h => exact ⟨hs', hp, hc'⟩
  | ok waiting h =>
    cases waiting with
    | true => exact ⟨hs', hp, hc'⟩
    | false => exact ⟨hs'.clearBlock id, hp, hc'.updateNode id _⟩

end Graph

end Patchbay
