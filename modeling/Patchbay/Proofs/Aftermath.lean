import Patchbay.Blocks.Block
import Patchbay.Proofs.Operations
import Patchbay.Proofs.Rounds

/-! What a run leaves behind. A block that buffers a value is still to be invoked, so nothing is
buffered when a run succeeds, and a run that fails drops whatever it had delivered. -/

namespace Patchbay

/-- Whatever buffers a value is still to be invoked, in this round or in the next one. -/
def Moment.Attended {β : Type} (μ : Moment β) : Prop :=
  ∀ id port, μ.graph.buffer id port ≠ [] → id ∈ μ.pending ∨ id ∈ μ.graph.receivers

namespace Moment

variable {β : Type} [Behaviour β] {g : Graph β} {μ ν : Moment β}

theorem Step.attended (hs : μ.Step ν) (hr : μ.Regular g) (ha : μ.Attended) : ν.Attended := by
  intro j port hb
  cases hs with
  | start => exact Or.inl ((ha j port hb).resolve_left List.not_mem_nil)
  | @invoke k h report id rest fuel waiting hi =>
    have hw := hr.sound.wired
    by_cases hid : j = id
    · -- A block whose turn is over keeps its values only if it waits, and then it is queued.
      subst hid
      cases waiting with
      | true => exact Or.inr (Graph.mem_receivers_settle.mpr (Or.inr ⟨rfl, rfl⟩))
      | false => exact absurd (Graph.buffer_settle_done h j port) hb
    · rw [Graph.buffer_settle_of_ne h hid] at hb
      have hkeep : j ∈ h.receivers → j ∈ (h.settle id waiting).receivers :=
        fun hm => Graph.mem_receivers_settle.mpr (Or.inl hm)
      rcases hw.buffer_invoke_ne_nil hi hb with hb | hm
      · rcases ha j port hb with hm | hm
        · exact Or.inl ((List.mem_cons.mp hm).resolve_left hid)
        · exact Or.inr (hkeep (hw.receivers_subset_invoke hi hm))
      · exact Or.inr (hkeep hm)

end Moment

namespace Graph

variable {β : Type} {g h : Graph β}

/-- Nothing is buffered, queued or being processed in `h`, every behaviour is in its place, and all
else but variables and history is as in `g`. -/
structure Restored (g h : Graph β) : Prop where
  buffer : ∀ id port, h.buffer id port = []
  receivers : h.receivers = []
  processing : h.processing = []
  behaviour : ∀ id, g.contains id → (h.behaviour? id).isSome
  order : h.order = g.order
  arena : h.arena = g.arena
  outline : ∀ id, h.outline id = g.outline id
  metadata : h.metadata = g.metadata
  settings : h.settings = g.settings
  observers : h.observers = g.observers

theorem Restored.of_layout (hl : h.layout = g.layout) (hi : h.Idle) (hq : h.receivers = [])
    (hb : ∀ id port, h.buffer id port = []) : Restored g h where
  buffer := hb
  receivers := hq
  processing := hi.processing
  behaviour id hm := complete_iff.mp hi.complete id ((isSome_slot?_congr hl id).trans hm)
  order := order_congr hl
  arena := arena_congr hl
  outline := outline_congr hl
  metadata := metadata_congr hl
  settings := settings_congr hl
  observers := observers_congr hl

variable [Behaviour β] {μ : Moment β}

theorem Visits.attended (hs : g.Sound) (hc : g.Complete) (hv : g.Visits μ) : μ.Attended := by
  induction hv with
  | refl => exact fun id port hb => absurd (buffer_clearBuffers _ id port) hb
  | tail hv' hstep ih => exact hstep.attended (Visits.regular hs hc hv') ih

theorem Visits.layout_ends (hs : g.Sound) (hc : g.Complete) (hv : g.Visits μ) {r : Reply β Unit}
    (he : μ.Ends r) : r.graph.layout = g.layout := by
  have hr := hv.regular hs hc
  cases he with
  | quiet | limit => exact hr.layout
  | failure hi => exact (hr.sound.wired.layout_invoke hi).trans hr.layout

/-- A run that answers, whatever it answers, leaves nothing buffered, queued or being processed and
every behaviour in its place, and the blocks, their wiring, parameters and metadata and the settings
are what they were. -/
theorem Reachable.run_restores (hr : g.Reachable) {fuel : Nat} {reply : Reply β RunReport}
    (hrun : g.run fuel = some reply) : Restored g reply.graph := by
  have hg := hr.ready
  obtain ⟨μ, r, hv, he, rfl⟩ := run_eq_some_iff.mp ⟨fuel, hrun⟩
  have hl := hv.layout_ends hg.toSound hg.complete he
  have hi : (closeRun μ.report r).graph.Idle := (hg.toSound.run hg.toIdle hrun).2
  cases r with
  | error err h =>
    refine .of_layout ((layout_clearBuffers _).trans hl) hi rfl fun id port => ?_
    exact buffer_clearBuffers _ id port
  | ok u h =>
    cases he with
    | quiet hq =>
      refine .of_layout hl hi hq fun id port => ?_
      by_contra hb
      have hm := hv.attended hg.toSound hg.complete id port hb
      rw [hq] at hm
      exact hm.elim List.not_mem_nil List.not_mem_nil

/-- A scripted block delivers a value to a block that was processed before it, and fails. -/
def failingScript : List (Operation Block) :=
  [.add (.builtin (.source (.bool true))), .add (.builtin .forward),
    .add (.script (.new ⟨"Relay", "", .general, .empty, .standard⟩
      [.drain defaultInput defaultOutput, .fail "broken"])),
    .subscribe ⟨1⟩ defaultInput ⟨0⟩ Builtin.dataName,
    .subscribe ⟨2⟩ defaultInput ⟨0⟩ Builtin.dataName,
    .subscribe ⟨1⟩ defaultInput ⟨2⟩ defaultOutput]

theorem run_restores_failingScript : ∃ (g h : Graph Block),
    performAll 1 failingScript (.new .standard) = some g ∧
    g.run 9 = some (.error (.unsuitableValue ⟨2⟩ "broken") h) ∧ Restored g h := by
  have hdec : (performAll 1 failingScript (.new .standard)).any (fun g =>
      (g.run 9).any fun reply => reply.result.map (fun _ => ()) =
        .error (.unsuitableValue ⟨2⟩ "broken")) = true := by decide +kernel
  obtain ⟨g, hg, hany⟩ := (Option.any_eq_true _ _).mp hdec
  obtain ⟨reply, hrun, hres⟩ := (Option.any_eq_true _ _).mp hany
  have hr : g.Reachable := Reachable.performAll (.new _) hg
  cases reply with
  | ok report h => cases of_decide_eq_true hres
  | error err h =>
    cases of_decide_eq_true hres
    exact ⟨g, h, hg, hrun, Reachable.run_restores hr hrun⟩

end Graph

end Patchbay
