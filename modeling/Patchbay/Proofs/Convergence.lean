import Patchbay.Proofs.Limits
import Patchbay.Proofs.Rounds
import Mathlib.Data.Nat.Find
import Mathlib.Order.Bounds.Defs

/-! Runs without cycles. Whatever is processed in a round lies at the end of a path with as many
edges as there were rounds before, and without cycles no path has as many edges as there are
blocks. -/

namespace Patchbay

open HostsBuiltins (block)

variable {β : Type} [Behaviour β] [HostsBuiltins β] {g : Graph β} {μ ν : Moment β}

/-- At the end of a path of `n` edges lies every block of round `n + 1`, and those queued for the
next round lie one edge further. -/
structure Moment.Layered (g : Graph β) (μ : Moment β) : Prop where
  processing : ∀ id ∈ μ.graph.processing, ∃ n, n + 1 = μ.report.rounds ∧ g.PathTo n id
  receivers : ∀ id ∈ μ.graph.receivers, g.PathTo μ.report.rounds id

omit [Behaviour β] [HostsBuiltins β] in
theorem Moment.Layered.start {g : Graph β} (hp : g.processing = []) :
    Moment.Layered g ⟨g.startRun, ⟨0, 0⟩, []⟩ where
  processing id hm := by
    have hnil : g.startRun.processing = [] := hp
    rw [hnil] at hm
    cases hm
  receivers id _ := .nil id

theorem Moment.Layered.step (hl : μ.Layered g) (hr : μ.Regular g)
    (hb : ∀ id ∈ μ.graph.processing, ∃ b, μ.graph.behaviour? id = some (block b))
    (hs : μ.Step ν) : ν.Layered g := by
  cases hs with
  | start =>
    exact ⟨fun id hm => ⟨_, rfl, hl.receivers id hm⟩, fun _ hm => absurd hm List.not_mem_nil⟩
  | @invoke k h report id rest fuel waiting hi =>
    have hw := hr.sound.wired
    have hproc : (h.settle id waiting).processing = k.processing :=
      (Graph.processing_settle h id waiting).trans (hw.processing_invoke hi)
    have hid : id ∈ k.processing := hr.pending.mem List.mem_cons_self
    refine ⟨fun j hm => hl.processing j (hproc ▸ hm), fun j hm => ?_⟩
    rcases Graph.mem_receivers_settle.mp hm with hm | ⟨rfl, rfl⟩
    · rcases hw.mem_receivers_invoke hi hm with hm | hf
      · exact hl.receivers j hm
      · obtain ⟨n, hn, hpath⟩ := hl.processing id hid
        rw [Graph.feeds_congr hr.layout] at hf
        exact hn ▸ hpath.snoc hf
    · -- A block that waits lies further down than another block of its round.
      obtain ⟨b, hbe⟩ := hb j hid
      obtain ⟨i, hi, hlead⟩ := hw.exists_upstream_of_waiting hbe hi
      obtain ⟨n, hn, hpath⟩ := hl.processing i hi
      rw [Graph.leadsTo_congr hr.layout] at hlead
      exact hn ▸ hpath.leadsTo hlead

namespace Graph

section

variable (hg : g.Ready) (hb : g.MadeOfBuiltins) (hv : g.Visits μ)

include hg hb hv

theorem Visits.layered : μ.Layered g := by
  induction hv with
  | refl => exact .start hg.processing
  | tail hv' hs ih =>
    have hr := Visits.regular hg.toSound hg.complete hv'
    refine ih.step hr (fun id hm => ?_) hs
    obtain ⟨b, -, hbe⟩ := Visits.exists_builtin hg hb hv' hm
    exact ⟨b, hbe⟩

theorem Visits.rounds_lt_size (ha : g.Acyclic) (hq : μ.graph.receivers ≠ []) :
    μ.report.rounds < g.size := by
  have hr := Visits.regular hg.toSound hg.complete hv
  obtain ⟨id, hm⟩ := List.exists_mem_of_ne_nil _ hq
  exact ((hv.layered hg hb).receivers id hm).lt_size hg.wired ha (hr.live_receivers hm)

theorem Visits.rounds_le_size (ha : g.Acyclic) : μ.report.rounds ≤ g.size := by
  induction hv with
  | refl => exact Nat.zero_le _
  | tail hv' hs ih =>
    cases hs with
    | start hq => exact Visits.rounds_lt_size hg hb hv' ha hq
    | invoke => exact ih

end

omit [Behaviour β] [HostsBuiltins β] in
theorem Acyclic.not_loopsBack (hw : g.Wired) (ha : g.Acyclic) (id : BlockId) (output : String) :
    ¬g.LoopsBack id output := by
  intro hb
  obtain ⟨s, hs⟩ := hw.hasEdge_iff.mp hb.1
  exact ha id (.single ⟨s, _, hw.arena.get?_eq_some_iff.mpr hs, rfl, rfl⟩)

omit [Behaviour β] [HostsBuiltins β] in
theorem Acyclic.exists_longest (hw : g.Wired) (ha : g.Acyclic) {id : BlockId}
    (hl : g.contains id) : ∃ d, IsGreatest {n | g.PathTo n id} d := by
  classical
  refine ⟨Nat.findGreatest (g.PathTo · id) g.size, ?_, fun n hn => ?_⟩
  · exact Nat.findGreatest_spec (P := (g.PathTo · id)) (Nat.zero_le _) (.nil id)
  · exact Nat.le_findGreatest (Nat.le_of_lt (PathTo.lt_size hw ha hn hl)) hn

theorem Ready.ne_notConverged (hg : g.Ready) (hb : g.MadeOfBuiltins) (ha : g.Acyclic)
    (hm : ∀ limit, g.settings.maxRounds = some limit → g.size ≤ limit) (fuel rounds : Nat)
    (h : Graph β) : g.run fuel ≠ some (.error (.notConverged rounds) h) := by
  intro hrun
  obtain ⟨μ, r, hv, he, hreply⟩ := run_eq_some_iff.mp ⟨fuel, hrun⟩
  have hr := hv.regular hg.toSound hg.complete
  cases he with
  | quiet => cases hreply
  | @limit k report hq hl =>
    -- A limit that a run meets is at most the number of rounds before a queued block.
    obtain ⟨limit, hlimit, hle⟩ := Option.any_eq_true .. |>.mp hl
    have hset : k.settings = g.settings := settings_congr hr.layout
    have hlt : report.rounds < g.size := hv.rounds_lt_size hg hb ha hq
    have hsize := hm limit (hset ▸ hlimit)
    have hle' := of_decide_eq_true hle
    omega
  | @failure k h' report id rest fuel' err hi =>
    obtain ⟨b, -, hbe⟩ := hv.exists_builtin hg hb (hr.mem_processing rfl)
    have hloc := hr.sound.wired.located_of_invoke_builtin hbe hi
    cases hreply
    cases hloc

/-- A run of built-in blocks without cycles answers. A block is processed in a round whose number is
at most one more than the edges of a longest path to it, so there are no more rounds than blocks,
and no limit that allows that many is ever met. -/
theorem Reachable.acyclic_run (hr : g.Reachable) (hb : g.MadeOfBuiltins) (ha : g.Acyclic) :
    (∃ fuel reply, g.run fuel = some reply) ∧
    (∀ μ id rest, g.Visits μ → μ.pending = id :: rest →
      ∃ d, IsGreatest {n | g.PathTo n id} d ∧ μ.report.rounds ≤ d + 1) ∧
    (∀ μ, g.Visits μ → μ.report.rounds ≤ g.size) ∧
    ((∀ limit, g.settings.maxRounds = some limit → g.size ≤ limit) →
      ∀ fuel rounds h, g.run fuel ≠ some (.error (.notConverged rounds) h)) := by
  have hg := hr.ready
  have hsize : ∀ μ, g.Visits μ → μ.report.rounds ≤ g.size :=
    fun μ hv => hv.rounds_le_size hg hb ha
  have hnot := hg.not_comesToRevolve fun id _ => ha.not_loopsBack hg.wired id _
  refine ⟨hg.exists_run_of_bounded hb hsize hnot, fun μ id rest hv hp => ?_, hsize,
    hg.ne_notConverged hb ha⟩
  have hμ := hv.regular hg.toSound hg.complete
  have hid : id ∈ μ.graph.processing := hμ.mem_processing hp
  obtain ⟨d, hd⟩ := ha.exists_longest hg.wired (hμ.live_processing hid)
  obtain ⟨n, hn, hpath⟩ := (hv.layered hg hb).processing id hid
  have hle : n ≤ d := hd.2 hpath
  exact ⟨d, hd, by omega⟩

/-- A source feeds a comparison directly and through two other blocks, so the comparison waits. -/
def lateComparison (limit : Nat) : List (Operation Builtin) :=
  [.add (.source (.bool true)), .add .forward, .add .forward, .add .compare,
    .subscribe ⟨1⟩ defaultInput ⟨0⟩ Builtin.dataName,
    .subscribe ⟨2⟩ defaultInput ⟨1⟩ defaultOutput,
    .subscribe ⟨3⟩ Builtin.valuesInput ⟨0⟩ Builtin.dataName,
    .subscribe ⟨3⟩ Builtin.compareInput ⟨2⟩ defaultOutput, .configure ⟨some limit, false⟩]

theorem acyclic_run_of_lateComparison : ∃ g : Graph Builtin,
    performAll 1 (lateComparison 4) (.new .standard) = some g ∧ g.MadeOfBuiltins ∧ g.Acyclic ∧
    g.arena.size = 4 ∧ (∃ fuel reply, g.run fuel = some reply) ∧
    ∀ fuel rounds h, g.run fuel ≠ some (.error (.notConverged rounds) h) := by
  have hdec : (performAll 1 (lateComparison 4) (.new .standard : Graph Builtin)).any
      (fun g => g.settings.maxRounds = some 4 ∧ g.size = 4 ∧ g.arena.size = 4 ∧
        ∀ x ∈ g.arena.entries, x.2.publisher.index < x.2.subscriber.index) = true := by
    decide +kernel
  obtain ⟨g, hg, hp⟩ := (Option.any_eq_true _ _).mp hdec
  obtain ⟨hm, hsize, hedges, hrising⟩ := of_decide_eq_true hp
  have hr : g.Reachable := Reachable.performAll (.new _) hg
  have hb := hr.ready.complete.madeOfBuiltins
  have ha := hr.ready.wired.acyclic_of_rising hrising
  obtain ⟨hruns, -, -, hconv⟩ := Reachable.acyclic_run hr hb ha
  refine ⟨g, hg, hb, ha, hedges, hruns, hconv fun limit hlimit => ?_⟩
  rw [hm] at hlimit
  cases hlimit
  exact Nat.le_of_eq hsize

end Graph

end Patchbay
