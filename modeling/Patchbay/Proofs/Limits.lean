import Patchbay.Proofs.Invocations
import Patchbay.Proofs.Operations

/-! Runs of built-in blocks under a limit of rounds. The limit is looked at between rounds only, so
a run ends unless one of its invocations goes on for ever. -/

namespace Patchbay.Graph

open HostsBuiltins (block)

variable {β : Type} [Behaviour β] [HostsBuiltins β] {g : Graph β} {μ : Moment β}

def MadeOfBuiltins (g : Graph β) : Prop :=
  ∀ id, g.contains id → ∃ b, g.behaviour? id = some (block b)

theorem Complete.madeOfBuiltins {g : Graph Builtin} (hc : g.Complete) : g.MadeOfBuiltins :=
  fun id hl => Option.isSome_iff_exists.mp (complete_iff.mp hc id hl)

section

variable (hg : g.Ready) (hb : g.MadeOfBuiltins) (hv : g.Visits μ)

include hg hb hv

theorem Visits.exists_builtin {id : BlockId} (hm : id ∈ μ.graph.processing) :
    ∃ b, g.behaviour? id = some (block b) ∧ μ.graph.behaviour? id = some (block b) := by
  obtain ⟨b, hbe⟩ := hb id ((hv.regular hg.toSound hg.complete).live_processing hm)
  exact ⟨b, hbe, hv.behaviour?_builtin hg.toSound hg.complete hbe⟩

theorem Visits.invoke_iff {id : BlockId} {rest : List BlockId} (hp : μ.pending = id :: rest) :
    (∃ fuel reply, μ.graph.invoke fuel id = some reply) ↔
      ¬(g.behaviour? id = some (block .compare) ∧ μ.graph.Revolves id) := by
  have hμ := hv.regular hg.toSound hg.complete
  obtain ⟨b, hbe, hkeep⟩ := hv.exists_builtin hg hb (hμ.mem_processing hp)
  constructor
  · rintro hi ⟨hcmp, hr⟩
    have hkeep' := hv.behaviour?_builtin hg.toSound hg.complete hcmp
    exact (hμ.sound.wired.invoke_builtin_iff hkeep').mp hi ⟨rfl, hr⟩
  · intro hn
    refine (hμ.sound.wired.invoke_builtin_iff hkeep).mpr ?_
    rintro ⟨rfl, hr⟩
    exact hn ⟨hbe, hr⟩

omit [HostsBuiltins β] hb in
theorem Visits.rounds_le_limit {limit : Nat} (hm : g.settings.maxRounds = some limit) :
    μ.report.rounds ≤ limit :=
  hv.rounds_le fun ν hν => by
    rw [settings_congr (hν.regular hg.toSound hg.complete).layout, hm]

end

/-- A run leaves every block what it was. -/
theorem Ready.behaviour?_run (hg : g.Ready) (hb : g.MadeOfBuiltins) {fuel : Nat}
    {reply : Reply β RunReport} (hr : g.run fuel = some reply) {id : BlockId}
    (hl : g.contains id) : reply.graph.behaviour? id = g.behaviour? id := by
  obtain ⟨μ, r, hv, he, rfl⟩ := run_eq_some_iff.mp ⟨fuel, hr⟩
  obtain ⟨b, hbe⟩ := hb id hl
  have hkeep := hv.behaviour?_builtin hg.toSound hg.complete hbe
  have hw := (hv.regular hg.toSound hg.complete).sound.wired
  rw [behaviour?_closeRun, hbe]
  cases he with
  | quiet | limit => exact hkeep
  | @failure k h report j rest fuel' err hi =>
    by_cases hj : id = j
    · subst hj
      exact hw.behaviour?_invoke_builtin hkeep hi
    · exact (hw.behaviour?_invoke hi hj).trans hkeep

def ComesToRevolve (g : Graph β) : Prop := ∃ μ id rest, g.Visits μ ∧ μ.pending = id :: rest ∧
  g.behaviour? id = some (block .compare) ∧ μ.graph.Revolves id

theorem Ready.exists_run_of_bounded (hg : g.Ready) (hb : g.MadeOfBuiltins) {bound : Nat}
    (hle : ∀ μ, g.Visits μ → μ.report.rounds ≤ bound) (hr : ¬g.ComesToRevolve) :
    ∃ fuel reply, g.run fuel = some reply :=
  Graph.exists_run_of_bounded hle fun μ id rest hv hp =>
    (hv.invoke_iff hg hb hp).mpr fun ⟨hcmp, hrev⟩ => hr ⟨μ, id, rest, hv, hp, hcmp, hrev⟩

theorem Ready.run_eq_none (hg : g.Ready) (hb : g.MadeOfBuiltins) (hr : g.ComesToRevolve)
    (fuel : Nat) : g.run fuel = none := by
  obtain ⟨μ, id, rest, hv, hp, hcmp, hrev⟩ := hr
  refine run_eq_none_of_visits hv hp (fun fuel' => ?_) fuel
  refine Option.eq_none_iff_forall_not_mem.mpr fun reply hi => ?_
  exact (hv.invoke_iff hg hb hp).mp ⟨fuel', reply, hi⟩ ⟨hcmp, hrev⟩

/-- Nothing revolves without a comparison whose output for ties feeds both of its inputs. -/
theorem Ready.not_comesToRevolve (hg : g.Ready)
    (hloop : ∀ id, g.behaviour? id = some (block .compare) →
      ¬g.LoopsBack id Builtin.equalOutput) : ¬g.ComesToRevolve := by
  rintro ⟨μ, id, rest, hv, -, hcmp, hrev⟩
  exact hloop id hcmp (hrev.1.congr (hv.regular hg.toSound hg.complete).layout.symm)

/-- A limited run of built-in blocks starts no more rounds than the limit allows, and it answers
exactly when no comparison comes to revolve in it. Where no comparison feeds both of its inputs from
its output for ties, the run and all its invocations answer. -/
theorem Reachable.limited_run (hr : g.Reachable) (hb : g.MadeOfBuiltins) {limit : Nat}
    (hm : g.settings.maxRounds = some limit) :
    (∀ μ, g.Visits μ → μ.report.rounds ≤ limit) ∧
    ((∃ fuel reply, g.run fuel = some reply) ↔ ¬g.ComesToRevolve) ∧
    ((∀ id, g.behaviour? id = some (block .compare) → ¬g.LoopsBack id Builtin.equalOutput) →
      (∃ fuel reply, g.run fuel = some reply) ∧
      ∀ μ id rest, g.Visits μ → μ.pending = id :: rest →
        ∃ fuel reply, μ.graph.invoke fuel id = some reply) := by
  have hg := hr.ready
  have hle : ∀ μ, g.Visits μ → μ.report.rounds ≤ limit :=
    fun μ hv => hv.rounds_le_limit hg hm
  refine ⟨hle, ⟨?_, hg.exists_run_of_bounded hb hle⟩, fun hloop => ?_⟩
  · rintro ⟨fuel, reply, hrun⟩ hrev
    rw [hg.run_eq_none hb hrev fuel] at hrun
    cases hrun
  · have hnot := hg.not_comesToRevolve hloop
    refine ⟨hg.exists_run_of_bounded hb hle hnot, fun μ id rest hv hp => ?_⟩
    exact (hv.invoke_iff hg hb hp).mpr fun ⟨hcmp, hrev⟩ => hnot ⟨μ, id, rest, hv, hp, hcmp, hrev⟩

/-- A source feeds both inputs of a comparison, which feeds its ties back to the first of them and
another of its outputs back to both. -/
def comparisonLoop (limit : Nat) (output : String) : List (Operation Builtin) :=
  [.add (.source (.bool true)), .add .compare,
    .subscribe ⟨1⟩ Builtin.valuesInput ⟨0⟩ Builtin.dataName,
    .subscribe ⟨1⟩ Builtin.compareInput ⟨0⟩ Builtin.dataName,
    .subscribe ⟨1⟩ Builtin.valuesInput ⟨1⟩ Builtin.equalOutput,
    .subscribe ⟨1⟩ Builtin.valuesInput ⟨1⟩ output, .subscribe ⟨1⟩ Builtin.compareInput ⟨1⟩ output,
    .configure ⟨some limit, false⟩]

theorem limited_run_of_comparisonLoop : ∃ g : Graph Builtin,
    performAll 1 (comparisonLoop 3 Builtin.lessOutput) (.new .standard) = some g ∧
    g.MadeOfBuiltins ∧ g.settings.maxRounds = some 3 ∧
    (∀ μ, g.Visits μ → μ.report.rounds ≤ 3) ∧ ∃ fuel reply, g.run fuel = some reply := by
  have hdec : (performAll 1 (comparisonLoop 3 Builtin.lessOutput)
      (.new .standard : Graph Builtin)).any (fun g => g.settings.maxRounds = some 3 ∧
        ∀ x ∈ g.arena.entries, x.2.output = Builtin.equalOutput →
          x.2.input ≠ Builtin.compareInput) = true := by decide +kernel
  obtain ⟨g, hg, hp⟩ := (Option.any_eq_true _ _).mp hdec
  obtain ⟨hm, hno⟩ := of_decide_eq_true hp
  have hr : g.Reachable := Reachable.performAll (.new _) hg
  have hb := hr.ready.complete.madeOfBuiltins
  obtain ⟨hle, -, hruns⟩ := Reachable.limited_run hr hb hm
  refine ⟨g, hg, hb, hm, hle, (hruns fun id _ hloop => ?_).1⟩
  obtain ⟨s, hs⟩ := hr.ready.wired.hasEdge_iff.mp hloop.2
  exact hno _ hs rfl rfl

/-- Two rounds are allowed and the second never ends, as each tie comes back to both inputs. -/
theorem limited_run_without_answer : ∃ g : Graph Builtin,
    performAll 1 (comparisonLoop 2 Builtin.equalOutput) (.new .standard) = some g ∧
    g.Reachable ∧ g.MadeOfBuiltins ∧ g.settings.maxRounds = some 2 ∧
    ∀ fuel, g.run fuel = none := by
  have hdec : (performAll 1 (comparisonLoop 2 Builtin.equalOutput)
      (.new .standard : Graph Builtin)).any (fun g => g.settings.maxRounds = some 2 ∧
        (g.course 1 3).any fun μ => μ.pending = [⟨1⟩] ∧ g.behaviour? ⟨1⟩ = some .compare ∧
          μ.graph.hasEdge ⟨⟨1⟩, Builtin.equalOutput, ⟨1⟩, Builtin.valuesInput⟩ = true ∧
          μ.graph.hasEdge ⟨⟨1⟩, Builtin.equalOutput, ⟨1⟩, Builtin.compareInput⟩ = true ∧
          μ.graph.buffer ⟨1⟩ Builtin.valuesInput = [.bool true] ∧
          μ.graph.buffer ⟨1⟩ Builtin.compareInput = [.bool true]) = true := by decide +kernel
  obtain ⟨g, hg, hp⟩ := (Option.any_eq_true _ _).mp hdec
  obtain ⟨hm, hany⟩ := of_decide_eq_true hp
  obtain ⟨μ, hμ, hq⟩ := (Option.any_eq_true _ _).mp hany
  obtain ⟨hpend, hcmp, hv, hc, hvs, hos⟩ := of_decide_eq_true hq
  have hr : g.Reachable := Reachable.performAll (.new _) hg
  have hb := hr.ready.complete.madeOfBuiltins
  refine ⟨g, hg, hr, hb, hm, hr.ready.run_eq_none hb
    ⟨μ, ⟨1⟩, [], visits_of_course hμ, hpend, hcmp, ⟨hv, hc⟩, ?_⟩⟩
  rw [hvs, hos]
  exact .tie (Builtin.route_self _)

end Patchbay.Graph
