import Patchbay.Proofs.Limits
import Patchbay.Proofs.Waiting

/-! Rounds in which nothing is emitted. Such a round queues no block that was not queued before it,
and it leaves all as it was exactly when the queued blocks are comparisons that justify each other's
waiting. A run that never ends emits again and again, unless it comes to such a deadlock. -/

namespace Patchbay

open HostsBuiltins (block)

namespace Moment

variable {β : Type} [Behaviour β] {g : Graph β} {μ ν ξ ξ' : Moment β}

/-- Whether a round leaves the queue and all buffers as they were, without having emitted
anything. -/
structure Repeats (μ ν : Moment β) : Prop where
  queued : μ.graph.receivers ≠ []
  receivers : ν.graph.receivers = μ.graph.receivers
  buffers : ∀ id port, ν.graph.buffer id port = μ.graph.buffer id port
  mute : Graph.Mute μ.graph ν.graph

/-- What holds after a deadlock: whoever was queued then is queued or still to be invoked. -/
structure Stalled (μ ξ : Moment β) : Prop where
  queue : ξ.graph.receivers ++ ξ.pending = μ.graph.receivers
  processing : ξ.pending ≠ [] → ξ.graph.processing = μ.graph.receivers
  buffers : ∀ id port, ξ.graph.buffer id port = μ.graph.buffer id port
  mute : Graph.Mute μ.graph ξ.graph

/-- What holds in a round in which nothing is emitted: no block is queued but those that were queued
before, and if none of them is missing then they are stuck. -/
structure Lessened [HostsBuiltins β] (μ ξ : Moment β) : Prop where
  processing : ξ.graph.processing = μ.graph.receivers
  queue : (ξ.graph.receivers ++ ξ.pending).Sublist μ.graph.receivers
  stuck : ξ.graph.receivers ++ ξ.pending = μ.graph.receivers →
    (∀ id port, ξ.graph.buffer id port = μ.graph.buffer id port) ∧
      ∀ id ∈ ξ.graph.receivers, μ.graph.Stuck μ.graph.receivers id

end Moment

namespace Graph

variable {β : Type} [Behaviour β] [HostsBuiltins β] {g : Graph β} {μ ν ξ ξ' : Moment β}

omit [Behaviour β] [HostsBuiltins β] in
theorem receivers_settle_waiting {h : Graph β} {id : BlockId} (hn : id ∉ h.receivers) :
    (h.settle id true).receivers = h.receivers ++ [id] := by
  simp [settle, queue_eq, hn]

section

variable (hg : g.Ready) (hb : g.MadeOfBuiltins)

include hg hb

/-- No block of a graph of built-in ones turns into another. -/
theorem Visits.behaviour?_eq (hv : g.Visits μ) (id : BlockId) :
    μ.graph.behaviour? id = g.behaviour? id := by
  by_cases hl : g.contains id
  · obtain ⟨b, hbe⟩ := hb id hl
    rw [hbe, hv.behaviour?_builtin hg.toSound hg.complete hbe]
  · have hgone : g.slot? id = none := Option.not_isSome_iff_eq_none.mp hl
    have hl' : ¬(μ.graph.slot? id).isSome := by
      rwa [isSome_slot?_congr (hv.regular hg.toSound hg.complete).layout]
    rw [behaviour?, behaviour?, hgone, Option.not_isSome_iff_eq_none.mp hl']

theorem Visits.stuck_congr (hμ : g.Visits μ) (hξ : g.Visits ξ) {blocks : List BlockId}
    {id : BlockId} (hs : μ.graph.Stuck blocks id)
    (hbuf : ∀ port, ξ.graph.buffer id port = μ.graph.buffer id port) :
    ξ.graph.Stuck blocks id := by
  refine hs.congr ?_ ?_ hbuf
  · exact (hξ.regular hg.toSound hg.complete).layout.trans
      (hμ.regular hg.toSound hg.complete).layout.symm
  · rw [hξ.behaviour?_eq hg hb, hμ.behaviour?_eq hg hb]

/-! Rounds in which nothing is emitted -/

/-- A block that waits is queued again, behind those that wait already, so it adds to what is
stuck. -/
theorem Visits.lessened_waiting (hμ : g.Visits μ) {k h : Graph β} {report report' : RunReport}
    {id : BlockId} {rest : List BlockId} (hξ : g.Visits ⟨k, report, id :: rest⟩)
    (hl : μ.Lessened ⟨k, report, id :: rest⟩) (hid : id ∉ k.receivers) {fuel : Nat}
    (hi : k.invoke fuel id = some (.ok true h)) (hm : Mute k h) :
    μ.Lessened ⟨h.settle id true, report', rest⟩ := by
  have hr := hξ.regular hg.toSound hg.complete
  have hw := hr.sound.wired
  have hstill : Still id k h := hw.still_invoke hi hm
  have hsettle : (h.settle id true).receivers = k.receivers ++ [id] := by
    rw [receivers_settle_waiting (hstill.receivers ▸ hid), hstill.receivers]
  have hsame : (h.settle id true).receivers ++ rest = k.receivers ++ id :: rest := by
    rw [hsettle, List.append_assoc]
    rfl
  refine ⟨?_, hsame ▸ hl.queue, fun heq => ?_⟩
  · exact (processing_settle h id true).trans ((hw.processing_invoke hi).trans hl.processing)
  · obtain ⟨hbuf, hstuck⟩ := hl.stuck (hsame.symm.trans heq)
    obtain ⟨b, -, hbe⟩ := hξ.exists_builtin hg hb (hr.mem_processing rfl)
    obtain ⟨hstuck', hbuf'⟩ := hw.stuck_of_mute hbe hi hm
    refine ⟨fun j port => ?_, fun j hj => ?_⟩
    · exact (buffer_settle_waiting h id j port).trans ((hbuf' j port).trans (hbuf j port))
    · rw [hsettle] at hj
      rcases List.mem_append.mp hj with hj | hj
      · exact hstuck j hj
      · rw [List.mem_singleton.mp hj]
        have hk : k.Stuck μ.graph.receivers id := hl.processing ▸ hstuck'
        exact hξ.stuck_congr hg hb hμ hk fun port => (hbuf id port).symm

theorem Visits.lessened_step (hμ : g.Visits μ) (hξ : g.Visits ξ) (hl : μ.Lessened ξ)
    (hp : ξ.pending ≠ []) (hs : ξ.Step ξ') (hm : Mute ξ.graph ξ'.graph) : μ.Lessened ξ' := by
  have hw := (hξ.regular hg.toSound hg.complete).sound.wired
  have hnodup := (hμ.regular hg.toSound hg.complete).sound.nodup_receivers
  cases hs with
  | start => exact absurd rfl hp
  | @invoke k h report id rest fuel waiting hi =>
    have hm' : Mute k h := hm.trans (.of_history_eq (history_settle h id waiting).symm)
    have hqueue : (k.receivers ++ id :: rest).Sublist μ.graph.receivers := hl.queue
    cases waiting with
    | true =>
      have hid : id ∉ k.receivers := fun hmem =>
        (List.nodup_append.mp (hqueue.nodup hnodup)).2.2 id hmem id List.mem_cons_self rfl
      exact hμ.lessened_waiting hg hb hξ hl hid hi hm'
    | false =>
      -- The block drops out of the queue.
      have hsettle : (h.settle id false).receivers = k.receivers :=
        (hw.still_invoke hi hm').receivers
      have hless : ((h.settle id false).receivers ++ rest).Sublist (k.receivers ++ id :: rest) :=
        hsettle ▸ (List.Sublist.refl _).append (List.sublist_cons_self id rest)
      refine ⟨?_, hless.trans hqueue, fun heq => ?_⟩
      · exact (processing_settle h id false).trans
          ((hw.processing_invoke hi).trans hl.processing)
      · have hlen := congrArg List.length heq
        have hle := hqueue.length_le
        simp only [hsettle, List.length_append, List.length_cons] at hlen hle
        omega

theorem Visits.lessened_round (hμ : g.Visits μ) (hr : μ.Round ν) (hm : Mute μ.graph ν.graph) :
    μ.Lessened ν := by
  have hreg := hμ.regular hg.toSound hg.complete
  have hbefore := hr.before
  obtain ⟨ξ, hstart, hcourse⟩ := hr.course
  have hfirst : μ.Lessened ξ := by
    cases hstart with
    | start => exact ⟨rfl, List.Sublist.refl _, fun _ => ⟨fun _ _ => rfl, nofun⟩⟩
    | invoke => cases hbefore
  clear hr
  induction hcourse with
  | refl => exact hfirst
  | @tail ζ ν hinvokes hstep ih =>
    have hsteps : Relation.ReflTransGen Moment.Step μ ζ :=
      .head hstart (Moment.steps_of_invokes hinvokes)
    have hζ : g.Visits ζ := Relation.ReflTransGen.trans hμ hsteps
    obtain ⟨hm₁, hm₂⟩ := hm.split (Moment.history_suffix_of_steps hreg hsteps)
      (hstep.2.history_suffix (hζ.regular hg.toSound hg.complete))
    exact hμ.lessened_step hg hb hζ (ih hm₁) hstep.1 hstep.2 hm₂

/-- A round that repeats starts from a deadlock. -/
theorem Visits.deadlocked_of_repeats (hμ : g.Visits μ) (hr : μ.Round ν) (hrep : μ.Repeats ν) :
    μ.graph.Deadlocked := by
  have hl := hμ.lessened_round hg hb hr hrep.mute
  have hqueue : ν.graph.receivers ++ ν.pending = μ.graph.receivers := by
    rw [hr.after, List.append_nil, hrep.receivers]
  refine ⟨hrep.queued, fun id hm => (hl.stuck hqueue).2 id ?_⟩
  rwa [hrep.receivers]

/-- A round in which nothing is emitted queues fewer blocks than it found, unless it found a
deadlock. -/
theorem Visits.length_lt_of_mute (hμ : g.Visits μ) (hr : μ.Round ν) (hm : Mute μ.graph ν.graph)
    (hd : ¬μ.graph.Deadlocked) : ν.graph.receivers.length < μ.graph.receivers.length := by
  have hl := hμ.lessened_round hg hb hr hm
  have hqueue := hl.queue
  rw [hr.after, List.append_nil] at hqueue
  refine Nat.lt_of_le_of_ne hqueue.length_le fun hlen => hd ?_
  have heq := hqueue.eq_of_length hlen
  have hne : μ.graph.receivers ≠ [] := by
    have hbefore := hr.before
    obtain ⟨ξ, hs, -⟩ := hr.course
    cases hs with
    | start hne => exact hne
    | invoke => cases hbefore
  refine hμ.deadlocked_of_repeats hg hb hr ⟨hne, heq, (hl.stuck ?_).1, hm⟩
  rw [hr.after, List.append_nil, heq]

/-! Deadlocks last -/

variable [KeepsBuiltins β] (hf : g.Fitted)

include hf

/-- The next invocation after a deadlock finds a stuck comparison, which waits. -/
theorem Visits.invoke_of_stalled (hμ : g.Visits μ) (hd : μ.graph.Deadlocked) {k : Graph β}
    {report : RunReport} {id : BlockId} {rest : List BlockId}
    (hξ : g.Visits ⟨k, report, id :: rest⟩) (hs : μ.Stalled ⟨k, report, id :: rest⟩) :
    ∃ h, k.invoke 1 id = some (.ok true h) ∧ h.receivers = k.receivers ∧
      h.history = k.history ∧ ∀ j port, h.buffer j port = k.buffer j port := by
  have hproc : k.processing = μ.graph.receivers := hs.processing (List.cons_ne_nil _ _)
  have hmem : id ∈ μ.graph.receivers := hs.queue ▸ List.mem_append_right _ List.mem_cons_self
  have hstuck := hμ.stuck_congr hg hb hξ (hd.stuck id hmem) fun port => hs.buffers id port
  rw [← hproc] at hstuck
  exact hstuck.invoke (hξ.regular hg.toSound hg.complete).sound.wired
    (hξ.fitted hf hg.toSound hg.complete)

theorem Visits.stalled_step (hμ : g.Visits μ) (hd : μ.graph.Deadlocked) (hξ : g.Visits ξ)
    (hs : μ.Stalled ξ) (hstep : ξ.Step ξ') : μ.Stalled ξ' := by
  have hnodup := (hμ.regular hg.toSound hg.complete).sound.nodup_receivers
  cases hstep with
  | @start k report =>
    have hqueue : k.receivers = μ.graph.receivers := by simpa using hs.queue
    exact ⟨hqueue, fun _ => hqueue, hs.buffers, hs.mute.trans
      ⟨[.observed k.observers (.roundStarted (report.rounds + 1) k.receivers)], rfl, fun _ => rfl⟩⟩
  | @invoke k h report id rest fuel waiting hi =>
    obtain ⟨h', hi', hrec, hhist, hbuf⟩ := hμ.invoke_of_stalled hg hb hf hd hξ hs
    cases invoke_unique hi hi'
    have hqueue : k.receivers ++ id :: rest = μ.graph.receivers := hs.queue
    have hid : id ∉ h.receivers := by
      rw [← hqueue] at hnodup
      exact fun hmem =>
        (List.nodup_append.mp hnodup).2.2 id (hrec ▸ hmem) id List.mem_cons_self rfl
    refine ⟨?_, fun _ => ?_, fun j port => ?_, hs.mute.trans (.of_history_eq ?_)⟩
    · rw [receivers_settle_waiting hid, hrec, List.append_assoc]
      exact hqueue
    · exact (processing_settle h id true).trans
        (((hξ.regular hg.toSound hg.complete).sound.wired.processing_invoke hi).trans
          (hs.processing (List.cons_ne_nil _ _)))
    · exact (buffer_settle_waiting h id j port).trans ((hbuf j port).trans (hs.buffers j port))
    · exact (history_settle h id true).trans hhist

theorem Visits.stalled_steps (hμ : g.Visits μ) (hp : μ.pending = []) (hd : μ.graph.Deadlocked)
    (hs : Relation.ReflTransGen Moment.Step μ ξ) : μ.Stalled ξ := by
  induction hs with
  | refl => exact ⟨by rw [hp, List.append_nil], fun hne => absurd hp hne, fun _ _ => rfl,
      .of_history_eq rfl⟩
  | tail hs hstep ih =>
    exact hμ.stalled_step hg hb hf hd (Relation.ReflTransGen.trans hμ hs) ih hstep

theorem Visits.repeats_of_deadlocked (hμ : g.Visits μ) (hd : μ.graph.Deadlocked)
    (hr : μ.Round ν) : μ.Repeats ν := by
  have hs := hμ.stalled_steps hg hb hf hr.before hd hr.steps
  refine ⟨hd.queued, ?_, hs.buffers, hs.mute⟩
  have hqueue := hs.queue
  rwa [hr.after, List.append_nil] at hqueue

theorem Visits.exists_step_of_deadlocked (hμ : g.Visits μ) (hp : μ.pending = [])
    (hd : μ.graph.Deadlocked) (hm : g.settings.maxRounds = none)
    (hs : Relation.ReflTransGen Moment.Step μ ξ) : ∃ ξ', ξ.Step ξ' := by
  have hξ : g.Visits ξ := Relation.ReflTransGen.trans hμ hs
  have hstalled := hμ.stalled_steps hg hb hf hp hd hs
  obtain ⟨k, report, _ | ⟨id, rest⟩⟩ := ξ
  · have hqueue : k.receivers = μ.graph.receivers := by simpa using hstalled.queue
    have hset : k.settings.maxRounds = none := by
      rw [settings_congr (hξ.regular hg.toSound hg.complete).layout, hm]
    exact ⟨_, .start (hqueue ▸ hd.queued) (by simp [limited, hset])⟩
  · obtain ⟨h, hi, -⟩ := hμ.invoke_of_stalled hg hb hf hd hξ hstalled
    exact ⟨_, .invoke hi⟩

/-- Without a limit a deadlock is never left. -/
theorem Visits.run_eq_none_of_deadlocked (hμ : g.Visits μ) (hp : μ.pending = [])
    (hd : μ.graph.Deadlocked) (hm : g.settings.maxRounds = none) (fuel : Nat) :
    g.run fuel = none := by
  refine Option.eq_none_iff_forall_not_mem.mpr fun reply hr => ?_
  obtain ⟨ν, r, hν, he, -⟩ := run_eq_some_iff.mp ⟨fuel, hr⟩
  obtain ⟨ξ', hstep⟩ :=
    hμ.exists_step_of_deadlocked hg hb hf hp hd hm (hμ.before_end hν he)
  exact he.not_step hstep

omit hf [KeepsBuiltins β]

/-! Runs that never end -/

theorem Visits.exists_step_of_endless (hn : ∀ fuel, g.run fuel = none) (hr : ¬g.ComesToRevolve)
    (hμ : g.Visits μ) : ∃ ν, μ.Step ν := by
  rcases Moment.step_or_ends μ with hs | ⟨r, he⟩ | ⟨id, rest, hp, hstuck⟩
  · exact hs
  · obtain ⟨fuel, hrun⟩ := run_eq_some_iff.mpr ⟨μ, r, hμ, he, rfl⟩
    rw [hn fuel] at hrun
    cases hrun
  · obtain ⟨fuel, reply, hi⟩ := (hμ.invoke_iff hg hb hp).mpr
      fun ⟨hcmp, hrev⟩ => hr ⟨μ, id, rest, hμ, hp, hcmp, hrev⟩
    rw [hstuck fuel] at hi
    cases hi

theorem Visits.exists_round_of_endless (hn : ∀ fuel, g.run fuel = none) (hr : ¬g.ComesToRevolve)
    (hμ : g.Visits μ) (hp : μ.pending = []) : ∃ ν, μ.Round ν :=
  Moment.exists_round hp fun _ hs =>
    Visits.exists_step_of_endless hg hb hn hr (Relation.ReflTransGen.trans hμ hs)

theorem exists_round_of_endless (hn : ∀ fuel, g.run fuel = none) (hr : ¬g.ComesToRevolve)
    (n : Nat) : ∃ μ, g.Visits μ ∧ μ.pending = [] ∧ n ≤ μ.report.rounds := by
  induction n with
  | zero => exact ⟨_, .refl, rfl, Nat.zero_le _⟩
  | succ n ih =>
    obtain ⟨μ, hμ, hp, hle⟩ := ih
    obtain ⟨ν, hround⟩ := hμ.exists_round_of_endless hg hb hn hr hp
    exact ⟨ν, Relation.ReflTransGen.trans hμ hround.steps, hround.after,
      Nat.lt_of_le_of_lt hle hround.rounds_lt⟩

/-- Without deadlocks the queue cannot shrink for ever, so some later round emits. -/
theorem Visits.exists_emission (hn : ∀ fuel, g.run fuel = none) (hr : ¬g.ComesToRevolve)
    (hd : ∀ μ, g.Visits μ → μ.pending = [] → ¬μ.graph.Deadlocked) (hμ : g.Visits μ)
    (hp : μ.pending = []) : ∃ ξ ν, g.Visits ξ ∧ ξ.Round ν ∧ μ.report.rounds ≤ ξ.report.rounds ∧
      ¬Mute ξ.graph ν.graph := by
  induction hlen : μ.graph.receivers.length using Nat.strongRecOn generalizing μ with
  | _ n ih =>
    obtain ⟨ν, hround⟩ := hμ.exists_round_of_endless hg hb hn hr hp
    by_cases hm : Mute μ.graph ν.graph
    · have hlt := hμ.length_lt_of_mute hg hb hround hm (hd μ hμ hp)
      obtain ⟨ξ, ο, hξ, hround', hle, hemit⟩ := ih _ (hlen ▸ hlt)
        (Relation.ReflTransGen.trans hμ hround.steps) hround.after rfl
      exact ⟨ξ, ο, hξ, hround', Nat.le_of_lt (Nat.lt_of_lt_of_le hround.rounds_lt hle), hemit⟩
    · exact ⟨μ, ν, hμ, hround, Nat.le_refl _, hm⟩

end

/-- Whether a run emits values in rounds without end. -/
def EmitsForEver (g : Graph β) : Prop :=
  ∀ n, ∃ μ ν, g.Visits μ ∧ μ.Round ν ∧ n ≤ μ.report.rounds ∧ ¬Mute μ.graph ν.graph

/-- Nothing is emitted after a deadlock. -/
theorem Visits.not_emitsForEver [KeepsBuiltins β] (hg : g.Ready) (hb : g.MadeOfBuiltins)
    (hf : g.Fitted) (hμ : g.Visits μ) (hp : μ.pending = []) (hd : μ.graph.Deadlocked) :
    ¬g.EmitsForEver := by
  intro hemits
  obtain ⟨ξ, ν, hξ, hround, hle, hemit⟩ := hemits (μ.report.rounds + 1)
  have hlater : Relation.ReflTransGen Moment.Step μ ξ := by
    refine (hμ.total hξ).resolve_right fun hback => ?_
    have hearlier := Moment.rounds_le_of_steps hback
    omega
  have hm := (hμ.stalled_steps hg hb hf hp hd (hlater.trans hround.steps)).mute
  have hr := hμ.regular hg.toSound hg.complete
  have hr' := hξ.regular hg.toSound hg.complete
  exact hemit (hm.split (Moment.history_suffix_of_steps hr hlater)
    (Moment.history_suffix_of_steps hr' hround.steps)).2

/-- A round repeats exactly if it starts from a deadlock, and a deadlock is not left unless the
rounds are limited. A run that never ends, though none of its invocations goes on for ever, emits in
rounds without end exactly if it never comes to a deadlock, and it never does where no two
comparisons lead to each other. -/
theorem Reachable.silent_rounds [KeepsBuiltins β] (hr : g.Reachable) (hb : g.MadeOfBuiltins) :
    (∀ μ ν, g.Visits μ → μ.Round ν → (μ.Repeats ν ↔ μ.graph.Deadlocked)) ∧
    (∀ μ, g.Visits μ → μ.pending = [] → μ.graph.Deadlocked → g.settings.maxRounds = none →
      ∀ fuel, g.run fuel = none) ∧
    ((∀ fuel, g.run fuel = none) → ¬g.ComesToRevolve →
      (g.EmitsForEver ↔ ∀ μ, g.Visits μ → μ.pending = [] → ¬μ.graph.Deadlocked)) ∧
    ((∀ c d, g.behaviour? c = some (block .compare) → g.behaviour? d = some (block .compare) →
        c ≠ d → g.LeadsTo c d → ¬g.LeadsTo d c) →
      ∀ μ, g.Visits μ → ¬μ.graph.Deadlocked) := by
  have hg := hr.ready
  have hf := hr.fitted
  refine ⟨fun μ ν hμ hround => ⟨hμ.deadlocked_of_repeats hg hb hround, fun hd =>
      hμ.repeats_of_deadlocked hg hb hf hd hround⟩,
    fun μ hμ hp hd hm => hμ.run_eq_none_of_deadlocked hg hb hf hp hd hm,
    fun hn hrev => ⟨fun hemits μ hμ hp hd => ?_, fun hd n => ?_⟩, fun hno μ hμ hd => ?_⟩
  · exact hμ.not_emitsForEver hg hb hf hp hd hemits
  · obtain ⟨μ, hμ, hp, hle⟩ := exists_round_of_endless hg hb hn hrev n
    obtain ⟨ξ, ν, hξ, hround, hle', hemit⟩ := hμ.exists_emission hg hb hn hrev hd hp
    exact ⟨ξ, ν, hξ, hround, Nat.le_trans hle hle', hemit⟩
  · obtain ⟨c, d, hne, hc, hd, hcd, hdc⟩ := hd.exists_mutual
    rw [hμ.behaviour?_eq hg hb] at hc hd
    rw [leadsTo_congr (hμ.regular hg.toSound hg.complete).layout] at hcd hdc
    exact hno c d hc hd hne hcd hdc

/-- A source feeds one input of each of two comparisons; the other input of the second is fed from
the first. -/
def pairedComparisons : List (Operation Builtin) :=
  [.add (.source (.bool true)), .add .compare, .add .compare,
    .subscribe ⟨1⟩ Builtin.valuesInput ⟨0⟩ Builtin.dataName,
    .subscribe ⟨2⟩ Builtin.valuesInput ⟨0⟩ Builtin.dataName,
    .subscribe ⟨2⟩ Builtin.compareInput ⟨1⟩ Builtin.equalOutput]

theorem silent_rounds_of_pairedComparisons : ∃ g : Graph Builtin,
    performAll 1 pairedComparisons (.new .standard) = some g ∧ g.MadeOfBuiltins ∧
    ∀ μ ν, g.Visits μ → μ.Round ν → ¬μ.Repeats ν := by
  have hdec : (performAll 1 pairedComparisons (.new .standard : Graph Builtin)).any (fun g =>
      ∀ x ∈ g.arena.entries, x.2.publisher.index < x.2.subscriber.index) = true := by
    decide +kernel
  obtain ⟨g, hg, hp⟩ := (Option.any_eq_true _ _).mp hdec
  have hr : g.Reachable := Reachable.performAll (.new _) hg
  have hb := hr.ready.complete.madeOfBuiltins
  have ha := hr.ready.wired.acyclic_of_rising (of_decide_eq_true hp)
  obtain ⟨hrepeats, -, -, hfree⟩ := Reachable.silent_rounds hr hb
  refine ⟨g, hg, hb, fun μ ν hμ hround hrep => ?_⟩
  exact hfree (fun c d _ _ _ hcd hdc => ha c (hcd.trans hdc)) μ hμ
    ((hrepeats μ ν hμ hround).mp hrep)

/-- The first comparison is fed from the second as well, so from the second round on each of them
waits for the other. -/
theorem silent_round_repeats_for_ever : ∃ g : Graph Builtin,
    performAll 1 (pairedComparisons ++
      [.subscribe ⟨1⟩ Builtin.compareInput ⟨2⟩ Builtin.equalOutput]) (.new .standard) = some g ∧
    g.Reachable ∧ g.MadeOfBuiltins ∧ (∃ μ ν, g.Visits μ ∧ μ.Round ν ∧ μ.Repeats ν) ∧
    (∀ fuel, g.run fuel = none) ∧ ¬g.EmitsForEver := by
  have hdec : (performAll 1 (pairedComparisons ++
      [.subscribe ⟨1⟩ Builtin.compareInput ⟨2⟩ Builtin.equalOutput])
      (.new .standard : Graph Builtin)).any (fun g => g.settings.maxRounds = none ∧
        g.behaviour? ⟨1⟩ = some .compare ∧ g.behaviour? ⟨2⟩ = some .compare ∧
        g.arena.get? ⟨3⟩ = some ⟨⟨1⟩, Builtin.equalOutput, ⟨2⟩, Builtin.compareInput⟩ ∧
        g.arena.get? ⟨4⟩ = some ⟨⟨2⟩, Builtin.equalOutput, ⟨1⟩, Builtin.compareInput⟩ ∧
        (g.course 1 2).any fun μ => μ.pending = [] ∧ μ.graph.receivers = [⟨1⟩, ⟨2⟩] ∧
          ∀ id ∈ μ.graph.receivers, μ.graph.buffer id Builtin.valuesInput = [.bool true] ∧
            μ.graph.buffer id Builtin.compareInput = []) = true := by decide +kernel
  obtain ⟨g, hg, hp⟩ := (Option.any_eq_true _ _).mp hdec
  obtain ⟨hm, hfirst, hsecond, hthere, hback, hany⟩ := of_decide_eq_true hp
  obtain ⟨μ, hcourse, hq⟩ := (Option.any_eq_true _ _).mp hany
  obtain ⟨hpend, hqueue, hbuf⟩ := of_decide_eq_true hq
  have hr : g.Reachable := Reachable.performAll (.new _) hg
  have hb := hr.ready.complete.madeOfBuiltins
  have hμ : g.Visits μ := visits_of_course hcourse
  have hl := (hμ.regular hr.ready.toSound hr.ready.complete).layout
  have hone : μ.graph.LeadsTo ⟨1⟩ ⟨2⟩ := by
    rw [leadsTo_congr hl]
    exact .single ⟨_, _, hthere, rfl, rfl⟩
  have htwo : μ.graph.LeadsTo ⟨2⟩ ⟨1⟩ := by
    rw [leadsTo_congr hl]
    exact .single ⟨_, _, hback, rfl, rfl⟩
  have hcmp : ∀ id ∈ μ.graph.receivers, μ.graph.behaviour? id = some .compare := fun id hid => by
    rw [hμ.behaviour?_eq hr.ready hb]
    simp only [hqueue, List.mem_cons, List.not_mem_nil, or_false] at hid
    rcases hid with rfl | rfl
    · exact hfirst
    · exact hsecond
  have hd : μ.graph.Deadlocked := deadlocked_of_mutual hqueue (by simp) hcmp
    (fun id hid => by simp [(hbuf id hid).1]) (fun id hid => (hbuf id hid).2) hone htwo
  obtain ⟨ν, hround⟩ := Moment.exists_round hpend fun ξ hs =>
    hμ.exists_step_of_deadlocked hr.ready hb hr.fitted hpend hd hm hs
  exact ⟨g, hg, hr, hb, ⟨μ, ν, hμ, hround,
      hμ.repeats_of_deadlocked hr.ready hb hr.fitted hd hround⟩,
    hμ.run_eq_none_of_deadlocked hr.ready hb hr.fitted hpend hd hm,
    hμ.not_emitsForEver hr.ready hb hr.fitted hpend hd⟩

end Graph

end Patchbay
