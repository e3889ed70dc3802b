import Patchbay.Proofs.Schedule

/-! Values between two invocations of their receiver. Whatever another block delivers waits on its
input, in the order of delivery, until the receiver is invoked; clearing the inputs of a block that
is done hits nothing that came later. -/

namespace Patchbay

/-- Whether `values` are what a block has on an input after some invocations, the oldest first: what
its own last one left there if it ended waiting, and then what was delivered since. -/
structure Held (xs : List Invocation) (id : BlockId) (port : String) (values : List Value) :
    Prop where
  fresh : (∀ x ∈ xs, x.block ≠ id) → values = xs.flatMap (·.delivered id port)
  since : ∀ before last after, xs = before ++ last :: after → last.block = id →
    (∀ x ∈ after, x.block ≠ id) → values =
      (if last.waiting then last.left port else []) ++ after.flatMap (·.delivered id port)

namespace Held

variable {xs : List Invocation} {x : Invocation} {id : BlockId} {port : String}
  {values : List Value}

theorem nil (id : BlockId) (port : String) : Held [] id port [] where
  fresh _ := rfl
  since before last after h := by simp at h

theorem other (hh : Held xs id port values) (hx : x.block ≠ id) :
    Held (xs ++ [x]) id port (values ++ x.delivered id port) where
  fresh hne := by
    rw [hh.fresh fun y hy => hne y (List.mem_append_left _ hy)]
    simp
  since before last after heq hlast hafter := by
    rcases List.eq_nil_or_concat' after with rfl | ⟨after, y, rfl⟩
    · obtain ⟨-, rfl⟩ := List.append_singleton_inj.mp heq
      exact absurd hlast hx
    · -- The last invocation of the block itself lies further back.
      rw [← List.cons_append, ← List.append_assoc] at heq
      obtain ⟨rfl, rfl⟩ := List.append_singleton_inj.mp heq
      have hsince := hh.since before last after rfl hlast
        fun y hy => hafter y (List.mem_append_left _ hy)
      rw [hsince]
      simp

theorem own (xs : List Invocation) (hx : x.block = id) :
    Held (xs ++ [x]) id port (if x.waiting then x.left port else []) where
  fresh hne := absurd hx (hne x (by simp))
  since before last after heq hlast hafter := by
    rcases List.eq_nil_or_concat' after with rfl | ⟨after, y, rfl⟩
    · obtain ⟨-, rfl⟩ := List.append_singleton_inj.mp heq
      simp
    · rw [← List.cons_append, ← List.append_assoc] at heq
      obtain ⟨-, rfl⟩ := List.append_singleton_inj.mp heq
      exact absurd hx (hafter x (by simp))

theorem invoke {β : Type} {k h : Graph β} {j : BlockId} {waiting : Bool}
    {events : List Occurrence} (ha : k.Account j h events)
    (hh : Held xs id port (k.buffer id port).reverse) :
    Held (xs ++ [h.logged j waiting events]) id port
      ((h.settle j waiting).buffer id port).reverse := by
  by_cases hj : j = id
  · subst hj
    have hown : Held (xs ++ [h.logged j waiting events]) j port
        (if waiting then (h.buffer j port).reverse else []) := own xs rfl
    cases waiting with
    | true => rwa [Graph.buffer_settle_waiting]
    | false => rwa [Graph.buffer_settle_done]
  · rw [Graph.buffer_settle_of_ne h (Ne.symm hj), ha.buffer id (Ne.symm hj) port]
    exact hh.other hj

end Held

namespace Graph

variable {β : Type} {g : Graph β} {log : RunLog} {μ : Moment β}

theorem Logs.held [Behaviour β] (hs : g.Sound) (hc : g.Complete) (hl : g.Logs log μ)
    (id : BlockId) (port : String) :
    Held log.invocations id port (μ.graph.buffer id port).reverse := by
  induction hl with
  | begin =>
    have hempty : g.startRun.buffer id port = [] := buffer_clearBuffers _ id port
    rw [hempty]
    exact .nil id port
  | start _ _ _ ih =>
    rw [RunLog.invocations_start]
    exact ih
  | @invoke log r k h report j rest fuel waiting events hl hi hh ih =>
    have hw := (hl.visits.regular hs hc).sound.wired
    rw [RunLog.invocations_push]
    exact ih.invoke (hw.account_of_history hi hh)

/-- Whoever is called while a round is in progress is invoked later in it, if its turn is still to
come, and else in the next one. -/
theorem Scheduled.invoked_after_call (hs : g.Scheduled log μ) (hp : μ.pending = [])
    (hq : g.due log = []) {before after : RunLog} {r : RoundLog} {early late : List Invocation}
    {x : Invocation} (hlog : log = before ++ r :: after)
    (hr : r.invocations = early ++ x :: late) {id : BlockId} (hid : id ∈ x.calls) :
    if id ∈ r.blocks.drop (early.length + 1) then ∃ y ∈ late, y.block = id
    else ∃ next rest, after = next :: rest ∧ ∃ y ∈ next.invocations, y.block = id := by
  have hfinished := hs.finished_of_idle hp
  have hblocks : r.blocks.drop (early.length + 1) = late.map Invocation.block := by
    rw [← hfinished r (by simp [hlog]), RoundLog.invoked, hr]
    simp [List.drop_append]
  split
  · next hm =>
    rw [hblocks] at hm
    exact List.mem_map.mp hm
  · have hdue : id ∈ g.due (before ++ [r]) := by
      rw [due_concat, List.mem_eraseDups]
      exact List.mem_flatMap.mpr ⟨x, by simp [hr], hid⟩
    cases after with
    | nil =>
      rw [← hlog, hq] at hdue
      exact absurd hdue List.not_mem_nil
    | cons next rest =>
      have hpre : (before ++ [r]) ++ [next] <+: log := ⟨rest, by simp [hlog]⟩
      rw [← hs.blocks _ _ hpre, ← hfinished next (by simp [hlog])] at hdue
      exact ⟨next, rest, rfl, List.mem_map.mp hdue⟩

/-- At every moment of a run, what a block has on an input is what it kept there itself and what was
delivered since its last invocation, in order and once each. In a run that succeeds, every value
delivered is followed by an invocation of the block that it came to. -/
theorem Reachable.deliveries_kept [Behaviour β] (hr : g.Reachable) :
    (∀ μ, g.Visits μ → ∃ log, g.Logs log μ) ∧
    (∀ log μ, g.Logs log μ →
      (∀ x ∈ log.invocations, ∀ o ∈ x.events, o.CausedBy g.arena x.block) ∧
      ∀ id port, Held log.invocations id port (μ.graph.buffer id port).reverse) ∧
    ∀ fuel report h, g.run fuel = some (.ok report h) → ∃ log, g.Completes log report h ∧
      ∀ before r after early x late, log = before ++ r :: after →
        r.invocations = early ++ x :: late → ∀ id port, ∀ v ∈ x.delivered id port,
          if id ∈ r.blocks.drop (early.length + 1) then ∃ y ∈ late, y.block = id
          else ∃ next rest, after = next :: rest ∧ ∃ y ∈ next.invocations, y.block = id := by
  have hs := hr.ready.toSound
  have hc := hr.ready.complete
  refine ⟨fun μ hv => hv.exists_log hs hc,
    fun log μ hl => ⟨(hl.scheduled hs hc).caused, hl.held hs hc⟩, fun fuel report h hrun => ?_⟩
  obtain ⟨log, hcomp⟩ := (run_eq_ok_iff hs hc).mp ⟨fuel, hrun⟩
  obtain ⟨k, hl, hq, -⟩ := id hcomp
  have hsch := hl.scheduled hs hc
  have hdue : g.due log = [] := hsch.queued.symm.trans hq
  refine ⟨log, hcomp, fun before r after early x late hlog hinv id port v hv => ?_⟩
  exact hsch.invoked_after_call rfl hdue hlog hinv (Invocation.mem_calls_of_delivered hv)

/-- The comparison has kept the value of the source when the other one comes to it. -/
theorem deliveries_kept_in_lateComparison : ∃ (g : Graph Builtin) (log : RunLog)
    (μ : Moment Builtin), performAll 1 (lateComparison 4) (.new .standard) = some g ∧
    g.Logs log μ ∧ μ.report.rounds = 3 ∧ μ.pending = [⟨3⟩] ∧
    Held log.invocations ⟨3⟩ Builtin.valuesInput [.bool true] ∧
    Held log.invocations ⟨3⟩ Builtin.compareInput [.bool true] := by
  have hdec : (performAll 1 (lateComparison 4) (.new .standard : Graph Builtin)).any
      (fun g => (g.course 1 7).any fun μ => μ.report.rounds = 3 ∧ μ.pending = [⟨3⟩] ∧
        (μ.graph.buffer ⟨3⟩ Builtin.valuesInput).reverse = [.bool true] ∧
        (μ.graph.buffer ⟨3⟩ Builtin.compareInput).reverse = [.bool true]) = true := by
    decide +kernel
  obtain ⟨g, hg, hany⟩ := (Option.any_eq_true _ _).mp hdec
  obtain ⟨μ, hμ, hp⟩ := (Option.any_eq_true _ _).mp hany
  obtain ⟨hrounds, hpend, hvs, hos⟩ := of_decide_eq_true hp
  have hr : g.Reachable := Reachable.performAll (.new _) hg
  obtain ⟨hlogs, hheld, -⟩ := Reachable.deliveries_kept hr
  obtain ⟨log, hl⟩ := hlogs μ (visits_of_course hμ)
  obtain ⟨-, hh⟩ := hheld log μ hl
  refine ⟨g, log, μ, hg, hl, hrounds, hpend, ?_, ?_⟩
  · exact hvs ▸ hh ⟨3⟩ Builtin.valuesInput
  · exact hos ▸ hh ⟨3⟩ Builtin.compareInput

end Graph

end Patchbay
