import Patchbay.Proofs.Convergence
import Patchbay.Proofs.Logbook
import Patchbay.Proofs.Renaming
import Mathlib.Algebra.Ring.Nat

/-! The schedule of a run. What a round does says which blocks the next round takes and in which
order; the first one takes the blocks that nothing feeds. A run succeeds when nothing is left to
take. -/

namespace Patchbay

namespace Occurrence

/-- The number and the blocks of a round that starts. -/
def round? : Occurrence → Option (Nat × List BlockId)
  | observed _ (.roundStarted round blocks) => some (round, blocks)
  | _ => none

/-- A report that a run ends with, and the observers that are told of it. -/
def finish? : Occurrence → Option (List Observer × RunReport)
  | observed observers (.runFinished report) => some (observers, report)
  | _ => none

theorem CausedBy.not_of_run {a : Arena} {id : BlockId} {o : Occurrence} (ho : o.CausedBy a id) :
    o.round? = none ∧ o.finish? = none := by
  cases o with
  | observed observers activity => cases activity <;> first | exact ⟨rfl, rfl⟩ | exact ho.elim
  | _ => exact ⟨rfl, rfl⟩

end Occurrence

namespace Graph

variable {β : Type} {g : Graph β} {log : RunLog} {r : RoundLog} {x : Invocation}

/-- The blocks to be taken after the rounds of a log: the receivers of values and the blocks that
ended waiting, once each, by their first call in the last round. -/
def due (g : Graph β) (log : RunLog) : List BlockId :=
  match log.getLast? with
  | none => g.order.filter fun id => !g.arena.entries.any (·.2.subscriber = id)
  | some r => r.calls.eraseDups

theorem due_concat (g : Graph β) (log : RunLog) (r : RoundLog) :
    g.due (log ++ [r]) = r.calls.eraseDups := by
  simp [due]

/-- What is told in the rounds of a log, the oldest first. -/
def account (g : Graph β) (log : RunLog) : List Occurrence :=
  (log.zipIdx 1).flatMap fun y =>
    .observed g.observers (.roundStarted y.2 y.1.blocks) :: y.1.events

theorem account_concat (g : Graph β) (log : RunLog) (r : RoundLog) :
    g.account (log ++ [r]) = g.account log ++
      .observed g.observers (.roundStarted (log.length + 1) r.blocks) :: r.events := by
  simp [account, List.zipIdx_append, Nat.add_comm]

theorem account_push (g : Graph β) (log : RunLog) (r : RoundLog) (x : Invocation) :
    g.account (log ++ [r.push x]) = g.account (log ++ [r]) ++ x.events := by
  simp [account_concat]

theorem Wired.roots_eq (hw : g.Wired) : g.roots = g.due [] := by
  refine List.filter_congr fun id hm => ?_
  obtain ⟨e, he⟩ := Option.isSome_iff_exists.mp ((hw.mem_order_iff id).mp hm)
  simp [node, he, hw.isFed_eq he]

/-- What the log of a run up to a moment shows. -/
structure Scheduled (g : Graph β) (log : RunLog) (μ : Moment β) : Prop where
  /-- A round takes the blocks that are due after the rounds before it. -/
  blocks : ∀ before r, before ++ [r] <+: log → r.blocks = g.due before
  nodup : ∀ r ∈ log, r.blocks.Nodup
  /-- All rounds but the last one have invoked the blocks that they took. -/
  finished : ∀ r ∈ log.dropLast, r.invoked = r.blocks
  current : ∀ before r, log = before ++ [r] → r.invoked ++ μ.pending = r.blocks
  queued : μ.graph.receivers = g.due log
  processed : μ.report.processed = (log.map (·.invoked.length)).sum
  history : μ.graph.history = (g.account log).reverse ++ g.history
  caused : ∀ x ∈ log.invocations, ∀ o ∈ x.events, o.CausedBy g.arena x.block

theorem Wired.scheduled_begin (hw : g.Wired) : g.Scheduled [] ⟨g.startRun, ⟨0, 0⟩, []⟩ where
  blocks before r hp := by simp at hp
  nodup r hr := absurd hr List.not_mem_nil
  finished r hr := absurd hr List.not_mem_nil
  current before r hb := by simp at hb
  queued := hw.roots_eq
  processed := rfl
  history := rfl
  caused x hx := absurd hx List.not_mem_nil

theorem Scheduled.finished_of_idle {μ : Moment β} (hs : g.Scheduled log μ) (hp : μ.pending = []) :
    ∀ r ∈ log, r.invoked = r.blocks := by
  intro r hr
  rcases List.eq_nil_or_concat' log with rfl | ⟨before, last, rfl⟩
  · exact absurd hr List.not_mem_nil
  · rcases List.mem_append.mp hr with hr | hr
    · exact hs.finished r (by simpa using hr)
    · obtain rfl := List.mem_singleton.mp hr
      simpa [hp] using hs.current before r rfl

theorem Scheduled.start {k : Graph β} {report : RunReport} (hs : g.Scheduled log ⟨k, report, []⟩)
    (hn : k.receivers.Nodup) (hlen : log.length = report.rounds)
    (hobs : k.observers = g.observers) :
    g.Scheduled (log ++ [⟨k.receivers, []⟩]) ⟨k.startRound (report.rounds + 1),
      { report with rounds := report.rounds + 1 }, k.receivers⟩ where
  blocks before r hp := by
    rcases List.prefix_concat_iff.mp hp with heq | hp
    · obtain ⟨rfl, rfl⟩ := List.append_singleton_inj.mp heq
      exact hs.queued
    · exact hs.blocks before r hp
  nodup r hr := by
    rcases List.mem_append.mp hr with hr | hr
    · exact hs.nodup r hr
    · rw [List.mem_singleton.mp hr]
      exact hn
  finished r hr := hs.finished_of_idle rfl r (by simpa using hr)
  current before r hb := by
    obtain ⟨-, rfl⟩ := List.append_singleton_inj.mp hb
    rfl
  queued := by
    rw [due_concat]
    rfl
  processed := by simpa [RoundLog.invoked] using hs.processed
  history := by
    have hh : k.history = (g.account log).reverse ++ g.history := hs.history
    simp [startRound, notify, record, account_concat, RoundLog.events, hh, hobs, hlen]
  caused x hx := hs.caused x (by rwa [RunLog.invocations_start] at hx)

theorem Scheduled.invoke {k h : Graph β} {report : RunReport} {id : BlockId}
    {rest : List BlockId} {waiting : Bool} {events : List Occurrence}
    (hs : g.Scheduled (log ++ [r]) ⟨k, report, id :: rest⟩) (ha : Account id k h events)
    (hk : k.arena = g.arena) :
    g.Scheduled (log ++ [r.push (h.logged id waiting events)]) ⟨h.settle id waiting,
      { report with processed := report.processed + 1 }, rest⟩ where
  blocks before s hp := by
    rcases List.prefix_concat_iff.mp hp with heq | hp
    · obtain ⟨rfl, rfl⟩ := List.append_singleton_inj.mp heq
      exact hs.blocks before r (List.prefix_refl _)
    · exact hs.blocks before s (hp.trans (List.prefix_append _ _))
  nodup s hm := by
    rcases List.mem_append.mp hm with hm | hm
    · exact hs.nodup s (List.mem_append_left _ hm)
    · rw [List.mem_singleton.mp hm]
      exact hs.nodup r (by simp)
  finished s hm := hs.finished s (by simpa using hm)
  current before s hb := by
    obtain ⟨-, rfl⟩ := List.append_singleton_inj.mp hb
    have hcur : r.invoked ++ id :: rest = r.blocks := hs.current log r rfl
    rw [RoundLog.invoked_push, RoundLog.blocks_push, ← hcur, List.append_assoc]
    rfl
  queued := by
    have hq : k.receivers = r.calls.eraseDups := hs.queued.trans (due_concat g log r)
    have hcalls := ha.queue r.calls hq
    rw [due_concat, RoundLog.calls_push, Invocation.calls, ← List.append_assoc]
    -- A block that ends waiting calls itself, after all that it has called before.
    cases waiting with
    | false => simpa [settle, logged, updateNode, updateEntry] using hcalls
    | true =>
      simp only [settle, logged, if_true, queue_eq, hcalls, List.mem_eraseDups, eraseDups_concat]
  processed := by
    have hp : report.processed = _ := hs.processed
    simp only [List.map_append, List.sum_append, List.map_cons, List.map_nil, List.sum_cons,
      List.sum_nil, RoundLog.invoked_push, List.length_append, List.length_singleton] at hp ⊢
    omega
  history := by
    have hh : k.history = (g.account (log ++ [r])).reverse ++ g.history := hs.history
    rw [history_settle, ha.history, hh, account_push, List.reverse_append, List.append_assoc]
    rfl
  caused x hx o ho := by
    rw [RunLog.invocations_push] at hx
    rcases List.mem_append.mp hx with hx | hx
    · exact hs.caused x hx o ho
    · obtain rfl := List.mem_singleton.mp hx
      exact hk ▸ ha.caused o ho

theorem Account.not_of_run {k : Graph β} {id : BlockId} {events : List Occurrence}
    (ha : Account id g k events) :
    events.filterMap Occurrence.round? = [] ∧ events.filterMap Occurrence.finish? = [] := by
  simp only [List.filterMap_eq_nil_iff]
  exact ⟨fun o ho => (ha.caused o ho).not_of_run.1, fun o ho => (ha.caused o ho).not_of_run.2⟩

section

variable {μ : Moment β} (hs : g.Scheduled log μ)

include hs

theorem Scheduled.events_not_of_run {y : RoundLog} (hy : y ∈ log) :
    y.events.filterMap Occurrence.round? = [] ∧ y.events.filterMap Occurrence.finish? = [] := by
  have hcaused : ∀ o ∈ y.events, o.round? = none ∧ o.finish? = none := by
    intro o ho
    obtain ⟨x, hx, ho⟩ := List.mem_flatMap.mp ho
    exact (hs.caused x (List.mem_flatMap.mpr ⟨y, hy, hx⟩) o ho).not_of_run
  simp only [List.filterMap_eq_nil_iff]
  exact ⟨fun o ho => (hcaused o ho).1, fun o ho => (hcaused o ho).2⟩

theorem Scheduled.rounds_account : (g.account log).filterMap Occurrence.round? =
    (log.zipIdx 1).map fun y => (y.2, y.1.blocks) := by
  rw [account, List.filterMap_flatMap, List.map_eq_flatMap]
  refine List.flatMap_congr fun y hy => ?_
  have hnone := (hs.events_not_of_run (List.fst_mem_of_mem_zipIdx hy)).1
  simp [Occurrence.round?, hnone]

theorem Scheduled.finishes_account : (g.account log).filterMap Occurrence.finish? = [] := by
  rw [account, List.filterMap_flatMap, List.flatMap_eq_nil_iff]
  intro y hy
  exact (List.filterMap_cons_none rfl).trans
    (hs.events_not_of_run (List.fst_mem_of_mem_zipIdx hy)).2

theorem Scheduled.processed_eq (hp : μ.pending = []) :
    μ.report.processed = (((g.account log).filterMap Occurrence.round?).map (·.2.length)).sum := by
  have hlengths := congrArg (List.map fun y : RoundLog => y.blocks.length)
    (List.zipIdx_map_fst 1 log)
  rw [List.map_map] at hlengths
  rw [hs.processed, hs.rounds_account, List.map_map]
  refine congrArg List.sum (Eq.trans ?_ hlengths.symm)
  exact List.map_congr_left fun y hy => by rw [hs.finished_of_idle hp y hy]

end

variable [Behaviour β] {μ : Moment β}

theorem Logs.scheduled (hs : g.Sound) (hc : g.Complete) (hl : g.Logs log μ) :
    g.Scheduled log μ := by
  induction hl with
  | begin => exact hs.wired.scheduled_begin
  | start hl _ _ ih =>
    have hμ := hl.visits.regular hs hc
    exact ih.start hμ.sound.nodup_receivers hl.length_eq (observers_congr hμ.layout)
  | @invoke log r k h report id rest fuel waiting events hl hi hh ih =>
    have hμ := hl.visits.regular hs hc
    exact ih.invoke (hμ.sound.wired.account_of_history hi hh) (arena_congr hμ.layout)

theorem Completes.news (hs : g.Sound) (hc : g.Complete) {report : RunReport} {h : Graph β}
    (hl : g.Completes log report h) : g.due log = [] ∧ ∃ news : List Occurrence,
      h.history = news.reverse ++ g.history ∧
      news.filterMap Occurrence.round? = (log.zipIdx 1).map (fun y => (y.2, y.1.blocks)) ∧
      (news.filterMap Occurrence.round?).map Prod.fst = List.range' 1 report.rounds ∧
      ((news.filterMap Occurrence.round?).map (·.2.length)).sum = report.processed ∧
      news.filterMap Occurrence.finish? = [(g.observers, report)] := by
  obtain ⟨k, hl, hq, rfl⟩ := hl
  have hsch := hl.scheduled hs hc
  have hobs : k.observers = g.observers := observers_congr (hl.visits.regular hs hc).layout
  have hh : k.history = (g.account log).reverse ++ g.history := hsch.history
  have hlen : log.length = report.rounds := hl.length_eq
  let last : Occurrence := .observed g.observers (.runFinished report)
  have hrounds : (g.account log ++ [last]).filterMap Occurrence.round? =
      (g.account log).filterMap Occurrence.round? := by
    rw [List.filterMap_append]
    exact List.append_nil _
  refine ⟨hsch.queued.symm.trans hq, g.account log ++ [last], ?_, ?_, ?_, ?_, ?_⟩
  · simp [closeRun, Reply.graph, notify, record, hobs, hh, last]
  · rw [hrounds, hsch.rounds_account]
  · rw [hrounds, hsch.rounds_account, List.map_map, ← hlen]
    exact List.zipIdx_map_snd 1 log
  · rw [hrounds]
    exact (hsch.processed_eq rfl).symm
  · rw [List.filterMap_append, hsch.finishes_account]
    rfl

/-- Nothing that a run tells before it fails is of an end. -/
theorem Logs.failure (hs : g.Sound) (hc : g.Complete) (hl : g.Logs log μ) {err : GraphError}
    {h : Graph β} (he : μ.Ends (.error err h)) : ∃ news : List Occurrence,
      (closeRun μ.report (.error err h)).graph.history = news.reverse ++ g.history ∧
      news.filterMap Occurrence.finish? = [] := by
  have hsch := hl.scheduled hs hc
  have hw := (hl.visits.regular hs hc).sound.wired
  obtain ⟨events, hh, hnone⟩ : ∃ events : List Occurrence,
      h.history = events.reverse ++ μ.graph.history ∧
      events.filterMap Occurrence.finish? = [] := by
    cases he with
    | limit => exact ⟨[], rfl, rfl⟩
    | failure hi =>
      obtain ⟨events, ha⟩ := hw.account_invoke hi
      exact ⟨events, ha.history, ha.not_of_run.2⟩
  let last : Occurrence := .logged (.runAborted err.block? μ.report.rounds err)
  refine ⟨g.account log ++ events ++ [last], ?_, ?_⟩
  · simp [closeRun, Reply.graph, abortRun, record, clearBuffers, hh, hsch.history, last]
  · rw [List.filterMap_append, List.filterMap_append, hsch.finishes_account, hnone]
    rfl

/-- Every moment of a run has a log, which shows the rounds that the specification of the scheduler
tells of. A run succeeds exactly when no block is due; it then tells of its rounds by number and of
its end once, and a run that fails tells of no end. -/
theorem Reachable.run_scheduled (hr : g.Reachable) :
    (∀ μ, g.Visits μ ↔ ∃ log, g.Logs log μ) ∧
    (∀ log μ, g.Logs log μ → log.length = μ.report.rounds ∧ g.Scheduled log μ) ∧
    ((∃ fuel report h, g.run fuel = some (.ok report h)) ↔
      ∃ log μ, g.Logs log μ ∧ μ.pending = [] ∧ g.due log = []) ∧
    (∀ fuel report h, g.run fuel = some (.ok report h) → ∃ log, g.Completes log report h ∧
      g.due log = [] ∧ ∃ news : List Occurrence, h.history = news.reverse ++ g.history ∧
        news.filterMap Occurrence.round? = (log.zipIdx 1).map (fun y => (y.2, y.1.blocks)) ∧
        (news.filterMap Occurrence.round?).map Prod.fst = List.range' 1 report.rounds ∧
        ((news.filterMap Occurrence.round?).map (·.2.length)).sum = report.processed ∧
        news.filterMap Occurrence.finish? = [(g.observers, report)]) ∧
    ∀ fuel err h, g.run fuel = some (.error err h) → ∃ log μ k, g.Logs log μ ∧
      μ.Ends (.error err k) ∧ ∃ news : List Occurrence,
        h.history = news.reverse ++ g.history ∧ news.filterMap Occurrence.finish? = [] := by
  have hs := hr.ready.toSound
  have hc := hr.ready.complete
  refine ⟨fun μ => ⟨fun hv => hv.exists_log hs hc, fun hlog => hlog.elim fun _ hl => hl.visits⟩,
    fun log μ hl => ⟨hl.length_eq, hl.scheduled hs hc⟩, ⟨?_, ?_⟩, ?_, ?_⟩
  · rintro ⟨fuel, report, h, hrun⟩
    obtain ⟨log, hcomp⟩ := (run_eq_ok_iff hs hc).mp ⟨fuel, hrun⟩
    obtain ⟨hdue, -⟩ := hcomp.news hs hc
    obtain ⟨k, hl, -⟩ := hcomp
    exact ⟨log, _, hl, rfl, hdue⟩
  · rintro ⟨log, ⟨k, report, pending⟩, hl, rfl, hdue⟩
    have hq : k.receivers = [] := (hl.scheduled hs hc).queued.trans hdue
    obtain ⟨fuel, hrun⟩ := (run_eq_ok_iff hs hc).mpr ⟨log, k, hl, hq, rfl⟩
    exact ⟨fuel, report, _, hrun⟩
  · intro fuel report h hrun
    obtain ⟨log, hcomp⟩ := (run_eq_ok_iff hs hc).mp ⟨fuel, hrun⟩
    exact ⟨log, hcomp, hcomp.news hs hc⟩
  · intro fuel err h hrun
    obtain ⟨log, μ, r, hl, he, hreply⟩ := (run_eq_some_iff_returns hs hc).mp ⟨fuel, hrun⟩
    cases r with
    | ok => cases hreply
    | error err' k =>
      obtain ⟨news, hh, hfin⟩ := hl.failure hs hc he
      cases hreply
      exact ⟨log, μ, k, hl, he, news, hh, hfin⟩

theorem run_scheduled_of_lateComparison : ∃ (g h : Graph Builtin) (log : RunLog),
    performAll 1 (lateComparison 4) (.new .standard) = some g ∧
    g.run 9 = some (.ok ⟨4, 6⟩ h) ∧ g.Completes log ⟨4, 6⟩ h ∧ g.due log = [] ∧
    log.map RoundLog.blocks = [[⟨0⟩], [⟨1⟩, ⟨3⟩], [⟨2⟩, ⟨3⟩], [⟨3⟩]] := by
  have hdec : (performAll 1 (lateComparison 4) (.new .standard : Graph Builtin)).any
      (fun g => g.history.filterMap Occurrence.round? = [] ∧ (g.run 9).any fun reply =>
        reply.result.toOption = some ⟨4, 6⟩ ∧
        reply.graph.history.reverse.filterMap Occurrence.round? =
          [(1, [⟨0⟩]), (2, [⟨1⟩, ⟨3⟩]), (3, [⟨2⟩, ⟨3⟩]), (4, [⟨3⟩])]) = true := by decide +kernel
  obtain ⟨g, hg, hp⟩ := (Option.any_eq_true _ _).mp hdec
  obtain ⟨hbefore, hany⟩ := of_decide_eq_true hp
  obtain ⟨reply, hrun, hq⟩ := (Option.any_eq_true _ _).mp hany
  obtain ⟨hok, hrounds⟩ := of_decide_eq_true hq
  cases reply with
  | error err h => cases hok
  | ok report h =>
    obtain rfl : report = ⟨4, 6⟩ := Option.some.inj hok
    have hr : g.Reachable := Reachable.performAll (.new _) hg
    obtain ⟨-, -, -, hend, -⟩ := Reachable.run_scheduled hr
    obtain ⟨log, hl, hdue, news, hh, hnews, -⟩ := hend 9 ⟨4, 6⟩ h hrun
    change h.history.reverse.filterMap Occurrence.round? = _ at hrounds
    rw [hh, List.reverse_append, List.reverse_reverse, List.filterMap_append, hnews,
      List.filterMap_reverse, hbefore] at hrounds
    have hblocks := congrArg (List.map Prod.snd) hrounds
    rw [List.reverse_nil, List.nil_append, List.map_map] at hblocks
    refine ⟨g, h, log, hg, hrun, hl, hdue, Eq.trans ?_ hblocks⟩
    have hfst := congrArg (List.map RoundLog.blocks) (List.zipIdx_map_fst 1 log)
    rw [List.map_map] at hfst
    exact hfst.symm

end Graph

end Patchbay
