import Patchbay.Proofs.Accounts

/-! The log of a run: which blocks each round took and what came of each of its invocations. Every
moment of a run has its log, so what a log shows holds of the run whether or not it comes to an
end. -/

namespace Patchbay

/-- An invocation that came to an end without an error. -/
structure Invocation where
  block : BlockId
  waiting : Bool
  /-- What happened meanwhile, the oldest first. -/
  events : List Occurrence
  /-- What it left on the inputs of the block, the oldest first. -/
  left : String → List Value

namespace Invocation

/-- The blocks that it queued, once for each reason to do so. -/
def calls (x : Invocation) : List BlockId :=
  x.events.filterMap Occurrence.recipient? ++ if x.waiting then [x.block] else []

def delivered (x : Invocation) (id : BlockId) (port : String) : List Value :=
  x.events.filterMap (Occurrence.delivered? id port)

theorem mem_calls_of_delivered {x : Invocation} {id : BlockId} {port : String} {v : Value}
    (hv : v ∈ x.delivered id port) : id ∈ x.calls := by
  obtain ⟨o, ho, hd⟩ := List.mem_filterMap.mp hv
  exact List.mem_append_left _
    (List.mem_filterMap.mpr ⟨o, ho, Occurrence.recipient?_of_delivered? hd⟩)

end Invocation

structure RoundLog where
  blocks : List BlockId
  invocations : List Invocation

namespace RoundLog

def invoked (r : RoundLog) : List BlockId := r.invocations.map Invocation.block

def events (r : RoundLog) : List Occurrence := r.invocations.flatMap Invocation.events

def calls (r : RoundLog) : List BlockId := r.invocations.flatMap Invocation.calls

def push (r : RoundLog) (x : Invocation) : RoundLog :=
  { r with invocations := r.invocations ++ [x] }

@[simp] theorem blocks_push (r : RoundLog) (x : Invocation) : (r.push x).blocks = r.blocks := rfl

@[simp] theorem invoked_push (r : RoundLog) (x : Invocation) :
    (r.push x).invoked = r.invoked ++ [x.block] := by
  simp [invoked, push]

@[simp] theorem events_push (r : RoundLog) (x : Invocation) :
    (r.push x).events = r.events ++ x.events := by
  simp [events, push]

@[simp] theorem calls_push (r : RoundLog) (x : Invocation) :
    (r.push x).calls = r.calls ++ x.calls := by
  simp [calls, push]

end RoundLog

/-- The rounds that a run has started, the first one first. -/
abbrev RunLog := List RoundLog

def RunLog.invocations (log : RunLog) : List Invocation := log.flatMap RoundLog.invocations

theorem RunLog.invocations_start (log : RunLog) (blocks : List BlockId) :
    RunLog.invocations (log ++ [⟨blocks, []⟩]) = log.invocations := by
  simp [RunLog.invocations]

theorem RunLog.invocations_push (log : RunLog) (r : RoundLog) (x : Invocation) :
    RunLog.invocations (log ++ [r.push x]) = RunLog.invocations (log ++ [r]) ++ [x] := by
  simp [RunLog.invocations, RoundLog.push]

namespace Graph

variable {β : Type} [Behaviour β] {g : Graph β} {μ ν : Moment β} {log : RunLog}

/-- What invoking a block leaves in the log, by the graph it leaves and what happened meanwhile. -/
def logged (h : Graph β) (id : BlockId) (waiting : Bool) (events : List Occurrence) :
    Invocation where
  block := id
  waiting := waiting
  events := events
  left port := (h.buffer id port).reverse

/-- The logs of a run of `g` up to each of its moments. -/
inductive Logs (g : Graph β) : RunLog → Moment β → Prop
  | begin : Logs g [] ⟨g.startRun, ⟨0, 0⟩, []⟩
  | start {log : RunLog} {k : Graph β} {report : RunReport} :
    Logs g log ⟨k, report, []⟩ → k.receivers ≠ [] → k.limited report = false →
    Logs g (log ++ [⟨k.receivers, []⟩]) ⟨k.startRound (report.rounds + 1),
      { report with rounds := report.rounds + 1 }, k.receivers⟩
  | invoke {log : RunLog} {r : RoundLog} {k h : Graph β} {report : RunReport} {id : BlockId}
    {rest : List BlockId} {fuel : Nat} {waiting : Bool} {events : List Occurrence} :
    Logs g (log ++ [r]) ⟨k, report, id :: rest⟩ → k.invoke fuel id = some (.ok waiting h) →
    h.history = events.reverse ++ k.history →
    Logs g (log ++ [r.push (h.logged id waiting events)])
      ⟨h.settle id waiting, { report with processed := report.processed + 1 }, rest⟩

theorem Logs.visits (hl : g.Logs log μ) : g.Visits μ := by
  induction hl with
  | begin => exact .refl
  | start _ hne hlim ih => exact ih.tail (.start hne hlim)
  | invoke _ hi _ ih => exact ih.tail (.invoke hi)

theorem Logs.exists_round (hl : g.Logs log μ) (hp : μ.pending ≠ []) :
    ∃ before r, log = before ++ [r] := by
  cases hl with
  | begin => exact absurd rfl hp
  | start => exact ⟨_, _, rfl⟩
  | invoke => exact ⟨_, _, rfl⟩

theorem Logs.length_eq (hl : g.Logs log μ) : log.length = μ.report.rounds := by
  induction hl with
  | begin => rfl
  | start _ _ _ ih => simpa using ih
  | invoke _ _ _ ih => simpa using ih

theorem Visits.exists_log (hs : g.Sound) (hc : g.Complete) (hv : g.Visits μ) :
    ∃ log, g.Logs log μ := by
  induction hv with
  | refl => exact ⟨[], .begin⟩
  | @tail ξ ν hv' hstep ih =>
    obtain ⟨log, hl⟩ := ih
    cases hstep with
    | start hne hlim => exact ⟨_, hl.start hne hlim⟩
    | invoke hi =>
      obtain ⟨before, r, rfl⟩ := hl.exists_round (List.cons_ne_nil _ _)
      have hw := (Visits.regular hs hc hv').sound.wired
      obtain ⟨events, ha⟩ := hw.account_invoke hi
      exact ⟨_, hl.invoke hi ha.history⟩

/-- Whether a run answers, with this log of the rounds that it started. -/
def Returns (g : Graph β) (log : RunLog) (reply : Reply β RunReport) : Prop :=
  ∃ μ r, g.Logs log μ ∧ μ.Ends r ∧ reply = closeRun μ.report r

/-- Whether a run succeeds, with this log, and answers with `report` and leaves `h`. -/
def Completes (g : Graph β) (log : RunLog) (report : RunReport) (h : Graph β) : Prop :=
  ∃ k, g.Logs log ⟨k, report, []⟩ ∧ k.receivers = [] ∧
    h = (closeRun report (.ok () k)).graph

theorem returns_ok_iff {report : RunReport} {h : Graph β} :
    g.Returns log (.ok report h) ↔ g.Completes log report h := by
  constructor
  · rintro ⟨μ, r, hl, he, hreply⟩
    cases he with
    | limit | failure => cases hreply
    | @quiet k _ hq =>
      cases hreply
      exact ⟨k, hl, hq, rfl⟩
  · rintro ⟨k, hl, hq, rfl⟩
    exact ⟨_, _, hl, .quiet hq, rfl⟩

theorem run_eq_some_iff_returns (hs : g.Sound) (hc : g.Complete) {reply : Reply β RunReport} :
    (∃ fuel, g.run fuel = some reply) ↔ ∃ log, g.Returns log reply := by
  rw [run_eq_some_iff]
  constructor
  · rintro ⟨μ, r, hv, he, hreply⟩
    obtain ⟨log, hl⟩ := hv.exists_log hs hc
    exact ⟨log, μ, r, hl, he, hreply⟩
  · rintro ⟨log, μ, r, hl, he, hreply⟩
    exact ⟨μ, r, hl.visits, he, hreply⟩

theorem run_eq_ok_iff (hs : g.Sound) (hc : g.Complete) {report : RunReport} {h : Graph β} :
    (∃ fuel, g.run fuel = some (.ok report h)) ↔ ∃ log, g.Completes log report h :=
  (run_eq_some_iff_returns hs hc).trans (exists_congr fun _ => returns_ok_iff)

theorem Completes.length_eq {report : RunReport} {h : Graph β}
    (hl : g.Completes log report h) : log.length = report.rounds := by
  obtain ⟨k, hl, -⟩ := hl
  exact hl.length_eq

end Graph

end Patchbay
