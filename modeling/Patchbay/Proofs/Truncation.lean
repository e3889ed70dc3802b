import Patchbay.Proofs.Following

/-! Runs with and without a limit of rounds. The limit is looked at only when a round is about to
start, so it cuts a run short and changes nothing before that. -/

namespace Patchbay

section

variable {S : BlockId → Bool}

theorem Occurrence.concerns_of_all (hS : ∀ id, S id = true) (id : BlockId) (o : Occurrence) :
    o.concerns S id = true := by
  cases o with
  | observed observers activity => cases activity <;> exact hS _
  | logged | shown | said => exact hS _

theorem RoundLog.restrict_of_all (hS : ∀ id, S id = true) (r : RoundLog) : r.restrict S = r := by
  have hblocks : r.blocks.filter S = r.blocks := List.filter_eq_self.mpr fun id _ => hS id
  have hkept : r.invocations.filter (S ·.block) = r.invocations :=
    List.filter_eq_self.mpr fun x _ => hS x.block
  have hsame : r.invocations.map (Invocation.restrict S) = r.invocations := by
    refine List.map_id'' (fun x => ?_) _
    have hevents : x.events.filter (Occurrence.concerns S x.block) = x.events :=
      List.filter_eq_self.mpr fun o _ => o.concerns_of_all hS x.block
    rw [Invocation.restrict, hevents]
  rw [RoundLog.restrict, hblocks, hkept, hsame]

end

namespace Graph

open HostsBuiltins (block)

variable {β : Type} {g h : Graph β} {log : RunLog} {m : Nat}

def withLimit (g : Graph β) (limit : Option Nat) : Graph β :=
  { g with settings := { g.settings with maxRounds := limit } }

theorem Ready.withLimit (hg : g.Ready) (limit : Option Nat) : (g.withLimit limit).Ready :=
  hg.of_slots rfl rfl rfl rfl rfl

theorem Wired.part_withLimit (hw : g.Wired) (limit limit' : Option Nat) :
    Part (fun _ => true) (g.withLimit limit) (g.withLimit limit') where
  source := hw.congr rfl rfl fun _ => rfl
  target := hw.congr rfl rfl fun _ => rfl
  order := (List.filter_true _).symm
  edges _ _ := (List.filter_true _).symm
  closed _ _ _ _ := rfl
  observers := rfl
  entries _ _ := rfl
  processing := (List.filter_true _).symm
  receivers := (List.filter_true _).symm

theorem permits_withLimit {n : Nat} (hn : n < m) : (g.withLimit (some m)).Permits n := by
  simp [Permits, withLimit, hn]

theorem closeRun_congr {report : RunReport} {r r' : Reply β Unit} (hres : r'.result = r.result)
    (hhist : r'.graph.history = r.graph.history) (hobs : r'.graph.observers = r.graph.observers) :
    (closeRun report r').result = (closeRun report r).result ∧
      (closeRun report r').graph.history = (closeRun report r).graph.history := by
  cases r with
  | ok u k =>
    cases r' with
    | error => cases hres
    | ok u' k' =>
      refine ⟨rfl, ?_⟩
      change _ :: k'.history = _ :: k.history
      exact congrArg₂ List.cons (congrArg (Occurrence.observed · _) hobs) hhist
  | error err k =>
    cases r' with
    | ok => cases hres
    | error err' k' =>
      cases hres
      exact ⟨rfl, congrArg (List.cons _) hhist⟩

variable [Behaviour β]

/-- Before each of its rounds a run has the log of the rounds before. -/
theorem Logs.take {μ : Moment β} (hl : g.Logs log μ) (hm : m < log.length) :
    ∃ k report, g.Logs (log.take m) ⟨k, report, []⟩ ∧ k.receivers ≠ [] := by
  induction hl with
  | begin => exact absurd hm (Nat.not_lt_zero m)
  | @start log k report hl hne _ ih =>
    rw [List.length_append, List.length_singleton] at hm
    rcases Nat.lt_or_eq_of_le (Nat.lt_succ_iff.mp hm) with hlt | rfl
    · rw [List.take_append_of_le_length (Nat.le_of_lt hlt)]
      exact ih hlt
    · rw [List.take_left]
      exact ⟨k, report, hl, hne⟩
  | @invoke log r k h report id rest fuel waiting events hl _ _ ih =>
    rw [List.length_append, List.length_singleton] at hm
    -- The round in progress is not one of the first `m`.
    have hle : m ≤ log.length := Nat.lt_succ_iff.mp hm
    have hprev := ih (by simpa using hm)
    rwa [List.take_append_of_le_length hle] at hprev ⊢

/-- A run that never answers starts any number of rounds, unless one of its invocations does not
end. -/
theorem Ready.exists_longer_log (hg : g.Ready) (hn : ∀ fuel, g.run fuel = none)
    (hi : ∀ μ id rest, g.Visits μ → μ.pending = id :: rest →
      ∃ fuel reply, μ.graph.invoke fuel id = some reply) (m : Nat) :
    ∃ log μ, g.Logs log μ ∧ m < log.length := by
  by_contra hno
  have hle : ∀ μ, g.Visits μ → μ.report.rounds ≤ m := by
    intro μ hv
    obtain ⟨log, hl⟩ := hv.exists_log hg.toSound hg.complete
    rw [← hl.length_eq]
    exact Nat.le_of_not_lt fun hlt => hno ⟨log, μ, hl, hlt⟩
  obtain ⟨fuel, reply, hrun⟩ := Graph.exists_run_of_bounded hle hi
  rw [hn fuel] at hrun
  cases hrun

variable [HostsBuiltins β]

/-- Another graph with the same blocks takes the same course, as far as its limit allows. -/
theorem Logs.replay {μ : Moment β} (hg : g.Ready) (hb : g.MadeOfBuiltins) (hh : h.Ready)
    (hp : Part (fun _ => true) g h) (hhist : h.history = g.history) (hl : g.Logs log μ)
    (hperm : ∀ n < μ.report.rounds, h.Permits n) : ∃ k, h.Logs log ⟨k, μ.report, μ.pending⟩ ∧
      Part (fun _ => true) μ.graph k ∧ k.history = μ.graph.history := by
  rcases hl.follow hg hb hh hp hperm with ⟨⟨k, report, pending⟩, hl', hf⟩ |
    ⟨before, after, ν, ho⟩
  · have hsame : log.map (RoundLog.restrict fun _ => true) = log :=
      List.map_id'' (fun r => r.restrict_of_all fun _ => rfl) log
    rw [hsame] at hl'
    have hsch := hl.scheduled hg.toSound hg.complete
    have hsch' := hl'.scheduled hh.toSound hh.complete
    have hpending : pending = μ.pending := hf.pending.trans (List.filter_true _)
    have hreport : report = μ.report := by
      have hprocessed := hsch'.processed.trans hsch.processed.symm
      cases report
      exact congrArg₂ RunReport.mk hf.rounds hprocessed
    subst hpending hreport
    refine ⟨k, hl', hf.part, ?_⟩
    have haccount : h.account log = g.account log := by simp only [account, hp.observers]
    have hk : k.history = (h.account log).reverse ++ h.history := hsch'.history
    rw [hk, haccount, hhist, hsch.history]
  · -- No block is outside, so the run of the whole cannot go on by itself.
    obtain ⟨r, -, id, -, hfalse⟩ := ho.started
    cases hfalse

section

variable {k l : Graph β} {report : RunReport} {pending : List BlockId}

theorem Part.ends (hp : Part (fun _ => true) k l) (hhist : l.history = k.history)
    (hbe : ∀ id ∈ pending, ∃ b, k.behaviour? id = some (block b))
    (hm : k.settings.maxRounds = none) {r : Reply β Unit}
    (he : Moment.Ends ⟨k, report, pending⟩ r) : ∃ r', Moment.Ends ⟨l, report, pending⟩ r' ∧
      r'.result = r.result ∧ r'.graph.history = r.graph.history ∧
      r'.graph.observers = r.graph.observers := by
  cases he with
  | quiet hq =>
    have hq' : l.receivers = [] := by rw [hp.receivers, hq, List.filter_nil]
    exact ⟨_, .quiet hq', rfl, hhist, hp.observers⟩
  | limit _ hl =>
    rw [limited, hm] at hl
    cases hl
  | @failure _ k' _ id rest fuel err hi =>
    obtain ⟨b, hbe⟩ := hbe id List.mem_cons_self
    obtain ⟨reply, hi', hres, hbeside⟩ := Mirror.exists_right (hp.invoke rfl hbe fuel) hi
    cases reply with
    | ok waiting l' => cases hres
    | error err' l' =>
      cases hres
      obtain ⟨news, hn, hn'⟩ := hbeside.told
      have hall : news.filter (Occurrence.concerns (fun _ => true) id) = news :=
        List.filter_eq_self.mpr fun o _ => o.concerns_of_all (fun _ => rfl) id
      have hsame : l'.history = k'.history := by
        rw [Reply.graph_error] at hn hn'
        rw [hn', hall, hhist, hn]
      exact ⟨_, .failure hi', rfl, hsame, hbeside.part.observers⟩

end

theorem Returns.withLimit (hg : g.Ready) (hb : g.MadeOfBuiltins) {reply : Reply β RunReport}
    (hret : (g.withLimit none).Returns log reply) (hle : log.length ≤ m) : ∃ reply',
      (g.withLimit (some m)).Returns log reply' ∧ reply'.result = reply.result ∧
      reply'.graph.history = reply.graph.history := by
  obtain ⟨⟨k, report, pending⟩, r, hl, he, rfl⟩ := hret
  have hg' := hg.withLimit none
  have hrounds : log.length = report.rounds := hl.length_eq
  obtain ⟨l, hl', hpart, hhist⟩ := hl.replay hg' hb (hg.withLimit (some m))
    (hg.wired.part_withLimit none (some m)) rfl
    fun n hn => permits_withLimit (Nat.lt_of_lt_of_le (hrounds ▸ hn) hle)
  have hμ := hl.visits.regular hg'.toSound hg'.complete
  have hm : k.settings.maxRounds = none := congrArg RunSettings.maxRounds (settings_congr hμ.layout)
  have hbe : ∀ id ∈ pending, ∃ b, k.behaviour? id = some (block b) := by
    intro id hid
    obtain ⟨b, -, hkeep⟩ := hl.visits.exists_builtin hg' hb (hμ.pending.mem hid)
    exact ⟨b, hkeep⟩
  obtain ⟨r', he', hres, hhist', hobs⟩ := hpart.ends hhist hbe hm he
  exact ⟨_, ⟨_, r', hl', he', rfl⟩, closeRun_congr hres hhist' hobs⟩

/-- Whether a run under a limit fails for it, having told what the first rounds of a log tell. -/
def StopsAfter (g : Graph β) (limit : Nat) (log : RunLog) : Prop :=
  ∃ fuel h, (g.withLimit (some limit)).run fuel = some (.error (.notConverged limit) h) ∧
    h.history = .logged (.runAborted none limit (.notConverged limit)) ::
      ((g.account (log.take limit)).reverse ++ g.history)

theorem Logs.stopsAfter (hg : g.Ready) (hb : g.MadeOfBuiltins) {μ : Moment β}
    (hl : (g.withLimit none).Logs log μ) (hm : m < log.length) : g.StopsAfter m log := by
  obtain ⟨k, report, hl, hne⟩ := hl.take hm
  have hg' := hg.withLimit (some m)
  have hrounds : report.rounds = m := by
    rw [← hl.length_eq, List.length_take, Nat.min_eq_left (Nat.le_of_lt hm)]
  obtain ⟨l, hl', hpart, -⟩ := hl.replay (hg.withLimit none) hb hg'
    (hg.wired.part_withLimit none (some m)) rfl
    fun n hn => permits_withLimit (hrounds ▸ hn)
  have hset : l.settings = (g.withLimit (some m)).settings :=
    settings_congr (hl'.visits.regular hg'.toSound hg'.complete).layout
  have hlim : l.limited report = true := by simp [limited, hset, withLimit, hrounds]
  have hne' : l.receivers ≠ [] := by rwa [hpart.receivers, List.filter_true]
  obtain ⟨fuel, hrun⟩ := run_eq_some_iff.mpr ⟨_, _, hl'.visits, .limit hne' hlim, rfl⟩
  have hhist : l.history = (g.account (log.take m)).reverse ++ g.history :=
    (hl'.scheduled hg'.toSound hg'.complete).history
  dsimp only at hrun
  rw [hrounds] at hrun
  refine ⟨fuel, _, hrun, ?_⟩
  change _ :: l.history = _
  rw [hhist, hrounds]
  rfl

/-- A limit of rounds only truncates. A run that answers within the limit answers the same under it
and tells the same; of any other run, as long as its invocations come to an end, the rounds up to
the limit are told, and then the run fails for the limit. -/
theorem Reachable.limit_truncates (hr : g.Reachable) (hb : g.MadeOfBuiltins) (m : Nat) :
    (∀ fuel reply, (g.withLimit none).run fuel = some reply → ∃ log,
      (g.withLimit none).Returns log reply ∧
      (log.length ≤ m → ∃ fuel' reply', (g.withLimit (some m)).run fuel' = some reply' ∧
        reply'.result = reply.result ∧ reply'.graph.history = reply.graph.history) ∧
      (m < log.length → g.StopsAfter m log)) ∧
    ((∀ fuel, (g.withLimit none).run fuel = none) →
      (∀ μ id rest, (g.withLimit none).Visits μ → μ.pending = id :: rest →
        ∃ fuel reply, μ.graph.invoke fuel id = some reply) →
      ∃ log μ, (g.withLimit none).Logs log μ ∧ m < log.length ∧ g.StopsAfter m log) := by
  have hg := hr.ready
  have hg' := hg.withLimit none
  refine ⟨fun fuel reply hrun => ?_, fun hn hi => ?_⟩
  · obtain ⟨log, hret⟩ :=
      (run_eq_some_iff_returns hg'.toSound hg'.complete).mp ⟨fuel, hrun⟩
    refine ⟨log, hret, fun hle => ?_, fun hlt => ?_⟩
    · obtain ⟨reply', hret', hsame⟩ := hret.withLimit hg hb hle
      have hlim := hg.withLimit (some m)
      obtain ⟨fuel', hrun'⟩ :=
        (run_eq_some_iff_returns hlim.toSound hlim.complete).mpr ⟨log, hret'⟩
      exact ⟨fuel', reply', hrun', hsame⟩
    · obtain ⟨μ, r, hl, -⟩ := hret
      exact hl.stopsAfter hg hb hlt
  · obtain ⟨log, μ, hl, hlt⟩ := hg'.exists_longer_log hn hi m
    exact ⟨log, μ, hl, hlt, hl.stopsAfter hg hb hlt⟩

/-- The run takes four rounds: a limit of four changes nothing, and one of two cuts it short. -/
theorem limit_truncates_lateComparison : ∃ (g h : Graph Builtin) (log : RunLog),
    performAll 1 (lateComparison 4) (.new .standard) = some g ∧
    (g.withLimit none).run 9 = some (.ok ⟨4, 6⟩ h) ∧
    (∃ fuel h', (g.withLimit (some 4)).run fuel = some (.ok ⟨4, 6⟩ h') ∧
      h'.history = h.history) ∧
    (g.withLimit none).Returns log (.ok ⟨4, 6⟩ h) ∧ log.length = 4 ∧ g.StopsAfter 2 log := by
  have hdec : (performAll 1 (lateComparison 4) (.new .standard : Graph Builtin)).any
      (fun g => ((g.withLimit none).run 9).any fun reply =>
        reply.result.toOption = some ⟨4, 6⟩) = true := by decide +kernel
  obtain ⟨g, hg, hany⟩ := (Option.any_eq_true _ _).mp hdec
  obtain ⟨reply, hrun, hq⟩ := (Option.any_eq_true _ _).mp hany
  have hok := of_decide_eq_true hq
  cases reply with
  | error err h => cases hok
  | ok report h =>
    obtain rfl : report = ⟨4, 6⟩ := Option.some.inj hok
    have hr : g.Reachable := Reachable.performAll (.new _) hg
    have hb := hr.ready.complete.madeOfBuiltins
    obtain ⟨log, hret, hsame, -⟩ := (Reachable.limit_truncates hr hb 4).1 9 _ hrun
    obtain ⟨fuel, reply', hrun', hres, hhist⟩ :=
      hsame (Nat.le_of_eq (returns_ok_iff.mp hret).length_eq)
    obtain ⟨log', hret', -, hstop⟩ := (Reachable.limit_truncates hr hb 2).1 9 _ hrun
    have hlen : log'.length = 4 := (returns_ok_iff.mp hret').length_eq
    cases reply' with
    | error err h' => cases hres
    | ok report' h' =>
      cases hres
      exact ⟨g, h, log', hg, hrun, ⟨fuel, h', hrun', hhist⟩, hret', hlen, hstop (by omega)⟩

end Graph

end Patchbay
