import Patchbay.Proofs.Companions
import Patchbay.Proofs.Schedule

/-! Runs of a graph and of a part of it. The run of the part takes the steps of the run of the whole
that are its own, round by round, until no block of the part is due; the run of the whole may then
go on without them. -/

namespace Patchbay

namespace Invocation

/-- An invocation of a block of `S` with what it told of such blocks. -/
def restrict (S : BlockId → Bool) (x : Invocation) : Invocation :=
  { x with events := x.events.filter (Occurrence.concerns S x.block) }

/-- Whether an invocation neither is of a block of `S` nor told anything of one. -/
def Foreign (S : BlockId → Bool) (x : Invocation) : Prop :=
  S x.block = false ∧ ∀ o ∈ x.events, o.concerns S x.block = false

end Invocation

namespace RoundLog

variable {S : BlockId → Bool} {r : RoundLog} {x : Invocation}

/-- What a round told of the blocks of `S`. -/
def eventsOf (S : BlockId → Bool) (r : RoundLog) : List Occurrence :=
  r.invocations.flatMap fun x => x.events.filter (Occurrence.concerns S x.block)

def restrict (S : BlockId → Bool) (r : RoundLog) : RoundLog where
  blocks := r.blocks.filter S
  invocations := (r.invocations.filter (S ·.block)).map (Invocation.restrict S)

theorem restrict_push_inside (hx : S x.block) :
    (r.push x).restrict S = (r.restrict S).push (x.restrict S) := by
  simp [restrict, push, List.filter_append, hx]

theorem restrict_push_outside (hx : S x.block = false) :
    (r.push x).restrict S = r.restrict S := by
  simp [restrict, push, List.filter_append, hx]

theorem invoked_restrict (S : BlockId → Bool) (r : RoundLog) :
    (r.restrict S).invoked = r.invoked.filter S := by
  rw [invoked, restrict, invoked, List.filter_map, List.map_map]
  rfl

theorem eventsOf_restrict (hr : ∀ x ∈ r.invocations, S x.block = true ∨ x.Foreign S) :
    (r.restrict S).eventsOf S = r.eventsOf S := by
  obtain ⟨blocks, invocations⟩ := r
  unfold eventsOf restrict
  dsimp only at hr ⊢
  induction invocations with
  | nil => rfl
  | cons x rest ih =>
    have hrest := ih fun y hy => hr y (List.mem_cons_of_mem _ hy)
    rcases hr x List.mem_cons_self with hx | ⟨hx, hforeign⟩
    · simp only [List.filter_cons, hx, if_true, List.map_cons, List.flatMap_cons, hrest]
      simp [Invocation.restrict, List.filter_filter]
    · have hnone : x.events.filter (Occurrence.concerns S x.block) = [] :=
        List.filter_eq_nil_iff.mpr fun o ho => by simp [hforeign o ho]
      simp only [List.filter_cons, hx, Bool.false_eq_true, if_false, List.flatMap_cons, hnone,
        List.nil_append, hrest]

theorem eventsOf_of_foreign (hr : ∀ x ∈ r.invocations, x.Foreign S) : r.eventsOf S = [] := by
  refine List.flatMap_eq_nil_iff.mpr fun x hx => List.filter_eq_nil_iff.mpr fun o ho => ?_
  simp [(hr x hx).2 o ho]

end RoundLog

/-- Whether a moment in the run of a part goes with one in the run of the whole. -/
structure Moment.Follows {β : Type} (S : BlockId → Bool) (μ ν : Moment β) : Prop where
  part : Graph.Part S μ.graph ν.graph
  rounds : ν.report.rounds = μ.report.rounds
  pending : ν.pending = μ.pending.filter S

namespace Graph

open HostsBuiltins (block)

variable {β : Type} [Behaviour β] {S : BlockId → Bool} {g h : Graph β} {μ ν : Moment β}
  {log : RunLog}

/-- Whether the limit allows a round after a number of rounds. -/
def Permits (g : Graph β) (rounds : Nat) : Prop := g.settings.maxRounds.any (· ≤ rounds) = false

theorem Logs.permits (hs : g.Sound) (hc : g.Complete) (hl : g.Logs log μ) :
    ∀ n < μ.report.rounds, g.Permits n := by
  induction hl with
  | begin => exact fun n hn => absurd hn (Nat.not_lt_zero n)
  | @start log k report hl _ hlim ih =>
    intro n hn
    have hset : k.settings = g.settings := settings_congr (hl.visits.regular hs hc).layout
    have hle : n ≤ report.rounds := Nat.lt_succ_iff.mp hn
    rcases Nat.lt_or_eq_of_le hle with hlt | rfl
    · exact ih n hlt
    · rw [Permits, ← hset]
      exact hlim
  | invoke _ _ _ ih => exact ih

section

variable {k k' : Graph β} {report : RunReport} {id : BlockId} {rest : List BlockId} {fuel : Nat}
  {waiting : Bool} {r : RoundLog} {events : List Occurrence}

theorem Logs.follow_start (hh : h.Sound) (hc : h.Complete) (hl : h.Logs log ν)
    (hf : Moment.Follows S ⟨k, report, []⟩ ν) (hne : k.receivers.filter S ≠ [])
    (hperm : h.Permits report.rounds) : ∃ ν',
      h.Logs (log ++ [RoundLog.restrict S ⟨k.receivers, []⟩]) ν' ∧
      Moment.Follows S ⟨k.startRound (report.rounds + 1),
        { report with rounds := report.rounds + 1 }, k.receivers⟩ ν' := by
  obtain ⟨l, report', pending⟩ := ν
  obtain ⟨hpart, hrounds, hpending⟩ := hf
  dsimp only at hpart hrounds hpending
  subst hpending
  have hset : l.settings = h.settings := settings_congr (hl.visits.regular hh hc).layout
  have hlim : l.limited report' = false := by
    rw [limited, hset, hrounds]
    exact hperm
  have hnext := hl.start (by rwa [hpart.receivers]) hlim
  rw [hpart.receivers] at hnext
  refine ⟨_, hnext, ?_, ?_, rfl⟩
  · exact hpart.startRound _ _
  · exact congrArg Nat.succ hrounds

theorem Logs.follow_inside [HostsBuiltins β] (hl : h.Logs (log ++ [r]) ν)
    (hf : Moment.Follows S ⟨k, report, id :: rest⟩ ν) (hid : S id) {b : Builtin}
    (hbe : k.behaviour? id = some (block b)) (hi : k.invoke fuel id = some (.ok waiting k'))
    (hh : k'.history = events.reverse ++ k.history) : ∃ ν',
      h.Logs (log ++ [r.push ((k'.logged id waiting events).restrict S)]) ν' ∧
      Moment.Follows S ⟨k'.settle id waiting, { report with processed := report.processed + 1 },
        rest⟩ ν' := by
  obtain ⟨l, report', pending⟩ := ν
  obtain ⟨hpart, hrounds, hpending⟩ := hf
  dsimp only at hpart hrounds hpending
  rw [List.filter_cons_of_pos hid] at hpending
  subst hpending
  obtain ⟨reply, hi', hres, hbeside⟩ := Mirror.exists_right (hpart.invoke hid hbe fuel) hi
  cases reply with
  | error err l' => cases hres
  | ok waiting' l' =>
    cases hres
    obtain ⟨news, hn, hn'⟩ := hbeside.told
    have hnews : news = events.reverse := List.append_cancel_right (hn.symm.trans hh)
    have hh' : l'.history = (events.filter (Occurrence.concerns S id)).reverse ++ l.history := by
      rw [← List.filter_reverse, ← hnews]
      exact hn'
    have hsame : l'.logged id waiting (events.filter (Occurrence.concerns S id)) =
        (k'.logged id waiting events).restrict S := by
      have hbuf : ∀ port, l'.buffer id port = k'.buffer id port := hbeside.part.buffer hid
      simp only [logged, Invocation.restrict, hbuf]
    have hnext := hl.invoke hi' hh'
    rw [hsame] at hnext
    exact ⟨_, hnext, hbeside.part.settle hid waiting, hrounds, rfl⟩

theorem follow_outside (hf : Moment.Follows S ⟨k, report, id :: rest⟩ ν) (hid : S id = false)
    (hi : k.invoke fuel id = some (.ok waiting k')) : Moment.Follows S ⟨k'.settle id waiting,
      { report with processed := report.processed + 1 }, rest⟩ ν where
  part := (hf.part.invoke_aside hid hi).settle_aside hid waiting
  rounds := hf.rounds
  pending := by
    rw [hf.pending]
    exact List.filter_cons_of_neg (by simp [hid])

end

/-- Whether the run of a part has come to its end while that of the whole goes on without it. -/
structure Outlived (S : BlockId → Bool) (h : Graph β) (log before after : RunLog)
    (μ ν : Moment β) : Prop where
  split : log = before ++ after
  logs : h.Logs (before.map (RoundLog.restrict S)) ν
  idle : ν.pending = []
  quiet : ν.graph.receivers = []
  /-- There is a round without the part. -/
  started : ∃ r ∈ after, ∃ id ∈ r.blocks, S id = false
  outside : ∀ r ∈ after, ∀ id ∈ r.blocks, S id = false
  pending : ∀ id ∈ μ.pending, S id = false
  receivers : ∀ id ∈ μ.graph.receivers, S id = false

section

variable {before after : RunLog} {k k' : Graph β} {report : RunReport}

theorem Outlived.begin (hl : h.Logs (log.map (RoundLog.restrict S)) ν)
    (hf : Moment.Follows S ⟨k, report, []⟩ ν) (hne : k.receivers ≠ [])
    (hq : k.receivers.filter S = []) :
    Outlived S h (log ++ [⟨k.receivers, []⟩]) log [⟨k.receivers, []⟩]
      ⟨k.startRound (report.rounds + 1), { report with rounds := report.rounds + 1 },
        k.receivers⟩ ν := by
  have hout : ∀ id ∈ k.receivers, S id = false := by
    intro id hid
    simpa using List.filter_eq_nil_iff.mp hq id hid
  obtain ⟨id, hid⟩ := List.exists_mem_of_ne_nil _ hne
  exact
    { split := rfl
      logs := hl
      idle := hf.pending
      quiet := hf.part.receivers.trans hq
      started := ⟨_, List.mem_singleton_self _, id, hid, hout id hid⟩
      outside := fun r hr => by
        rw [List.mem_singleton.mp hr]
        exact hout
      pending := hout
      receivers := fun _ hm => absurd hm List.not_mem_nil }

theorem Outlived.start (ho : Outlived S h log before after ⟨k, report, []⟩ ν) :
    Outlived S h (log ++ [⟨k.receivers, []⟩]) before (after ++ [⟨k.receivers, []⟩])
      ⟨k.startRound (report.rounds + 1), { report with rounds := report.rounds + 1 },
        k.receivers⟩ ν where
  split := by rw [ho.split, List.append_assoc]
  logs := ho.logs
  idle := ho.idle
  quiet := ho.quiet
  started := by
    obtain ⟨r, hr, hid⟩ := ho.started
    exact ⟨r, List.mem_append_left _ hr, hid⟩
  outside r hr := by
    rcases List.mem_append.mp hr with hr | hr
    · exact ho.outside r hr
    · rw [List.mem_singleton.mp hr]
      exact ho.receivers
  pending := ho.receivers
  receivers _ hm := absurd hm List.not_mem_nil

theorem Outlived.invoke {r : RoundLog} {x : Invocation} {id : BlockId} {rest : List BlockId}
    {fuel : Nat} {waiting : Bool} (hw : k.Wired) (hclosed : k.Ancestral S)
    (ho : Outlived S h (log ++ [r]) before after ⟨k, report, id :: rest⟩ ν)
    (hi : k.invoke fuel id = some (.ok waiting k')) : ∃ after',
      Outlived S h (log ++ [r.push x]) before after' ⟨k'.settle id waiting,
        { report with processed := report.processed + 1 }, rest⟩ ν := by
  have hid : S id = false := ho.pending id List.mem_cons_self
  -- The round in progress is one of those without the part.
  obtain ⟨y, hy, -⟩ := ho.started
  obtain ⟨after', last, rfl⟩ : ∃ after' last, after = after' ++ [last] := by
    rcases List.eq_nil_or_concat' after with rfl | hconcat
    · exact absurd hy List.not_mem_nil
    · exact hconcat
  have hsplit := ho.split
  rw [← List.append_assoc] at hsplit
  obtain ⟨hlog, rfl⟩ := List.append_singleton_inj.mp hsplit
  refine ⟨after' ++ [r.push x], by rw [hlog, List.append_assoc], ho.logs, ho.idle, ho.quiet, ?_,
    ?_, fun j hj => ho.pending j (List.mem_cons_of_mem _ hj), fun j hj => ?_⟩
  · obtain ⟨y, hy, hout⟩ := ho.started
    rcases List.mem_append.mp hy with hy | hy
    · exact ⟨y, List.mem_append_left _ hy, hout⟩
    · rw [List.mem_singleton.mp hy] at hout
      exact ⟨r.push x, by simp, hout⟩
  · intro y hy
    rcases List.mem_append.mp hy with hy | hy
    · exact ho.outside y (List.mem_append_left _ hy)
    · rw [List.mem_singleton.mp hy]
      exact ho.outside r (by simp)
  · rcases mem_receivers_settle.mp hj with hj | ⟨-, rfl⟩
    · rcases hw.mem_receivers_invoke hi hj with hj | hf
      · exact ho.receivers j hj
      · exact hclosed.outside hf hid
    · exact hid

end

/-- The run of a part goes along with the run of the whole as long as a block of the part is due,
provided that the limit allows it. -/
theorem Logs.follow [HostsBuiltins β] (hg : g.Ready) (hb : g.MadeOfBuiltins) (hh : h.Ready)
    (hp : Part S g h) (hl : g.Logs log μ) (hperm : ∀ n < μ.report.rounds, h.Permits n) :
    (∃ ν, h.Logs (log.map (RoundLog.restrict S)) ν ∧ Moment.Follows S μ ν) ∨
      ∃ before after ν, Outlived S h log before after μ ν := by
  -- The run of the part ends where the whole starts a round without a block of it; from there on
  -- only blocks outside are due, as nothing outside feeds the part.
  induction hl with
  | begin => exact Or.inl ⟨_, .begin, hp.startRun, rfl, rfl⟩
  | @start log k report hl hne hlim ih =>
    rcases ih fun n hn => hperm n (Nat.lt_succ_of_lt hn) with ⟨ν, hl', hf⟩ | ⟨before, after, ν, ho⟩
    · by_cases hq : k.receivers.filter S = []
      · exact Or.inr ⟨_, _, ν, .begin hl' hf hne hq⟩
      · rw [List.map_append]
        exact Or.inl (hl'.follow_start hh.toSound hh.complete hf hq
          (hperm _ (Nat.lt_succ_self _)))
    · exact Or.inr ⟨_, _, ν, ho.start⟩
  | @invoke log r k k' report id rest fuel waiting events hl hi hhist ih =>
    have hμ := hl.visits.regular hg.toSound hg.complete
    rcases ih hperm with ⟨ν, hl', hf⟩ | ⟨before, after, ν, ho⟩
    · refine Or.inl ?_
      rw [List.map_append] at hl' ⊢
      cases hid : S id with
      | true =>
        obtain ⟨b, -, hbe⟩ := hl.visits.exists_builtin hg hb (hμ.mem_processing rfl)
        have hnext := hl'.follow_inside hf hid hbe hi hhist
        rwa [← RoundLog.restrict_push_inside hid] at hnext
      | false =>
        refine ⟨ν, ?_, follow_outside hf hid hi⟩
        have hsame : (r.push (k'.logged id waiting events)).restrict S = r.restrict S :=
          RoundLog.restrict_push_outside hid
        simpa [hsame] using hl'
    · have hclosed : k.Ancestral S := fun a b hfeeds => by
        rw [feeds_congr hμ.layout] at hfeeds
        exact hp.closed a b hfeeds
      obtain ⟨after', ho'⟩ := ho.invoke hμ.sound.wired hclosed hi
      exact Or.inr ⟨before, after', ν, ho'⟩

end Graph

end Patchbay
