import Patchbay.Proofs.Following
import Patchbay.Proofs.Pruning

/-! Blocks and their ancestors. Removing blocks that feed none of the others changes nothing that
the others do, round by round; the run may only come to its end in fewer rounds. -/

namespace Patchbay

namespace RunLog

variable {S : BlockId → Bool} {log before after : RunLog}

/-- The blocks of `S` that a round has invoked, by the index of the round. -/
def invokedOf (S : BlockId → Bool) (log : RunLog) (n : Nat) : List BlockId :=
  log[n]?.elim [] fun r => r.invoked.filter S

/-- What a round has told of the blocks of `S`, by the index of the round. -/
def toldOf (S : BlockId → Bool) (log : RunLog) (n : Nat) : List Occurrence :=
  log[n]?.elim [] (RoundLog.eventsOf S)

def Alike (S : BlockId → Bool) (log log' : RunLog) : Prop :=
  ∀ n, log'.invokedOf S n = log.invokedOf S n ∧ log'.toldOf S n = log.toldOf S n

theorem alike_restrict (hx : ∀ x ∈ log.invocations, S x.block = true ∨ x.Foreign S) :
    Alike S log (log.map (RoundLog.restrict S)) := by
  intro n
  rw [invokedOf, invokedOf, toldOf, toldOf, List.getElem?_map]
  cases hr : log[n]? with
  | none => exact ⟨rfl, rfl⟩
  | some r =>
    have hm : r ∈ log := List.mem_of_getElem? hr
    refine ⟨?_, RoundLog.eventsOf_restrict fun x hxr => hx x (List.mem_flatMap.mpr ⟨r, hm, hxr⟩)⟩
    change (r.restrict S).invoked.filter S = r.invoked.filter S
    rw [RoundLog.invoked_restrict, List.filter_filter]
    simp

theorem alike_append (hafter : ∀ r ∈ after, ∀ x ∈ r.invocations, x.Foreign S) :
    Alike S (before ++ after) before := by
  intro n
  rw [invokedOf, invokedOf, toldOf, toldOf]
  rcases Nat.lt_or_ge n before.length with hn | hn
  · rw [List.getElem?_append_left hn]
    exact ⟨rfl, rfl⟩
  · rw [List.getElem?_append_right hn, List.getElem?_eq_none hn]
    cases hr : after[n - before.length]? with
    | none => exact ⟨rfl, rfl⟩
    | some r =>
      have hforeign := hafter r (List.mem_of_getElem? hr)
      refine ⟨?_, (RoundLog.eventsOf_of_foreign hforeign).symm⟩
      have hnone : r.invoked.filter S = [] := by
        refine List.filter_eq_nil_iff.mpr fun id hid => ?_
        obtain ⟨x, hx, rfl⟩ := List.mem_map.mp hid
        simp [(hforeign x hx).1]
      exact hnone.symm

theorem Alike.trans {log' log'' : RunLog} (h : Alike S log log') (h' : Alike S log' log'') :
    Alike S log log'' :=
  fun n => ⟨(h' n).1.trans (h n).1, (h' n).2.trans (h n).2⟩

end RunLog

namespace Graph

variable {β : Type} {S : BlockId → Bool} {g h k : Graph β} {log : RunLog}

theorem Scheduled.inside_or_foreign {μ : Moment β} (hs : g.Scheduled log μ) (hc : g.Ancestral S)
    {x : Invocation} (hx : x ∈ log.invocations) : S x.block = true ∨ x.Foreign S := by
  cases hid : S x.block with
  | true => exact Or.inl rfl
  | false => exact Or.inr ⟨hid, fun o ho => hc.not_concerns (hs.caused x hx o ho) hid⟩

variable [Behaviour β] [HostsBuiltins β]

theorem Completes.of_part (hg : g.Ready) (hb : g.MadeOfBuiltins) (hh : h.Ready)
    (hp : Part S g h) (hset : h.settings = g.settings) {report : RunReport}
    (hl : g.Completes log report k) : ∃ log' report' k', h.Completes log' report' k' ∧
      report'.rounds ≤ report.rounds ∧ RunLog.Alike S log log' := by
  obtain ⟨l, hl, hq, rfl⟩ := hl
  have hsch := hl.scheduled hg.toSound hg.complete
  have hperm : ∀ n < report.rounds, h.Permits n := by
    intro n hn
    rw [Permits, hset]
    exact hl.permits hg.toSound hg.complete n hn
  rcases hl.follow hg hb hh hp hperm with ⟨⟨l', report', pending⟩, hl', hf⟩ |
    ⟨before, after, ⟨l', report', pending⟩, ho⟩
  · obtain ⟨hpart, hrounds, hpending⟩ := hf
    dsimp only at hpart hrounds hpending
    subst hpending
    have hquiet : l'.receivers = [] := by rw [hpart.receivers, hq, List.filter_nil]
    exact ⟨_, report', _, ⟨l', hl', hquiet, rfl⟩, Nat.le_of_eq hrounds,
      RunLog.alike_restrict fun x hx => hsch.inside_or_foreign hp.closed hx⟩
  · obtain rfl : pending = [] := ho.idle
    obtain rfl := ho.split
    have hlen := hl.length_eq
    have hlen' := ho.logs.length_eq
    rw [List.length_append] at hlen
    rw [List.length_map] at hlen'
    have hrounds : report'.rounds ≤ report.rounds := by
      dsimp only at hlen hlen'
      omega
    have hmem : ∀ r ∈ after, r ∈ before ++ after := fun r hr => List.mem_append_right _ hr
    have hafter : ∀ r ∈ after, ∀ x ∈ r.invocations, x.Foreign S := by
      intro r hr x hx
      -- Every round of the run has come to its end, so its invocations are of the blocks it took.
      have hblocks : r.invoked = r.blocks := hsch.finished_of_idle rfl r (hmem r hr)
      have hblock : x.block ∈ r.blocks := hblocks ▸ List.mem_map_of_mem hx
      have hout := ho.outside r hr x.block hblock
      rcases hsch.inside_or_foreign hp.closed (List.mem_flatMap.mpr ⟨r, hmem r hr, hx⟩) with
        hin | hforeign
      · rw [hout] at hin
        cases hin
      · exact hforeign
    have hbefore : ∀ x ∈ before.invocations, S x.block = true ∨ x.Foreign S := by
      intro x hx
      refine hsch.inside_or_foreign hp.closed ?_
      rw [RunLog.invocations, List.flatMap_append]
      exact List.mem_append_left _ hx
    exact ⟨_, report', _, ⟨l', ho.logs, ho.quiet, rfl⟩, hrounds,
      (RunLog.alike_append hafter).trans (RunLog.alike_restrict hbefore)⟩

/-- If a run succeeds, it still does without the blocks outside a selection that holds whatever
feeds it. It then takes no more rounds, and in every round the blocks selected are invoked in the
same order and tell the same; a round that only the longer run has invokes none of them. -/
theorem Reachable.run_without_others (hr : g.Reachable) (hb : g.MadeOfBuiltins)
    (hS : g.Ancestral S) {ids : List BlockId}
    (hids : ∀ id, g.contains id → (id ∈ ids ↔ S id = false)) {fuel : Nat} {report : RunReport}
    (hrun : g.run fuel = some (.ok report h)) : ∃ log fuel' report' h' log',
      g.Completes log report h ∧ (g.removeAll ids).run fuel' = some (.ok report' h') ∧
      (g.removeAll ids).Completes log' report' h' ∧ report'.rounds ≤ report.rounds ∧
      ∀ n, log'.invokedOf S n = log.invokedOf S n ∧ log'.toldOf S n = log.toldOf S n := by
  have hg := hr.ready
  obtain ⟨hg', hpruned⟩ := hg.removeAll ids
  have hkeep : ∀ id, g.contains id → (!ids.contains id) = S id := by
    intro id hid
    have hiff := hids id hid
    cases hS : S id <;> simp_all
  have hpart := (hpruned.congr hg.toSound hkeep).part hg.wired hg'.wired hS
  obtain ⟨log, hl⟩ := (run_eq_ok_iff hg.toSound hg.complete).mp ⟨fuel, hrun⟩
  obtain ⟨log', report', h', hl', hrounds, halike⟩ := hl.of_part hg hb hg' hpart hpruned.settings
  obtain ⟨fuel', hrun'⟩ := (run_eq_ok_iff hg'.toSound hg'.complete).mpr ⟨log', hl'⟩
  exact ⟨log, fuel', report', h', log', hl, hrun', hl', hrounds, halike⟩

/-- Without the comparison and the second of its two copies, the source and the first copy do the
same. -/
theorem run_without_others_of_lateComparison : ∃ (g h : Graph Builtin) (log : RunLog)
    (fuel : Nat) (report : RunReport) (h' : Graph Builtin) (log' : RunLog),
    performAll 1 (lateComparison 4) (.new .standard) = some g ∧
    g.run 9 = some (.ok ⟨4, 6⟩ h) ∧ g.Completes log ⟨4, 6⟩ h ∧
    (g.removeAll [⟨2⟩, ⟨3⟩]).run fuel = some (.ok report h') ∧
    (g.removeAll [⟨2⟩, ⟨3⟩]).Completes log' report h' ∧ report.rounds ≤ 4 ∧
    ∀ n, log'.invokedOf (!List.contains [⟨2⟩, ⟨3⟩] ·) n =
      log.invokedOf (!List.contains [⟨2⟩, ⟨3⟩] ·) n := by
  have hdec : (performAll 1 (lateComparison 4) (.new .standard : Graph Builtin)).any
      (fun g => (∀ x ∈ g.arena.entries, !List.contains [⟨2⟩, ⟨3⟩] x.2.subscriber →
          !List.contains [⟨2⟩, ⟨3⟩] x.2.publisher) ∧
        (g.run 9).any fun reply => reply.result.toOption = some ⟨4, 6⟩) = true := by
    decide +kernel
  obtain ⟨g, hg, hp⟩ := (Option.any_eq_true _ _).mp hdec
  obtain ⟨hclosed, hany⟩ := of_decide_eq_true hp
  obtain ⟨reply, hrun, hq⟩ := (Option.any_eq_true _ _).mp hany
  have hok := of_decide_eq_true hq
  cases reply with
  | error err h => cases hok
  | ok report h =>
    obtain rfl : report = ⟨4, 6⟩ := Option.some.inj hok
    have hr : g.Reachable := Reachable.performAll (.new _) hg
    have hb := hr.ready.complete.madeOfBuiltins
    have hS : g.Ancestral (!List.contains [⟨2⟩, ⟨3⟩] ·) := by
      rintro a b ⟨s, edge, hs, rfl, rfl⟩ hsub
      exact hclosed _ (hr.ready.wired.arena.get?_eq_some_iff.mp hs) hsub
    obtain ⟨log, fuel, report, h', log', hl, hrun', hl', hrounds, hsame⟩ :=
      Reachable.run_without_others hr hb hS
        (fun id _ => by rw [Bool.not_eq_false', List.contains_iff_mem]) hrun
    exact ⟨g, h, log, fuel, report, h', log', hg, hrun, hl, hrun', hl', hrounds,
      fun n => (hsame n).1⟩

end Graph

end Patchbay
