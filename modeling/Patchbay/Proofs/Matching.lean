import Patchbay.Proofs.Operations
import Patchbay.Proofs.Tallies

/-! Comparisons in a run. When a comparison gives up, no block that is queued or still to be invoked
leads to it, so nothing is delivered to it any more and it has matched what could be matched. -/

namespace Patchbay

open HostsBuiltins (block)

namespace Graph

variable {β : Type} {g h : Graph β} {id c : BlockId}

/-! What does not concern a block -/

/-- What happens between two graphs neither comes from a block nor arrives there. -/
def Silent (c : BlockId) (g h : Graph β) : Prop := ∃ news, h.history = news ++ g.history ∧
  emissions c news = 0 ∧ ∀ input, deliveries c input news = 0

theorem Silent.of_history_eq (hh : h.history = g.history) : Silent c g h :=
  ⟨[], hh, rfl, fun _ => rfl⟩

theorem Silent.record {o : Occurrence} (he : o.isEmission c = false)
    (hd : ∀ input, o.isDelivery c input = false) (hh : h.history = o :: g.history) :
    Silent c g h :=
  ⟨[o], hh, by simp [emissions, he], fun input => by simp [deliveries, hd input]⟩

theorem Silent.trans {k : Graph β} (hgh : Silent c g h) (hhk : Silent c h k) : Silent c g k := by
  obtain ⟨news, hh, he, hd⟩ := hgh
  obtain ⟨more, hk, he', hd'⟩ := hhk
  refine ⟨more ++ news, by rw [hk, hh, List.append_assoc], ?_, fun input => ?_⟩
  · rw [emissions_append, he', he]
  · rw [deliveries_append, hd', hd]

theorem Effect.silent (he : Effect id g h) (hn : ¬Relation.ReflTransGen g.Feeds id c) :
    Silent c g h := by
  cases he with
  | take | assign => exact .of_history_eq rfl
  | display | say => exact .record rfl (fun _ => rfl) rfl
  | emit =>
    refine .record ?_ (fun _ => rfl) rfl
    have hne : id ≠ c := fun heq => hn (heq ▸ .refl)
    simpa [Occurrence.isEmission] using hne
  | @accept s edge v hs hp =>
    refine .record rfl (fun input => ?_) (history_accept g v edge)
    have hne : edge.subscriber ≠ c := fun heq => hn (.single ⟨s, edge, hs, hp, heq⟩)
    simp [Occurrence.isDelivery, hne]

theorem Effects.silent (he : Effects id g h) (hn : ¬Relation.ReflTransGen g.Feeds id c) :
    Silent c g h := by
  induction he with
  | refl => exact .of_history_eq rfl
  | tail heff he ih =>
    rw [← feeds_congr (Effects.layout_eq heff)] at hn
    exact ih.trans (he.silent hn)

/-- Between two graphs a block emits as many values as arrive at that input of a comparison where
fewer do. -/
def Matched (c : BlockId) (g h : Graph β) : Prop := ∃ news, h.history = news ++ g.history ∧
  emissions c news =
    min (deliveries c Builtin.valuesInput news) (deliveries c Builtin.compareInput news)

theorem Matched.silent {k : Graph β} (hm : Matched c g h) (hs : Silent c h k) : Matched c g k := by
  obtain ⟨news, hh, hmin⟩ := hm
  obtain ⟨more, hk, he, hd⟩ := hs
  refine ⟨more ++ news, by rw [hk, hh, List.append_assoc], ?_⟩
  rw [emissions_append, deliveries_append, deliveries_append, he, hd, hd, hmin]
  simp only [Nat.zero_add]

theorem matched_of_balance (hh : g.history <:+ h.history)
    (hb : ∀ input, input = Builtin.valuesInput ∨ input = Builtin.compareInput →
      h.balance c input = deliveries c input g.history - emissions c g.history)
    (hempty : h.buffer c Builtin.valuesInput = [] ∨ h.buffer c Builtin.compareInput = []) :
    Matched c g h := by
  obtain ⟨news, hnews⟩ := hh
  have hv := hb _ (Or.inl rfl)
  have ho := hb _ (Or.inr rfl)
  simp only [balance, ← hnews, emissions_append, deliveries_append] at hv ho
  refine ⟨news, hnews.symm, ?_⟩
  rcases hempty with hnil | hnil
  · rw [hnil, List.length_nil] at hv
    omega
  · rw [hnil, List.length_nil] at ho
    omega

variable [Behaviour β]

theorem Wired.silent_invoke (hw : g.Wired) {fuel : Nat} {reply : Reply β Bool}
    (hi : g.invoke fuel id = some reply) (hn : ¬Relation.ReflTransGen g.Feeds id c) :
    Silent c g reply.graph := by
  have hl := layout_setBehaviour g id none
  rcases hw.invoke_cases hi with ⟨-, rfl⟩ | ⟨b', k, -, heff, heq⟩
  · exact .of_history_eq rfl
  · rw [← feeds_congr hl] at hn
    have hs : Silent c g k := heff.silent hn
    rw [heq]
    exact hs.trans (.of_history_eq rfl)

end Graph

namespace Moment

variable {β : Type} [Behaviour β] {g : Graph β} {μ ν : Moment β} {c : BlockId}

/-! Giving up -/

/-- Nothing that is queued or still to be invoked leads to a block, nor is it that block. -/
def Spent (g : Graph β) (c : BlockId) (μ : Moment β) : Prop :=
  ∀ id, id ∈ μ.pending ∨ id ∈ μ.graph.receivers → ¬Relation.ReflTransGen g.Feeds id c

theorem Step.spent (hr : μ.Regular g) (hs : μ.Step ν) (hμ : μ.Spent g c) :
    ν.Spent g c ∧ Graph.Silent c μ.graph ν.graph := by
  cases hs with
  | @start k report =>
    refine ⟨fun id hm => hμ id (Or.inr ?_), .record rfl (fun _ => rfl) rfl⟩
    exact hm.resolve_right List.not_mem_nil
  | @invoke k h report id rest fuel waiting hi =>
    have hw := hr.sound.wired
    have hid : ¬Relation.ReflTransGen g.Feeds id c := hμ id (Or.inl List.mem_cons_self)
    refine ⟨fun j hm => ?_, ?_⟩
    · rcases hm with hm | hm
      · exact hμ j (Or.inl (List.mem_cons_of_mem _ hm))
      · rcases Graph.mem_receivers_settle.mp hm with hm | ⟨-, rfl⟩
        · rcases hw.mem_receivers_invoke hi hm with hm | hf
          · exact hμ j (Or.inr hm)
          · rw [Graph.feeds_congr hr.layout] at hf
            exact fun hpath => hid (.head hf hpath)
        · exact hid
    · rw [← Graph.feeds_congr hr.layout] at hid
      exact (hw.silent_invoke hi hid).trans (.of_history_eq (Graph.history_settle h id waiting))

/-! Until then -/

/-- Whatever was delivered to a comparison it emitted or still buffers, and it is still to be
invoked if it buffers anything. -/
structure Balanced (g : Graph β) (c : BlockId) (μ : Moment β) : Prop where
  balance : ∀ input, input = Builtin.valuesInput ∨ input = Builtin.compareInput →
    μ.graph.balance c input = deliveries c input g.history - emissions c g.history
  queued : ∀ input, μ.graph.buffer c input ≠ [] → c ∈ μ.pending ∨ c ∈ μ.graph.receivers

omit [Behaviour β] in
theorem Balanced.startRun (g : Graph β) (c : BlockId) :
    Balanced g c ⟨g.startRun, ⟨0, 0⟩, []⟩ := by
  have hb : ∀ input, g.startRun.buffer c input = [] := by
    intro input
    simp only [Graph.startRun, Graph.buffer, Graph.slot?_clearBuffers]
    cases Graph.slot? _ c <;> rfl
  exact ⟨fun input _ => Graph.balance_of_nil (hb input), fun input hne => absurd (hb input) hne⟩

omit [Behaviour β] in
theorem Balanced.startRound {k : Graph β} {report : RunReport}
    (hb : Balanced g c ⟨k, report, []⟩) (report' : RunReport) (round : Nat) :
    Balanced g c ⟨k.startRound round, report', k.receivers⟩ := by
  refine ⟨fun input hin => Eq.trans ?_ (hb.balance input hin), fun input hne => ?_⟩
  · have hh : (k.startRound round).history =
        .observed k.observers (.roundStarted round k.receivers) :: k.history := rfl
    have hbuf : (k.startRound round).buffer c input = k.buffer c input := rfl
    simp [Graph.balance, hh, hbuf, deliveries, emissions, Occurrence.isDelivery,
      Occurrence.isEmission]
  · exact Or.inl ((hb.queued input hne).resolve_left List.not_mem_nil)

theorem Balanced.invoke_other {k h : Graph β} {report : RunReport} {id : BlockId}
    {rest : List BlockId} (hb : Balanced g c ⟨k, report, id :: rest⟩) (hw : k.Wired)
    {fuel : Nat} {waiting : Bool} (hi : k.invoke fuel id = some (.ok waiting h)) (hne : c ≠ id)
    (report' : RunReport) : Balanced g c ⟨h.settle id waiting, report', rest⟩ where
  balance input hin := by
    refine Eq.trans ?_ (hb.balance input hin)
    rw [← hw.balance_invoke hi hne]
    exact Graph.balance_congr (Graph.history_settle h id waiting)
      (Graph.buffer_settle_of_ne h hne waiting input)
  queued input hbuf := by
    rw [Graph.buffer_settle_of_ne h hne] at hbuf
    have hkeep : ∀ j ∈ h.receivers, j ∈ (h.settle id waiting).receivers :=
      fun j hj => Graph.mem_receivers_settle.mpr (Or.inl hj)
    rcases hw.buffer_invoke_ne_nil hi hbuf with hbuf | hm
    · rcases hb.queued input hbuf with hm | hm
      · exact Or.inl ((List.mem_cons.mp hm).resolve_left hne)
      · exact Or.inr (hkeep c (hw.receivers_subset_invoke hi hm))
    · exact Or.inr (hkeep c hm)

variable [HostsBuiltins β]

theorem Balanced.invoke_self {k h : Graph β} {report : RunReport} {rest : List BlockId}
    (hb : Balanced g c ⟨k, report, c :: rest⟩) (hw : k.Wired)
    (hcmp : k.behaviour? c = some (block .compare)) {fuel : Nat} {waiting : Bool}
    (hi : k.invoke fuel c = some (.ok waiting h))
    (hleft : waiting = true ∨
      h.buffer c Builtin.valuesInput = [] ∧ h.buffer c Builtin.compareInput = [])
    (report' : RunReport) : Balanced g c ⟨h.settle c waiting, report', rest⟩ where
  balance input hin := by
    refine Eq.trans ?_ (hb.balance input hin)
    rw [← hw.balance_invoke_compare hcmp hi hin]
    refine Graph.balance_congr (Graph.history_settle h c waiting) ?_
    cases waiting with
    | true => exact Graph.buffer_settle_waiting h c c input
    | false =>
      obtain ⟨hv, ho⟩ := hleft.resolve_left Bool.false_ne_true
      rw [Graph.buffer_settle_done]
      rcases hin with rfl | rfl
      · exact hv.symm
      · exact ho.symm
  queued input hbuf := by
    cases waiting with
    | true => exact Or.inr (Graph.mem_receivers_settle.mpr (Or.inr ⟨rfl, rfl⟩))
    | false => exact absurd (Graph.buffer_settle_done h c input) hbuf

end Moment

namespace Graph

variable {β : Type} [Behaviour β] {g h : Graph β} {μ : Moment β} {c : BlockId}

theorem Visits.spent_of_spent (hs : g.Sound) (hc : g.Complete) (hv : g.Visits μ) {ν : Moment β}
    (hsteps : Relation.ReflTransGen Moment.Step μ ν) (hμ : μ.Spent g c) :
    ν.Spent g c ∧ Silent c μ.graph ν.graph := by
  induction hsteps with
  | refl => exact ⟨hμ, .of_history_eq rfl⟩
  | tail hsteps' hstep ih =>
    obtain ⟨hspent, hsilent⟩ := ih
    obtain ⟨hspent', hsilent'⟩ := hstep.spent (Visits.regular hs hc (hv.trans hsteps')) hspent
    exact ⟨hspent', hsilent.trans hsilent'⟩

section

variable [HostsBuiltins β] (hs : g.Sound) (hc : g.Complete)
  (hcmp : g.behaviour? c = some (block .compare)) (hn : ¬g.LeadsTo c c)

include hs hc hcmp hn

theorem Visits.spent_of_giveUp {k : Graph β} {report : RunReport} {rest : List BlockId}
    (hv : g.Visits ⟨k, report, c :: rest⟩) {fuel : Nat}
    (hi : k.invoke fuel c = some (.ok false h))
    (hleft : h.buffer c Builtin.valuesInput ≠ [] ∨ h.buffer c Builtin.compareInput ≠ [])
    (report' : RunReport) : Moment.Spent g c ⟨h.settle c false, report', rest⟩ := by
  have hr := hv.regular hs hc
  have hw := hr.sound.wired
  have hl : h.layout = k.layout := hw.layout_invoke hi
  have hp : h.processing = k.processing := hw.processing_invoke hi
  -- Had a block of the round led to the comparison, it would have waited.
  have hnot : ∀ i ∈ k.processing, ¬g.LeadsTo i c := by
    intro i hm hpath
    by_cases hne : i = c
    · exact hn (hne ▸ hpath)
    · have hpath' : h.LeadsTo i c := by rwa [leadsTo_congr (hl.trans hr.layout)]
      have hling := (hw.of_layout hl).lingers_iff.mpr ⟨hleft, i, hp ▸ hm, hne, hpath'⟩
      rw [← (hw.invoke_compare_ok (hv.behaviour?_builtin hs hc hcmp) hi).2] at hling
      cases hling
  have hself : ∀ i ∈ k.processing, i ≠ c → ¬Relation.ReflTransGen g.Feeds i c := by
    intro i hm hne hpath
    rcases Relation.reflTransGen_iff_eq_or_transGen.mp hpath with heq | hpath
    · exact hne heq.symm
    · exact hnot i hm hpath
  have hfed : ∀ i ∈ k.processing, ∀ j, g.Feeds i j → ¬Relation.ReflTransGen g.Feeds j c :=
    fun i hm j hf hpath => hnot i hm (.head' hf hpath)
  have hc' : c ∈ k.processing := hr.pending.mem List.mem_cons_self
  intro j hj
  rcases hj with hj | hj
  · have hnodup := hr.sound.nodup_processing.sublist hr.pending.sublist
    refine hself j (hr.pending.mem (List.mem_cons_of_mem _ hj)) fun heq => ?_
    exact (List.nodup_cons.mp hnodup).1 (heq ▸ hj)
  · rcases mem_receivers_settle.mp hj with hj | ⟨hfalse, -⟩
    · -- Whatever is queued was put there by a block of the round.
      rcases hw.mem_receivers_invoke hi hj with hj | hf
      · rcases hv.queued hs hc (List.cons_ne_nil _ _) hj with ⟨i, hm, hf⟩ | ⟨hin, hout⟩
        · exact hfed i hm j hf
        · exact hself j hin fun heq => hout (heq ▸ List.mem_cons_self)
      · rw [feeds_congr hr.layout] at hf
        exact hfed c hc' j hf
    · cases hfalse

theorem Visits.balanced_or_matched (hv : g.Visits μ) :
    μ.Balanced g c ∨ μ.Spent g c ∧ Matched c g μ.graph := by
  induction hv with
  | refl => exact Or.inl (.startRun g c)
  | tail hv' hstep ih =>
    have hr := Visits.regular hs hc hv'
    have hw := hr.sound.wired
    rcases ih with hb | ⟨hspent, hm⟩
    · cases hstep with
      | start => exact Or.inl (hb.startRound _ _)
      | @invoke k h report id rest fuel waiting hi =>
        by_cases hid : c = id
        · subst hid
          have hbe := Visits.behaviour?_builtin hs hc hv' hcmp
          by_cases hleft : waiting = true ∨
              h.buffer c Builtin.valuesInput = [] ∧ h.buffer c Builtin.compareInput = []
          · exact Or.inl (hb.invoke_self hw hbe hi hleft _)
          · obtain ⟨hwait, hsome⟩ := not_or.mp hleft
            obtain rfl : waiting = false := Bool.eq_false_iff.mpr hwait
            have hhist : g.history <:+ h.history :=
              (Visits.history_suffix hs hc hv').trans (hw.history_suffix_invoke hi)
            have hm : Matched c g h := matched_of_balance hhist
              (fun input hin => (hw.balance_invoke_compare hbe hi hin).trans (hb.balance input hin))
              (hw.invoke_compare_ok hbe hi).1
            exact Or.inr ⟨Visits.spent_of_giveUp hs hc hcmp hn hv' hi (not_and_or.mp hsome) _,
              hm.silent (.of_history_eq (history_settle h c false))⟩
        · exact Or.inl (hb.invoke_other hw hi hid _)
    · obtain ⟨hspent', hsilent⟩ := hstep.spent hr hspent
      exact Or.inr ⟨hspent', hm.silent hsilent⟩

theorem Visits.matched (hv : g.Visits μ) (hp : μ.pending = [])
    (hq : μ.graph.receivers = []) : Matched c g μ.graph := by
  rcases hv.balanced_or_matched hs hc hcmp hn with hb | ⟨-, hm⟩
  · refine matched_of_balance (hv.history_suffix hs hc) hb.balance (Or.inl ?_)
    by_contra hne
    have hm := hb.queued _ hne
    rw [hp, hq] at hm
    exact hm.elim List.not_mem_nil List.not_mem_nil
  · exact hm

end

/-- In a run that succeeds, nothing is delivered to a comparison after it gave up, and the
comparison emits as many values as are delivered to that of its inputs where fewer are, provided
that no path leads from it back to itself. -/
theorem Reachable.comparison_matches [HostsBuiltins β] (hr : g.Reachable)
    (hcmp : g.behaviour? c = some (block .compare)) (hn : ¬g.LeadsTo c c) {fuel : Nat}
    {report : RunReport} (hrun : g.run fuel = some (.ok report h)) :
    (∀ μ rest fuel k, g.Visits μ → μ.pending = c :: rest →
      μ.graph.invoke fuel c = some (.ok false k) →
      k.buffer c Builtin.valuesInput ≠ [] ∨ k.buffer c Builtin.compareInput ≠ [] →
      ∃ news, h.history = news ++ k.history ∧ ∀ input, deliveries c input news = 0) ∧
    ∃ news, h.history = news ++ g.history ∧ emissions c news =
      min (deliveries c Builtin.valuesInput news) (deliveries c Builtin.compareInput news) := by
  have hs := hr.ready.toSound
  have hc := hr.ready.complete
  obtain ⟨ν, r, hv, he, hreply⟩ := run_eq_some_iff.mp ⟨fuel, hrun⟩
  cases he with
  | limit | failure => cases hreply
  | @quiet l report hq =>
    cases hreply
    have hend : Silent c l ({ l with processing := [] }.notify (.runFinished report)) :=
      .record rfl (fun _ => rfl) rfl
    refine ⟨fun μ rest fuel k hμ hp hi hleft => ?_, (hv.matched hs hc hcmp hn rfl hq).silent hend⟩
    obtain ⟨m, report', pending⟩ := μ
    cases hp
    have hspent := hμ.spent_of_giveUp hs hc hcmp hn hi hleft
      { report' with processed := report'.processed + 1 }
    have hafter : g.Visits ⟨k.settle c false,
        { report' with processed := report'.processed + 1 }, rest⟩ := hμ.tail (.invoke hi)
    have hsilent := (hafter.spent_of_spent hs hc (hafter.before_end hv (.quiet hq)) hspent).2
    obtain ⟨news, hh, -, hd⟩ := hsilent.trans hend
    exact ⟨news, hh.trans (by rw [history_settle]), hd⟩

/-- Two sources feed one input of a comparison, and the first of them feeds the other input too. -/
def unevenComparison : List (Operation Builtin) :=
  [.add (.source (.bool true)), .add (.source (.bool false)), .add .compare,
    .subscribe ⟨2⟩ Builtin.valuesInput ⟨0⟩ Builtin.dataName,
    .subscribe ⟨2⟩ Builtin.valuesInput ⟨1⟩ Builtin.dataName,
    .subscribe ⟨2⟩ Builtin.compareInput ⟨0⟩ Builtin.dataName]

theorem comparison_matches_of_unevenComparison : ∃ (g h : Graph Builtin) (report : RunReport)
    (news : List Occurrence), performAll 1 unevenComparison (.new .standard) = some g ∧
    g.behaviour? ⟨2⟩ = some .compare ∧ ¬g.LeadsTo ⟨2⟩ ⟨2⟩ ∧ g.run 9 = some (.ok report h) ∧
    h.history = news ++ g.history ∧ deliveries ⟨2⟩ Builtin.valuesInput news = 2 ∧
    deliveries ⟨2⟩ Builtin.compareInput news = 1 ∧ emissions ⟨2⟩ news = 1 := by
  have hdec : (performAll 1 unevenComparison (.new .standard : Graph Builtin)).any
      (fun g => g.behaviour? ⟨2⟩ = some .compare ∧
        (∀ x ∈ g.arena.entries, x.2.publisher.index < x.2.subscriber.index) ∧
        deliveries ⟨2⟩ Builtin.valuesInput g.history = 0 ∧
        deliveries ⟨2⟩ Builtin.compareInput g.history = 0 ∧
        (g.run 9).any fun reply => reply.result.isOk = true ∧
          deliveries ⟨2⟩ Builtin.valuesInput reply.graph.history = 2 ∧
          deliveries ⟨2⟩ Builtin.compareInput reply.graph.history = 1) = true := by decide +kernel
  obtain ⟨g, hg, hp⟩ := (Option.any_eq_true _ _).mp hdec
  obtain ⟨hcmp, hrising, hv, ho, hany⟩ := of_decide_eq_true hp
  obtain ⟨reply, hrun, hq⟩ := (Option.any_eq_true _ _).mp hany
  obtain ⟨hok, hv', ho'⟩ := of_decide_eq_true hq
  cases reply with
  | error err h => cases hok
  | ok report h =>
    have hr : g.Reachable := Reachable.performAll (.new _) hg
    have hn : ¬g.LeadsTo ⟨2⟩ ⟨2⟩ := hr.ready.wired.acyclic_of_rising hrising ⟨2⟩
    obtain ⟨-, news, hh, hmin⟩ := Reachable.comparison_matches hr hcmp hn hrun
    change deliveries _ _ h.history = _ at hv' ho'
    rw [hh, deliveries_append] at hv' ho'
    exact ⟨g, h, report, news, hg, hcmp, hn, hrun, hh, by omega, by omega, by omega⟩

end Graph

end Patchbay
