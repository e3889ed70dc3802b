import Patchbay.Proofs.Oblivion
import Patchbay.Proofs.Transience

/-! Runs that are repeated. A run starts without variables and buffered values and takes the blocks
that nothing feeds, so of a graph of built-in blocks only the layout and the blocks matter to it,
and passing values changes neither. -/

namespace Patchbay.Graph

open HostsBuiltins (block)

variable {β : Type} {g h k : Graph β}

/-! What a run starts from -/

/-- The graph without its history. -/
def forget (g : Graph β) : Graph β := { g with history := [] }

theorem forget_recall (g : Graph β) (past : List Occurrence) :
    (g.recall past).forget = g.forget := rfl

/-- Whether two graphs are the same but for values on their way, variables, queues and history. -/
structure Alike (g h : Graph β) : Prop where
  layout : h.layout = g.layout
  behaviour : ∀ id, h.behaviour? id = g.behaviour? id
  processing : h.processing = g.processing

theorem Alike.refl (g : Graph β) : g.Alike g := ⟨rfl, fun _ => rfl, rfl⟩

theorem Alike.trans (hg : g.Alike h) (hh : h.Alike k) : g.Alike k where
  layout := hh.layout.trans hg.layout
  behaviour id := (hh.behaviour id).trans (hg.behaviour id)
  processing := hh.processing.trans hg.processing

theorem roots_congr (hl : h.layout = g.layout) : h.roots = g.roots := by
  have hroots : ∀ k : Graph β,
      k.roots = k.order.filter fun id => (k.outline id).any (!·.isFed) := by
    intro k
    refine List.filter_congr fun id _ => ?_
    simp only [node, outline]
    cases k.slot? id <;> rfl
  rw [hroots h, hroots g, order_congr hl]
  refine List.filter_congr fun id _ => ?_
  rw [outline_congr hl id]

theorem Alike.slots_clearBuffers (ha : g.Alike h) :
    h.clearBuffers.slots = g.clearBuffers.slots := by
  -- Without buffers a slot is its outline, which the layout has, and its behaviour.
  apply List.ext_getElem?
  intro i
  have hl := congrArg (fun k : Graph Unit => k.slots[i]?) ha.layout
  have hb := ha.behaviour ⟨i⟩
  simp only [Graph.layout, behaviour?, slot?, clearBuffers, List.getElem?_map] at hl hb ⊢
  rcases hg : g.slots[i]? with _ | _ | e <;> rcases hh : h.slots[i]? with _ | _ | e' <;>
    simp_all [Node.clearBuffers_eq]

theorem Alike.startRun (ha : g.Alike h) : h.startRun.forget = g.startRun.forget := by
  have hslots : h.startRun.slots = g.startRun.slots := ha.slots_clearBuffers
  have hl := ha.layout
  have hroots := roots_congr hl
  simp only [forget, Graph.startRun, Graph.clearBuffers] at hslots ⊢
  rw [hslots, hroots, order_congr hl, arena_congr hl, ha.processing, metadata_congr hl,
    settings_congr hl, observers_congr hl]

variable [Behaviour β] [HostsBuiltins β] {fuel : Nat}

/-- The answers of two runs that start alike are one answer, each with a past of its own. -/
theorem Alike.run_eq (ha : g.Alike h) (hp : g.Plain) (fuel : Nat) :
    ∃ answer : Option (Reply β RunReport), g.run fuel = answer.map (Reply.recall g.history) ∧
      h.run fuel = answer.map (Reply.recall h.history) := by
  -- Both runs start from one graph, once with the one past and once with the other.
  obtain ⟨start, hplain, hg, hh⟩ : ∃ start : Graph β, start.Plain ∧
      g.startRun = start.recall g.history ∧ h.startRun = start.recall h.history := by
    refine ⟨g.startRun.forget, ?_, rfl, ?_⟩
    · exact hp.of_layout (layout_startRun g) fun j _ => behaviour?_clearBuffers _ j
    · rw [← ha.startRun]
      rfl
  refine ⟨(runRounds fuel fuel ⟨0, 0⟩ start).map fun x => closeRun x.1 x.2, ?_, ?_⟩
  · rw [Graph.run_eq, hg, hplain.runRounds_recall, Option.map_map, Option.map_map]
    simp only [Function.comp_def, closeRun_recall]
  · rw [Graph.run_eq, hh, hplain.runRounds_recall, Option.map_map, Option.map_map]
    simp only [Function.comp_def, closeRun_recall]

/-! What passing values keeps -/

theorem Plain.behaviour?_processBlock (hp : g.Plain) {id : BlockId} {reply : Reply β Bool}
    (hr : g.processBlock fuel id = some reply) {j : BlockId} (hj : g.contains j) :
    reply.graph.behaviour? j = g.behaviour? j := by
  rw [processBlock_eq] at hr
  obtain ⟨answer, hi, rfl⟩ := Option.map_eq_some_iff.mp hr
  have hkeep := hp.behaviour?_invoke hi hj
  cases answer with
  | error err k => exact hkeep
  | ok waiting k =>
    cases waiting with
    | true => exact hkeep
    | false => exact (behaviour?_updateNode _ id j _).trans hkeep

theorem Ready.behaviour?_perform (hg : g.Ready) (hb : g.MadeOfBuiltins) {op : Operation β}
    (ht : op.transient = true) (hp : g.perform fuel op = some h) {j : BlockId}
    (hj : g.contains j) : h.behaviour? j = g.behaviour? j := by
  cases op with
  | pushValue id port v => cases hp; exact behaviour?_editNode g id _ j
  | popValue id port => cases hp; exact behaviour?_editNode g id _ j
  | clearBlock id => cases hp; exact behaviour?_editNode g id _ j
  | input id s v => cases hp; exact hg.wired.behaviour?_input id s v j
  | output id port v => cases hp; exact hg.wired.behaviour?_output id port v j
  | setVariable name v => cases hp; rfl
  | processBlock id =>
    obtain ⟨reply, hr, rfl⟩ := Option.map_eq_some_iff.mp hp
    exact Plain.behaviour?_processBlock ⟨hg.wired, hb⟩ hr hj
  | run =>
    obtain ⟨reply, hr, rfl⟩ := Option.map_eq_some_iff.mp hp
    exact hg.behaviour?_run hb hr hj
  | _ => cases ht

theorem Ready.alike_perform (hg : g.Ready) (hb : g.MadeOfBuiltins) {op : Operation β}
    (ht : op.transient = true) (hp : g.perform fuel op = some h) : g.Alike h where
  layout := hg.layout_perform ht hp
  behaviour id := by
    have hl := isSome_slot?_congr (hg.layout_perform ht hp) id
    cases hj : g.slot? id with
    | some e => exact hg.behaviour?_perform hb ht hp (by simp [contains, hj])
    | none =>
      rw [hj, Option.isSome_none, Option.isSome_eq_false_iff, Option.isNone_iff_eq_none] at hl
      simp [behaviour?, hj, hl]
  processing := (hg.perform hp).processing.trans hg.processing.symm

theorem MadeOfBuiltins.of_alike (hb : g.MadeOfBuiltins) (ha : g.Alike h) :
    h.MadeOfBuiltins := by
  intro id hl
  rw [ha.behaviour]
  exact hb id ((isSome_slot?_congr ha.layout id).symm.trans hl)

/-- Whether calls that pass values on lead from `g` to `h`, whether or not they succeed. -/
abbrev PassesOnTo : Graph β → Graph β → Prop :=
  Relation.ReflTransGen fun g h => ∃ fuel op, op.transient = true ∧ g.perform fuel op = some h

omit [HostsBuiltins β] in
theorem passesOnTo_of_performAll {ops : List (Operation β)} (ht : ops.all Operation.transient)
    (hp : performAll fuel ops g = some h) : g.PassesOnTo h := by
  induction ops generalizing g with
  | nil =>
    cases hp
    exact .refl
  | cons op rest ih =>
    obtain ⟨hop, hrest⟩ := Bool.and_eq_true_iff.mp ht
    obtain ⟨k, hk, hp⟩ := Option.bind_eq_some_iff.mp hp
    exact .head ⟨fuel, op, hop, hk⟩ (ih hrest hp)

theorem Reachable.alike_passesOnTo (hr : g.Reachable) (hb : g.MadeOfBuiltins)
    (hp : g.PassesOnTo h) : h.Reachable ∧ h.MadeOfBuiltins ∧ g.Alike h := by
  induction hp with
  | refl => exact ⟨hr, hb, .refl g⟩
  | tail _ hstep ih =>
    obtain ⟨fuel, op, ht, hp⟩ := hstep
    obtain ⟨hr', hb', ha⟩ := ih
    have hone := hr'.ready.alike_perform hb' ht hp
    exact ⟨hr'.perform hp, hb'.of_alike hone, ha.trans hone⟩

/-- A run of built-in blocks repeats an earlier one, whatever it answers, after any calls that pass
values on, runs among them: it answers the same, tells the same and leaves the same. -/
theorem Reachable.run_repeats (hr : g.Reachable) (hb : g.MadeOfBuiltins) (hp : g.PassesOnTo h)
    {reply : Reply β RunReport} (hrun : g.run fuel = some reply) :
    ∃ reply' news, h.run fuel = some reply' ∧ reply'.result = reply.result ∧
      reply.graph.history = news ++ g.history ∧ reply'.graph.history = news ++ h.history ∧
      reply'.graph.forget = reply.graph.forget := by
  obtain ⟨-, -, ha⟩ := hr.alike_passesOnTo hb hp
  obtain ⟨answer, hg, hh⟩ := ha.run_eq ⟨hr.ready.wired, hb⟩ fuel
  rw [hrun] at hg
  obtain ⟨once, rfl, rfl⟩ := Option.map_eq_some_iff.mp hg.symm
  refine ⟨once.recall h.history, once.graph.history, hh, ?_, ?_, ?_, ?_⟩
  · rw [Reply.result_recall, Reply.result_recall]
  · rw [Reply.graph_recall]
    rfl
  · rw [Reply.graph_recall]
    rfl
  · rw [Reply.graph_recall, Reply.graph_recall, forget_recall, forget_recall]

/-- A source feeds an alert through a block that forwards. -/
def alertedSource : List (Operation Builtin) :=
  [.add (.source (.bool true)), .add .forward, .add (.alert .record),
    .subscribe ⟨1⟩ defaultInput ⟨0⟩ Builtin.dataName,
    .subscribe ⟨2⟩ Builtin.messageInput ⟨1⟩ defaultOutput]

/-- The graph is run, and values are passed to its blocks and left there; two calls fail. -/
def leftovers : List (Operation Builtin) :=
  [.run, .setVariable "x" .null, .pushValue ⟨1⟩ defaultInput .null, .processBlock ⟨1⟩,
    .processBlock ⟨3⟩, .pushValue ⟨1⟩ defaultOutput .null, .output ⟨0⟩ Builtin.dataName .null,
    .input ⟨2⟩ ⟨2⟩ (.bool false)]

theorem run_repeats_after_leftovers : ∃ (g h : Graph Builtin)
    (reply reply' : Reply Builtin RunReport) (news : List Occurrence),
    performAll 1 alertedSource (.new .standard) = some g ∧
    performAll 9 leftovers g = some h ∧ h.receivers = [⟨1⟩, ⟨2⟩] ∧
    h.buffer ⟨2⟩ Builtin.messageInput = [.bool false, .null] ∧
    g.run 9 = some reply ∧ reply.result = .ok ⟨3, 3⟩ ∧
    h.run 9 = some reply' ∧ reply'.result = .ok ⟨3, 3⟩ ∧
    reply.graph.history = news ++ g.history ∧ reply'.graph.history = news ++ h.history ∧
    reply'.graph.forget = reply.graph.forget := by
  have hdec : (performAll 1 alertedSource (.new .standard)).any (fun g =>
      (g.run 9).any (fun reply => reply.result = .ok ⟨3, 3⟩) ∧
      (performAll 9 leftovers g).any fun h => h.receivers = [⟨1⟩, ⟨2⟩] ∧
        h.buffer ⟨2⟩ Builtin.messageInput = [.bool false, .null]) = true := by decide +kernel
  obtain ⟨g, hg, hp⟩ := (Option.any_eq_true _ _).mp hdec
  obtain ⟨hruns, hcalls⟩ := of_decide_eq_true hp
  obtain ⟨reply, hrun, hres⟩ := (Option.any_eq_true _ _).mp hruns
  obtain ⟨h, hh, hq⟩ := (Option.any_eq_true _ _).mp hcalls
  obtain ⟨hqueue, hbuffer⟩ := of_decide_eq_true hq
  have hresult : reply.result = .ok ⟨3, 3⟩ := of_decide_eq_true hres
  have hr : g.Reachable := Reachable.performAll (.new _) hg
  have hpasses : g.PassesOnTo h := passesOnTo_of_performAll rfl hh
  obtain ⟨reply', news, hrun', hsame, hold, hnew, hstate⟩ :=
    Reachable.run_repeats hr hr.ready.complete.madeOfBuiltins hpasses hrun
  exact ⟨g, h, reply, reply', news, hg, hh, hqueue, hbuffer, hrun, hresult, hrun',
    hsame.trans hresult, hold, hnew, hstate⟩

end Patchbay.Graph
