import Patchbay.Proofs.Emissions
import Patchbay.Proofs.Upstream

/-! What one invocation of a comparison does. Without an edge back to itself it takes as many values
of each input as there are pairs and sends each to the output that their order tells, so the shorter
input is used up and the oldest values of the longer one stay. -/

namespace Patchbay

namespace Builtin

theorem route_iff (v other : Value) :
    (route v other = lessOutput ↔ v.order? other = some .lt) ∧
    (route v other = greaterOutput ↔ v.order? other = some .gt) ∧
    (route v other = equalOutput ↔ v.order? other = some .eq ∨ v.order? other = none) := by
  unfold route
  rcases v.order? other with _ | order
  · simp [lessOutput, equalOutput, greaterOutput]
  · cases order <;> simp [lessOutput, equalOutput, greaterOutput]

end Builtin

namespace Graph

open HostsBuiltins (block)

variable {β : Type} {g h k : Graph β} {id c : BlockId}

/-- The pairs of two inputs, the newest first, as values that a comparison emits. -/
def routed (vs os : List Value) : List (String × Value) :=
  vs.zipWith (fun v o => (Builtin.route v o, v)) os

/-- The graph after a turn of a comparison for each pair. -/
def pairedOff (id : BlockId) : List Value → List Value → Graph β → Graph β
  | v :: vs, o :: os, g => pairedOff id vs os ((g.drawn id).broadcast id (Builtin.route v o) v)
  | [], _, g => g
  | _ :: _, [], g => g

theorem layout_pairedOff (id : BlockId) (vs os : List Value) (g : Graph β) :
    (pairedOff id vs os g).layout = g.layout := by
  fun_induction pairedOff id vs os g with
  | case1 v vs o os g ih => exact ih.trans (layout_paired g id _ v)
  | case2 | case3 => rfl

theorem vars_pairedOff (id : BlockId) (vs os : List Value) (g : Graph β) :
    (pairedOff id vs os g).vars = g.vars := by
  fun_induction pairedOff id vs os g with
  | case1 v vs o os g ih => exact ih.trans (vars_broadcast _ id _ v)
  | case2 | case3 => rfl

theorem history_pairedOff (id : BlockId) (vs os : List Value) (g : Graph β) :
    (pairedOff id vs os g).history = (g.tidings id (routed vs os)).reverse ++ g.history := by
  fun_induction pairedOff id vs os g with
  | case1 v vs o os g ih =>
    have hdrawn : (g.drawn id).history = g.history := rfl
    have hcons : g.tidings id (routed (v :: vs) (o :: os)) =
        g.tidings id [(Builtin.route v o, v)] ++ g.tidings id (routed vs os) :=
      tidings_cons g id _
    rw [ih, tidings_congr (layout_paired g id _ v), history_broadcast,
      tidings_congr (layout_drawn g id), hdrawn, hcons, List.reverse_append, List.append_assoc]
  | case2 os g => rfl
  | case3 v vs g => rfl

/-! Without an edge back -/

theorem hasEdge_eq_false_of_not_feeds (hw : g.Wired) (hself : ¬g.Feeds id id)
    (output input : String) : g.hasEdge ⟨id, output, id, input⟩ = false := by
  rw [Bool.eq_false_iff]
  intro hedge
  obtain ⟨s, hs⟩ := hw.hasEdge_iff.mp hedge
  exact hself ⟨s, _, hw.arena.get?_eq_some_iff.mpr hs, rfl, rfl⟩

theorem buffer_drawn_of_ne (g : Graph β) (id : BlockId) {port : String}
    (hv : port ≠ Builtin.valuesInput) (hc : port ≠ Builtin.compareInput) :
    (g.drawn id).buffer id port = g.buffer id port := by
  cases he : g.slot? id with
  | none => simp [drawn, buffer, slot?_updateNode, he]
  | some e =>
    rw [buffer_of_slot? (slot?_drawn he), buffer_of_slot? he]
    simp [Node.discard, Dict.list_setList, hv, hc]

theorem Wired.buffer_paired (hw : g.Wired) (hself : ¬g.Feeds id id) (output : String) (v : Value)
    (port : String) :
    ((g.drawn id).broadcast id output v).buffer id port = (g.drawn id).buffer id port := by
  have hl := layout_drawn g id
  rw [(hw.of_layout hl).buffer_broadcast, hasEdge_congr hl,
    hasEdge_eq_false_of_not_feeds hw hself output port]
  rfl

theorem Wired.buffer_pairedOff (hw : g.Wired) (hself : ¬g.Feeds id id) {vs os : List Value}
    (hvs : g.buffer id Builtin.valuesInput = vs) (hos : g.buffer id Builtin.compareInput = os) :
    (pairedOff id vs os g).buffer id Builtin.valuesInput = vs.drop (min vs.length os.length) ∧
    (pairedOff id vs os g).buffer id Builtin.compareInput = os.drop (min vs.length os.length) ∧
    ∀ port, port ≠ Builtin.valuesInput → port ≠ Builtin.compareInput →
      (pairedOff id vs os g).buffer id port = g.buffer id port := by
  fun_induction pairedOff id vs os g with
  | case1 v vs o os g ih =>
    have hl := layout_paired g id (Builtin.route v o) v
    obtain ⟨hv, ho⟩ := buffers_drawn hvs hos
    have hself' : ¬((g.drawn id).broadcast id (Builtin.route v o) v).Feeds id id := by
      rwa [feeds_congr hl]
    obtain ⟨hvs', hos', hrest⟩ := ih (hw.of_layout hl) hself'
      ((hw.buffer_paired hself _ v _).trans hv) ((hw.buffer_paired hself _ v _).trans ho)
    have hmin : min (v :: vs).length (o :: os).length = min vs.length os.length + 1 := by
      simp only [List.length_cons]
      omega
    rw [hmin]
    refine ⟨hvs', hos', fun port hpv hpc => ?_⟩
    rw [hrest port hpv hpc, hw.buffer_paired hself, buffer_drawn_of_ne g id hpv hpc]
  | case2 os g => simp [hvs, hos]
  | case3 v vs g => simp [hvs, hos]

variable [Behaviour β] [HostsBuiltins β]

omit [Behaviour β] [HostsBuiltins β] in
theorem FitsAt.compare_ports (hf : g.FitsAt id Builtin.compare.definition) :
    ∃ e, g.slot? id = some e ∧ Builtin.valuesInput ∈ e.node.inputs ∧
      Builtin.compareInput ∈ e.node.inputs ∧ ∀ v o, Builtin.route v o ∈ e.node.outputs := by
  obtain ⟨e, he, hn⟩ := hf
  exact ⟨e, he, hn.mem_inputs Builtin.values_mem_compare_inputs,
    hn.mem_inputs Builtin.compare_mem_compare_inputs,
    fun v o => hn.mem_outputs (Builtin.route_mem_outputs v o)⟩

/-- Each pair takes a turn, and finding that there is no further one takes another. -/
theorem Wired.takeTurns_pairedOff (hw : g.Wired) (hf : g.FitsAt id Builtin.compare.definition)
    (hself : ¬g.Feeds id id) (waiting : Bool) {vs os : List Value}
    (hvs : g.buffer id Builtin.valuesInput = vs) (hos : g.buffer id Builtin.compareInput = os)
    {fuel : Nat} (hfuel : min vs.length os.length < fuel) :
    takeTurns id fuel (block .compare : β) waiting g = some (block .compare, .ok (),
      waiting || (pairedOff id vs os g).lingers id, pairedOff id vs os g) := by
  obtain ⟨e, he, hv, hc, hout⟩ := hf.compare_ports
  obtain ⟨fuel, rfl⟩ : ∃ m, fuel = m + 1 := ⟨fuel - 1, by omega⟩
  rw [takeTurns_compare]
  -- A pair leaves the graph wired and the block fit, and the inputs are the tails, as nothing comes
  -- back.
  fun_induction pairedOff id vs os g generalizing fuel e with
  | case1 v vs o os g ih =>
    have hl := layout_paired g id (Builtin.route v o) v
    obtain ⟨hv', ho'⟩ := buffers_drawn hvs hos
    obtain ⟨e', he', hports⟩ := (hf.of_layout hl).compare_ports
    obtain ⟨fuel, rfl⟩ : ∃ m, fuel = m + 1 := by
      refine ⟨fuel - 1, ?_⟩
      simp only [List.length_cons] at hfuel
      omega
    rw [hw.compare_pair _ waiting he hv hc hvs hos (hout v o)]
    dsimp only
    rw [takeTurns_compare]
    refine ih (hw.of_layout hl) (hf.of_layout hl) (by rwa [feeds_congr hl])
      ((hw.buffer_paired hself _ v _).trans hv') ((hw.buffer_paired hself _ v _).trans ho')
      e' he' hports.1 hports.2.1 hports.2.2 fuel ?_
    simp only [List.length_cons] at hfuel
    omega
  | case2 os g => rw [compare_rest _ waiting he hv hc (Or.inl hvs)]
  | case3 v vs g => rw [compare_rest _ waiting he hv hc (Or.inr hos)]

omit [Behaviour β] [HostsBuiltins β] in
theorem Wired.incoming_congr (hw : g.Wired) (hl : h.layout = g.layout)
    (hp : h.processing = g.processing) (id : BlockId) : h.incoming id = g.incoming id := by
  classical
  rw [(hw.of_layout hl).incoming_eq, hw.incoming_eq, hp, leadsTo_congr hl]

variable [KeepsBuiltins β]

theorem Attainable.invoke_compare (ha : k.Attainable) (hb : k.behaviour? c = some (block .compare))
    (hself : ¬k.Feeds c c) {vs os : List Value} (hvs : k.buffer c Builtin.valuesInput = vs)
    (hos : k.buffer c Builtin.compareInput = os) {fuel : Nat}
    (hfuel : min vs.length os.length < fuel) :
    let l := pairedOff c vs os (k.setBehaviour c none)
    k.invoke fuel c = some (.ok (l.lingers c) (l.setBehaviour c (some (block .compare)))) := by
  intro l
  obtain ⟨hw, hf⟩ := ha.ready_out hb
  have hself' : ¬(k.setBehaviour c none).Feeds c c := by
    rwa [feeds_congr (layout_setBehaviour k c none)]
  rw [invoke_eq hb,
    hw.takeTurns_pairedOff hf hself' false ((buffer_setBehaviour k c c none _).trans hvs)
      ((buffer_setBehaviour k c c none _).trans hos) hfuel]
  rfl

/-- One invocation of a comparison that does not feed itself, whatever is on its two inputs, with
their values given from the newest to the oldest. -/
theorem Attainable.comparison (ha : k.Attainable) (hb : k.behaviour? c = some (block .compare))
    (hself : ¬k.Feeds c c) :
    let vs := k.buffer c Builtin.valuesInput
    let os := k.buffer c Builtin.compareInput
    let n := min vs.length os.length
    ∃ (waiting : Bool) (sent : List (String × Value)) (h : Graph β),
      (∀ fuel, n < fuel → k.invoke fuel c = some (.ok waiting h)) ∧ Emits c sent k h ∧
      sent.length = n ∧
      (∀ (i : Nat) (v other : Value), vs[i]? = some v → os[i]? = some other →
        ∃ output, sent[i]? = some (output, v) ∧
          (output = Builtin.lessOutput ↔ v.order? other = some .lt) ∧
          (output = Builtin.greaterOutput ↔ v.order? other = some .gt) ∧
          (output = Builtin.equalOutput ↔ v.order? other = some .eq ∨ v.order? other = none)) ∧
      h.buffer c Builtin.valuesInput = vs.drop n ∧ h.buffer c Builtin.compareInput = os.drop n ∧
      (∀ port, port ≠ Builtin.valuesInput → port ≠ Builtin.compareInput →
        h.buffer c port = k.buffer c port) ∧
      (waiting = true ↔ (vs.drop n ≠ [] ∨ os.drop n ≠ []) ∧ k.incoming c ≠ []) := by
  intro vs os n
  have hl := layout_setBehaviour k c none
  obtain ⟨hw, -⟩ := ha.ready_out hb
  have hself' : ¬(k.setBehaviour c none).Feeds c c := by rwa [feeds_congr hl]
  let l := pairedOff c vs os (k.setBehaviour c none)
  have hi : ∀ fuel, n < fuel → k.invoke fuel c =
      some (.ok (l.lingers c) (l.setBehaviour c (some (block .compare)))) :=
    fun fuel hfuel => ha.invoke_compare hb hself rfl rfl hfuel
  have hemits : Emits c (routed vs os) k (l.setBehaviour c (some (block .compare))) := by
    refine ha.sound.emits_invoke hb (hi (n + 1) (Nat.lt_succ_self n)) ?_ (vars_pairedOff c vs os _)
    have hh := history_pairedOff c vs os (k.setBehaviour c none)
    rwa [tidings_congr hl] at hh
  obtain ⟨hleftv, hlefto, hports⟩ : l.buffer c Builtin.valuesInput = vs.drop n ∧
      l.buffer c Builtin.compareInput = os.drop n ∧ _ :=
    hw.buffer_pairedOff hself' (buffer_setBehaviour k c c none _) (buffer_setBehaviour k c c none _)
  have hinc : l.incoming c = k.incoming c :=
    ha.sound.wired.incoming_congr ((layout_pairedOff c vs os _).trans hl) hemits.processing c
  refine ⟨_, routed vs os, _, hi, hemits, List.length_zipWith, fun i v other hv ho => ?_, ?_, ?_,
    fun port hpv hpc => ?_, ?_⟩
  · refine ⟨Builtin.route v other, ?_, Builtin.route_iff v other⟩
    simp [routed, List.getElem?_zipWith, hv, ho]
  · rw [buffer_setBehaviour, hleftv]
  · rw [buffer_setBehaviour, hlefto]
  · rw [buffer_setBehaviour, hports port hpv hpc, buffer_setBehaviour]
  · rw [lingers, hleftv, hlefto, hinc]
    simp

/-- Two sources feed one input of a comparison; the first of them feeds the other input too, at once
and through a block that forwards. -/
def hurriedComparison : List (Operation Builtin) :=
  [.add (.source (.bool true)), .add (.source (.bool false)), .add .forward, .add .compare,
    .subscribe ⟨3⟩ Builtin.valuesInput ⟨0⟩ Builtin.dataName,
    .subscribe ⟨3⟩ Builtin.valuesInput ⟨1⟩ Builtin.dataName,
    .subscribe ⟨3⟩ Builtin.compareInput ⟨0⟩ Builtin.dataName,
    .subscribe ⟨2⟩ defaultInput ⟨0⟩ Builtin.dataName,
    .subscribe ⟨3⟩ Builtin.compareInput ⟨2⟩ defaultOutput]

/-- In the second round one value is left, and the comparison waits for the block that forwards. -/
theorem comparison_of_hurriedComparison : ∃ k h : Graph Builtin, k.Attainable ∧
    k.buffer ⟨3⟩ Builtin.valuesInput = [.bool false, .bool true] ∧
    k.buffer ⟨3⟩ Builtin.compareInput = [.bool true] ∧ k.invoke 2 ⟨3⟩ = some (.ok true h) ∧
    Emits ⟨3⟩ [(Builtin.lessOutput, .bool false)] k h ∧
    h.buffer ⟨3⟩ Builtin.valuesInput = [.bool true] := by
  have hdec : (performAll 1 hurriedComparison (.new .standard)).any (fun g =>
      (g.course 9 4).any fun μ => μ.graph.behaviour? ⟨3⟩ = some .compare ∧
        (∀ x ∈ μ.graph.arena.entries, x.2.publisher.index < x.2.subscriber.index) ∧
        μ.graph.buffer ⟨3⟩ Builtin.valuesInput = [.bool false, .bool true] ∧
        μ.graph.buffer ⟨3⟩ Builtin.compareInput = [.bool true] ∧
        μ.graph.incoming ⟨3⟩ = [⟨2⟩]) = true := by decide +kernel
  obtain ⟨g, hg, hp⟩ := (Option.any_eq_true _ _).mp hdec
  obtain ⟨μ, hμ, hq⟩ := (Option.any_eq_true _ _).mp hp
  obtain ⟨hcmp, hrising, hvs, hos, hinc⟩ := of_decide_eq_true hq
  have hr : g.Reachable := Reachable.performAll (.new _) hg
  have ha : μ.graph.Attainable := .visited hr (visits_of_course hμ)
  have hself : ¬μ.graph.Feeds ⟨3⟩ ⟨3⟩ :=
    fun hf => ha.sound.wired.acyclic_of_rising hrising ⟨3⟩ (.single hf)
  obtain ⟨waiting, sent, h, hi, hemits, hlen, hpairs, hleft, -, -, hwait⟩ :=
    Attainable.comparison ha hcmp hself
  rw [hvs, hos] at hi hlen hpairs hleft hwait
  obtain ⟨output, hsent, hless, -, -⟩ := hpairs 0 (.bool false) (.bool true) rfl rfl
  obtain rfl : output = Builtin.lessOutput := hless.mpr rfl
  obtain rfl : waiting = true := hwait.mpr ⟨Or.inl (List.cons_ne_nil _ _), by simp [hinc]⟩
  obtain ⟨x, rfl⟩ : ∃ x, sent = [x] := List.length_eq_one_iff.mp hlen
  cases hsent
  exact ⟨μ.graph, h, ha, hvs, hos, hi 2 (by decide), hemits, hleft⟩

end Graph

end Patchbay
