import Patchbay.Proofs.Schedule
import Patchbay.Proofs.Waiting

/-! The errors of built-in blocks. Each of them keeps to the ports and parameters of its own
definition, which its node has at any point of any run, so none of its calls fails; only a sum may
refuse what it is given. -/

namespace Patchbay

namespace Node

variable {n : Node} {d : BlockDefinition} {port : String}

theorem Fits.mem_inputs (h : n.Fits d) (hp : port ∈ d.ports.inputNames) : port ∈ n.inputs :=
  h.inputs ▸ mem_distinct.mpr hp

theorem Fits.mem_outputs (h : n.Fits d) (hp : port ∈ d.ports.outputNames) : port ∈ n.outputs :=
  h.outputs ▸ mem_distinct.mpr hp

theorem Fits.parameter_eq_ok {name : String} (h : n.Fits d) (hp : d.parameters.contains name) :
    ∃ v, n.parameter name = .ok v := by
  rw [← h.parameters name, Dict.contains, Option.isSome_iff_exists] at hp
  obtain ⟨v, hv⟩ := hp
  exact ⟨v, by rw [parameter, hv]⟩

theorem Fits.hasValue_eq_ok (h : n.Fits d) (hp : port ∈ d.ports.inputNames) :
    ∃ x, n.hasValue port = .ok x :=
  ⟨!(n.buffers.list port).isEmpty, by
    simp [hasValue, checkInput_eq_ok_iff.mpr (h.mem_inputs hp), bind, Except.bind, pure,
      Except.pure]⟩

end Node

/-- Whether a program, run at a node that fits a definition, uses declared ports only and fails with
nothing but an error that satisfies `p`. -/
def Program.KeepsTo {β : Type} (d : BlockDefinition) (p : GraphError → Prop) : Program β → Prop
  | look next => ∀ view n, view.node = .ok n → n.Fits d → (next view).KeepsTo d p
  | pop port next => port ∈ d.ports.inputNames ∧ ∀ v?, (next (.ok v?)).KeepsTo d p
  | emit port _ next => port ∈ d.ports.outputNames ∧ (next (.ok ())).KeepsTo d p
  | assign _ _ next => next.KeepsTo d p
  | wait next => next.KeepsTo d p
  | display _ _ next => next.KeepsTo d p
  | say _ _ next => next.KeepsTo d p
  | again _ => True
  | finish _ result => ∀ err, result = .error err → p err

/-- Whether a turn does not end in an error, or in one that satisfies `p`. -/
def Turn.FailsWith {β : Type} (p : GraphError → Prop) : Turn β → Prop
  | again _ _ _ => True
  | finished _ result _ _ => ∀ err, result = .error err → p err

namespace Graph

/-- Whether a block exists and its node fits a definition. -/
def FitsAt {β : Type} (g : Graph β) (id : BlockId) (d : BlockDefinition) : Prop :=
  ∃ e, g.slot? id = some e ∧ e.node.Fits d

theorem FitsAt.of_layout {β : Type} {g h : Graph β} {id : BlockId} {d : BlockDefinition}
    (hf : g.FitsAt id d) (hl : h.layout = g.layout) : h.FitsAt id d := by
  obtain ⟨e, he, hn⟩ := hf
  have ho := outline_congr hl id
  rw [outline, outline, he] at ho
  obtain ⟨e', he', hn'⟩ := Option.map_eq_some_iff.mp ho
  dsimp only at hn'
  refine ⟨e', he', ?_⟩
  rwa [← Node.fits_outline_iff, hn', Node.fits_outline_iff]

end Graph

theorem Program.KeepsTo.run {β : Type} {d : BlockDefinition} {p : GraphError → Prop}
    {P : Program β} {g : Graph β} {id : BlockId} (hk : P.KeepsTo d p) (hw : g.Wired)
    (hf : g.FitsAt id d) (waiting : Bool) : (P.run id waiting g).FailsWith p := by
  -- No call changes the layout, so the node fits and the graph is wired wherever the program comes.
  induction P generalizing waiting g with
  | look next ih =>
    obtain ⟨e, he, hn⟩ := hf
    have hview : View.node ⟨g, id, waiting⟩ = .ok e.node := Graph.node_eq_ok_iff.mpr ⟨e, he, rfl⟩
    exact ih _ (hk _ _ hview hn) hw ⟨e, he, hn⟩ waiting
  | pop port next ih =>
    have ⟨e, he, hn⟩ := hf
    have hpop := Graph.popValue_eq_ok he (hn.mem_inputs hk.1)
    have hl := g.layout_popValue id port
    simp only [Program.run, hpop, Reply.result, Reply.graph] at hl ⊢
    exact ih _ (hk.2 _) (hw.of_layout hl) (hf.of_layout hl) waiting
  | emit port v next ih =>
    have ⟨e, he, hn⟩ := hf
    have hemit := hw.output_eq he (hn.mem_outputs hk.1) v
    have hl := hw.layout_output id port v
    simp only [Program.run, hemit, Reply.result, Reply.graph] at hl ⊢
    exact ih _ hk.2 (hw.of_layout hl) (hf.of_layout hl) waiting
  | assign name v next ih =>
    have hl := g.layout_setVariable name v
    exact ih hk (hw.of_layout hl) (hf.of_layout hl) waiting
  | wait next ih => exact ih hk hw hf true
  | display screen message next ih =>
    have hl := g.layout_record (.shown screen message)
    exact ih hk (hw.of_layout hl) (hf.of_layout hl) waiting
  | say action remark next ih =>
    have hl := g.layout_record (.said id action remark)
    exact ih hk (hw.of_layout hl) (hf.of_layout hl) waiting
  | again b => trivial
  | finish b result => exact hk

namespace Builtin

variable {β : Type} {id : BlockId}

/-- The errors that a built-in block may fail with: values that a sum cannot add. -/
def Refuses (self : Builtin) (id : BlockId) (err : GraphError) : Prop :=
  self = .sum ∧ ∃ total v : Value, total.add? v = none ∧
    err = .unsuitableValue id ("cannot add " ++ total.compact ++ " and " ++ v.compact)

theorem values_mem_sum_inputs : valuesInput ∈ sum.definition.ports.inputNames :=
  List.mem_singleton_self _

theorem result_mem_sum_outputs : resultOutput ∈ sum.definition.ports.outputNames :=
  List.mem_singleton_self _

theorem values_mem_compare_inputs : valuesInput ∈ compare.definition.ports.inputNames :=
  List.mem_cons_self

theorem compare_mem_compare_inputs : compareInput ∈ compare.definition.ports.inputNames :=
  List.mem_cons_of_mem _ (List.mem_singleton_self _)

theorem sumRest_keepsTo (b : β) (id : BlockId) (count : Nat) (total : Value) :
    (sumRest b id count total).KeepsTo sum.definition (sum.Refuses id) := by
  have hemit : ∀ total, (Program.emit resultOutput total (.finish b)).KeepsTo sum.definition
      (sum.Refuses id) := fun _ => ⟨result_mem_sum_outputs, nofun⟩
  induction count generalizing total with
  | zero => exact hemit total
  | succ count ih =>
    refine ⟨values_mem_sum_inputs, fun v? => ?_⟩
    rcases v? with _ | v
    · exact hemit total
    · cases h : total.add? v with
      | none =>
        simp only [h]
        rintro _ ⟨⟩
        exact ⟨rfl, total, v, h, rfl⟩
      | some total => simpa only [h] using ih total

theorem sumProgram_keepsTo (b : β) (id : BlockId) :
    (sumProgram b id).KeepsTo sum.definition (sum.Refuses id) := by
  refine ⟨values_mem_sum_inputs, fun v? => ?_⟩
  rcases v? with _ | total
  · exact nofun
  · intro view n hview _
    simp only [hview]
    exact sumRest_keepsTo b id _ total

theorem route_mem_outputs (v other : Value) :
    route v other ∈ compare.definition.ports.outputNames := by
  have houtputs : compare.definition.ports.outputNames =
      [lessOutput, equalOutput, greaterOutput] := rfl
  rw [houtputs]
  unfold route
  split <;> simp

section

variable {p : GraphError → Prop} {view : View β} {n : Node}

theorem hasValue_eq_ok (hview : view.node = .ok n) (hn : n.Fits compare.definition)
    (port : String) (hp : port ∈ compare.definition.ports.inputNames) :
    ∃ x, view.hasValue port = .ok x := by
  obtain ⟨x, hx⟩ := hn.hasValue_eq_ok hp
  exact ⟨x, by simp [View.hasValue, hview, bind, Except.bind, hx]⟩

theorem bothWaiting_eq_ok (hview : view.node = .ok n) (hn : n.Fits compare.definition) :
    ∃ x, bothWaiting view = .ok x := by
  obtain ⟨x, hx⟩ := hasValue_eq_ok hview hn valuesInput values_mem_compare_inputs
  obtain ⟨y, hy⟩ := hasValue_eq_ok hview hn compareInput compare_mem_compare_inputs
  cases x <;> simp [bothWaiting, hx, hy, bind, Except.bind, pure, Except.pure]

theorem anyWaiting_eq_ok (hview : view.node = .ok n) (hn : n.Fits compare.definition) :
    ∃ x, anyWaiting view = .ok x := by
  obtain ⟨x, hx⟩ := hasValue_eq_ok hview hn valuesInput values_mem_compare_inputs
  obtain ⟨y, hy⟩ := hasValue_eq_ok hview hn compareInput compare_mem_compare_inputs
  cases x <;> simp [anyWaiting, hx, hy, bind, Except.bind, pure, Except.pure]

end

theorem compareRest_keepsTo (b : β) (p : GraphError → Prop) :
    (compareRest b).KeepsTo compare.definition p := by
  intro view n hview hn
  obtain ⟨unmatched, hany⟩ := anyWaiting_eq_ok hview hn
  simp only [hany]
  split <;> exact nofun

theorem compareProgram_keepsTo (b : β) (p : GraphError → Prop) :
    (compareProgram b).KeepsTo compare.definition p := by
  have hrest := compareRest_keepsTo b p
  intro view n hview hn
  obtain ⟨both, hboth⟩ := bothWaiting_eq_ok hview hn
  simp only [hboth]
  cases both with
  | false => exact hrest
  | true =>
    refine ⟨values_mem_compare_inputs, fun v? => ⟨compare_mem_compare_inputs, fun other? => ?_⟩⟩
    rcases v? with _ | v <;> rcases other? with _ | other
    · exact hrest
    · exact hrest
    · exact hrest
    · exact ⟨route_mem_outputs v other, trivial⟩

theorem process_keepsTo (wrap : Builtin → β) (id : BlockId) (self : Builtin) :
    (self.process wrap id).KeepsTo self.definition (self.Refuses id) := by
  cases self with
  | forward =>
    refine ⟨List.mem_singleton_self _, fun v? => ?_⟩
    rcases v? with _ | v
    · exact nofun
    · exact ⟨List.mem_singleton_self _, nofun⟩
  | source initial =>
    intro view n hview hn
    have hdeclared : (source initial).definition.parameters.contains dataName := by
      simp [definition, Dict.contains_insert]
    obtain ⟨v, hv⟩ := hn.parameter_eq_ok hdeclared
    have hparam : view.parameter dataName = .ok v := by
      simp [View.parameter, hview, bind, Except.bind, hv]
    simp only [hparam]
    exact ⟨List.mem_singleton_self _, nofun⟩
  | sum => exact sumProgram_keepsTo _ id
  | alert screen =>
    refine ⟨List.mem_singleton_self _, fun v? => ?_⟩
    rcases v? with _ | v <;> exact nofun
  | compare => exact compareProgram_keepsTo _ _

end Builtin

namespace Graph

open HostsBuiltins (block)

variable {β : Type} [Behaviour β] [HostsBuiltins β] {g h k : Graph β} {id : BlockId} {b : Builtin}
  {fuel : Nat} {err : GraphError}

theorem Wired.takeTurns_refuses (hw : g.Wired) (hf : g.FitsAt id b.definition) {b' : β}
    {waiting waiting' : Bool} {result : Except GraphError Unit}
    (ht : takeTurns id fuel (block b) waiting g = some (b', result, waiting', h)) :
    ∀ err, result = .error err → b.Refuses id err := by
  induction fuel generalizing waiting g with
  | zero => cases ht
  | succ fuel ih =>
    let P : Program β := b.process block id
    have hturn : (P.run id waiting g).FailsWith (b.Refuses id) :=
      (Builtin.process_keepsTo block id b).run hw hf waiting
    have hsame : (P.run id waiting g).block = block b :=
      (Builtin.process_endsIn block id b).run id waiting g
    have hl : (P.run id waiting g).graph.layout = g.layout :=
      ((calls_run P waiting hw).effects hw).layout_eq
    rw [takeTurns_eq, HostsBuiltins.process_block] at ht
    cases hrun : P.run id waiting g with
    | again c waiting₁ k =>
      rw [hrun] at ht hsame hl
      obtain rfl : c = block b := hsame
      exact ih (hw.of_layout hl) (hf.of_layout hl) ht
    | finished c result₁ waiting₁ k =>
      rw [hrun] at ht hturn
      cases ht
      exact hturn

theorem Fitted.fitsAt (hf : g.Fitted) (hb : g.behaviour? id = some (block b)) :
    g.FitsAt id b.definition := by
  obtain ⟨e, he, hbe⟩ := Option.bind_eq_some_iff.mp hb
  exact ⟨e, he, hf id e b he hbe⟩

theorem Wired.invoke_refuses (hw : g.Wired) (hf : g.Fitted)
    (hb : g.behaviour? id = some (block b)) (hi : g.invoke fuel id = some (.error err h)) :
    b.Refuses id err := by
  have hl := layout_setBehaviour g id none
  rw [invoke_eq hb] at hi
  obtain ⟨⟨b', result, waiting, k⟩, ht, hconclude⟩ := Option.map_eq_some_iff.mp hi
  have hrefuses := (hw.of_layout hl).takeTurns_refuses ((hf.fitsAt hb).of_layout hl) ht
  cases result with
  | ok => cases hconclude
  | error err' =>
    cases hconclude
    exact hrefuses err rfl

/-- Whether a run of `g` that leaves `h` ends with an error of a block, invoked in the round of
which the observers were told last. -/
def BreaksAt (g h : Graph β) (id : BlockId) (err : GraphError) : Prop :=
  ∃ (μ : Moment β) (rest : List BlockId) (fuel : Nat) (k : Graph β) (news : List Occurrence)
    (blocks : List BlockId), g.Visits μ ∧ μ.pending = id :: rest ∧
    μ.graph.invoke fuel id = some (.error err k) ∧ h.history = news.reverse ++ g.history ∧
    (news.filterMap Occurrence.round?).getLast? = some (μ.report.rounds, blocks) ∧ id ∈ blocks

omit [HostsBuiltins β] in
theorem Visits.breaksAt {report : RunReport} {rest : List BlockId} (hs : g.Sound)
    (hc : g.Complete) (hv : g.Visits ⟨k, report, id :: rest⟩)
    (hi : k.invoke fuel id = some (.error err h)) :
    g.BreaksAt (closeRun report (.error err h)).graph id err := by
  obtain ⟨log, hl⟩ := hv.exists_log hs hc
  have hsch := hl.scheduled hs hc
  obtain ⟨before, r, rfl⟩ := hl.exists_round (List.cons_ne_nil _ _)
  have hblocks : r.invoked ++ id :: rest = r.blocks := hsch.current before r rfl
  obtain ⟨events, ha⟩ := (hv.regular hs hc).sound.wired.account_invoke hi
  have hrounds := hsch.rounds_account
  have hlen : (before ++ [r]).length = report.rounds := hl.length_eq
  let last : Occurrence := .logged (.runAborted err.block? report.rounds err)
  refine ⟨_, rest, fuel, h, g.account (before ++ [r]) ++ events ++ [last], r.blocks, hv, rfl, hi,
    ?_, ?_, ?_⟩
  · have hh : h.history = events.reverse ++ k.history := ha.history
    have hk : k.history = (g.account (before ++ [r])).reverse ++ g.history := hsch.history
    simp [closeRun, Reply.graph, abortRun, record, clearBuffers, hh, hk, last]
  · have hlast : [last].filterMap Occurrence.round? = [] := rfl
    rw [List.filterMap_append, List.filterMap_append, hlast, ha.not_of_run.1, hrounds,
      List.append_nil, List.append_nil]
    -- What a failing invocation tells is about no round, so the round told last is the current one.
    have hround : 1 + before.length = report.rounds := by
      rw [← hlen, List.length_append, List.length_singleton, Nat.add_comm]
    simp [List.zipIdx_append, hround]
  · rw [← hblocks]
    exact List.mem_append_right _ List.mem_cons_self

variable [KeepsBuiltins β]

/-- A run of built-in blocks fails only at a sum of values that have none, which is still in the
graph and was invoked in the round that started last, or at the limit of rounds. -/
theorem Reachable.run_errors (hr : g.Reachable) (hb : g.MadeOfBuiltins)
    (hrun : g.run fuel = some (.error err h)) :
    (∃ (id : BlockId) (total v : Value), total.add? v = none ∧
      err = .unsuitableValue id ("cannot add " ++ total.compact ++ " and " ++ v.compact) ∧
      h.behaviour? id = some (block .sum) ∧ g.BreaksAt h id err) ∨
    ∃ limit, g.settings.maxRounds = some limit ∧ err = .notConverged limit := by
  have hg := hr.ready
  obtain ⟨μ, r, hv, he, hclose⟩ := run_eq_some_iff.mp ⟨fuel, hrun⟩
  have hμ := hv.regular hg.toSound hg.complete
  cases he with
  | quiet => cases hclose
  | @limit k report _ hlimited =>
    cases hclose
    have hset : k.settings = g.settings := settings_congr hμ.layout
    rw [limited, hset] at hlimited
    obtain ⟨m, hm, hle⟩ := (Option.any_eq_true _ _).mp hlimited
    -- A run stops at the limit and never passes it.
    have hle : m ≤ report.rounds := of_decide_eq_true hle
    have hge : report.rounds ≤ m := hv.rounds_le_limit hg hm
    obtain rfl : report.rounds = m := Nat.le_antisymm hge hle
    exact Or.inr ⟨_, hm, rfl⟩
  | @failure k h' report id rest fuel' err' hi =>
    cases hclose
    obtain ⟨b, hbe, hkeep⟩ := hv.exists_builtin hg hb (hμ.mem_processing rfl)
    have hw := hμ.sound.wired
    have hafter := hg.behaviour?_run hb hrun (isSome_slot?_of_behaviour? hbe)
    obtain ⟨rfl, total, v, hadd, rfl⟩ :=
      hw.invoke_refuses (hv.fitted hr.fitted hg.toSound hg.complete) hkeep hi
    exact Or.inl ⟨id, total, v, hadd, rfl, hafter.trans hbe,
      hv.breaksAt hg.toSound hg.complete hi⟩

/-- Two sources without a sum feed a block that adds, under a limit of rounds. -/
def unsummableSources (limit : Nat) : List (Operation Builtin) :=
  [.add (.source .null), .add (.source (.bool true)), .add .sum,
    .subscribe ⟨2⟩ Builtin.valuesInput ⟨0⟩ Builtin.dataName,
    .subscribe ⟨2⟩ Builtin.valuesInput ⟨1⟩ Builtin.dataName, .configure ⟨some limit, false⟩]

theorem run_errors_of_unsummableSources : ∃ g g' h h' : Graph Builtin,
    performAll 1 (unsummableSources 2) (.new .standard) = some g ∧
    g.run 9 = some (.error (.unsuitableValue ⟨2⟩ "cannot add true and null") h) ∧
    h.behaviour? ⟨2⟩ = some .sum ∧
    g.BreaksAt h ⟨2⟩ (.unsuitableValue ⟨2⟩ "cannot add true and null") ∧
    performAll 1 (unsummableSources 1) (.new .standard) = some g' ∧
    g'.run 9 = some (.error (.notConverged 1) h') ∧ g'.settings.maxRounds = some 1 := by
  have hdec : (performAll 1 (unsummableSources 2) (.new .standard)).any (fun g =>
      (g.run 9).any fun reply => reply.result.map (fun _ => ()) =
        .error (.unsuitableValue ⟨2⟩ "cannot add true and null")) = true := by decide +kernel
  have hdec' : (performAll 1 (unsummableSources 1) (.new .standard)).any (fun g =>
      (g.run 9).any fun reply => reply.result.map (fun _ => ()) =
        .error (.notConverged 1)) = true := by decide +kernel
  obtain ⟨g, hg, hany⟩ := (Option.any_eq_true _ _).mp hdec
  obtain ⟨reply, hrun, hres⟩ := (Option.any_eq_true _ _).mp hany
  obtain ⟨g', hg', hany'⟩ := (Option.any_eq_true _ _).mp hdec'
  obtain ⟨reply', hrun', hres'⟩ := (Option.any_eq_true _ _).mp hany'
  have hr : g.Reachable := Reachable.performAll (.new _) hg
  have hr' : g'.Reachable := Reachable.performAll (.new _) hg'
  cases reply with
  | ok => cases of_decide_eq_true hres
  | error err h =>
    cases of_decide_eq_true hres
    cases reply' with
    | ok => cases of_decide_eq_true hres'
    | error err' h' =>
      cases of_decide_eq_true hres'
      obtain ⟨hsum, hbreaks⟩ : h.behaviour? ⟨2⟩ = some .sum ∧
          g.BreaksAt h ⟨2⟩ (.unsuitableValue ⟨2⟩ "cannot add true and null") := by
        rcases Reachable.run_errors hr hr.ready.complete.madeOfBuiltins hrun with
          ⟨id, total, v, -, heq, hsum, hbreaks⟩ | ⟨m, -, heq⟩
        · obtain ⟨rfl, -⟩ := GraphError.unsuitableValue.inj heq
          exact ⟨hsum, hbreaks⟩
        · cases heq
      have hlimit : g'.settings.maxRounds = some 1 := by
        rcases Reachable.run_errors hr' hr'.ready.complete.madeOfBuiltins hrun' with
          ⟨id, total, v, -, heq, -⟩ | ⟨m, hm, heq⟩
        · cases heq
        · exact GraphError.notConverged.inj heq ▸ hm
      exact ⟨g, g', h, h', hg, hrun, hsum, hbreaks, hg', hrun', hlimit⟩

end Graph

end Patchbay
