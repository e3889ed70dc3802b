import Patchbay.Proofs.Builtins

/-! When the comparison comes to an end. It takes a turn for each pair, and a value that it emits
may come back to its own inputs, so it goes on for ever exactly when a tie comes back to both. -/

namespace Patchbay.Graph

variable {β : Type} {g h : Graph β} {id : BlockId}

/-- Whether a comparison feeds both of its inputs from one of its outputs. -/
def LoopsBack (g : Graph β) (id : BlockId) (output : String) : Prop :=
  g.hasEdge ⟨id, output, id, Builtin.valuesInput⟩ = true ∧
    g.hasEdge ⟨id, output, id, Builtin.compareInput⟩ = true

def returned (g : Graph β) (id : BlockId) (output input : String) (v : Value) : List Value :=
  if g.hasEdge ⟨id, output, id, input⟩ then [v] else []

/-- Whether a tie is found by pairing off the values of two inputs, with what comes back
meanwhile. -/
inductive ComesToTie (g : Graph β) (id : BlockId) : List Value → List Value → Prop
  | tie {v o : Value} {vs os : List Value} :
    Builtin.route v o = Builtin.equalOutput → ComesToTie g id (v :: vs) (o :: os)
  | pair {v o : Value} {vs os : List Value} :
    Builtin.route v o ≠ Builtin.equalOutput → g.checkOutput id (Builtin.route v o) = .ok () →
    ComesToTie g id (g.returned id (Builtin.route v o) Builtin.valuesInput v ++ vs)
      (g.returned id (Builtin.route v o) Builtin.compareInput v ++ os) →
    ComesToTie g id (v :: vs) (o :: os)

/-- Whether a comparison with its present buffers comes to a tie that it feeds back to both
inputs. -/
def Revolves (g : Graph β) (id : BlockId) : Prop :=
  g.LoopsBack id Builtin.equalOutput ∧
    g.ComesToTie id (g.buffer id Builtin.valuesInput) (g.buffer id Builtin.compareInput)

theorem checkOutput_congr (hl : h.layout = g.layout) (id : BlockId) (port : String) :
    h.checkOutput id port = .ok () ↔ g.checkOutput id port = .ok () := by
  have ho := outline_congr hl id
  simp only [outline] at ho
  rw [checkOutput_eq_ok_iff, checkOutput_eq_ok_iff]
  cases hg : g.slot? id <;> cases hh : h.slot? id <;> simp_all [Node.outline]

theorem LoopsBack.congr (hl : h.layout = g.layout) {output : String} (hb : g.LoopsBack id output) :
    h.LoopsBack id output := by
  simpa only [LoopsBack, hasEdge_congr hl] using hb

theorem ComesToTie.congr (hl : h.layout = g.layout) {vs os : List Value}
    (ht : g.ComesToTie id vs os) : h.ComesToTie id vs os := by
  induction ht with
  | tie heq => exact .tie heq
  | pair hne hout _ ih =>
    refine .pair hne ((checkOutput_congr hl id _).mpr hout) ?_
    simpa only [returned, hasEdge_congr hl] using ih

theorem buffers_drawn {v o : Value} {vs os : List Value}
    (hvs : g.buffer id Builtin.valuesInput = v :: vs)
    (hos : g.buffer id Builtin.compareInput = o :: os) :
    (g.drawn id).buffer id Builtin.valuesInput = vs ∧
      (g.drawn id).buffer id Builtin.compareInput = os := by
  obtain ⟨e, he⟩ : ∃ e, g.slot? id = some e := by
    cases he : g.slot? id with
    | none => simp [buffer, he] at hvs
    | some e => exact ⟨e, rfl⟩
  have he' : (g.updateNode id (·.discard Builtin.valuesInput)).slot? id =
      some { e with node := e.node.discard Builtin.valuesInput } := by
    simp [slot?_updateNode, he]
  have hne : Builtin.compareInput ≠ Builtin.valuesInput := by decide +kernel
  constructor
  · simp [drawn, buffer_discard he', buffer_discard he, hvs, hne.symm]
  · simp [drawn, buffer_discard he', buffer_discard he, hos, hne]

theorem Wired.buffers_paired (hw : g.Wired) {v o : Value} {vs os : List Value}
    (hvs : g.buffer id Builtin.valuesInput = v :: vs)
    (hos : g.buffer id Builtin.compareInput = o :: os) (output : String) :
    ((g.drawn id).broadcast id output v).buffer id Builtin.valuesInput =
        g.returned id output Builtin.valuesInput v ++ vs ∧
      ((g.drawn id).broadcast id output v).buffer id Builtin.compareInput =
        g.returned id output Builtin.compareInput v ++ os := by
  have hw' : (g.drawn id).Wired := hw.of_layout (layout_drawn g id)
  obtain ⟨hbv, hbo⟩ := buffers_drawn hvs hos
  rw [hw'.buffer_broadcast, hw'.buffer_broadcast, hasEdge_congr (layout_drawn g id),
    hasEdge_congr (layout_drawn g id), hbv, hbo]
  exact ⟨rfl, rfl⟩

theorem layout_paired (g : Graph β) (id : BlockId) (output : String) (v : Value) :
    ((g.drawn id).broadcast id output v).layout = g.layout :=
  (layout_broadcast _ _ _ _).trans (layout_drawn g id)

/-! Ending -/

/-- Halves of the pairs that remain, and whether the next pair may come back whole. -/
def pairingMeasure : List Value → List Value → Nat
  | v :: vs, o :: os =>
    2 * ((v :: vs).length + (o :: os).length) +
      if Builtin.route v o = Builtin.equalOutput then 0 else 1
  | vs, os => 2 * (vs.length + os.length)

theorem pairingMeasure_le (vs os : List Value) :
    pairingMeasure vs os ≤ 2 * (vs.length + os.length) + 1 := by
  unfold pairingMeasure
  split
  · split <;> omega
  · omega

theorem length_returned_le (g : Graph β) (id : BlockId) (output input : String) (v : Value) :
    (g.returned id output input v).length ≤ 1 := by
  unfold returned
  split <;> simp

theorem pairingMeasure_returned (g : Graph β) (id : BlockId) {v o : Value} {vs os : List Value}
    (h : Builtin.route v o = Builtin.equalOutput → ¬g.LoopsBack id Builtin.equalOutput) :
    pairingMeasure (g.returned id (Builtin.route v o) Builtin.valuesInput v ++ vs)
      (g.returned id (Builtin.route v o) Builtin.compareInput v ++ os) <
    pairingMeasure (v :: vs) (o :: os) := by
  have hle := pairingMeasure_le (g.returned id (Builtin.route v o) Builtin.valuesInput v ++ vs)
    (g.returned id (Builtin.route v o) Builtin.compareInput v ++ os)
  have hv := length_returned_le g id (Builtin.route v o) Builtin.valuesInput v
  have ho := length_returned_le g id (Builtin.route v o) Builtin.compareInput v
  by_cases hb : g.LoopsBack id (Builtin.route v o)
  · -- Both inputs get the value back, and the next pair is a tie.
    have hne : Builtin.route v o ≠ Builtin.equalOutput := fun heq => h heq (heq ▸ hb)
    simp [returned, hb.1, hb.2, pairingMeasure, Builtin.route_self, hne]
  · have hlen : (g.returned id (Builtin.route v o) Builtin.valuesInput v).length +
        (g.returned id (Builtin.route v o) Builtin.compareInput v).length ≤ 1 := by
      unfold LoopsBack at hb
      unfold returned
      split <;> split <;> simp_all
    refine Nat.lt_of_le_of_lt hle ?_
    simp only [pairingMeasure, List.length_cons, List.length_append]
    omega

variable [Behaviour β] [HostsBuiltins β]

open HostsBuiltins (block)

theorem takeTurns_compare (fuel : Nat) (waiting : Bool) (g : Graph β) (id : BlockId) :
    takeTurns id (fuel + 1) (block .compare) waiting g =
      match (Builtin.compareProgram (block .compare : β)).run id waiting g with
      | .again b waiting g => takeTurns id fuel b waiting g
      | .finished b result waiting g => some (b, result, waiting, g) := by
  rw [takeTurns, HostsBuiltins.process_block]
  rfl

/-- A comparison that ends has no pair left, and waits as its last look at the graph tells it to. -/
theorem Wired.takeTurns_compare_ends (hw : g.Wired) {fuel : Nat} {waiting waiting' : Bool} {b : β}
    {result : Except GraphError Unit}
    (ht : takeTurns id fuel (block .compare) waiting g = some (b, result, waiting', h)) :
    b = block .compare ∧ Located result ∧ (result = .ok () →
      (h.buffer id Builtin.valuesInput = [] ∨ h.buffer id Builtin.compareInput = []) ∧
        waiting' = (waiting || h.lingers id)) := by
  induction fuel generalizing g with
  | zero => cases ht
  | succ fuel ih =>
    rw [takeTurns_compare] at ht
    rcases hw.compare_cases id (block .compare) waiting with ⟨err, k, herr, hrun⟩ |
      ⟨e, v, vs, o, os, -, -, -, -, -, -, hrun⟩ | ⟨hempty, hrun⟩
    · rw [hrun] at ht
      cases ht
      exact ⟨rfl, .error herr, nofun⟩
    · rw [hrun] at ht
      exact ih (hw.of_layout (layout_paired g id _ v)) ht
    · rw [hrun] at ht
      cases ht
      exact ⟨rfl, .ok (), fun _ => ⟨hempty, rfl⟩⟩

theorem takeTurns_of_not_revolves (hw : g.Wired) (hr : ¬g.Revolves id) (waiting : Bool) :
    ∃ fuel result waiting' h, takeTurns id fuel (block .compare : β) waiting g =
      some (block .compare, result, waiting', h) := by
  -- Each turn brings the measure down.
  induction hm : pairingMeasure (g.buffer id Builtin.valuesInput)
    (g.buffer id Builtin.compareInput) using Nat.strongRecOn generalizing g with
  | _ m ih =>
    rcases hw.compare_cases id (block .compare) waiting with ⟨err, h, -, hrun⟩ |
      ⟨e, v, vs, o, os, he, -, -, ho, hvs, hos, hrun⟩ | ⟨-, hrun⟩
    · exact ⟨1, _, _, h, by rw [takeTurns_compare, hrun]⟩
    · obtain ⟨hvs', hos'⟩ := hw.buffers_paired hvs hos (Builtin.route v o)
      have hl := layout_paired g id (Builtin.route v o) v
      have hout : g.checkOutput id (Builtin.route v o) = .ok () :=
        checkOutput_eq_ok_iff.mpr ⟨e, he, ho⟩
      rw [Revolves, hvs, hos] at hr
      rw [hvs, hos] at hm
      have hloop : Builtin.route v o = Builtin.equalOutput →
          ¬g.LoopsBack id Builtin.equalOutput := fun heq hb => hr ⟨hb, .tie heq⟩
      have hlt : pairingMeasure _ _ < m := hm ▸ pairingMeasure_returned g id hloop
      have hr' : ¬((g.drawn id).broadcast id (Builtin.route v o) v).Revolves id := by
        rintro ⟨hb, ht⟩
        rw [hvs', hos'] at ht
        have hb' := hb.congr hl.symm
        have hne : Builtin.route v o ≠ Builtin.equalOutput := fun heq => hloop heq hb'
        exact hr ⟨hb', .pair hne hout (ht.congr hl.symm)⟩
      obtain ⟨fuel, result, waiting', h, ht⟩ := ih _ hlt (hw.of_layout hl) hr'
        (by rw [hvs', hos'])
      exact ⟨fuel + 1, result, waiting', h, by rw [takeTurns_compare, hrun]; exact ht⟩
    · exact ⟨1, _, _, g, by rw [takeTurns_compare, hrun]⟩

/-! Going on for ever -/

omit [Behaviour β] [HostsBuiltins β] in
theorem LoopsBack.exists_entry (hw : g.Wired) {output : String} (hb : g.LoopsBack id output) :
    ∃ e, g.slot? id = some e ∧ Builtin.valuesInput ∈ e.node.inputs ∧
      Builtin.compareInput ∈ e.node.inputs ∧ output ∈ e.node.outputs := by
  obtain ⟨s, hs⟩ := hw.hasEdge_iff.mp hb.1
  obtain ⟨t, ht⟩ := hw.hasEdge_iff.mp hb.2
  obtain ⟨e, he, ho⟩ := hw.exists_publisher (hw.arena.get?_eq_some_iff.mpr hs)
  obtain ⟨e₁, he₁, hv⟩ := hw.exists_subscriber (hw.arena.get?_eq_some_iff.mpr hs)
  obtain ⟨e₂, he₂, hc⟩ := hw.exists_subscriber (hw.arena.get?_eq_some_iff.mpr ht)
  cases he.symm.trans he₁
  cases he.symm.trans he₂
  exact ⟨e, he, hv, hc, ho⟩

/-- A tie leaves a tie between the value and itself. -/
theorem takeTurns_of_tie {fuel : Nat} {waiting : Bool} (hw : g.Wired)
    (hb : g.LoopsBack id Builtin.equalOutput) {v o : Value} {vs os : List Value}
    (hvs : g.buffer id Builtin.valuesInput = v :: vs)
    (hos : g.buffer id Builtin.compareInput = o :: os)
    (ht : Builtin.route v o = Builtin.equalOutput) :
    takeTurns id fuel (block .compare : β) waiting g = none := by
  induction fuel generalizing g v o vs os with
  | zero => rfl
  | succ fuel ih =>
    obtain ⟨e, he, hv, hc, ho⟩ := hb.exists_entry hw
    have hl := layout_paired g id Builtin.equalOutput v
    obtain ⟨hvs', hos'⟩ := hw.buffers_paired hvs hos Builtin.equalOutput
    rw [returned, if_pos hb.1] at hvs'
    rw [returned, if_pos hb.2] at hos'
    rw [takeTurns_compare, hw.compare_pair _ waiting he hv hc hvs hos (ht ▸ ho), ht]
    exact ih (hw.of_layout hl) (hb.congr hl) hvs' hos' (Builtin.route_self v)

theorem takeTurns_of_comesToTie {fuel : Nat} {waiting : Bool} {vs os : List Value}
    (hw : g.Wired) (hb : g.LoopsBack id Builtin.equalOutput) (ht : g.ComesToTie id vs os)
    (hl : h.layout = g.layout) (hvs : h.buffer id Builtin.valuesInput = vs)
    (hos : h.buffer id Builtin.compareInput = os) :
    takeTurns id fuel (block .compare : β) waiting h = none := by
  induction ht generalizing h fuel with
  | tie heq => exact takeTurns_of_tie (hw.of_layout hl) (hb.congr hl) hvs hos heq
  | @pair v o vs os hne hout _ ih =>
    cases fuel with
    | zero => rfl
    | succ fuel =>
      have hw' := hw.of_layout hl
      obtain ⟨e, he, hv, hc, -⟩ := (hb.congr hl).exists_entry hw'
      obtain ⟨e', he', ho⟩ := checkOutput_eq_ok_iff.mp ((checkOutput_congr hl id _).mpr hout)
      cases he.symm.trans he'
      obtain ⟨hvs', hos'⟩ := hw'.buffers_paired hvs hos (Builtin.route v o)
      rw [takeTurns_compare, hw'.compare_pair _ waiting he hv hc hvs hos ho]
      refine ih ((layout_paired h id _ v).trans hl) ?_ ?_
      · simpa only [returned, hasEdge_congr hl] using hvs'
      · simpa only [returned, hasEdge_congr hl] using hos'

end Patchbay.Graph
