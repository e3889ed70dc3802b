import Patchbay.Blocks.Block
import Patchbay.Proofs.Running

/-! Turns of the built-in blocks. All but the comparison are done after one turn and never wait; a
turn of the comparison fails, or pairs the newest values of its inputs, or ends for want of a pair.
Whatever fails, its error names a block. -/

namespace Patchbay

/-- Whether an error, if there is one, names a block. -/
def Located {α : Type} (x : Except GraphError α) : Prop :=
  ∀ err, x = .error err → err.block?.isSome

theorem Located.ok {α : Type} (a : α) : Located (.ok a) := nofun

theorem Located.error {α : Type} {err : GraphError} (h : err.block?.isSome) :
    Located (.error err : Except GraphError α) := by
  rintro _ ⟨⟩
  exact h

theorem Graph.node_located {β : Type} (g : Graph β) (id : BlockId) : Located (g.node id) := by
  unfold node
  split
  · exact .ok _
  · exact .error rfl

theorem View.parameter_located {β : Type} (view : View β) (name : String) :
    Located (view.parameter name) := by
  unfold View.parameter View.node Graph.node
  cases view.graph.slot? view.block with
  | none => exact .error rfl
  | some e =>
    change Located (e.node.parameter name)
    unfold Node.parameter
    split
    · exact .ok _
    · exact .error rfl

/-- A program of one turn that does not wait, ends in block `b` and fails at a block. -/
inductive Program.Direct {β : Type} (b : β) : Program β → Prop
  | look {next : View β → Program β} : (∀ view, Direct b (next view)) → Direct b (.look next)
  | pop {port : String} {next : Except GraphError (Option Value) → Program β} :
    (∀ x, Located x → Direct b (next x)) → Direct b (.pop port next)
  | emit {port : String} {v : Value} {next : Except GraphError Unit → Program β} :
    (∀ x, Located x → Direct b (next x)) → Direct b (.emit port v next)
  | display {screen : Screen} {message : Value} {next : Program β} :
    Direct b next → Direct b (.display screen message next)
  | finish {result : Except GraphError Unit} : Located result → Direct b (.finish b result)

theorem Program.Direct.run {β : Type} {b : β} {p : Program β} (hd : p.Direct b)
    {g : Graph β} (hw : g.Wired) (id : BlockId) (waiting : Bool) :
    ∃ result h, Located result ∧ p.run id waiting g = .finished b result waiting h := by
  induction hd generalizing g with
  | look _ ih => exact ih _ hw
  | @pop port next _ ih =>
    rcases g.popValue_cases id port with ⟨e, he, hp, hok⟩ | ⟨err, herr, hpop⟩
    · rw [Program.run, hok]
      exact ih _ (.ok _) (hw.of_layout (Graph.Effect.take he hp).layout_eq)
    · rw [Program.run, hpop]
      exact ih _ (.error herr) hw
  | @emit port v next _ ih =>
    rcases hw.output_cases id port v with ⟨e, he, hp, hok⟩ | ⟨err, herr, hout⟩
    · rw [Program.run, hok]
      exact ih _ (.ok _) (hw.of_layout (Graph.layout_broadcast g id port v))
    · rw [Program.run, hout]
      exact ih _ (.error herr) hw
  | display _ ih => exact ih (hw.of_layout rfl)
  | finish hl => exact ⟨_, g, hl, rfl⟩

namespace Builtin

variable {β : Type}

theorem sumRest_direct (b : β) (id : BlockId) (count : Nat) (total : Value) :
    (sumRest b id count total).Direct b := by
  induction count generalizing total with
  | zero => exact .emit fun _ hx => .finish hx
  | succ count ih =>
    refine .pop fun x hx => ?_
    rcases x with err | _ | v
    · exact .finish (.error (hx err rfl))
    · exact .emit fun _ hx => .finish hx
    · cases h : total.add? v with
      | none => simpa [h] using .finish (.error rfl)
      | some total => simpa [h] using ih total

theorem process_direct (wrap : Builtin → β) (id : BlockId) {self : Builtin}
    (h : self ≠ .compare) : (self.process wrap id).Direct (wrap self) := by
  cases self with
  | forward =>
    refine .pop fun x hx => ?_
    rcases x with err | _ | v
    · exact .finish (.error (hx err rfl))
    · exact .finish (.ok ())
    · exact .emit fun _ hx => .finish hx
  | source initial =>
    refine .look fun view => ?_
    split
    · next err heq => exact .finish (.error (view.parameter_located dataName err heq))
    · exact .emit fun _ hx => .finish hx
  | sum =>
    refine .pop fun x hx => ?_
    rcases x with err | _ | v
    · exact .finish (.error (hx err rfl))
    · exact .finish (.ok ())
    · refine .look fun view => ?_
      split
      · next err heq => exact .finish (.error (view.graph.node_located view.block err heq))
      · exact sumRest_direct _ _ _ _
  | alert screen =>
    refine .pop fun x hx => ?_
    rcases x with err | _ | v
    · exact .finish (.error (hx err rfl))
    · exact .finish (.ok ())
    · exact .display (.finish (.ok ()))
  | compare => exact absurd rfl h

/-- A value is equal to itself, whatever it is. -/
theorem route_self (v : Value) : route v v = equalOutput := by
  cases v <;> simp [route, Value.order?, Number.order_self]

end Builtin

/-- A type of blocks that has the built-in ones. -/
class HostsBuiltins (β : Type) [Behaviour β] where
  block : Builtin → β
  process_block : ∀ id b, Behaviour.process id (block b) = b.process block id

instance : HostsBuiltins Builtin := ⟨id, fun _ _ => rfl⟩

instance : HostsBuiltins Block := ⟨.builtin, fun _ _ => rfl⟩

namespace Graph

variable {β : Type} {g : Graph β} {id : BlockId}

/-! A turn of the comparison -/

/-- The graph after a block has drawn one value from each input of a comparison. -/
def drawn (g : Graph β) (id : BlockId) : Graph β :=
  (g.updateNode id (·.discard Builtin.valuesInput)).updateNode id (·.discard Builtin.compareInput)

/-- Whether a comparison that finds no pair goes on waiting. -/
def lingers (g : Graph β) (id : BlockId) : Bool :=
  (!(g.buffer id Builtin.valuesInput).isEmpty || !(g.buffer id Builtin.compareInput).isEmpty) &&
    !(g.incoming id).isEmpty

theorem hasValue_eq_ok {e : Entry β} (he : g.slot? id = some e) {port : String}
    (hp : port ∈ e.node.inputs) (waiting : Bool) :
    View.hasValue ⟨g, id, waiting⟩ port = .ok !(g.buffer id port).isEmpty := by
  simp [View.hasValue, View.node, node, he, Node.hasValue, Node.checkInput_eq_ok_iff.mpr hp,
    buffer_of_slot? he, bind, Except.bind, pure, Except.pure]

theorem hasValue_eq_error {e : Entry β} (he : g.slot? id = some e) {port : String}
    (hp : port ∉ e.node.inputs) (waiting : Bool) :
    View.hasValue ⟨g, id, waiting⟩ port = .error (.invalidPort e.node.id port .input) := by
  simp [View.hasValue, View.node, node, he, Node.hasValue, Node.checkInput, Node.hasInput, hp,
    bind, Except.bind]

theorem buffer_discard {e : Entry β} (he : g.slot? id = some e) (port p : String) :
    (g.updateNode id (·.discard port)).buffer id p =
      if p = port then (g.buffer id p).tail else g.buffer id p := by
  have hs : (g.updateNode id (·.discard port)).slot? id =
      some { e with node := e.node.discard port } := by
    rw [slot?_updateNode, if_pos rfl, he]
    rfl
  rw [buffer_of_slot? hs, buffer_of_slot? he]
  simp only [Node.discard, Dict.list_setList]
  split
  · next h => rw [h]
  · rfl

@[simp] theorem layout_drawn (g : Graph β) (id : BlockId) : (g.drawn id).layout = g.layout := by
  refine (layout_updateNode _ _ ?_).trans (layout_updateNode _ _ ?_) <;> exact fun _ => rfl

theorem slot?_drawn {e : Entry β} (he : g.slot? id = some e) : (g.drawn id).slot? id =
    some { e with
      node := (e.node.discard Builtin.valuesInput).discard Builtin.compareInput } := by
  simp [drawn, slot?_updateNode, he]

section

variable (b : β) (waiting : Bool) {e : Entry β} (he : g.slot? id = some e)
  (hv : Builtin.valuesInput ∈ e.node.inputs) (hc : Builtin.compareInput ∈ e.node.inputs)

include he hv hc

theorem compare_rest (hempty : g.buffer id Builtin.valuesInput = [] ∨
    g.buffer id Builtin.compareInput = []) :
    (Builtin.compareProgram b).run id waiting g =
      .finished b (.ok ()) (waiting || g.lingers id) g := by
  have hboth : Builtin.bothWaiting ⟨g, id, waiting⟩ = .ok false := by
    rcases hempty with h | h <;>
      simp [Builtin.bothWaiting, hasValue_eq_ok he hv, hasValue_eq_ok he hc, h, bind, Except.bind,
        pure, Except.pure]
  have hany : Builtin.anyWaiting ⟨g, id, waiting⟩ =
      .ok (!(g.buffer id Builtin.valuesInput).isEmpty ||
        !(g.buffer id Builtin.compareInput).isEmpty) := by
    cases hb : g.buffer id Builtin.valuesInput <;>
      simp [Builtin.anyWaiting, hasValue_eq_ok he hv, hasValue_eq_ok he hc, hb, bind, Except.bind,
        pure, Except.pure]
  have hinc : View.incoming ⟨g, id, waiting⟩ = g.incoming id := rfl
  simp only [Builtin.compareProgram, Program.run, hboth, Builtin.compareRest, hany, hinc, lingers]
  split
  · next h => simp [Program.run, Builtin.done, h]
  · next h => simp [Program.run, Builtin.done, Bool.eq_false_iff.mpr h]

variable {v o : Value} {vs os : List Value} (hvs : g.buffer id Builtin.valuesInput = v :: vs)
  (hos : g.buffer id Builtin.compareInput = o :: os)

include hvs hos

theorem run_compare_pair :
    (∀ h, (g.drawn id).output id (Builtin.route v o) v = .ok () h →
      (Builtin.compareProgram b).run id waiting g = .again b waiting h) ∧
    ∀ err h, (g.drawn id).output id (Builtin.route v o) v = .error err h →
      (Builtin.compareProgram b).run id waiting g = .finished b (.error err) waiting h := by
  have hboth : Builtin.bothWaiting ⟨g, id, waiting⟩ = .ok true := by
    simp [Builtin.bothWaiting, hasValue_eq_ok he hv, hasValue_eq_ok he hc, hvs, hos, bind,
      Except.bind]
  have he' : (g.updateNode id (·.discard Builtin.valuesInput)).slot? id =
      some { e with node := e.node.discard Builtin.valuesInput } := by
    rw [slot?_updateNode, if_pos rfl, he]
    rfl
  have hbuf : (g.updateNode id (·.discard Builtin.valuesInput)).buffer id Builtin.compareInput =
      o :: os := by
    rw [buffer_discard he, if_neg (by decide +kernel), hos]
  constructor <;> intros <;> simp_all [Builtin.compareProgram, Program.run, popValue_eq_ok he hv,
    popValue_eq_ok he' hc, Reply.result, drawn, Builtin.fail]

theorem Wired.compare_pair (hw : g.Wired) (ho : Builtin.route v o ∈ e.node.outputs) :
    (Builtin.compareProgram b).run id waiting g =
      .again b waiting ((g.drawn id).broadcast id (Builtin.route v o) v) :=
  (run_compare_pair b waiting he hv hc hvs hos).1 _
    ((hw.of_layout (layout_drawn g id)).output_eq (slot?_drawn he) ho v)

theorem Wired.compare_refused (hw : g.Wired) (ho : Builtin.route v o ∉ e.node.outputs) :
    ∃ err h, err.block?.isSome ∧ (Builtin.compareProgram b).run id waiting g =
      .finished b (.error err) waiting h := by
  rcases (hw.of_layout (layout_drawn g id)).output_cases id (Builtin.route v o) v with
    ⟨e', he', hp, -⟩ | ⟨err, herr, hout⟩
  · rw [slot?_drawn he] at he'
    cases he'
    exact absurd hp ho
  · exact ⟨err, _, herr, (run_compare_pair b waiting he hv hc hvs hos).2 err _ hout⟩

end

theorem Wired.compare_cases (hw : g.Wired) (id : BlockId) (b : β) (waiting : Bool) :
    (∃ err h, err.block?.isSome ∧
      (Builtin.compareProgram b).run id waiting g = .finished b (.error err) waiting h) ∨
    (∃ e v vs o os, g.slot? id = some e ∧ Builtin.valuesInput ∈ e.node.inputs ∧
      Builtin.compareInput ∈ e.node.inputs ∧ Builtin.route v o ∈ e.node.outputs ∧
      g.buffer id Builtin.valuesInput = v :: vs ∧ g.buffer id Builtin.compareInput = o :: os ∧
      (Builtin.compareProgram b).run id waiting g =
        .again b waiting ((g.drawn id).broadcast id (Builtin.route v o) v)) ∨
    ((g.buffer id Builtin.valuesInput = [] ∨ g.buffer id Builtin.compareInput = []) ∧
      (Builtin.compareProgram b).run id waiting g =
        .finished b (.ok ()) (waiting || g.lingers id) g) := by
  cases he : g.slot? id with
  | none =>
    refine Or.inl ⟨.unknownBlock id, g, rfl, ?_⟩
    simp [Builtin.compareProgram, Program.run, Builtin.bothWaiting, View.hasValue, View.node, node,
      he, bind, Except.bind, Builtin.fail]
  | some e =>
    by_cases hv : Builtin.valuesInput ∈ e.node.inputs
    · by_cases hc : Builtin.compareInput ∈ e.node.inputs
      · cases hvs : g.buffer id Builtin.valuesInput with
        | nil => exact Or.inr (Or.inr ⟨Or.inl rfl, compare_rest b waiting he hv hc (Or.inl hvs)⟩)
        | cons v vs =>
          cases hos : g.buffer id Builtin.compareInput with
          | nil => exact Or.inr (Or.inr ⟨Or.inr rfl, compare_rest b waiting he hv hc (Or.inr hos)⟩)
          | cons o os =>
            by_cases ho : Builtin.route v o ∈ e.node.outputs
            · exact Or.inr (Or.inl ⟨e, v, vs, o, os, rfl, hv, hc, ho, rfl, rfl,
                hw.compare_pair b waiting he hv hc hvs hos ho⟩)
            · exact Or.inl (hw.compare_refused b waiting he hv hc hvs hos ho)
      · -- The inputs are looked at again when the first look finds no pair.
        refine Or.inl ⟨.invalidPort e.node.id Builtin.compareInput .input, g, rfl, ?_⟩
        cases hvs : g.buffer id Builtin.valuesInput <;>
          simp [Builtin.compareProgram, Program.run, Builtin.bothWaiting, Builtin.compareRest,
            Builtin.anyWaiting, hasValue_eq_ok he hv, hasValue_eq_error he hc, hvs, bind,
            Except.bind, pure, Except.pure, Builtin.fail]
    · refine Or.inl ⟨.invalidPort e.node.id Builtin.valuesInput .input, g, rfl, ?_⟩
      simp [Builtin.compareProgram, Program.run, Builtin.bothWaiting, hasValue_eq_error he hv,
        bind, Except.bind, Builtin.fail]

end Graph

end Patchbay
