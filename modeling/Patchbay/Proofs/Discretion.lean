import Patchbay.Proofs.Endings
import Patchbay.Proofs.Wiring

/-! What the programs of built-in blocks look at: their own node, but not what it is subscribed to,
and the blocks of the round that still lead to it. In graphs that agree on that they go on in the
same way. -/

namespace Patchbay

/-- Whether two views agree on what a built-in block looks at. -/
structure View.Agrees {β : Type} (v w : View β) : Prop where
  block : v.block = w.block
  node : v.node.map Node.unwired = w.node.map Node.unwired
  incoming : v.incoming = w.incoming

/-- Whether a program goes on in the same way after views that agree. -/
def Program.Discreet {β : Type} : Program β → Prop
  | look next => (∀ v w, v.Agrees w → next v = next w) ∧ ∀ v, (next v).Discreet
  | pop _ next => ∀ x, (next x).Discreet
  | emit _ _ next => ∀ x, (next x).Discreet
  | assign _ _ next => next.Discreet
  | wait next => next.Discreet
  | display _ _ next => next.Discreet
  | say _ _ next => next.Discreet
  | again _ => True
  | finish _ _ => True

namespace View.Agrees

variable {β : Type} {v w : View β}

theorem node_cases (ha : v.Agrees w) : (∃ e, v.node = .error e ∧ w.node = .error e) ∨
    ∃ n n', v.node = .ok n ∧ w.node = .ok n' ∧ n.unwired = n'.unwired := by
  have hn := ha.node
  cases hv : v.node <;> cases hw : w.node <;> rw [hv, hw] at hn
  · cases hn
    exact Or.inl ⟨_, rfl, rfl⟩
  · cases hn
  · cases hn
  · exact Or.inr ⟨_, _, rfl, rfl, Except.ok.inj hn⟩

theorem ask {α : Type} (ha : v.Agrees w) {f : Node → Except GraphError α}
    (hf : ∀ n, f n.unwired = f n) : (v.node >>= f) = (w.node >>= f) := by
  rcases ha.node_cases with ⟨e, hv, hw⟩ | ⟨n, n', hv, hw, hn⟩
  · rw [hv, hw]
  · rw [hv, hw]
    change f n = f n'
    rw [← hf n, ← hf n', hn]

theorem hasValue (ha : v.Agrees w) (port : String) : v.hasValue port = w.hasValue port :=
  ha.ask fun _ => rfl

theorem parameter (ha : v.Agrees w) (name : String) : v.parameter name = w.parameter name :=
  ha.ask fun _ => rfl

theorem bothWaiting (ha : v.Agrees w) : Builtin.bothWaiting v = Builtin.bothWaiting w := by
  rw [Builtin.bothWaiting, Builtin.bothWaiting, ha.hasValue, ha.hasValue]

theorem anyWaiting (ha : v.Agrees w) : Builtin.anyWaiting v = Builtin.anyWaiting w := by
  rw [Builtin.anyWaiting, Builtin.anyWaiting, ha.hasValue, ha.hasValue]

end View.Agrees

namespace Builtin

variable {β : Type}

theorem sumRest_discreet (b : β) (id : BlockId) (count : Nat) (total : Value) :
    (sumRest b id count total).Discreet := by
  induction count generalizing total with
  | zero => exact fun _ => trivial
  | succ count ih =>
    intro x
    rcases x with err | _ | v
    · trivial
    · exact fun _ => trivial
    · cases h : total.add? v with
      | none => simp [h, fail, Program.Discreet]
      | some total => simpa [h] using ih total

theorem compareRest_discreet (b : β) : (compareRest b).Discreet := by
  refine ⟨fun v w ha => ?_, fun v => ?_⟩
  · dsimp only
    rw [ha.anyWaiting, ha.incoming]
  · dsimp only
    split
    · trivial
    · split <;> trivial

theorem compareProgram_discreet (b : β) : (compareProgram b).Discreet := by
  have hrest := compareRest_discreet b
  refine ⟨fun v w ha => ?_, fun v => ?_⟩
  · dsimp only
    rw [ha.bothWaiting]
  · dsimp only
    split
    · trivial
    · exact hrest
    · intro x
      rcases x with err | v?
      · trivial
      · intro y
        rcases y with err | other?
        · trivial
        · rcases v? with _ | v <;> rcases other? with _ | other
          · exact hrest
          · exact hrest
          · exact hrest
          · intro z
            rcases z with err | u <;> trivial

theorem sumProgram_discreet (b : β) (id : BlockId) : (sumProgram b id).Discreet := by
  intro x
  rcases x with err | _ | total
  · trivial
  · trivial
  · refine ⟨fun v w ha => ?_, fun v => ?_⟩
    · dsimp only
      rcases ha.node_cases with ⟨e, hv, hw⟩ | ⟨n, n', hv, hw, hn⟩
      · rw [hv, hw]
      · have hb : n.unwired.buffers = n'.unwired.buffers := congrArg Node.buffers hn
        change n.buffers = n'.buffers at hb
        rw [hv, hw]
        dsimp only
        rw [hb]
    · dsimp only
      split
      · trivial
      · exact sumRest_discreet _ _ _ _

theorem process_discreet (wrap : Builtin → β) (id : BlockId) (self : Builtin) :
    (self.process wrap id).Discreet := by
  cases self with
  | forward =>
    intro x
    rcases x with err | _ | v
    · trivial
    · trivial
    · exact fun _ => trivial
  | source initial =>
    refine ⟨fun v w ha => ?_, fun v => ?_⟩
    · dsimp only
      rw [ha.parameter]
    · dsimp only
      split
      · trivial
      · exact fun _ => trivial
  | sum => exact sumProgram_discreet _ _
  | alert screen =>
    intro x
    rcases x with err | _ | v <;> trivial
  | compare => exact compareProgram_discreet _

end Builtin

end Patchbay
