import Patchbay.Proofs.Acceptance

/-! All that is wrong with a document, in the order in which rebuilding would come upon it: faults
of the records' numbers and types, then of their values, then of their subscribers. Rebuilding ends
with the first of them. -/

namespace Patchbay

namespace Document

variable {β : Type} [Behaviour β]

/-- The definition of the block created for a record, if its type is registered. -/
def definition? (registry : Registry β) (r : BlockRecord) : Option BlockDefinition :=
  (registry.create r.typeName).toOption.map Behaviour.definition

variable (d : Document) (registry : Registry β)

end Document

namespace Graph

variable {β : Type} {g h : Graph β}

/-! First pass -/

/-- A node has the number of a record's position and the parameters of its type. -/
def Declares [Behaviour β] (registry : Registry β) (g : Graph β) (x : BlockRecord × Nat) : Prop :=
  ∃ e, g.slot? ⟨x.2⟩ = some e ∧ e.node.id = ⟨x.2⟩ ∧ ∀ name,
    e.node.parameters.contains name =
      (Document.definition? registry x.1).all (·.parameters.contains name)

theorem Declares.fill [Behaviour β] {registry : Registry β} {x y : BlockRecord × Nat}
    (hy : Declares registry g y)
    (hx : ∀ e, g.slot? ⟨x.2⟩ = some e →
      ∀ name, x.1.values.contains name → e.node.parameters.contains name) :
    Declares registry (g.updateNode ⟨x.2⟩ (fill x.1)) y := by
  obtain ⟨e, he, hid, hnames⟩ := hy
  by_cases hsame : y.2 = x.2
  · have hfilled : (g.updateNode ⟨x.2⟩ (Graph.fill x.1)).slot? ⟨y.2⟩ =
        some { e with node := Graph.fill x.1 e.node } := by
      rw [slot?_updateNode, he, hsame, if_pos rfl]
      rfl
    refine ⟨_, hfilled, hid, fun name => ?_⟩
    have hset : (e.node.parameters.overlay x.1.values).contains name =
        e.node.parameters.contains name := by
      have hdeclared := hx e (hsame ▸ he) name
      rw [Dict.contains_overlay]
      cases hv : x.1.values.contains name with
      | false => rfl
      | true => simp [hdeclared hv]
    exact hset.trans (hnames name)
  · exact ⟨e, by simp [slot?_updateNode, hsame, he], hid, hnames⟩

/-- A node has the number of a record's position and the ports of its type. -/
def Offers [Behaviour β] (registry : Registry β) (g : Graph β) (x : BlockRecord × Nat) : Prop :=
  ∃ e, g.slot? ⟨x.2⟩ = some e ∧ e.node.id = ⟨x.2⟩ ∧
    (∀ port, e.node.hasInput port =
      (Document.definition? registry x.1).all (port ∈ ·.ports.inputNames)) ∧
    ∀ port, e.node.hasOutput port =
      (Document.definition? registry x.1).all (port ∈ ·.ports.outputNames)

section

variable [Behaviour β] {registry : Registry β}

theorem Offers.of_unwired {x : BlockRecord × Nat} (ho : Offers registry g x)
    (hu : h.unwired = g.unwired) : Offers registry h x := by
  obtain ⟨e, he, hid, hin, hout⟩ := ho
  obtain ⟨e', he', -, hn⟩ := exists_slot?_of_unwired hu.symm he
  have hid' : e'.node.unwired.id = e.node.unwired.id := by rw [hn]
  have hinputs : e'.node.unwired.inputs = e.node.unwired.inputs := by rw [hn]
  have houtputs : e'.node.unwired.outputs = e.node.unwired.outputs := by rw [hn]
  change e'.node.inputs = e.node.inputs at hinputs
  change e'.node.outputs = e.node.outputs at houtputs
  refine ⟨e', he', hid'.trans hid, fun port => ?_, fun port => ?_⟩
  · rw [← hin, Node.hasInput, hinputs, Node.hasInput]
  · rw [← hout, Node.hasOutput, houtputs, Node.hasOutput]

variable {d : Document}

end

end Graph

end Patchbay
