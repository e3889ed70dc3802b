import Patchbay.Proofs.Acceptance
import Patchbay.Proofs.Rebuilding
import Patchbay.Proofs.Transience
import Mathlib.Logic.Function.Basic

/-! Registered names and saved names. A registry creates blocks under any name that a caller chose,
a node has the name of its block's definition, and that name is what is saved. So a graph comes back
as it was made exactly if the saved names lead to the same blocks as the registered ones. -/

namespace Patchbay

def Operation.adds {β : Type} : Operation β → Bool
  | add _ => true
  | _ => false

namespace Registry

variable {β : Type}

@[simp] theorem create_empty (name : String) :
    (empty : Registry β).create name = .error (.unknownBlockType name) := rfl

@[simp] theorem create_register [Behaviour β] (r : Registry β) (name other : String) (b : β) :
    (r.register name b).create other = if other = name then .ok b else r.create other := by
  by_cases h : other = name <;> simp [create, register, Dict.find?_insert, h]

end Registry

namespace Graph

variable {β : Type} {g h k : Graph β}

/-! Definitions that fit -/

/-- Whether each node of `h` was one of `g` and fits all definitions that it fitted there. -/
def Continues (g h : Graph β) : Prop := ∀ id e, h.slot? id = some e → ∃ e', g.slot? id = some e' ∧
  ∀ d, e'.node.Fits d → e.node.Fits d

theorem Continues.refl (g : Graph β) : Continues g g := fun _ e he => ⟨e, he, fun _ hd => hd⟩

theorem Continues.trans (hgh : Continues g h) (hhk : Continues h k) : Continues g k := by
  intro id e he
  obtain ⟨e', he', hfits⟩ := hhk id e he
  obtain ⟨e'', he'', hfits'⟩ := hgh id e' he'
  exact ⟨e'', he'', fun d hd => hfits d (hfits' d hd)⟩

theorem Continues.of_unwired (hu : h.unwired = g.unwired) : Continues g h := by
  intro id e he
  obtain ⟨e', he', -, hn⟩ := exists_slot?_of_unwired hu he
  refine ⟨e', he', fun d hd => ?_⟩
  rwa [← Node.fits_unwired_iff, ← hn, Node.fits_unwired_iff]

theorem Continues.of_layout (hl : h.layout = g.layout) : Continues g h := by
  intro id e he
  have ho := outline_congr hl id
  rw [outline, outline, he] at ho
  obtain ⟨e', he', hn⟩ := Option.map_eq_some_iff.mp ho.symm
  dsimp only at hn
  refine ⟨e', he', fun d hd => ?_⟩
  rwa [← Node.fits_outline_iff, ← hn, Node.fits_outline_iff]

theorem continues_updateNode (g : Graph β) (id : BlockId) {f : Node → Node}
    (hf : ∀ e, g.slot? id = some e → ∀ d, e.node.Fits d → (f e.node).Fits d) :
    Continues g (g.updateNode id f) := by
  intro j e he
  rw [slot?_updateNode] at he
  split at he
  · next hj =>
    obtain ⟨e', he', rfl⟩ := Option.map_eq_some_iff.mp he
    exact ⟨e', he', hf e' (hj ▸ he')⟩
  · exact ⟨e, he, fun _ hd => hd⟩

theorem continues_setParameter (g : Graph β) (id : BlockId) (name : String) (v : Value) :
    Continues g (g.setParameter id name v).graph := by
  cases hs : g.slot? id with
  | none => simpa [setParameter, editNode, node, hs, bind, Except.bind] using Continues.refl g
  | some e =>
    cases hm : e.node.setParameter name v with
    | error err =>
      simpa [setParameter, editNode, node, hs, bind, Except.bind, hm, Except.map]
        using Continues.refl g
    | ok m =>
      have hedit := editNode_eq_ok hs (f := fun n => (n.setParameter name v).map ((), ·))
        (fun _ => m) (a := ()) (by simp [hm, Except.map])
      have hgraph : (g.setParameter id name v).graph = g.updateNode id fun _ => m :=
        congrArg Reply.graph hedit
      rw [hgraph]
      refine continues_updateNode g id fun e' he' d hd => ?_
      obtain rfl : e = e' := Option.some.inj (hs.symm.trans he')
      exact hd.setParameter hm

theorem continues_remove (g : Graph β) (id : BlockId) : Continues g (g.remove id).graph := by
  cases hx : g.slot? id with
  | none => simpa [remove_eq_unknown hx] using Continues.refl g
  | some e =>
    have hrest := Continues.of_unwired (unwired_removeSubscriptions g e.node.edges)
    have hvacate : Continues (g.removeSubscriptions e.node.edges)
        ((g.removeSubscriptions e.node.edges).vacate id) := by
      intro j e' he
      rw [slot?_vacate] at he
      split at he
      · cases he
      · exact ⟨e', he, fun _ hd => hd⟩
    rw [graph_remove hx]
    exact hrest.trans hvacate

theorem continues_unsubscribe (g : Graph β) (id : BlockId) (input : String)
    (publisher : Option BlockId) (output : Option String) :
    Continues g (g.unsubscribe id input publisher output).graph := by
  unfold Graph.unsubscribe
  split
  · exact .refl g
  · split
    · exact .refl g
    · exact .of_unwired (unwired_removeSubscriptions g _)

variable [Behaviour β]

theorem Ready.continues (hg : g.Ready) {fuel : Nat} {op : Operation β} (ha : op.adds = false)
    (hp : g.perform fuel op = some h) : Continues g h := by
  by_cases ht : op.transient = true
  · exact .of_layout (hg.layout_perform ht hp)
  · cases op with
    | add => cases ha
    | remove id => cases hp; exact continues_remove g id
    | subscribe subscriber input publisher output =>
      cases hp
      exact .of_unwired (unwired_subscribe g subscriber input publisher output)
    | publish publisher output subscriber input =>
      cases hp
      exact .of_unwired (unwired_subscribe g subscriber input publisher output)
    | unsubscribe id input publisher output =>
      cases hp
      exact continues_unsubscribe g id input publisher output
    | removeSubscription s => cases hp; exact .of_unwired (unwired_removeSubscription g s)
    | setParameter id name v => cases hp; exact continues_setParameter g id name v
    | annotateBlock id metadata =>
      cases hp
      exact continues_updateNode g id fun e he d hd => ⟨hd.1, hd.2, hd.3, hd.4⟩
    | annotate | configure | observe => cases hp; exact .refl g
    | _ => exact absurd rfl ht

/-! Graphs made by a registry -/

variable {registry : Registry β} {tags : BlockId → String}

/-- The graphs that come of creating blocks under registered names and doing anything else to the
graph; `tags` has the name that each block was created under. -/
inductive Made (registry : Registry β) : Graph β → (BlockId → String) → Prop
  | new (settings : RunSettings) (tags : BlockId → String) : Made registry (.new settings) tags
  | create {g : Graph β} {tags : BlockId → String} {tag : String} {b : β} : Made registry g tags →
    registry.create tag = .ok b →
    Made registry (g.add b).2 (Function.update tags (g.add b).1 tag)
  | perform {g h : Graph β} {tags : BlockId → String} {fuel : Nat} {op : Operation β} :
    Made registry g tags → op.adds = false → g.perform fuel op = some h → Made registry h tags

theorem Made.reachable (hm : Made registry g tags) : g.Reachable := by
  induction hm with
  | new settings => exact .new settings
  | @create g _ _ b _ _ ih =>
    have hadd : g.perform 0 (.add b) = some (g.add b).2 := rfl
    exact ih.perform hadd
  | perform _ _ hp ih => exact ih.perform hp

/-- Each node fits the definition of the block that its tag leads to. -/
theorem Made.exists_fit (hm : Made registry g tags) {id : BlockId} {e : Entry β}
    (he : g.slot? id = some e) :
    ∃ b, registry.create (tags id) = .ok b ∧ e.node.Fits (Behaviour.definition b) := by
  induction hm generalizing e with
  | new settings => simp [slot?, Graph.new] at he
  | @create g tags tag b _ hb ih =>
    rw [slot?_add] at he
    by_cases hid : id = (g.add b).1
    · rw [if_pos hid] at he
      cases he
      exact ⟨b, by rwa [hid, Function.update_self], Node.fits_ofDefinition id _⟩
    · rw [if_neg hid] at he
      rw [Function.update_of_ne hid]
      exact ih he
  | perform hm ha hp ih =>
    obtain ⟨e', he', hfits⟩ := hm.reachable.ready.continues ha hp id e he
    obtain ⟨b, hb, hd⟩ := ih he'
    exact ⟨b, hb, hfits _ hd⟩

/-- Whether `h` has the blocks of `g` at their places, each created under the same tag. -/
structure Restores (registry : Registry β) (tags : BlockId → String) (g h : Graph β) : Prop where
  order : h.order = g.order.map g.place
  block : ∀ id : BlockId, g.contains id → ∃ b : β, registry.create (tags id) = .ok b ∧
    h.behaviour? (g.place id) = some b

/-- What is loaded is created for the name of the definition, whatever name the block was created
under. -/
theorem Made.behaviour?_place (hm : Made registry g tags)
    (ho : ofDocument registry g.toDocument = .ok () h) {id : BlockId} (hl : g.contains id) :
    ∃ b c, registry.create (tags id) = .ok b ∧
      registry.create (Behaviour.definition b).name = .ok c ∧
      h.behaviour? (g.place id) = some c := by
  obtain ⟨e, he⟩ := Option.isSome_iff_exists.mp hl
  obtain ⟨b, hb, hfits⟩ := hm.exists_fit he
  have hw : g.Wired := hm.reachable.ready.wired
  obtain ⟨c, e', hc, he', hce, -⟩ := (rebuilt_of_ofDocument ho).block _ _ (hw.block_place he)
  have hname : (g.blockRecord e.node (g.place id).index).typeName = (Behaviour.definition b).name :=
    hfits.typeName
  exact ⟨b, c, hb, hname ▸ hc, (behaviour?_of_slot? he').trans hce⟩

theorem Made.provides (hm : Made registry g tags) (hn : ∀ id b, g.contains id →
    registry.create (tags id) = .ok b → registry.create (Behaviour.definition b).name = .ok b) :
    Provides registry g := by
  intro id n hnode
  obtain ⟨e, he, rfl⟩ := node_eq_ok_iff.mp hnode
  obtain ⟨b, hb, hfits⟩ := hm.exists_fit he
  have hagain := hn id b (by simp [contains, he]) hb
  exact ⟨b, hfits.typeName ▸ hagain, hfits⟩

/-- Saving and loading restores the blocks of a graph exactly if the name of each one's definition
leads to the block that its tag leads to. -/
theorem Made.restored_iff (hm : Made registry g tags) :
    (∃ h, ofDocument registry g.toDocument = .ok () h ∧ Restores registry tags g h) ↔
      ∀ id b, g.contains id → registry.create (tags id) = .ok b →
        registry.create (Behaviour.definition b).name = .ok b := by
  constructor
  · rintro ⟨h, ho, hrestores⟩ id b hl hb
    obtain ⟨b', hb', hplace'⟩ := hrestores.block id hl
    obtain ⟨b'', c, hb'', hc, hplace⟩ := hm.behaviour?_place ho hl
    obtain rfl : b = b' := Except.ok.inj (hb.symm.trans hb')
    obtain rfl : b = b'' := Except.ok.inj (hb.symm.trans hb'')
    obtain rfl : b = c := Option.some.inj (hplace'.symm.trans hplace)
    exact hc
  · intro hn
    have hw : g.Wired := hm.reachable.ready.wired
    obtain ⟨h, ho, hr⟩ := ofDocument_eq_ok (hw.accepted (hm.provides hn))
    refine ⟨h, ho, hr.order_eq hw, fun id hl => ?_⟩
    obtain ⟨b, c, hb, hc, hplace⟩ := hm.behaviour?_place ho hl
    obtain rfl : b = c := Except.ok.inj ((hn id b hl hb).symm.trans hc)
    exact ⟨b, hb, hplace⟩

/-- Whoever asks for a total gets a sum, and whoever asks for a screen gets an alert. -/
def aliases : Registry Builtin :=
  (((Registry.empty.register "Total" .sum).register "Add" .sum).register "Screen"
    (.alert .console)).register "Data" (.source (.bool true))

/-- The name of the sum's definition is registered too, for the same block. -/
theorem restored_of_total : ∃ (g h : Graph Builtin) (tags : BlockId → String),
    Made aliases g tags ∧ tags ⟨1⟩ = "Total" ∧ g.arena.edges.length = 1 ∧
    ofDocument aliases g.toDocument = .ok () h ∧ Restores aliases tags g h := by
  let pair : Graph Builtin := (((Graph.new .standard).add (.source (.bool true))).2.add .sum).2
  let tags : BlockId → String :=
    Function.update (Function.update (fun _ => "Total") ⟨0⟩ "Data") ⟨1⟩ "Total"
  have hpair : Made aliases pair tags :=
    .create (.create (.new .standard fun _ => "Total") (by simp [aliases])) (by simp [aliases])
  have hjoin : pair.perform 0 (.subscribe ⟨1⟩ Builtin.valuesInput ⟨0⟩ Builtin.dataName) =
      some (pair.subscribe ⟨1⟩ Builtin.valuesInput ⟨0⟩ Builtin.dataName).graph := rfl
  have hm := hpair.perform rfl hjoin
  have hn : ∀ id b, aliases.create (tags id) = .ok b →
      aliases.create (Behaviour.definition b).name = .ok b := by
    intro id b hb
    have htag : tags id = "Data" ∨ tags id = "Total" := by
      by_cases hone : id = ⟨1⟩
      · simp [tags, hone]
      · by_cases hzero : id = ⟨0⟩ <;> simp [tags, hone, hzero]
    rcases htag with htag | htag <;> rw [htag] at hb <;> simp [aliases] at hb <;> subst hb <;>
      simp [aliases, Behaviour.definition, Builtin.definition]
  obtain ⟨h, ho, hr⟩ := hm.restored_iff.mpr fun id b _ => hn id b
  exact ⟨_, h, tags, hm, by simp [tags], by decide +kernel, ho, hr⟩

/-- The name of the alert's definition is not registered, so the graph that was saved cannot be
loaded. -/
theorem screen_not_restored : ∃ (g : Graph Builtin) (tags : BlockId → String), Made aliases g tags ∧
    (ofDocument aliases g.toDocument).result = .error (.unknownBlockType "Alert") := by
  have hcreate : aliases.create "Screen" = .ok (.alert .console) := by simp [aliases]
  have hm : Made aliases ((Graph.new .standard).add (.alert .console)).2 _ :=
    .create (.new .standard fun _ => "") hcreate
  exact ⟨_, _, hm, rfl⟩

end Graph

end Patchbay
