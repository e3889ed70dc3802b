import Patchbay.Proofs.EdgeSets
import Patchbay.Proofs.Renaming

/-! What feeds a block can be asked of its node, of its inputs one after the other, and of the
arena, and can be counted by taking it away. In a wired graph all of these are one selection of the
arena's entries. -/

namespace Patchbay

/-- Whether the edge feeds this block, from the publisher and the output that are given. -/
def Edge.Supplies (edge : Edge) (id : BlockId) (publisher : Option BlockId)
    (output : Option String) : Prop :=
  edge.subscriber = id ∧ (∀ p ∈ publisher, p = edge.publisher) ∧ ∀ o ∈ output, o = edge.output

instance (edge : Edge) (id : BlockId) (publisher : Option BlockId) (output : Option String) :
    Decidable (edge.Supplies id publisher output) :=
  inferInstanceAs (Decidable (_ ∧ _))

/-- An edge feeds a block at one of its inputs, and there it is what a call for that input is meant
for. -/
theorem Edge.answers_iff_supplies {edge : Edge} {id : BlockId} {input : String}
    {publisher : Option BlockId} {output : Option String} :
    edge.Answers id input publisher output ↔
      edge.Supplies id publisher output ∧ edge.input = input := by
  unfold Supplies Answers
  tauto

/-- Whether the edge feeds this block so, at one of these inputs. -/
def Edge.suppliesAt (edge : Edge) (id : BlockId) (publisher : Option BlockId)
    (output : Option String) (inputs : List String) : Bool :=
  edge.Supplies id publisher output ∧ edge.input ∈ inputs

theorem Edge.suppliesAt_cons (edge : Edge) (id : BlockId) (publisher : Option BlockId)
    (output : Option String) (input : String) (rest : List String) :
    edge.suppliesAt id publisher output (input :: rest) =
      (decide (edge.Answers id input publisher output) ||
        edge.suppliesAt id publisher output rest) := by
  rw [Bool.eq_iff_iff]
  simp only [suppliesAt, Bool.or_eq_true, decide_eq_true_eq, answers_iff_supplies, List.mem_cons]
  tauto

namespace Graph

variable {β : Type} {g h : Graph β} {id : BlockId} {e : Entry β} {publisher : Option BlockId}
  {output : Option String}

/-- Unsubscribes one input after the other; answers how many subscriptions that were in total. -/
def unsubscribeAll (g : Graph β) (id : BlockId) (publisher : Option BlockId)
    (output : Option String) : List String → Reply β Nat
  | [] => .ok 0 g
  | input :: rest =>
    match g.unsubscribe id input publisher output with
    | .error e g => .error e g
    | .ok n g =>
      match g.unsubscribeAll id publisher output rest with
      | .error e g => .error e g
      | .ok m g => .ok (n + m) g

theorem Wired.input_declared (hw : g.Wired) (he : g.slot? id = some e) {s : SubscriptionId}
    {edge : Edge} (hm : (s, edge) ∈ g.arena.entries) (hsub : edge.subscriber = id) :
    edge.input ∈ e.node.inputs := by
  obtain ⟨e', he', hin⟩ := hw.exists_subscriber (hw.arena.get?_eq_some_iff.mpr hm)
  rw [hsub, he] at he'
  cases he'
  exact hin

/-! Asking -/

theorem Wired.isSubscriber_eq (hw : g.Wired) (he : g.slot? id = some e) (publisher : Option BlockId)
    (output : Option String) : g.isSubscriber id publisher output =
      .ok (g.arena.entries.any fun x => x.2.Supplies id publisher output) := by
  have hn : g.node id = .ok e.node := node_eq_ok_iff.mpr ⟨e, he, rfl⟩
  unfold isSubscriber
  rw [hn]
  refine congrArg Except.ok ?_
  rw [Bool.eq_iff_iff, List.any_eq_true, List.any_eq_true]
  have hdoomed := hw.doomed_eq he
  constructor
  · rintro ⟨input, -, hany⟩
    obtain ⟨s, hs, hm⟩ := List.any_eq_true.mp hany
    have hd := List.mem_filter.mpr ⟨hs, hm⟩
    rw [hdoomed, Arena.mem_select] at hd
    obtain ⟨edge, hentry, ha⟩ := hd
    exact ⟨(s, edge), hentry,
      decide_eq_true (Edge.answers_iff_supplies.mp (of_decide_eq_true ha)).1⟩
  · rintro ⟨⟨s, edge⟩, hentry, hsup⟩
    have hsup := of_decide_eq_true hsup
    have hd : s ∈ g.arena.select fun x => x.Answers id edge.input publisher output :=
      Arena.mem_select.mpr
        ⟨edge, hentry, decide_eq_true (Edge.answers_iff_supplies.mpr ⟨hsup, rfl⟩)⟩
    rw [← hdoomed] at hd
    obtain ⟨hs, hm⟩ := List.mem_filter.mp hd
    -- The input of an edge is declared, so going through the declared inputs misses none.
    exact ⟨edge.input, hw.input_declared he hentry hsup.1, List.any_eq_true.mpr ⟨s, hs, hm⟩⟩

theorem Wired.mem_roots_iff (hw : g.Wired) (he : g.slot? id = some e) :
    id ∈ g.roots ↔ e.node.isFed = false := by
  have hn : g.node id = .ok e.node := node_eq_ok_iff.mpr ⟨e, he, rfl⟩
  have ho : id ∈ g.order := (hw.mem_order_iff id).mpr (Option.isSome_iff_exists.mpr ⟨e, he⟩)
  simp [roots, ho, hn]

/-! Taking away -/

theorem Wired.exists_unsubscribe (hw : g.Wired) (he : g.slot? id = some e) {input : String}
    (hi : input ∈ e.node.inputs) (publisher : Option BlockId) (output : Option String) :
    ∃ n h, g.unsubscribe id input publisher output = .ok n h ∧ h.Wired ∧
      ∃ e', h.slot? id = some e' ∧ e'.node.inputs = e.node.inputs := by
  have hn : g.node id = .ok e.node := node_eq_ok_iff.mpr ⟨e, he, rfl⟩
  have hc : e.node.checkInput input = .ok () := if_pos (List.contains_iff_mem.mpr hi)
  let doomed := (e.node.subscriptions.list input).filter (g.subscriptionMatches publisher output)
  obtain ⟨e', he', -, hnode⟩ :=
    exists_slot?_of_unwired (unwired_removeSubscriptions g doomed).symm he
  have hinputs : e'.node.unwired.inputs = e.node.unwired.inputs := by rw [hnode]
  refine ⟨doomed.length, g.removeSubscriptions doomed, ?_, (hw.removeSubscriptions doomed).1,
    e', he', hinputs⟩
  rw [unsubscribe, hn]
  dsimp only
  rw [hc]

theorem length_filter_of_or {α : Type} (l : List α) {p q r : α → Bool}
    (hr : ∀ x, r x = (p x || q x)) :
    (l.filter p).length + ((l.filter fun x => !p x).filter q).length = (l.filter r).length := by
  induction l with
  | nil => rfl
  | cons x l ih =>
    cases hp : p x <;> cases hq : q x <;> simp [hp, hq, hr] at * <;> omega

/-- After some inputs, what is left is what is not meant or feeds another input. -/
theorem Wired.unsubscribeAll_eq (hw : g.Wired) (he : g.slot? id = some e)
    (publisher : Option BlockId) (output : Option String) {inputs : List String}
    (hi : ∀ input ∈ inputs, input ∈ e.node.inputs) :
    ∃ h, g.unsubscribeAll id publisher output inputs =
        .ok (g.arena.entries.filter fun x => x.2.suppliesAt id publisher output inputs).length h ∧
      h.Wired ∧ h.contains id ∧
      g.Rewires h (g.arena.entries.filter fun x => !x.2.suppliesAt id publisher output inputs) := by
  induction inputs generalizing g e with
  | nil =>
    exact ⟨g, by simp [unsubscribeAll, Edge.suppliesAt], hw, by simp [contains, he],
      hw.rewires (by simp [Edge.suppliesAt]) rfl⟩
  | cons input rest ih =>
    -- Each call leaves a wired graph where the block is with the inputs that it declares.
    obtain ⟨n, k, hu, hwk, e', he', hinputs⟩ :=
      hw.exists_unsubscribe he (hi input List.mem_cons_self) publisher output
    obtain ⟨rfl, hk⟩ := hw.unsubscribe_eq hu
    obtain ⟨h, hall, hwh, hl, hh⟩ :=
      ih hwk he' fun i hm => hinputs ▸ hi i (List.mem_cons_of_mem _ hm)
    have hentries : k.arena.entries =
        g.arena.entries.filter fun x => !decide (x.2.Answers id input publisher output) := by
      rw [hk.entries]
      exact List.filter_congr fun x _ => by simp
    refine ⟨h, ?_, hwh, hl, hwh.rewires ?_ (hh.unwired.trans hk.unwired)⟩
    · rw [unsubscribeAll, hu]
      dsimp only
      rw [hall]
      dsimp only
      rw [hentries, length_filter_of_or _ fun x => x.2.suppliesAt_cons ..]
    · rw [hh.entries, hentries, List.filter_filter]
      refine List.filter_congr fun x _ => ?_
      rw [Edge.suppliesAt_cons, Bool.not_or, Bool.and_comm]

theorem Wired.unsubscribe_inputs (hw : g.Wired) (he : g.slot? id = some e)
    (publisher : Option BlockId) (output : Option String) {inputs : List String}
    (hi : ∀ input, input ∈ inputs ↔ input ∈ e.node.inputs) :
    ∃ h, g.unsubscribeAll id publisher output inputs =
        .ok (g.arena.entries.filter fun x => x.2.Supplies id publisher output).length h ∧
      g.Rewires h (g.arena.entries.filter fun x => ¬x.2.Supplies id publisher output) ∧
      h.isSubscriber id publisher output = .ok false := by
  obtain ⟨h, hall, hwh, hl, hh⟩ :=
    hw.unsubscribeAll_eq he publisher output fun input hm => (hi input).mp hm
  have hmeant : ∀ x ∈ g.arena.entries, x.2.suppliesAt id publisher output inputs =
      decide (x.2.Supplies id publisher output) := fun x hm =>
    decide_eq_decide.mpr ⟨And.left, fun hsup => ⟨hsup, (hi _).mpr (hw.input_declared he hm hsup.1)⟩⟩
  have hleft : h.arena.entries =
      g.arena.entries.filter fun x => ¬x.2.Supplies id publisher output :=
    hh.entries.trans (List.filter_congr fun x hx => by simp [hmeant x hx])
  obtain ⟨e', he'⟩ := Option.isSome_iff_exists.mp hl
  refine ⟨h, ?_, hwh.rewires hleft hh.unwired, ?_⟩
  · rw [hall]
    congr 2
    exact List.filter_congr hmeant
  · rw [hwh.isSubscriber_eq he', hleft]
    refine congrArg Except.ok (List.any_eq_false.mpr fun x hx => ?_)
    simpa using (List.mem_filter.mp hx).2

variable [Behaviour β]

/-- All ways to ask whether a block is fed agree with the arena: going through its inputs, with a
publisher and an output or without, looking at its node, as a run does to find where to start, and
unsubscribing every input, in whatever order, which takes away what is meant, no less and no
more. -/
theorem Reachable.fed_exactly (hr : g.Reachable) {n : Node} (hn : g.node id = .ok n)
    (publisher : Option BlockId) (output : Option String) :
    (∃ fed, g.isSubscriber id publisher output = .ok fed ∧
      (fed = true ↔ ∃ s edge, g.arena.get? s = some edge ∧ edge.Supplies id publisher output)) ∧
    g.isSubscriber id none none = .ok n.isFed ∧
    (id ∈ g.roots ↔ n.isFed = false) ∧
    ∀ inputs, (∀ input, input ∈ inputs ↔ input ∈ n.inputs) → ∃ h,
      g.unsubscribeAll id publisher output inputs =
        .ok (g.arena.entries.filter fun x => x.2.Supplies id publisher output).length h ∧
      g.Rewires h (g.arena.entries.filter fun x => ¬x.2.Supplies id publisher output) ∧
      h.isSubscriber id publisher output = .ok false := by
  have hw := hr.ready.wired
  obtain ⟨e, he, rfl⟩ := node_eq_ok_iff.mp hn
  refine ⟨⟨_, hw.isSubscriber_eq he publisher output, ?_⟩, ?_, hw.mem_roots_iff he,
    fun inputs hi => hw.unsubscribe_inputs he publisher output hi⟩
  · rw [List.any_eq_true]
    constructor
    · rintro ⟨⟨s, edge⟩, hm, hsup⟩
      exact ⟨s, edge, hw.arena.get?_eq_some_iff.mpr hm, of_decide_eq_true hsup⟩
    · rintro ⟨s, edge, hs, hsup⟩
      exact ⟨(s, edge), hw.arena.get?_eq_some_iff.mp hs, decide_eq_true hsup⟩
  · rw [hw.isSubscriber_eq he, hw.isFed_eq he]
    simp [Edge.Supplies]

/-- A source feeds both inputs of a comparison, which is fed by itself and by another block too. -/
def fedTwice : List (Operation Builtin) :=
  [.add (.source (.bool true)), .add .compare, .add .forward,
    .subscribe ⟨1⟩ Builtin.valuesInput ⟨0⟩ Builtin.dataName,
    .subscribe ⟨1⟩ Builtin.valuesInput ⟨1⟩ Builtin.equalOutput,
    .subscribe ⟨1⟩ Builtin.compareInput ⟨0⟩ Builtin.dataName,
    .subscribe ⟨1⟩ Builtin.compareInput ⟨2⟩ defaultOutput]

theorem fed_exactly_in_fedTwice : ∃ g : Graph Builtin,
    performAll 1 fedTwice (.new .standard) = some g ∧
    g.isSubscriber ⟨1⟩ (some ⟨0⟩) none = .ok true ∧ ⟨1⟩ ∉ g.roots ∧
    ∃ h, g.unsubscribeAll ⟨1⟩ (some ⟨0⟩) none [Builtin.compareInput, Builtin.valuesInput] =
        .ok 2 h ∧
      h.isSubscriber ⟨1⟩ (some ⟨0⟩) none = .ok false := by
  have hdec : (performAll 1 fedTwice (.new .standard)).any (fun g =>
      (g.slot? ⟨1⟩).any (fun e => e.node.inputs = [Builtin.valuesInput, Builtin.compareInput] ∧
        e.node.isFed = true) ∧
      g.arena.entries.any (fun x => x.2.Supplies ⟨1⟩ (some ⟨0⟩) none) = true ∧
      (g.arena.entries.filter fun x => x.2.Supplies ⟨1⟩ (some ⟨0⟩) none).length = 2) = true := by
    decide +kernel
  obtain ⟨g, hg, hp⟩ := (Option.any_eq_true _ _).mp hdec
  obtain ⟨hslot, hany, hcount⟩ := of_decide_eq_true hp
  obtain ⟨e, he, hq⟩ := (Option.any_eq_true _ _).mp hslot
  obtain ⟨hinputs, hfed⟩ := of_decide_eq_true hq
  have hr : g.Reachable := Reachable.performAll (.new _) hg
  obtain ⟨⟨fed, hask, hiff⟩, -, hroot, htake⟩ :=
    Reachable.fed_exactly hr (node_eq_ok_iff.mpr ⟨e, he, rfl⟩) (some ⟨0⟩) none
  obtain ⟨h, hall, -, hgone⟩ := htake [Builtin.compareInput, Builtin.valuesInput] fun input => by
    rw [hinputs]
    simp [or_comm]
  rw [hcount] at hall
  refine ⟨g, hg, ?_, fun hm => ?_, h, hall, hgone⟩
  · obtain ⟨⟨s, edge⟩, hm, hsup⟩ := List.any_eq_true.mp hany
    rw [hask,
      hiff.mpr ⟨s, edge, hr.ready.wired.arena.get?_eq_some_iff.mpr hm, of_decide_eq_true hsup⟩]
  · rw [hroot, hfed] at hm
    cases hm

end Graph

end Patchbay
