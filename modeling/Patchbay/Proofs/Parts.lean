import Patchbay.Proofs.Discretion
import Patchbay.Proofs.Logbook
import Patchbay.Proofs.Renaming

/-! The part of a graph that some of its blocks make, where whatever feeds one of them is one of
them too. A built-in block cannot tell the part from the whole. -/

namespace Patchbay

theorem Node.ports_of_unwired {n n' : Node} (h : n'.unwired = n.unwired) :
    n'.id = n.id ∧ n'.inputs = n.inputs ∧ n'.outputs = n.outputs := by
  have hid := congrArg Node.id h
  have hin := congrArg Node.inputs h
  have hout := congrArg Node.outputs h
  exact ⟨hid, hin, hout⟩

namespace Graph

variable {β : Type} {S : BlockId → Bool} {g g' h h' : Graph β} {id a b : BlockId}

/-- Whether whatever feeds a block that satisfies `S` satisfies it too. -/
def Ancestral (g : Graph β) (S : BlockId → Bool) : Prop := ∀ a b, g.Feeds a b → S b → S a

theorem Ancestral.outside (hc : g.Ancestral S) (hf : g.Feeds a b) (ha : S a = false) :
    S b = false := by
  refine Bool.eq_false_iff.mpr fun hb => ?_
  rw [hc a b hf hb] at ha
  cases ha

theorem ne_of_outside (ha : S a) (hb : S b = false) : a ≠ b := by
  rintro rfl
  rw [ha] at hb
  cases hb

theorem receivers_queue_outside (g : Graph β) (hid : S id = false) :
    (g.queue id).receivers.filter S = g.receivers.filter S := by
  rw [queue_eq]
  by_cases hm : id ∈ g.receivers <;> simp [hm, hid, List.filter_append]

/-- Whether the blocks of `h` are those of `g` that satisfy `S`, with what waits in their buffers
and queues; only what they are subscribed to, and the history, may differ. -/
structure Part (S : BlockId → Bool) (g h : Graph β) : Prop where
  source : g.Wired
  target : h.Wired
  order : h.order = g.order.filter S
  edges : ∀ id port, h.arena.edgesFrom id port =
    (g.arena.edgesFrom id port).filter (S ·.subscriber)
  closed : g.Ancestral S
  observers : h.observers = g.observers
  entries : ∀ id, S id → h.unwired.slot? id = g.unwired.slot? id
  processing : h.processing = g.processing.filter S
  receivers : h.receivers = g.receivers.filter S

theorem slot?_unwired_updateNode (g : Graph β) (id j : BlockId) {f : Node → Node}
    (hf : ∀ n, (f n).unwired = f n.unwired) : (g.updateNode id f).unwired.slot? j =
      if j = id then (g.unwired.slot? j).map fun e => { e with node := f e.node }
      else g.unwired.slot? j := by
  simp only [slot?_unwired, slot?_updateNode]
  split
  · simp [Option.map_map, Function.comp_def, hf]
  · rfl

theorem slot?_unwired_setBehaviour (g : Graph β) (id j : BlockId) (c : Option β) :
    (g.setBehaviour id c).unwired.slot? j =
      if j = id then (g.unwired.slot? j).map fun e => { e with behaviour := c }
      else g.unwired.slot? j := by
  simp only [slot?_unwired, slot?_setBehaviour]
  split
  · simp [Option.map_map, Function.comp_def]
  · rfl

theorem slot?_unwired_clearBuffers (g : Graph β) (j : BlockId) :
    g.clearBuffers.unwired.slot? j =
      (g.unwired.slot? j).map fun e => { e with node := e.node.clearBuffers } := by
  rw [slot?_unwired, slot?_unwired, slot?_clearBuffers, Option.map_map, Option.map_map]
  rfl

namespace Part

theorem step (hp : Part S g h) (hl : g'.layout = g.layout) (hl' : h'.layout = h.layout)
    (entries : ∀ id, S id → h'.unwired.slot? id = g'.unwired.slot? id)
    (processing : h'.processing = g'.processing.filter S)
    (receivers : h'.receivers = g'.receivers.filter S) : Part S g' h' where
  source := hp.source.of_layout hl
  target := hp.target.of_layout hl'
  order := by rw [order_congr hl, order_congr hl', hp.order]
  edges id port := by rw [arena_congr hl, arena_congr hl', hp.edges]
  closed a b hf := hp.closed a b (by rwa [feeds_congr hl] at hf)
  observers := by rw [observers_congr hl, observers_congr hl', hp.observers]
  entries := entries
  processing := processing
  receivers := receivers

section

variable (hp : Part S g h)

include hp

/-! One block -/

theorem slot_cases (hid : S id) : (g.slot? id = none ∧ h.slot? id = none) ∨
    ∃ e e', g.slot? id = some e ∧ h.slot? id = some e' ∧ e'.behaviour = e.behaviour ∧
      e'.node.unwired = e.node.unwired := by
  have hs := hp.entries id hid
  rw [slot?_unwired, slot?_unwired] at hs
  cases he : g.slot? id with
  | none =>
    rw [he] at hs
    exact Or.inl ⟨rfl, Option.map_eq_none_iff.mp hs⟩
  | some e =>
    rw [he] at hs
    obtain ⟨e', he', heq⟩ := Option.map_eq_some_iff.mp hs
    obtain ⟨hb, hn⟩ := Entry.mk.inj heq
    exact Or.inr ⟨e, e', rfl, he', hb, hn⟩

theorem behaviour? (hid : S id) : h.behaviour? id = g.behaviour? id := by
  rcases hp.slot_cases hid with ⟨he, he'⟩ | ⟨e, e', he, he', hb, -⟩
  · simp [Graph.behaviour?, he, he']
  · rw [behaviour?_of_slot? he, behaviour?_of_slot? he', hb]

theorem buffer (hid : S id) (port : String) : h.buffer id port = g.buffer id port := by
  rcases hp.slot_cases hid with ⟨he, he'⟩ | ⟨e, e', he, he', -, hn⟩
  · simp [Graph.buffer, he, he']
  · have hb : e'.node.unwired.buffers = e.node.unwired.buffers := congrArg Node.buffers hn
    change e'.node.buffers = e.node.buffers at hb
    rw [buffer_of_slot? he, buffer_of_slot? he', hb]

theorem node_map (hid : S id) :
    (h.node id).map Node.unwired = (g.node id).map Node.unwired := by
  rcases hp.slot_cases hid with ⟨he, he'⟩ | ⟨e, e', he, he', -, hn⟩
  · simp [Graph.node, he, he']
  · simp [Graph.node, he, he', Except.map, hn]

/-! Paths -/

theorem feeds_iff : h.Feeds a b ↔ g.Feeds a b ∧ S b := by
  simp only [hp.target.feeds_iff, hp.source.feeds_iff, hp.edges, List.mem_filter]
  constructor
  · rintro ⟨output, edge, ⟨hm, hS⟩, rfl⟩
    exact ⟨⟨output, edge, hm, rfl⟩, hS⟩
  · rintro ⟨⟨output, edge, hm, rfl⟩, hS⟩
    exact ⟨output, edge, ⟨hm, hS⟩, rfl⟩

theorem of_leadsTo (hl : g.LeadsTo a b) (hb : S b) : S a := by
  induction hl using Relation.TransGen.head_induction_on with
  | single hf => exact hp.closed _ _ hf hb
  | head hf _ ih => exact hp.closed _ _ hf ih

theorem leadsTo_iff (hb : S b) : h.LeadsTo a b ↔ g.LeadsTo a b := by
  constructor
  · intro hl
    exact Relation.TransGen.mono (fun x y hf => (hp.feeds_iff.mp hf).1) _ _ hl
  · intro hl
    induction hl using Relation.TransGen.head_induction_on with
    | single hf => exact .single (hp.feeds_iff.mpr ⟨hf, hb⟩)
    | head hf hrest ih => exact .head (hp.feeds_iff.mpr ⟨hf, hp.of_leadsTo hrest hb⟩) ih

theorem incoming (hid : S id) : h.incoming id = g.incoming id := by
  rw [Graph.incoming, Graph.incoming, hp.processing, List.filter_filter]
  refine List.filter_congr fun x _ => ?_
  have hiff : h.reaches x id = true ↔ g.reaches x id = true := by
    rw [hp.target.reaches_iff, hp.source.reaches_iff, hp.leadsTo_iff hid]
  -- Whatever leads to a block of the part is of the part, so the selection drops none of it.
  have hin : g.reaches x id = true → S x = true :=
    fun hr => hp.of_leadsTo (hp.source.reaches_iff.mp hr) hid
  rw [Bool.eq_iff_iff]
  simp only [Bool.and_eq_true, hiff]
  constructor
  · exact fun hx => hx.1
  · exact fun hx => ⟨hx, hin hx.2⟩

theorem agrees (hid : S id) (waiting : Bool) :
    View.Agrees ⟨g, id, waiting⟩ ⟨h, id, waiting⟩ where
  block := rfl
  node := (hp.node_map hid).symm
  incoming := (hp.incoming hid).symm

theorem roots : h.roots = g.roots.filter S := by
  rw [Graph.roots, Graph.roots, hp.order, List.filter_filter, List.filter_filter]
  refine List.filter_congr fun x _ => ?_
  rw [Bool.and_comm]
  by_cases hx : S x = true
  · rcases hp.slot_cases hx with ⟨he, he'⟩ | ⟨e, e', he, he', -, -⟩
    · simp [Graph.node, he, he']
    · have hfed : e'.node.isFed = e.node.isFed := by
        rw [Bool.eq_iff_iff, hp.target.isFed_iff he', hp.source.isFed_iff he]
        simp [hp.feeds_iff, hx]
      simp [Graph.node, he, he', hfed]
  · simp [hx]

/-! Steps of both graphs -/

theorem updateNode (id : BlockId) {f : Node → Node} (hl : ∀ n, (f n).outline = n.outline)
    (hf : ∀ n, (f n).unwired = f n.unwired) :
    Part S (g.updateNode id f) (h.updateNode id f) := by
  refine hp.step (layout_updateNode g id hl) (layout_updateNode h id hl) (fun j hj => ?_)
    hp.processing hp.receivers
  rw [slot?_unwired_updateNode _ _ _ hf, slot?_unwired_updateNode _ _ _ hf, hp.entries j hj]

theorem setBehaviour (id : BlockId) (c : Option β) :
    Part S (g.setBehaviour id c) (h.setBehaviour id c) := by
  refine hp.step (layout_setBehaviour g id c) (layout_setBehaviour h id c) (fun j hj => ?_)
    hp.processing hp.receivers
  rw [slot?_unwired_setBehaviour, slot?_unwired_setBehaviour, hp.entries j hj]

theorem queue (hid : S id) : Part S (g.queue id) (h.queue id) := by
  rw [queue_eq, queue_eq]
  refine hp.step rfl rfl hp.entries hp.processing ?_
  by_cases hm : id ∈ g.receivers <;> simp [hp.receivers, hm, hid, List.filter_append]

theorem record (o o' : Occurrence) : Part S (g.record o) (h.record o') :=
  hp.step rfl rfl hp.entries hp.processing hp.receivers

theorem accept (v : Value) {edge : Edge} (hs : S edge.subscriber) :
    Part S (g.accept v edge) (h.accept v edge) :=
  ((hp.record _ _).queue hs).updateNode edge.subscriber (fun _ => rfl) fun _ => rfl

theorem settle (hid : S id) (waiting : Bool) :
    Part S (g.settle id waiting) (h.settle id waiting) := by
  cases waiting with
  | true => exact hp.queue hid
  | false => exact hp.updateNode id (fun _ => rfl) fun _ => rfl

theorem startRound (round round' : Nat) : Part S (g.startRound round) (h.startRound round') :=
  hp.step rfl rfl hp.entries hp.receivers rfl

theorem startRun : Part S g.startRun h.startRun := by
  refine hp.step (layout_startRun g) (layout_startRun h) (fun j hj => ?_) hp.processing hp.roots
  rw [Graph.startRun, Graph.startRun, slot?_unwired_clearBuffers, slot?_unwired_clearBuffers]
  exact congrArg (Option.map _) (hp.entries j hj)

/-! Steps of the whole alone -/

theorem aside (hl : g'.layout = g.layout) (hs : ∀ j, S j → g'.slot? j = g.slot? j)
    (hproc : g'.processing = g.processing) (hq : g'.receivers.filter S = g.receivers.filter S) :
    Part S g' h := by
  refine hp.step hl rfl (fun j hj => ?_) (by rw [hproc, hp.processing]) (by rw [hq, hp.receivers])
  rw [slot?_unwired g', hs j hj, ← slot?_unwired, hp.entries j hj]

end

end Part

end Graph

end Patchbay
