import Patchbay.Proofs.Coherence
import Patchbay.Proofs.Emissions
import Patchbay.Proofs.Interior

/-! Where a value goes that a block emits. Every edge that leaves the output delivers it once, in
the order of subscribing, whether blocks are fed at several inputs, feed themselves or are queued
already. -/

namespace Patchbay

/-- Each observer with what it is told, in the order of registration. -/
def Occurrence.tellings : Occurrence → List (Observer × Activity)
  | observed observers activity => observers.map fun o => (o, activity)
  | _ => []

/-- An output, and then an input at the end of each edge. -/
def announcements (id : BlockId) (port : String) (v : Value) (edges : List Edge) : List Activity :=
  .emitted id port v :: edges.map fun edge => .received edge.subscriber edge v

namespace Graph

variable {β : Type} {g h k : Graph β} {id : BlockId} {port : String}

/-- All that observers were told, in the order of telling. -/
def told (g : Graph β) : List (Observer × Activity) := g.history.reverse.flatMap Occurrence.tellings

/-- Whether all that happened between two graphs is that `v` went from an output along these
edges. -/
structure Spreads (id : BlockId) (port : String) (v : Value) (edges : List Edge) (g h : Graph β) :
    Prop where
  told : h.told = g.told ++
    (announcements id port v edges).flatMap fun activity => g.observers.map fun o => (o, activity)
  history : h.history =
    ((announcements id port v edges).map (.observed g.observers)).reverse ++ g.history
  /-- Two edges may end at one block, but not at one input. -/
  ends : (edges.map fun edge => (edge.subscriber, edge.input)).Nodup
  buffer : ∀ j input, (h.buffer j input).reverse = (g.buffer j input).reverse ++
    (edges.filter fun edge => edge.subscriber = j ∧ edge.input = input).map fun _ => v
  receivers : h.receivers =
    g.receivers ++ ((edges.map Edge.subscriber).filter (· ∉ g.receivers)).eraseDups
  processing : h.processing = g.processing
  behaviour : ∀ j, h.behaviour? j = g.behaviour? j
  vars : h.vars = g.vars
  layout : h.layout = g.layout

/-! The parts -/

theorem told_of_history {activities : List Activity}
    (hh : h.history = (activities.map (.observed g.observers)).reverse ++ g.history) :
    h.told = g.told ++ activities.flatMap fun activity =>
      g.observers.map fun o => (o, activity) := by
  rw [told, told, hh, List.reverse_append, List.reverse_reverse, List.flatMap_append,
    List.flatMap_map]
  rfl

theorem tidings_eq_announcements (g : Graph β) (id : BlockId) (port : String) (v : Value) :
    g.tidings id [(port, v)] =
      (announcements id port v (g.arena.edgesFrom id port)).map (.observed g.observers) := by
  simp [tidings, announcements, Function.comp_def]

/-- A block that is queued already, before or on the way, is not queued again. -/
theorem receivers_foldl_accept (g : Graph β) (v : Value) (l : List Edge) :
    (l.foldl (·.accept v ·) g).receivers =
      g.receivers ++ ((l.map Edge.subscriber).filter (· ∉ g.receivers)).eraseDups := by
  induction l generalizing g with
  | nil => simp
  | cons edge rest ih =>
    have haccept : (g.accept v edge).receivers = if edge.subscriber ∈ g.receivers then g.receivers
        else g.receivers ++ [edge.subscriber] := by
      rw [receivers_accept, queue_eq]
    rw [List.foldl_cons, ih, haccept, List.map_cons]
    by_cases hm : edge.subscriber ∈ g.receivers
    · rw [if_pos hm, List.filter_cons_of_neg (by simpa using hm)]
    · rw [if_neg hm, List.filter_cons_of_pos (by simpa using hm), List.eraseDups_cons,
        List.append_assoc, List.filter_filter]
      have hrest : ((rest.map Edge.subscriber).filter (· ∉ g.receivers ++ [edge.subscriber])) =
          (rest.map Edge.subscriber).filter fun j =>
            !(j == edge.subscriber) && decide (j ∉ g.receivers) :=
        List.filter_congr fun j _ => by rw [Bool.eq_iff_iff]; simp [and_comm]
      rw [hrest]
      rfl

theorem Wired.nodup_ends (hw : g.Wired) (id : BlockId) (port : String) :
    ((g.arena.edgesFrom id port).map fun edge => (edge.subscriber, edge.input)).Nodup := by
  refine (hw.arena.nodup_edgesFrom id port).map_on fun x hx y hy heq => ?_
  obtain ⟨hxp, hxo, -⟩ := Arena.mem_edgesFrom.mp hx
  obtain ⟨hyp, hyo, -⟩ := Arena.mem_edgesFrom.mp hy
  obtain ⟨hs, hi⟩ := Prod.mk.inj heq
  cases x
  cases y
  simp_all

/-- Every input gets a copy for each edge that ends there. -/
theorem Wired.reverse_buffer_broadcast (hw : g.Wired) (id : BlockId) (port : String) (v : Value)
    (j : BlockId) (input : String) : ((g.broadcast id port v).buffer j input).reverse =
      (g.buffer j input).reverse ++ ((g.arena.edgesFrom id port).filter fun edge =>
        edge.subscriber = j ∧ edge.input = input).map fun _ => v := by
  have hcopies : ((g.arena.edgesFrom id port).filter fun edge =>
      edge.subscriber = j ∧ edge.input = input).map (fun _ => v) =
      if g.hasEdge ⟨id, port, j, input⟩ then [v] else [] := by
    rw [← hw.filterMap_delivered?_edgesFrom port v j input, ← List.filterMap_eq_map,
      List.filterMap_filter]
    simp [Occurrence.delivered?]
  rw [hw.buffer_broadcast, List.reverse_append, hcopies]
  split <;> rfl

theorem Wired.spreads_broadcast (hw : g.Wired) {e : Entry β} (he : g.slot? id = some e)
    (hp : port ∈ e.node.outputs) (v : Value) :
    Spreads id port v (g.arena.edgesFrom id port) g (g.broadcast id port v) := by
  have heffects := hw.effects_broadcast he hp v
  have hhistory := history_broadcast g id port v
  rw [tidings_eq_announcements] at hhistory
  exact {
    told := told_of_history hhistory
    history := hhistory
    ends := hw.nodup_ends id port
    buffer := hw.reverse_buffer_broadcast id port v
    receivers := receivers_foldl_accept _ v _
    processing := heffects.processing_eq
    behaviour := heffects.behaviour?_eq
    vars := vars_broadcast g id port v
    layout := heffects.layout_eq }

variable [Behaviour β]

/-- The graphs in which values are emitted: those that operations reach, and those that occur while
blocks are processed. -/
inductive Arises : Graph β → Prop
  | reached {g : Graph β} : g.Reachable → Arises g
  | amid {g k : Graph β} : g.Reachable → g.Occurs k → Arises k

theorem Arises.wired (ha : k.Arises) : k.Wired := by
  cases ha with
  | reached hr => exact hr.ready.wired
  | amid hr ho => exact hr.ready.wired_occurs ho

/-- A live block can emit at the outputs that it declares, and only there. Then the value goes along
the subscribers of the output, each once and in their order: all observers are told of the output
and then of each input, every input gets its copy after what it has, the blocks that were not queued
are, once each, and nothing else changes. -/
theorem Arises.output_spreads (ha : k.Arises) (id : BlockId) (port : String) (v : Value) :
    ((∃ h, k.output id port v = .ok () h) ↔ ∃ n, k.node id = .ok n ∧ port ∈ n.outputs) ∧
    ∀ h, k.output id port v = .ok () h → ∃ edges,
      (k.subscribers id port).map k.arena.get? = edges.map some ∧ Spreads id port v edges k h := by
  have hw := ha.wired
  rcases hw.output_cases id port v with ⟨e, he, hp, hok⟩ | ⟨err, -, herr⟩
  · refine ⟨⟨fun _ => ⟨e.node, node_eq_ok_iff.mpr ⟨e, he, rfl⟩, hp⟩, fun _ => ⟨_, hok⟩⟩,
      fun h ho => ?_⟩
    rw [hok] at ho
    cases ho
    refine ⟨k.arena.edgesFrom id port, ?_, hw.spreads_broadcast he hp v⟩
    rw [hw.subscribers_eq, hw.arena.map_get?_leaving]
  · refine ⟨⟨fun ⟨h, ho⟩ => ?_, fun ⟨n, hn, hp⟩ => ?_⟩, fun h ho => ?_⟩
    · rw [herr] at ho
      cases ho
    · obtain ⟨e, he, rfl⟩ := node_eq_ok_iff.mp hn
      exact ⟨_, hw.output_eq he hp v⟩
    · rw [herr] at ho
      cases ho

/-- A block that forwards feeds itself and both inputs of a comparison. -/
def threefold : List (Operation Builtin) :=
  [.observe (.recorder 1), .observe .silent,
    .add (.source (.bool true)), .add .forward, .add .compare,
    .subscribe ⟨2⟩ Builtin.valuesInput ⟨1⟩ defaultOutput,
    .subscribe ⟨1⟩ defaultInput ⟨1⟩ defaultOutput,
    .subscribe ⟨2⟩ Builtin.compareInput ⟨1⟩ defaultOutput,
    .subscribe ⟨1⟩ defaultInput ⟨0⟩ Builtin.dataName]

def threefoldEdges : List Edge :=
  [⟨⟨1⟩, defaultOutput, ⟨2⟩, Builtin.valuesInput⟩, ⟨⟨1⟩, defaultOutput, ⟨1⟩, defaultInput⟩,
    ⟨⟨1⟩, defaultOutput, ⟨2⟩, Builtin.compareInput⟩]

/-- After the source has been processed the block is queued; then it emits a value. -/
theorem output_spreads_in_threefold : ∃ g k h : Graph Builtin,
    performAll 1 threefold (.new .standard) = some g ∧ g.Occurs k ∧
    k.output ⟨1⟩ defaultOutput (.bool false) = .ok () h ∧
    Spreads ⟨1⟩ defaultOutput (.bool false) threefoldEdges k h ∧
    k.receivers = [⟨1⟩] ∧ h.receivers = [⟨1⟩, ⟨2⟩] ∧ k.observers = [.recorder 1, .silent] := by
  have hdec : (performAll 1 threefold (.new .standard)).any (fun g =>
      (g.course 9 2).any fun μ => μ.graph.receivers = [⟨1⟩] ∧
        μ.graph.observers = [.recorder 1, .silent] ∧
        (μ.graph.slot? ⟨1⟩).any (fun e => defaultOutput ∈ e.node.outputs) = true ∧
        (μ.graph.subscribers ⟨1⟩ defaultOutput).map μ.graph.arena.get? =
          threefoldEdges.map some) = true := by decide +kernel
  obtain ⟨g, hg, hp⟩ := (Option.any_eq_true _ _).mp hdec
  obtain ⟨μ, hμ, hq⟩ := (Option.any_eq_true _ _).mp hp
  obtain ⟨hqueue, hobs, hdeclared, hsubs⟩ := of_decide_eq_true hq
  obtain ⟨e, he, hout⟩ := (Option.any_eq_true _ _).mp hdeclared
  have ho : g.Occurs μ.graph := .between (visits_of_course hμ)
  obtain ⟨hiff, hspread⟩ := Arises.output_spreads
    (.amid (Reachable.performAll (.new _) hg) ho) ⟨1⟩ defaultOutput (.bool false)
  obtain ⟨h, hok⟩ := hiff.mpr ⟨e.node, node_eq_ok_iff.mpr ⟨e, he, rfl⟩, of_decide_eq_true hout⟩
  obtain ⟨edges, hedges, hall⟩ := hspread h hok
  rw [hsubs] at hedges
  obtain rfl : threefoldEdges = edges :=
    List.map_injective_iff.mpr (fun _ _ => Option.some.inj) hedges
  refine ⟨g, μ.graph, h, hg, ho, hok, hall, hqueue, ?_, hobs⟩
  rw [hall.receivers, hqueue]
  decide

end Graph

end Patchbay
