import Patchbay.Proofs.Wiring

/-! In a wired graph a declared output delivers to every edge that leaves it, and nothing can go
wrong on the way: whatever fails, fails before the first observer is told. -/

namespace Patchbay

/-- The edges that leave an output, in the order of subscribing. -/
def Arena.edgesFrom (a : Arena) (id : BlockId) (output : String) : List Edge :=
  (a.entries.filter fun x => x.2.publisher = id ∧ x.2.output = output).map Prod.snd

theorem Arena.mem_edgesFrom {a : Arena} {id : BlockId} {output : String} {edge : Edge} :
    edge ∈ a.edgesFrom id output ↔
      edge.publisher = id ∧ edge.output = output ∧ ∃ s, (s, edge) ∈ a.entries := by
  simp only [edgesFrom, List.mem_map, List.mem_filter, decide_eq_true_eq]
  constructor
  · rintro ⟨⟨s, e⟩, ⟨hm, hp, ho⟩, rfl⟩
    exact ⟨hp, ho, s, hm⟩
  · rintro ⟨hp, ho, s, hm⟩
    exact ⟨(s, edge), ⟨hm, hp, ho⟩, rfl⟩

theorem Arena.Sound.nodup_edgesFrom {a : Arena} (h : a.Sound) (id : BlockId) (output : String) :
    (a.edgesFrom id output).Nodup :=
  h.distinct.sublist (List.filter_sublist.map _)

theorem Arena.Sound.map_get?_leaving {a : Arena} (h : a.Sound) (id : BlockId) (output : String) :
    (a.leaving id output).map a.get? = (a.edgesFrom id output).map some := by
  rw [leaving, select, edgesFrom, List.map_map, List.map_map]
  refine List.map_congr_left fun x hx => ?_
  exact h.get?_eq_some_iff.mpr (List.mem_of_mem_filter hx)

namespace Graph

variable {β : Type} {g : Graph β}

/-- What waits on an input of a block, the newest first. -/
def buffer (g : Graph β) (id : BlockId) (port : String) : List Value :=
  ((g.slot? id).map fun e => e.node.buffers.list port).getD []

theorem buffer_of_slot? {id : BlockId} {e : Entry β} (h : g.slot? id = some e) (port : String) :
    g.buffer id port = e.node.buffers.list port := by
  simp [buffer, h]

theorem buffer_clearBuffers (g : Graph β) (id : BlockId) (port : String) :
    g.clearBuffers.buffer id port = [] := by
  simp only [buffer, slot?_clearBuffers]
  cases g.slot? id <;> rfl

/-- Tells of a value that an edge delivers, queues its subscriber and buffers the value there. -/
def accept (g : Graph β) (v : Value) (edge : Edge) : Graph β :=
  ((g.notify (.received edge.subscriber edge v)).queue edge.subscriber).updateNode edge.subscriber
    (·.store edge.input v)

@[simp] theorem layout_accept (g : Graph β) (v : Value) (edge : Edge) :
    (g.accept v edge).layout = g.layout := by
  refine (layout_updateNode _ _ ?_).trans (layout_queue _ _)
  exact fun _ => rfl

theorem slot?_accept (g : Graph β) (v : Value) (edge : Edge) (id : BlockId) :
    (g.accept v edge).slot? id = if id = edge.subscriber
      then (g.slot? id).map fun e => { e with node := e.node.store edge.input v }
      else g.slot? id := by
  rw [accept, slot?_updateNode, slot?_queue]
  rfl

theorem buffer_accept (g : Graph β) (v : Value) (edge : Edge)
    (hs : (g.slot? edge.subscriber).isSome) (id : BlockId) (port : String) :
    (g.accept v edge).buffer id port =
      if edge.subscriber = id ∧ edge.input = port then v :: g.buffer id port
      else g.buffer id port := by
  obtain ⟨e, he⟩ := Option.isSome_iff_exists.mp hs
  by_cases h : edge.subscriber = id
  · subst h
    by_cases hp : edge.input = port
    · simp [buffer, slot?_accept, he, Node.store, Dict.list_setList, hp]
    · simp [buffer, slot?_accept, he, Node.store, Dict.list_setList, hp, Ne.symm hp]
  · simp [buffer, slot?_accept, h, Ne.symm h]

theorem queue_eq (g : Graph β) (id : BlockId) : g.queue id =
    { g with receivers := if id ∈ g.receivers then g.receivers else g.receivers ++ [id] } := by
  by_cases h : id ∈ g.receivers <;> simp [queue, h]

theorem receivers_accept (g : Graph β) (v : Value) (edge : Edge) :
    (g.accept v edge).receivers = (g.queue edge.subscriber).receivers := by
  rw [accept, queue_eq, queue_eq]
  rfl

@[simp] theorem processing_accept (g : Graph β) (v : Value) (edge : Edge) :
    (g.accept v edge).processing = g.processing := by
  rw [accept, queue_eq]
  rfl

theorem history_accept (g : Graph β) (v : Value) (edge : Edge) : (g.accept v edge).history =
    .observed g.observers (.received edge.subscriber edge v) :: g.history := by
  rw [accept, queue_eq]
  rfl

theorem history_foldl_accept (g : Graph β) (v : Value) (l : List Edge) :
    (l.foldl (·.accept v ·) g).history =
      (l.map fun edge => .observed g.observers (.received edge.subscriber edge v)).reverse ++
        g.history := by
  induction l generalizing g with
  | nil => rfl
  | cons edge rest ih =>
    rw [List.foldl_cons, ih, history_accept, observers_congr (layout_accept g v edge)]
    simp

theorem vars_foldl_accept (g : Graph β) (v : Value) (l : List Edge) :
    (l.foldl (·.accept v ·) g).vars = g.vars := by
  induction l generalizing g with
  | nil => rfl
  | cons edge rest ih =>
    rw [List.foldl_cons, ih, accept, queue_eq]
    rfl

theorem mem_receivers_queue {id j : BlockId} :
    j ∈ (g.queue id).receivers ↔ j ∈ g.receivers ∨ j = id := by
  rw [queue_eq]
  dsimp only
  split
  · next h =>
    constructor
    · exact Or.inl
    · rintro (hj | rfl)
      · exact hj
      · exact h
  · simp

theorem nodup_receivers_queue {id : BlockId} (h : g.receivers.Nodup) :
    (g.queue id).receivers.Nodup := by
  rw [queue_eq]
  dsimp only
  split
  · exact h
  · next hn =>
    exact List.nodup_append.mpr ⟨h, List.nodup_singleton _, fun x hx y hy hxy =>
      hn (by rwa [← List.mem_singleton.mp hy, ← hxy])⟩

/-- The input is looked at before its block is queued, so storing the value cannot fail. -/
theorem accept_eq {edge : Edge} {e : Entry β} (h : g.slot? edge.subscriber = some e)
    (hp : edge.input ∈ e.node.inputs) (v : Value) :
    ((g.notify (.received edge.subscriber edge v)).queue edge.subscriber).pushValue edge.subscriber
      edge.input v = .ok () (g.accept v edge) := by
  have hslot : ((g.notify (.received edge.subscriber edge v)).queue edge.subscriber).slot?
      edge.subscriber = some e := (slot?_queue _ _ _).trans h
  have hc : e.node.checkInput edge.input = .ok () := Node.checkInput_eq_ok_iff.mpr hp
  refine editNode_eq_ok hslot (·.store edge.input v) ?_
  simp [Node.push, hc, bind, Except.bind, pure, Except.pure, Except.map]

theorem Wired.input_eq (hw : g.Wired) {s : SubscriptionId} {edge : Edge}
    (hg : g.arena.get? s = some edge) (v : Value) :
    g.input edge.subscriber s v = .ok () (g.accept v edge) := by
  obtain ⟨e, he, hp⟩ := hw.exists_subscriber hg
  have hc : g.checkInput edge.subscriber edge.input = .ok () :=
    checkInput_eq_ok_iff.mpr ⟨e, he, hp⟩
  simp [input, hg, hc, accept_eq he hp]

/-- A value enters through an edge that ends at the block, or nothing changes. -/
theorem Wired.input_cases (hw : g.Wired) (id : BlockId) (s : SubscriptionId) (v : Value) :
    (∃ edge, g.arena.get? s = some edge ∧ edge.subscriber = id ∧
        g.input id s v = .ok () (g.accept v edge)) ∨
      ∃ err, g.input id s v = .error err g := by
  cases hg : g.arena.get? s with
  | none => exact Or.inr ⟨.unknownSubscription s, by simp [input, hg]⟩
  | some edge =>
    by_cases hid : edge.subscriber = id
    · subst hid
      exact Or.inl ⟨edge, rfl, rfl, hw.input_eq hg v⟩
    · exact Or.inr ⟨.subscriberMismatch id s edge.subscriber, by simp [input, hg, hid]⟩

theorem Wired.layout_input (hw : g.Wired) (id : BlockId) (s : SubscriptionId) (v : Value) :
    (g.input id s v).graph.layout = g.layout := by
  rcases hw.input_cases id s v with ⟨edge, -, -, hok⟩ | ⟨err, herr⟩
  · rw [hok, Reply.graph_ok, layout_accept]
  · rw [herr, Reply.graph_error]

theorem Wired.deliver_eq (hw : g.Wired) {l : List (SubscriptionId × Edge)}
    (hl : ∀ x ∈ l, x ∈ g.arena.entries) (v : Value) :
    deliver v (l.map Prod.fst) g = .ok () ((l.map Prod.snd).foldl (·.accept v ·) g) := by
  induction l generalizing g with
  | nil => rfl
  | cons x rest ih =>
    obtain ⟨s, edge⟩ := x
    have hg := hw.arena.get?_eq_some_iff.mpr (hl (s, edge) List.mem_cons_self)
    have ha : (g.accept v edge).arena = g.arena := arena_congr (layout_accept g v edge)
    have hrest := ih (hw.of_layout (layout_accept g v edge))
      (fun y hy => ha ▸ hl y (List.mem_cons_of_mem _ hy))
    simp only [List.map_cons, deliver, hg, hw.input_eq hg, hrest, List.foldl_cons]

def broadcast (g : Graph β) (id : BlockId) (port : String) (v : Value) : Graph β :=
  (g.arena.edgesFrom id port).foldl (·.accept v ·) (g.notify (.emitted id port v))

theorem layout_broadcast (g : Graph β) (id : BlockId) (port : String) (v : Value) :
    (g.broadcast id port v).layout = g.layout := by
  have hfold : ∀ (l : List Edge) (h : Graph β), (l.foldl (·.accept v ·) h).layout = h.layout := by
    intro l
    induction l with
    | nil => exact fun _ => rfl
    | cons edge rest ih => exact fun h => (ih _).trans (layout_accept h v edge)
  exact hfold _ _

theorem Wired.output_eq (hw : g.Wired) {id : BlockId} {e : Entry β} (h : g.slot? id = some e)
    {port : String} (hp : port ∈ e.node.outputs) (v : Value) :
    g.output id port v = .ok () (g.broadcast id port v) := by
  have hn : g.node id = .ok e.node := node_eq_ok_iff.mpr ⟨e, h, rfl⟩
  have hc : e.node.checkOutput port = .ok () := Node.checkOutput_eq_ok_iff.mpr hp
  have hd := (hw.of_layout (layout_notify g (.emitted id port v))).deliver_eq
    (l := g.arena.entries.filter fun x => x.2.publisher = id ∧ x.2.output = port)
    (fun x hx => List.mem_of_mem_filter hx) v
  simp only [output, hn, hc, hw.subscribers_list h]
  exact hd

theorem output_eq_error {id : BlockId} {e : Entry β} (h : g.slot? id = some e) {port : String}
    (hp : port ∉ e.node.outputs) (v : Value) :
    g.output id port v = .error (.invalidPort e.node.id port .output) g := by
  simp [output, node, h, Node.checkOutput, Node.hasOutput, hp]

/-- A failing output leaves the graph as it is, and its error names the block. -/
theorem Wired.output_cases (hw : g.Wired) (id : BlockId) (port : String) (v : Value) :
    (∃ e, g.slot? id = some e ∧ port ∈ e.node.outputs ∧
        g.output id port v = .ok () (g.broadcast id port v)) ∨
      ∃ err, err.block?.isSome ∧ g.output id port v = .error err g := by
  cases h : g.slot? id with
  | none => exact Or.inr ⟨.unknownBlock id, rfl, by simp [output, node, h]⟩
  | some e =>
    by_cases hp : port ∈ e.node.outputs
    · exact Or.inl ⟨e, rfl, hp, hw.output_eq h hp v⟩
    · exact Or.inr ⟨.invalidPort e.node.id port .output, rfl, output_eq_error h hp v⟩

theorem Wired.layout_output (hw : g.Wired) (id : BlockId) (port : String) (v : Value) :
    (g.output id port v).graph.layout = g.layout := by
  rcases hw.output_cases id port v with ⟨e, -, -, hok⟩ | ⟨err, -, herr⟩
  · rw [hok, Reply.graph_ok, layout_broadcast]
  · rw [herr, Reply.graph_error]

/-! Buffers after an output -/

def hasEdge (g : Graph β) (edge : Edge) : Bool := (g.arena.find? edge).isSome

theorem hasEdge_congr {h : Graph β} (hl : h.layout = g.layout) (edge : Edge) :
    h.hasEdge edge = g.hasEdge edge := by
  simp only [hasEdge, arena_congr hl]

theorem Wired.hasEdge_iff (hw : g.Wired) {edge : Edge} :
    g.hasEdge edge = true ↔ ∃ s, (s, edge) ∈ g.arena.entries := by
  simp only [hasEdge, Option.isSome_iff_exists, hw.arena.find?_eq_some_iff]

theorem Wired.mem_edgesFrom_iff_hasEdge (hw : g.Wired) {id j : BlockId} {output port : String} :
    (⟨id, output, j, port⟩ : Edge) ∈ g.arena.edgesFrom id output ↔
      g.hasEdge ⟨id, output, j, port⟩ = true := by
  rw [Arena.mem_edgesFrom, hw.hasEdge_iff]
  simp

theorem buffer_foldl_accept {id j : BlockId} {output port : String} (v : Value) {l : List Edge}
    (hn : l.Nodup) (hl : ∀ edge ∈ l, edge.publisher = id ∧ edge.output = output ∧
      (g.slot? edge.subscriber).isSome) :
    (l.foldl (·.accept v ·) g).buffer j port =
      (if ⟨id, output, j, port⟩ ∈ l then [v] else []) ++ g.buffer j port := by
  induction l generalizing g with
  | nil => rfl
  | cons edge rest ih =>
    obtain ⟨hnot, hn⟩ := List.nodup_cons.mp hn
    obtain ⟨rfl, rfl, hlive⟩ := hl edge List.mem_cons_self
    have hrest : ∀ x ∈ rest, x.publisher = edge.publisher ∧ x.output = edge.output ∧
        ((g.accept v edge).slot? x.subscriber).isSome := by
      intro x hx
      obtain ⟨hp, ho, hs⟩ := hl x (List.mem_cons_of_mem _ hx)
      refine ⟨hp, ho, ?_⟩
      rw [slot?_accept]
      split <;> simpa using hs
    rw [List.foldl_cons, ih hn hrest, buffer_accept g v edge hlive]
    by_cases heq : edge.subscriber = j ∧ edge.input = port
    · obtain ⟨rfl, rfl⟩ := heq
      simp [hnot]
    · have hne : (⟨edge.publisher, edge.output, j, port⟩ : Edge) ≠ edge :=
        fun h => heq (by rw [← h]; exact ⟨rfl, rfl⟩)
      simp [heq, hne]

/-- Each edge that leaves the output puts the value on top of its input. -/
theorem Wired.buffer_broadcast (hw : g.Wired) (id : BlockId) (output : String) (v : Value)
    (j : BlockId) (port : String) : (g.broadcast id output v).buffer j port =
      (if g.hasEdge ⟨id, output, j, port⟩ then [v] else []) ++ g.buffer j port := by
  have hl : ∀ edge ∈ g.arena.edgesFrom id output, edge.publisher = id ∧ edge.output = output ∧
      ((g.notify (.emitted id output v)).slot? edge.subscriber).isSome := by
    intro edge hm
    obtain ⟨hp, ho, s, hs⟩ := Arena.mem_edgesFrom.mp hm
    exact ⟨hp, ho, hw.live_subscriber (hw.arena.get?_eq_some_iff.mpr hs)⟩
  rw [broadcast, buffer_foldl_accept v (hw.arena.nodup_edgesFrom id output) hl]
  simp only [hw.mem_edgesFrom_iff_hasEdge]
  rfl

end Graph

end Patchbay
