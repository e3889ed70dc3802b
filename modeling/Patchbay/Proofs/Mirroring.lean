import Patchbay.Proofs.Renaming
import Patchbay.Proofs.Rounds

/-! Graphs of built-in blocks that run in step. Where the blocks of one graph are those of another
renamed, every call of a program does the same in both, so whole runs do, and what they show is the
same. -/

namespace Patchbay

/-- Whether two built-in blocks are of one type. They may differ in the value that a source starts
with, which only its parameter's default comes from, and in the screen of an alert. -/
inductive Builtin.Kin : Builtin → Builtin → Prop
  | forward : Kin .forward .forward
  | source (initial initial' : Value) : Kin (.source initial) (.source initial')
  | sum : Kin .sum .sum
  | alert (screen screen' : Screen) : Kin (.alert screen) (.alert screen')
  | compare : Kin .compare .compare

/-- How the blocks of a graph are renamed in another, and what had been seen of each of the two
before. -/
structure Mirror where
  image : BlockId → BlockId
  before : List Sight
  before' : List Sight

namespace Mirror

open HostsBuiltins (block)

variable {β : Type} [Behaviour β] [HostsBuiltins β] {m : Mirror} {g g' h h' : Graph β}
  {id : BlockId}

def Kin (c c' : β) : Prop := ∃ b b' : Builtin, c = block b ∧ c' = block b' ∧ b.Kin b'

omit [Behaviour β] [HostsBuiltins β] in
def Saw (m : Mirror) (g h : Graph β) : Prop := ∃ l, g.sights = l ++ m.before ∧
  h.sights = l.map (Sight.rename m.image) ++ m.before'

/-- Whether one graph is another one renamed, with what waits in its buffers and queues and with
what has been seen since the start. -/
structure Shows (m : Mirror) (g h : Graph β) : Prop where
  image : Graph.Image m.image g h
  sound : g.Sound
  buffer : ∀ id, g.contains id → ∀ port, h.buffer (m.image id) port = g.buffer id port
  behaviour : ∀ id, g.contains id →
    Option.Rel Kin (g.behaviour? id) (h.behaviour? (m.image id))
  processing : h.processing = g.processing.map m.image
  receivers : h.receivers = g.receivers.map m.image
  saw : m.Saw g h

/-- Whether two answers are the same renamed, in graphs that are. -/
inductive Replies (m : Mirror) {α : Type} : Reply β α → Reply β α → Prop
  | ok {g h : Graph β} (a : α) : m.Shows g h → Replies m (.ok a g) (.ok a h)
  | error {g h : Graph β} (e : GraphError) : m.Shows g h →
    Replies m (.error e g) (.error (e.rename m.image) h)

theorem Replies.shows {α : Type} {r r' : Reply β α} (hr : m.Replies r r') :
    m.Shows r.graph r'.graph := by
  cases hr <;> assumption

theorem Replies.result {α : Type} {r r' : Reply β α} (hr : m.Replies r r') :
    r'.result = r.result.mapError (GraphError.rename m.image) := by
  cases hr <;> rfl

/-! What has been seen -/

omit [Behaviour β] [HostsBuiltins β] in
theorem Saw.cons (hs : m.Saw g h) {x : Sight} (hg : g'.sights = x :: g.sights)
    (hh : h'.sights = x.rename m.image :: h.sights) : m.Saw g' h' := by
  obtain ⟨l, hl, hl'⟩ := hs
  exact ⟨x :: l, by simp [hg, hl], by simp [hh, hl']⟩

/-! Looking at a block -/

namespace Shows

theorem wired (hs : m.Shows g h) : g.Wired := hs.image.source

theorem wired' (hs : m.Shows g h) : h.Wired := hs.image.target

/-- What has to be shown of a step that keeps the layout of either graph. -/
theorem step (hs : m.Shows g h) (hl : g'.layout = g.layout) (hl' : h'.layout = h.layout)
    (sound : g'.Sound)
    (buffer : ∀ id, g.contains id → ∀ port, h'.buffer (m.image id) port = g'.buffer id port)
    (behaviour : ∀ id, g.contains id →
      Option.Rel Kin (g'.behaviour? id) (h'.behaviour? (m.image id)))
    (processing : h'.processing = g'.processing.map m.image)
    (receivers : h'.receivers = g'.receivers.map m.image) (saw : m.Saw g' h') :
    m.Shows g' h' where
  image := hs.image.congr hl hl'
  sound := sound
  buffer id hlive := buffer id (Graph.contains_congr hl id ▸ hlive)
  behaviour id hlive := behaviour id (Graph.contains_congr hl id ▸ hlive)
  processing := processing
  receivers := receivers
  saw := saw

variable (hs : m.Shows g h)

include hs

theorem exists_twin (hl : g.contains id) : ∃ e e', g.slot? id = some e ∧
    h.slot? (m.image id) = some e' ∧ e.node.Twin m.image e'.node := by
  obtain ⟨e, he⟩ := Option.isSome_iff_exists.mp hl
  obtain ⟨e', he', ht⟩ := hs.image.twin id e he
  exact ⟨e, e', he, he', ht⟩

theorem image_ne {j : BlockId} (hl : g.contains id) (hj : g.contains j) (hne : j ≠ id) :
    m.image j ≠ m.image id := fun heq => hne (hs.image.inj hj hl heq)

theorem hasValue (hl : g.contains id) (waiting : Bool) (port : String) :
    View.hasValue ⟨h, m.image id, waiting⟩ port =
      (View.hasValue ⟨g, id, waiting⟩ port).mapError (GraphError.rename m.image) := by
  obtain ⟨e, e', he, he', ht⟩ := hs.exists_twin hl
  by_cases hp : port ∈ e.node.inputs
  · have hp' : port ∈ e'.node.inputs := ht.inputs ▸ hp
    rw [Graph.hasValue_eq_ok he hp, Graph.hasValue_eq_ok he' hp', hs.buffer id hl]
    rfl
  · have hp' : port ∉ e'.node.inputs := ht.inputs ▸ hp
    rw [Graph.hasValue_eq_error he hp, Graph.hasValue_eq_error he' hp', ht.id]
    rfl

theorem parameter (hl : g.contains id) (waiting : Bool) (name : String) :
    View.parameter ⟨h, m.image id, waiting⟩ name =
      (View.parameter ⟨g, id, waiting⟩ name).mapError (GraphError.rename m.image) := by
  obtain ⟨e, e', he, he', ht⟩ := hs.exists_twin hl
  have hview : ∀ {k : Graph β} {j : BlockId} {x : Entry β}, k.slot? j = some x →
      View.parameter ⟨k, j, waiting⟩ name = x.node.parameter name := by
    intro k j x hx
    simp [View.parameter, View.node, Graph.node, hx, bind, Except.bind]
  rw [hview he, hview he', Node.parameter, Node.parameter, ht.parameters, ht.id]
  cases e.node.parameters.find? name <;> rfl

theorem incoming (hl : g.contains id) :
    h.incoming (m.image id) = (g.incoming id).map m.image :=
  hs.image.incoming hs.processing hs.sound.live_processing hl

/-! Calls -/

theorem record {o o' : Occurrence} {x : Sight} (ho : o.sight? = some x)
    (ho' : o'.sight? = some (x.rename m.image)) : m.Shows (g.record o) (h.record o') := by
  have hsaw : m.Saw (g.record o) (h.record o') := by
    refine hs.saw.cons (x := x) ?_ ?_
    · simp [Graph.sights, Graph.record, ho]
    · simp [Graph.sights, Graph.record, ho']
  exact hs.step rfl rfl (hs.sound.record o) hs.buffer hs.behaviour hs.processing hs.receivers hsaw

theorem notify (a : Activity) : m.Shows (g.notify a) (h.notify (a.rename m.image)) :=
  hs.record (x := .told a) rfl rfl

theorem receivers_queue (hl : g.contains id) :
    (h.queue (m.image id)).receivers = (g.queue id).receivers.map m.image := by
  have hiff := hs.image.mem_map_iff hs.sound.live_receivers hl
  rw [Graph.queue_eq, Graph.queue_eq]
  by_cases hm : id ∈ g.receivers <;> simp [hs.receivers, hiff, hm]

theorem queue (hl : g.contains id) : m.Shows (g.queue id) (h.queue (m.image id)) := by
  refine hs.step (Graph.layout_queue g id) (Graph.layout_queue h _) (hs.sound.queue hl) ?_ ?_ ?_
    (hs.receivers_queue hl) ?_
  · intro j hj port
    simp only [Graph.buffer, Graph.slot?_queue]
    exact hs.buffer j hj port
  · intro j hj
    simp only [Graph.behaviour?, Graph.slot?_queue]
    exact hs.behaviour j hj
  · rw [Graph.queue_eq, Graph.queue_eq]
    exact hs.processing
  · rw [Graph.queue_eq, Graph.queue_eq]
    exact hs.saw

theorem accept {s : SubscriptionId} {edge : Edge} (hg : g.arena.get? s = some edge) (v : Value) :
    m.Shows (g.accept v edge) (h.accept v (edge.rename m.image)) := by
  have hlive : g.contains edge.subscriber := hs.wired.live_subscriber hg
  have hlive' : h.contains (m.image edge.subscriber) := hs.image.live hlive
  have hsights : ∀ (k : Graph β) (x : Edge),
      (k.accept v x).sights = .told (.received x.subscriber x v) :: k.sights := by
    intro k x
    simp [Graph.sights, Graph.history_accept, Occurrence.sight?]
  refine hs.step (Graph.layout_accept g v edge) (Graph.layout_accept h v _)
    (hs.sound.accept hg v) ?_ ?_ ?_ ?_ (hs.saw.cons (hsights g edge) (hsights h _))
  · intro j hj port
    rw [Graph.buffer_accept g v edge hlive, Graph.buffer_accept h v (edge.rename m.image) hlive',
      hs.buffer j hj]
    have hiff : m.image edge.subscriber = m.image j ↔ edge.subscriber = j :=
      ⟨hs.image.inj hlive hj, congrArg m.image⟩
    simp [Edge.rename, hiff]
  · intro j hj
    rw [Graph.behaviour?_accept, Graph.behaviour?_accept]
    exact hs.behaviour j hj
  · rw [Graph.processing_accept, Graph.processing_accept, hs.processing]
  · rw [Graph.receivers_accept, Graph.receivers_accept]
    exact hs.receivers_queue hlive

theorem broadcast (hl : g.contains id) (port : String) (v : Value) :
    m.Shows (g.broadcast id port v) (h.broadcast (m.image id) port v) := by
  have hfold : ∀ (l : List Edge) {k k' : Graph β}, m.Shows k k' →
      (∀ edge ∈ l, ∃ s, k.arena.get? s = some edge) →
      m.Shows (l.foldl (·.accept v ·) k)
        ((l.map (Edge.rename m.image)).foldl (·.accept v ·) k') := by
    intro l
    induction l with
    | nil => exact fun hk _ => hk
    | cons edge rest ih =>
      intro k k' hk hmem
      obtain ⟨s, hget⟩ := hmem edge List.mem_cons_self
      refine ih (hk.accept hget v) fun x hx => ?_
      rw [Graph.arena_congr (Graph.layout_accept k v edge)]
      exact hmem x (List.mem_cons_of_mem _ hx)
  rw [Graph.broadcast, Graph.broadcast, hs.image.edges id hl]
  refine hfold _ (hs.notify (.emitted id port v)) fun edge hm => ?_
  obtain ⟨-, -, s, hentry⟩ := Arena.mem_edgesFrom.mp hm
  exact ⟨s, hs.wired.arena.get?_eq_some_iff.mpr hentry⟩

theorem output (hl : g.contains id) (port : String) (v : Value) :
    m.Replies (g.output id port v) (h.output (m.image id) port v) := by
  obtain ⟨e, e', he, he', ht⟩ := hs.exists_twin hl
  by_cases hp : port ∈ e.node.outputs
  · have hp' : port ∈ e'.node.outputs := ht.outputs ▸ hp
    rw [hs.wired.output_eq he hp, hs.wired'.output_eq he' hp']
    exact .ok () (hs.broadcast hl port v)
  · have hp' : port ∉ e'.node.outputs := ht.outputs ▸ hp
    rw [Graph.output_eq_error he hp, Graph.output_eq_error he' hp', ht.id]
    exact .error (.invalidPort e.node.id port .output) hs

theorem discard (hl : g.contains id) (port : String) :
    m.Shows (g.updateNode id (·.discard port)) (h.updateNode (m.image id) (·.discard port)) := by
  obtain ⟨e, e', he, he', -⟩ := hs.exists_twin hl
  have hlayout : ∀ (k : Graph β) (j : BlockId),
      (k.updateNode j (·.discard port)).layout = k.layout :=
    fun k j => Graph.layout_updateNode k j fun _ => rfl
  refine hs.step (hlayout g id) (hlayout h _) (hs.sound.take id port) ?_ ?_ hs.processing
    hs.receivers hs.saw
  · intro j hj p
    by_cases hid : j = id
    · subst hid
      rw [Graph.buffer_discard he, Graph.buffer_discard he', hs.buffer j hl]
    · rw [Graph.buffer_updateNode_of_ne g hid,
        Graph.buffer_updateNode_of_ne h (hs.image_ne hl hj hid), hs.buffer j hj]
  · intro j hj
    rw [Graph.behaviour?_updateNode, Graph.behaviour?_updateNode]
    exact hs.behaviour j hj

theorem popValue (hl : g.contains id) (port : String) :
    m.Replies (g.popValue id port) (h.popValue (m.image id) port) := by
  obtain ⟨e, e', he, he', ht⟩ := hs.exists_twin hl
  by_cases hp : port ∈ e.node.inputs
  · have hp' : port ∈ e'.node.inputs := ht.inputs ▸ hp
    rw [Graph.popValue_eq_ok he hp, Graph.popValue_eq_ok he' hp', hs.buffer id hl]
    exact .ok _ (hs.discard hl port)
  · have hp' : port ∉ e'.node.inputs := ht.inputs ▸ hp
    rw [Graph.popValue_eq_error he hp, Graph.popValue_eq_error he' hp', ht.id]
    exact .error (.invalidPort e.node.id port .input) hs

end Shows

/-! Programs -/

/-- Whether two programs of built-in blocks go on alike after answers that are the same renamed. -/
inductive Alike (m : Mirror) (id : BlockId) : Program β → Program β → Prop
  | look {next next' : View β → Program β} : (∀ g h waiting, m.Shows g h → g.contains id →
      Alike m id (next ⟨g, id, waiting⟩) (next' ⟨h, m.image id, waiting⟩)) →
    Alike m id (.look next) (.look next')
  | pop {port : String} {next next' : Except GraphError (Option Value) → Program β} :
    (∀ x, Alike m id (next x) (next' (x.mapError (GraphError.rename m.image)))) →
    Alike m id (.pop port next) (.pop port next')
  | emit {port : String} {v : Value} {next next' : Except GraphError Unit → Program β} :
    (∀ x, Alike m id (next x) (next' (x.mapError (GraphError.rename m.image)))) →
    Alike m id (.emit port v next) (.emit port v next')
  | wait {p p' : Program β} : Alike m id p p' → Alike m id (.wait p) (.wait p')
  | display {screen screen' : Screen} {message : Value} {p p' : Program β} :
    Alike m id p p' → Alike m id (.display screen message p) (.display screen' message p')
  | again {c c' : β} : Kin c c' → Alike m id (.again c) (.again c')
  | finish {c c' : β} (result : Except GraphError Unit) : Kin c c' →
    Alike m id (.finish c result) (.finish c' (result.mapError (GraphError.rename m.image)))

inductive Turns (m : Mirror) : Turn β → Turn β → Prop
  | again {c c' : β} {g h : Graph β} (waiting : Bool) : Kin c c' → m.Shows g h →
    Turns m (.again c waiting g) (.again c' waiting h)
  | finished {c c' : β} {g h : Graph β} (result : Except GraphError Unit) (waiting : Bool) :
    Kin c c' → m.Shows g h → Turns m (.finished c result waiting g)
      (.finished c' (result.mapError (GraphError.rename m.image)) waiting h)

theorem Alike.run {p p' : Program β} (ha : m.Alike id p p') (hs : m.Shows g h)
    (hl : g.contains id) (waiting : Bool) :
    m.Turns (p.run id waiting g) (p'.run (m.image id) waiting h) := by
  induction ha generalizing g h waiting with
  | look _ ih => exact ih g h waiting hs hl hs hl waiting
  | @pop port next next' _ ih =>
    have hreply := hs.popValue hl port
    have hl' := Graph.contains_congr (Graph.layout_popValue g id port) id
    simp only [Program.run, hreply.result]
    exact ih _ hreply.shows (hl'.trans hl) waiting
  | @emit port v next next' _ ih =>
    have hreply := hs.output hl port v
    have hl' := Graph.contains_congr (hs.wired.layout_output id port v) id
    simp only [Program.run, hreply.result]
    exact ih _ hreply.shows (hl'.trans hl) waiting
  | wait _ ih => exact ih hs hl true
  | @display screen screen' message p p' _ ih =>
    exact ih (hs.record (x := .shown message) rfl rfl) hl waiting
  | again hk => exact .again waiting hk hs
  | finish result hk => exact .finished result waiting hk hs

end Mirror

end Patchbay
