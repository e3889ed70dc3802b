import Patchbay.Proofs.Accounts
import Patchbay.Proofs.Loading
import Patchbay.Proofs.Refusals

/-! What a block emits in one invocation. The values alone decide what else is told, who is queued
and what the other blocks find on their inputs. -/

namespace Patchbay.Graph

open HostsBuiltins (block)

variable {β : Type} {g h : Graph β} {id : BlockId} {sent more : List (String × Value)}

/-- What is told of values that a block emits in this order. -/
def tidings (g : Graph β) (id : BlockId) (sent : List (String × Value)) : List Occurrence :=
  sent.flatMap fun x => .observed g.observers (.emitted id x.1 x.2) ::
    (g.arena.edgesFrom id x.1).map fun edge =>
      .observed g.observers (.received edge.subscriber edge x.2)

/-- The blocks that get them, once for each time. -/
def recipients (g : Graph β) (id : BlockId) (sent : List (String × Value)) : List BlockId :=
  sent.flatMap fun x => (g.arena.edgesFrom id x.1).map Edge.subscriber

/-- Those of them that come to an input. -/
def arrivals (g : Graph β) (id : BlockId) (sent : List (String × Value)) (j : BlockId)
    (port : String) : List Value :=
  (sent.filter fun x => g.hasEdge ⟨id, x.1, j, port⟩).map Prod.snd

theorem tidings_congr (hl : h.layout = g.layout) : h.tidings id sent = g.tidings id sent := by
  simp only [tidings, arena_congr hl, observers_congr hl]

theorem tidings_cons (g : Graph β) (id : BlockId) (x : String × Value) :
    g.tidings id (x :: sent) = g.tidings id [x] ++ g.tidings id sent := by
  simp [tidings]

theorem filterMap_tidings {α : Type} {f : Occurrence → Option α}
    (hf : ∀ output v, f (.observed g.observers (.emitted id output v)) = none) :
    (g.tidings id sent).filterMap f = sent.flatMap fun x => (g.arena.edgesFrom id x.1).filterMap
      fun edge => f (.observed g.observers (.received edge.subscriber edge x.2)) := by
  simp [tidings, List.filterMap_flatMap, List.filterMap_map, hf]

theorem filterMap_recipient?_tidings (g : Graph β) (id : BlockId) (sent : List (String × Value)) :
    (g.tidings id sent).filterMap Occurrence.recipient? = g.recipients id sent := by
  rw [filterMap_tidings fun _ _ => rfl, recipients]
  simp only [Occurrence.recipient?]
  congr 1
  funext x
  exact congrFun (List.filterMap_eq_map (f := Edge.subscriber)) _

/-- Each edge is there once, so a value comes to an input once. -/
theorem Wired.filterMap_delivered?_edgesFrom (hw : g.Wired) (output : String) (v : Value)
    (j : BlockId) (port : String) : ((g.arena.edgesFrom id output).filterMap fun edge =>
      Occurrence.delivered? j port (.observed g.observers (.received edge.subscriber edge v))) =
    if g.hasEdge ⟨id, output, j, port⟩ then [v] else [] := by
  have hl : ∀ edge ∈ g.arena.edgesFrom id output, edge.publisher = id ∧ edge.output = output :=
    fun edge hm => ⟨(Arena.mem_edgesFrom.mp hm).1, (Arena.mem_edgesFrom.mp hm).2.1⟩
  have hn := hw.arena.nodup_edgesFrom id output
  -- The induction is on any edges that leave the output, each there once.
  simp only [← hw.mem_edgesFrom_iff_hasEdge]
  generalize g.arena.edgesFrom id output = l at hl hn
  induction l with
  | nil => rfl
  | cons edge rest ih =>
    obtain ⟨hnot, hn⟩ := List.nodup_cons.mp hn
    obtain ⟨rfl, rfl⟩ := hl edge List.mem_cons_self
    have hrest := ih (fun x hx => hl x (List.mem_cons_of_mem _ hx)) hn
    rw [List.filterMap_cons, hrest]
    by_cases heq : edge.subscriber = j ∧ edge.input = port
    · obtain ⟨rfl, rfl⟩ := heq
      simp [Occurrence.delivered?, hnot]
    · have hne : (⟨edge.publisher, edge.output, j, port⟩ : Edge) ≠ edge :=
        fun h => heq (by rw [← h]; exact ⟨rfl, rfl⟩)
      simp [Occurrence.delivered?, heq, hne]

theorem Wired.filterMap_delivered?_tidings (hw : g.Wired) (sent : List (String × Value))
    (j : BlockId) (port : String) :
    (g.tidings id sent).filterMap (Occurrence.delivered? j port) = g.arrivals id sent j port := by
  rw [filterMap_tidings fun _ _ => rfl, arrivals]
  simp only [hw.filterMap_delivered?_edgesFrom]
  induction sent with
  | nil => rfl
  | cons x sent ih =>
    by_cases hx : g.hasEdge ⟨id, x.1, j, port⟩ = true <;> simp [hx, ih]

/-! A single value -/

theorem history_broadcast (g : Graph β) (id : BlockId) (output : String) (v : Value) :
    (g.broadcast id output v).history = (g.tidings id [(output, v)]).reverse ++ g.history := by
  rw [broadcast, history_foldl_accept]
  simp [tidings, notify, record]

theorem vars_broadcast (g : Graph β) (id : BlockId) (output : String) (v : Value) :
    (g.broadcast id output v).vars = g.vars :=
  vars_foldl_accept _ v _

/-! A whole invocation -/

/-- Whether all that happened between two graphs is that a block emitted these values and changed
its own buffers. -/
structure Emits (id : BlockId) (sent : List (String × Value)) (g h : Graph β) : Prop where
  layout : h.layout = g.layout
  processing : h.processing = g.processing
  behaviour : ∀ j, h.behaviour? j = g.behaviour? j
  vars : h.vars = g.vars
  history : h.history = (g.tidings id sent).reverse ++ g.history
  receivers : h.receivers = (g.receivers ++ g.recipients id sent).eraseDups
  buffer : ∀ j, j ≠ id → ∀ port,
    h.buffer j port = (g.arrivals id sent j port).reverse ++ g.buffer j port

variable [Behaviour β] [HostsBuiltins β]

/-- What is told of an invocation decides what it did to other blocks. -/
theorem Sound.emits_invoke (hs : g.Sound) {b : Builtin} (hb : g.behaviour? id = some (block b))
    {fuel : Nat} {reply : Reply β Bool} (hi : g.invoke fuel id = some reply)
    (hh : reply.graph.history = (g.tidings id sent).reverse ++ g.history)
    (hv : reply.graph.vars = g.vars) : Emits id sent g reply.graph := by
  have hw := hs.wired
  have ha : Account id g reply.graph (g.tidings id sent) := hw.account_of_history hi hh
  refine ⟨hw.layout_invoke hi, hw.processing_invoke hi, fun j => ?_, hv, hh, ?_,
    fun j hj port => ?_⟩
  · by_cases hj : j = id
    · subst hj
      exact (hw.behaviour?_invoke_builtin hb hi).trans hb.symm
    · exact hw.behaviour?_invoke hi hj
  · have hq := ha.queue g.receivers (eraseDups_of_nodup hs.nodup_receivers).symm
    rwa [filterMap_recipient?_tidings] at hq
  · have hbuf := ha.buffer j hj port
    rw [hw.filterMap_delivered?_tidings] at hbuf
    rw [← List.reverse_reverse (reply.graph.buffer j port), hbuf, List.reverse_append,
      List.reverse_reverse]

/-! Where blocks are invoked -/

/-- The graphs in which blocks are invoked: those between two operations, and those between two
invocations of a run. -/
inductive Attainable : Graph β → Prop
  | reached {g : Graph β} : g.Reachable → Attainable g
  | visited {g : Graph β} {μ : Moment β} : g.Reachable → g.Visits μ → Attainable μ.graph

omit [HostsBuiltins β] in
theorem Attainable.sound (ha : g.Attainable) : g.Sound := by
  cases ha with
  | reached hr => exact hr.ready.toSound
  | visited hr hv => exact (hv.regular hr.ready.toSound hr.ready.complete).sound

variable [KeepsBuiltins β]

theorem Attainable.fitted (ha : g.Attainable) : g.Fitted := by
  cases ha with
  | reached hr => exact hr.fitted
  | visited hr hv => exact hv.fitted hr.fitted hr.ready.toSound hr.ready.complete

/-- While it is invoked, a block is out of its slot. -/
theorem Attainable.ready_out (ha : g.Attainable) {b : Builtin}
    (hb : g.behaviour? id = some (block b)) :
    (g.setBehaviour id none).Wired ∧ (g.setBehaviour id none).FitsAt id b.definition :=
  ⟨ha.sound.wired.setBehaviour id none,
    (ha.fitted.fitsAt hb).of_layout (layout_setBehaviour g id none)⟩

end Patchbay.Graph
