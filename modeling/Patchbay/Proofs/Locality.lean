import Patchbay.Proofs.Accounts
import Patchbay.Proofs.Invocations
import Patchbay.Proofs.Transience

/-! A block that is processed outside of a run. Whatever it does while its behaviour is taken out of
the graph, and wherever it fails, the effects stay at the block itself and at the inputs that it
feeds. -/

namespace Patchbay.Graph

variable {β : Type} {g h : Graph β} {id : BlockId}

/-- What block `id` leaves behind when it has been processed by itself. The layout is all but what
passes through the graph: the blocks with their parameters, their wiring and their order, and the
settings. -/
structure Stepped (id : BlockId) (g h : Graph β) : Prop where
  layout : h.layout = g.layout
  receivers : h.receivers = []
  processing : h.processing = []
  behaviour : ∀ j, g.contains j → (h.behaviour? j).isSome
  others : ∀ j, j ≠ id → h.behaviour? j = g.behaviour? j
  unfed : ∀ j, j ≠ id → ¬g.Feeds id j → ∀ port, h.buffer j port = g.buffer j port
  /-- Also of a block that is fed, the inputs where no subscription ends stay as they are. -/
  unreached : ∀ j, j ≠ id → ∀ port, (∀ output, g.hasEdge ⟨id, output, j, port⟩ = false) →
    h.buffer j port = g.buffer j port
  gained : ∀ j, j ≠ id → ∀ port, (g.buffer j port).reverse <+: (h.buffer j port).reverse

/-! What reaches other blocks -/

theorem Account.exists_edge {events : List Occurrence} (ha : Account id g h events) {j : BlockId}
    {port : String} (hne : events.filterMap (Occurrence.delivered? j port) ≠ []) :
    ∃ s edge, g.arena.get? s = some edge ∧ edge.publisher = id ∧ edge.subscriber = j ∧
      edge.input = port := by
  obtain ⟨v, hv⟩ := List.exists_mem_of_ne_nil _ hne
  obtain ⟨o, ho, hd⟩ := List.mem_filterMap.mp hv
  have hc := ha.caused o ho
  unfold Occurrence.delivered? at hd
  split at hd
  · next block edge w =>
    obtain ⟨hpub, hsub, s, hs⟩ := hc
    split at hd
    · next heq => exact ⟨s, edge, hs, hpub, hsub.trans heq.1, heq.2⟩
    · cases hd
  · cases hd

theorem Account.unreached {events : List Occurrence} (ha : Account id g h events) {j : BlockId}
    (hj : j ≠ id) {port : String}
    (hn : ¬∃ s edge, g.arena.get? s = some edge ∧ edge.publisher = id ∧
      edge.subscriber = j ∧ edge.input = port) :
    h.buffer j port = g.buffer j port := by
  have hnone : events.filterMap (Occurrence.delivered? j port) = [] := by
    by_contra hne
    exact hn (ha.exists_edge hne)
  have hb := ha.buffer j hj port
  rw [hnone, List.append_nil] at hb
  exact List.reverse_injective hb

/-! What comes after the invocation -/

/-- What becomes of the answer of an invocation when the block is processed by itself. -/
structure Dismisses (id : BlockId) (answer reply : Reply β Bool) : Prop where
  result : reply.result = answer.result
  layout : reply.graph.layout = answer.graph.layout
  receivers : reply.graph.receivers = []
  processing : reply.graph.processing = answer.graph.processing
  behaviour : ∀ j, reply.graph.behaviour? j = answer.graph.behaviour? j
  buffer : ∀ j, j ≠ id → ∀ port, reply.graph.buffer j port = answer.graph.buffer j port
  cleared : reply.result = .ok false → ∀ port, reply.graph.buffer id port = []

section

variable [Behaviour β] {fuel : Nat} {reply : Reply β Bool}

theorem exists_invoke_of_processBlock (hp : g.processBlock fuel id = some reply) :
    ∃ answer, g.invoke fuel id = some answer ∧ Dismisses id answer reply := by
  rw [processBlock_eq] at hp
  obtain ⟨answer, hi, rfl⟩ := Option.map_eq_some_iff.mp hp
  refine ⟨answer, hi, ?_⟩
  cases answer with
  | error err k => exact ⟨rfl, rfl, rfl, rfl, fun _ => rfl, fun _ _ _ => rfl, nofun⟩
  | ok waiting k =>
    cases waiting with
    | true => exact ⟨rfl, rfl, rfl, rfl, fun _ => rfl, fun _ _ _ => rfl, nofun⟩
    | false =>
      exact ⟨rfl, layout_updateNode _ id fun _ => rfl, rfl, rfl,
        fun j => behaviour?_updateNode _ id j _,
        fun j hj port => buffer_updateNode_of_ne _ hj _ port,
        fun _ port => buffer_settle_done _ id port⟩

theorem Ready.stepped (hg : g.Ready) (hp : g.processBlock fuel id = some reply) :
    Stepped id g reply.graph := by
  have hw := hg.wired
  obtain ⟨answer, hi, hd⟩ := exists_invoke_of_processBlock hp
  obtain ⟨events, ha⟩ := hw.account_invoke hi
  have hl : reply.graph.layout = g.layout := hd.layout.trans (hw.layout_invoke hi)
  refine ⟨hl, hd.receivers, ?_, fun j hj => ?_, fun j hj => ?_, fun j hj hn port => ?_,
    fun j hj port hn => ?_, fun j hj port => ?_⟩
  · rw [hd.processing, hw.processing_invoke hi, hg.processing]
  · rw [hd.behaviour]
    refine complete_iff.mp (hw.complete_invoke hi hg.complete) j ?_
    rw [isSome_slot?_congr (hw.layout_invoke hi)]
    exact hj
  · rw [hd.behaviour, hw.behaviour?_invoke hi hj]
  · rw [hd.buffer j hj]
    exact ha.unreached hj fun ⟨s, edge, hs, hpub, hsub, _⟩ => hn ⟨s, edge, hs, hpub, hsub⟩
  · rw [hd.buffer j hj]
    refine ha.unreached hj ?_
    rintro ⟨s, ⟨_, output, _, _⟩, hs, rfl, rfl, rfl⟩
    have hedge := hw.hasEdge_iff.mpr ⟨s, hw.arena.get?_eq_some_iff.mp hs⟩
    rw [hn output] at hedge
    cases hedge
  · rw [hd.buffer j hj]
    exact ⟨_, (ha.buffer j hj port).symm⟩

/-- Only a comparison ever waits, and without a round in progress nothing can still reach it. -/
theorem Ready.not_waiting_of_builtin [HostsBuiltins β] (hg : g.Ready) {b : Builtin}
    (hb : g.behaviour? id = some (HostsBuiltins.block b)) (hi : g.invoke fuel id = some reply) :
    reply.result ≠ .ok true := by
  intro hok
  rw [Reply.eq_ok hok] at hi
  obtain ⟨b', k, ht, -⟩ := (invoke_eq_ok_iff hb).mp hi
  have hw : (g.setBehaviour id none).Wired := hg.wired.setBehaviour id none
  obtain ⟨-, hlingers⟩ := (hw.takeTurns_builtin_ends ht).2.2 rfl rfl
  have hround : k.processing = [] := (effects_takeTurns hw ht).processing_eq.trans hg.processing
  have hnone : k.incoming id = [] := by rw [incoming, hround, List.filter_nil]
  simp [lingers, hnone] at hlingers

/-- Processing one block, whether it succeeds or fails, puts the behaviour that its turns end with
back and leaves no queue; of the other blocks only those that it feeds change, by values that come
after what they had; a block that does not wait is left with nothing, and no built-in block
waits. -/
theorem Reachable.processBlock_local (hr : g.Reachable)
    (hp : g.processBlock fuel id = some reply) :
    Stepped id g reply.graph ∧
    (∀ b, g.behaviour? id = some b → ∃ b' result waiting k,
      takeTurns id fuel b false (g.setBehaviour id none) = some (b', result, waiting, k) ∧
      reply.result = result.map (fun _ => waiting) ∧ reply.graph.behaviour? id = some b') ∧
    (reply.result = .ok false → ∀ port, reply.graph.buffer id port = []) ∧
    ∀ [HostsBuiltins β] (b : Builtin), g.behaviour? id = some (HostsBuiltins.block b) →
      reply.result ≠ .ok true ∧ reply.graph.behaviour? id = some (HostsBuiltins.block b) := by
  have hg := hr.ready
  obtain ⟨answer, hi, hd⟩ := exists_invoke_of_processBlock hp
  refine ⟨hg.stepped hp, fun b hb => ?_, hd.cleared, fun b hb => ⟨?_, ?_⟩⟩
  · rw [hd.result, hd.behaviour]
    exact exists_takeTurns_of_invoke hb hi
  · rw [hd.result]
    exact hg.not_waiting_of_builtin hb hi
  · rw [hd.behaviour]
    exact hg.wired.behaviour?_invoke_builtin hb hi

end

/-- The scripted block delivers what it has, and then it fails. -/
theorem processBlock_local_failingScript : ∃ g h : Graph Block,
    performAll 9 (failingScript ++ [.processBlock ⟨0⟩]) (.new .standard) = some g ∧
    g.processBlock 9 ⟨2⟩ = some (.error (.unsuitableValue ⟨2⟩ "broken") h) ∧ Stepped ⟨2⟩ g h ∧
    (g.buffer ⟨1⟩ defaultInput).length = 1 ∧ (h.buffer ⟨1⟩ defaultInput).length = 2 := by
  have hdec : (performAll 9 (failingScript ++ [.processBlock ⟨0⟩]) (.new .standard)).any (fun g =>
      (g.buffer ⟨1⟩ defaultInput).length = 1 ∧
      (g.processBlock 9 ⟨2⟩).any fun reply =>
        reply.result.map (fun _ => ()) = .error (.unsuitableValue ⟨2⟩ "broken") ∧
        (reply.graph.buffer ⟨1⟩ defaultInput).length = 2) = true := by decide +kernel
  obtain ⟨g, hg, hp⟩ := (Option.any_eq_true _ _).mp hdec
  obtain ⟨hbefore, hany⟩ := of_decide_eq_true hp
  obtain ⟨reply, hreply, hq⟩ := (Option.any_eq_true _ _).mp hany
  obtain ⟨hres, hafter⟩ := of_decide_eq_true hq
  have hr : g.Reachable := Reachable.performAll (.new _) hg
  cases reply with
  | ok waiting h => cases hres
  | error err h =>
    cases hres
    exact ⟨g, h, hg, hreply, (Reachable.processBlock_local hr hreply).1, hbefore, hafter⟩

end Patchbay.Graph
