import Patchbay.Proofs.Limits
import Patchbay.Proofs.Parts
import Patchbay.Proofs.Replaying

/-! Invocations in a graph and in a part of it. A block of the part does the same in both, and what
it tells in the part is what it tells in the whole of the blocks of the part; any other block leaves
the part as it is. -/

namespace Patchbay

/-- Whether an occurrence in an invocation of block `id` is one of the blocks that satisfy `S`. -/
def Occurrence.concerns (S : BlockId → Bool) (id : BlockId) : Occurrence → Bool
  | observed _ (.emitted block _ _) => S block
  | observed _ (.received block _ _) => S block
  | said block _ _ => S block
  | _ => S id

/-- What a block tells that does not satisfy `S` is not of the blocks that do. -/
theorem Graph.Ancestral.not_concerns {β : Type} {g : Graph β} {S : BlockId → Bool}
    (hc : g.Ancestral S) {id : BlockId} {o : Occurrence} (ho : o.CausedBy g.arena id)
    (hid : S id = false) : o.concerns S id = false := by
  cases o with
  | observed observers activity =>
    cases activity with
    | emitted x port v => exact (congrArg S ho).trans hid
    | received x edge v =>
      obtain ⟨hpub, hsub, s, hs⟩ := ho
      exact hc.outside ⟨s, edge, hs, hpub, hsub⟩ hid
    | roundStarted round blocks => exact ho.elim
    | runFinished report => exact ho.elim
  | logged notice => exact ho.elim
  | shown screen message => exact hid
  | said x action remark => exact (congrArg S ho).trans hid

inductive Turn.Rel {β : Type} (R : Graph β → Graph β → Prop) : Turn β → Turn β → Prop
  | again (b : β) (waiting : Bool) {g h : Graph β} : R g h →
    Rel R (.again b waiting g) (.again b waiting h)
  | finished (b : β) (result : Except GraphError Unit) (waiting : Bool) {g h : Graph β} : R g h →
    Rel R (.finished b result waiting g) (.finished b result waiting h)

namespace Graph

open HostsBuiltins (block)

variable {β : Type} {S : BlockId → Bool} {g g' h h' : Graph β} {id : BlockId}
  {past past' : List Occurrence}

/-- Whether the block that is being invoked has told the same in a part as in the whole, so far as
that is of the part. -/
structure Beside (S : BlockId → Bool) (id : BlockId) (past past' : List Occurrence)
    (g h : Graph β) : Prop where
  part : Part S g h
  told : ∃ news, g.history = news ++ past ∧
    h.history = news.filter (Occurrence.concerns S id) ++ past'

def Replies {α : Type} (R : Graph β → Graph β → Prop) (r r' : Reply β α) : Prop :=
  r'.result = r.result ∧ R r.graph r'.graph

namespace Beside

variable (hb : Beside S id past past' g h)

include hb

theorem quiet (hp : Part S g' h') (hg : g'.history = g.history) (hh : h'.history = h.history) :
    Beside S id past past' g' h' := by
  obtain ⟨news, hn, hn'⟩ := hb.told
  exact ⟨hp, news, hg.trans hn, hh.trans hn'⟩

theorem tell {o : Occurrence} (hp : Part S g' h') (hg : g'.history = o :: g.history)
    (hh : h'.history = if o.concerns S id then o :: h.history else h.history) :
    Beside S id past past' g' h' := by
  obtain ⟨news, hn, hn'⟩ := hb.told
  refine ⟨hp, o :: news, by rw [hg, hn, List.cons_append], ?_⟩
  rw [hh, hn', List.filter_cons]
  split <;> rfl

theorem record {o : Occurrence} (ho : o.concerns S id = true) :
    Beside S id past past' (g.record o) (h.record o) :=
  hb.tell (hb.part.record o o) rfl (by rw [if_pos ho]; rfl)

theorem accept (v : Value) {edge : Edge} (hs : S edge.subscriber) :
    Beside S id past past' (g.accept v edge) (h.accept v edge) := by
  refine hb.tell (hb.part.accept v hs) (history_accept g v edge) ?_
  rw [history_accept, hb.part.observers]
  simp [Occurrence.concerns, hs]

theorem accept_aside (v : Value) {edge : Edge} (hs : S edge.subscriber = false) :
    Beside S id past past' (g.accept v edge) h := by
  have hq : (g.accept v edge).receivers.filter S = g.receivers.filter S := by
    rw [receivers_accept, receivers_queue_outside g hs]
  have hslots : ∀ j, S j → (g.accept v edge).slot? j = g.slot? j := fun j hj => by
    rw [slot?_accept, if_neg (ne_of_outside hj hs)]
  refine hb.tell (hb.part.aside (layout_accept g v edge) hslots (processing_accept g v edge) hq)
    (history_accept g v edge) ?_
  simp [Occurrence.concerns, hs]

theorem foldl_accept (v : Value) (l : List Edge) : Beside S id past past'
    (l.foldl (·.accept v ·) g) ((l.filter (S ·.subscriber)).foldl (·.accept v ·) h) := by
  induction l generalizing g h with
  | nil => exact hb
  | cons edge rest ih =>
    cases hs : S edge.subscriber with
    | true =>
      simp only [List.filter_cons, hs, if_true]
      exact ih (hb.accept v hs)
    | false =>
      simp only [List.filter_cons, hs, Bool.false_eq_true, if_false]
      exact ih (hb.accept_aside v hs)

theorem broadcast (hid : S id) (port : String) (v : Value) :
    Beside S id past past' (g.broadcast id port v) (h.broadcast id port v) := by
  have hnotify : Beside S id past past' (g.notify (.emitted id port v))
      (h.notify (.emitted id port v)) := by
    rw [notify, notify, hb.part.observers]
    exact hb.record hid
  rw [Graph.broadcast, Graph.broadcast, hb.part.edges]
  exact hnotify.foldl_accept v _

theorem output (hid : S id) (port : String) (v : Value) :
    Replies (Beside S id past past') (g.output id port v) (h.output id port v) := by
  rcases hb.part.slot_cases hid with ⟨he, he'⟩ | ⟨e, e', he, he', -, hn⟩
  · rw [Replies, Graph.output, Graph.output, node, node, he, he']
    exact ⟨rfl, hb⟩
  · obtain ⟨hname, -, hout⟩ := Node.ports_of_unwired hn
    by_cases hp : port ∈ e.node.outputs
    · rw [hb.part.source.output_eq he hp, hb.part.target.output_eq he' (hout ▸ hp)]
      exact ⟨rfl, hb.broadcast hid port v⟩
    · rw [output_eq_error he hp, output_eq_error he' (hout ▸ hp), hname]
      exact ⟨rfl, hb⟩

theorem popValue (hid : S id) (port : String) :
    Replies (Beside S id past past') (g.popValue id port) (h.popValue id port) := by
  rcases hb.part.slot_cases hid with ⟨he, he'⟩ | ⟨e, e', he, he', -, hn⟩
  · rw [Replies, Graph.popValue, Graph.popValue, editNode, editNode, node, node, he, he']
    exact ⟨rfl, hb⟩
  · obtain ⟨hname, hin, -⟩ := Node.ports_of_unwired hn
    by_cases hp : port ∈ e.node.inputs
    · rw [popValue_eq_ok he hp, popValue_eq_ok he' (hin ▸ hp), hb.part.buffer hid]
      have hpart := hb.part.updateNode id (f := (·.discard port)) (fun _ => rfl) fun _ => rfl
      exact ⟨rfl, hb.quiet hpart rfl rfl⟩
    · rw [popValue_eq_error he hp, popValue_eq_error he' (hin ▸ hp), hname]
      exact ⟨rfl, hb⟩

theorem run {p : Program β} (hd : p.Discreet) (hid : S id) (waiting : Bool) :
    Turn.Rel (Beside S id past past') (p.run id waiting g) (p.run id waiting h) := by
  induction p generalizing waiting g h with
  | look next ih =>
    have hnext := hd.1 _ _ (hb.part.agrees hid waiting)
    have hrun := ih ⟨g, id, waiting⟩ hb (hd.2 _) waiting
    simp only [Program.run]
    rwa [← hnext]
  | pop port next ih =>
    obtain ⟨hres, hbeside⟩ := hb.popValue hid port
    simp only [Program.run, hres]
    exact ih _ hbeside (hd _) waiting
  | emit port v next ih =>
    obtain ⟨hres, hbeside⟩ := hb.output hid port v
    simp only [Program.run, hres]
    exact ih _ hbeside (hd _) waiting
  | assign name v next ih =>
    have hpart : Part S (g.setVariable name v) (h.setVariable name v) :=
      hb.part.step rfl rfl hb.part.entries hb.part.processing hb.part.receivers
    exact ih (hb.quiet hpart rfl rfl) hd waiting
  | wait next ih => exact ih hb hd true
  | display screen message next ih =>
    exact ih (hb.record (o := .shown screen message) hid) hd waiting
  | say action remark next ih => exact ih (hb.record (o := .said id action remark) hid) hd waiting
  | again b => exact .again b waiting hb
  | finish b result => exact .finished b result waiting hb

theorem setBehaviour (c : Option β) :
    Beside S id past past' (g.setBehaviour id c) (h.setBehaviour id c) :=
  hb.quiet (hb.part.setBehaviour id c) rfl rfl

variable [Behaviour β] [HostsBuiltins β] {b : Builtin}

theorem takeTurns (hid : S id) (fuel : Nat) (waiting : Bool) :
    Option.Rel (fun x y => y.1 = x.1 ∧ y.2.1 = x.2.1 ∧ y.2.2.1 = x.2.2.1 ∧
      Beside S id past past' x.2.2.2 y.2.2.2)
      (Graph.takeTurns id fuel (block b) waiting g)
      (Graph.takeTurns id fuel (block b) waiting h) := by
  induction fuel generalizing waiting g h with
  | zero => exact .none
  | succ fuel ih =>
    have hprocess : Behaviour.process id (block b : β) = b.process block id :=
      HostsBuiltins.process_block id b
    have hrun := hb.run (Builtin.process_discreet block id b) hid waiting
    have hend := (Builtin.process_endsIn block id b).run id waiting g
    rw [takeTurns_eq, takeTurns_eq, hprocess]
    generalize (b.process block id).run id waiting g = t at hrun hend
    generalize (b.process block id).run id waiting h = t' at hrun
    cases hrun with
    | again c waiting' hb' =>
      obtain rfl : c = block b := hend
      exact ih hb' waiting'
    | finished c result waiting' hb' => exact .some ⟨rfl, rfl, rfl, hb'⟩

end Beside

section

variable [Behaviour β] [HostsBuiltins β] {b : Builtin}

theorem Part.invoke (hp : Part S g h) (hid : S id) (hbe : g.behaviour? id = some (block b))
    (fuel : Nat) : Option.Rel (Replies (Beside S id g.history h.history)) (g.invoke fuel id)
      (h.invoke fuel id) := by
  have hb : Beside S id g.history h.history g h := ⟨hp, [], rfl, rfl⟩
  have hbe' : h.behaviour? id = some (block b) := (hp.behaviour? hid).trans hbe
  rw [invoke_eq hbe, invoke_eq hbe']
  refine Mirror.rel_map ((hb.setBehaviour none).takeTurns (b := b) hid fuel false) ?_
  rintro ⟨c, result, waiting, k⟩ ⟨c', result', waiting', k'⟩ - ⟨hc, hr, hw, hk⟩
  dsimp only at hc hr hw hk
  subst hc hr hw
  have hback := hk.setBehaviour (some c')
  cases result' with
  | ok u => exact ⟨rfl, hback⟩
  | error err => exact ⟨rfl, hback⟩

end

/-! Blocks that are not of the part -/

theorem Part.effect (hp : Part S g h) (hid : S id = false) (he : Effect id g g') :
    Part S g' h := by
  cases he with
  | take =>
    refine hp.aside (layout_updateNode g id fun _ => rfl) (fun j hj => ?_) rfl rfl
    rw [slot?_updateNode, if_neg (ne_of_outside hj hid)]
  | @accept s edge v hs hpub =>
    have hb : Beside S id g.history h.history g h := ⟨hp, [], rfl, rfl⟩
    have hout := hp.closed.outside ⟨s, edge, hs, hpub, rfl⟩ hid
    exact (hb.accept_aside v hout).part
  | emit | assign | display | say => exact hp.aside rfl (fun _ _ => rfl) rfl rfl

theorem Part.effects (hp : Part S g h) (hid : S id = false) (he : Effects id g g') :
    Part S g' h := by
  induction he with
  | refl => exact hp
  | tail _ he ih => exact ih.effect hid he

theorem Part.setBehaviour_aside (hp : Part S g h) (hid : S id = false) (c : Option β) :
    Part S (g.setBehaviour id c) h := by
  refine hp.aside (layout_setBehaviour g id c) (fun j hj => ?_) rfl rfl
  rw [slot?_setBehaviour, if_neg (ne_of_outside hj hid)]

theorem Part.invoke_aside [Behaviour β] (hp : Part S g h) (hid : S id = false) {fuel : Nat}
    {reply : Reply β Bool} (hi : g.invoke fuel id = some reply) : Part S reply.graph h := by
  rcases hp.source.invoke_cases hi with ⟨-, rfl⟩ | ⟨c, l, -, heff, heq⟩
  · exact hp
  · rw [heq]
    exact ((hp.setBehaviour_aside hid none).effects hid heff).setBehaviour_aside hid (some c)

theorem Part.settle_aside (hp : Part S g h) (hid : S id = false) (waiting : Bool) :
    Part S (g.settle id waiting) h := by
  cases waiting with
  | true =>
    exact hp.aside (layout_settle g id true) (fun j _ => slot?_queue g id j)
      (processing_settle g id true) (receivers_queue_outside g hid)
  | false =>
    refine hp.aside (layout_settle g id false) (fun j hj => ?_) rfl rfl
    exact (slot?_updateNode g id j _).trans (if_neg (ne_of_outside hj hid))

end Graph

end Patchbay
