import Patchbay.Proofs.Soundness
import Mathlib.Logic.Relation

/-! What a block can do to a wired graph while it is processed. An invocation is a sequence of
effects, so whatever each effect keeps, the invocation keeps. -/

namespace Patchbay

def Node.discard (n : Node) (port : String) : Node :=
  { n with buffers := n.buffers.setList port (n.buffers.list port).tail }

theorem Node.pop_eq_ok {n : Node} {port : String} (h : port ∈ n.inputs) :
    n.pop port = .ok ((n.buffers.list port).head?, n.discard port) := by
  simp [pop, checkInput_eq_ok_iff.mpr h, bind, Except.bind, pure, Except.pure, discard]

theorem Node.pop_eq_error {n : Node} {port : String} (h : port ∉ n.inputs) :
    n.pop port = .error (.invalidPort n.id port .input) := by
  simp [pop, checkInput, hasInput, h, bind, Except.bind]

def Turn.graph {β : Type} : Turn β → Graph β
  | again _ _ g => g
  | finished _ _ _ g => g

namespace Graph

variable {β : Type} {g h : Graph β} {id : BlockId}

theorem Wired.setBehaviour (hw : g.Wired) (id : BlockId) (b : Option β) :
    (g.setBehaviour id b).Wired := hw.of_layout (layout_setBehaviour g id b)

/-- What a single call of a block's program does to the graph, in parts. -/
inductive Effect (id : BlockId) : Graph β → Graph β → Prop
  | take {g : Graph β} {e : Entry β} {port : String} :
    g.slot? id = some e → port ∈ e.node.inputs → Effect id g (g.updateNode id (·.discard port))
  | emit {g : Graph β} {e : Entry β} {port : String} {v : Value} :
    g.slot? id = some e → port ∈ e.node.outputs → Effect id g (g.notify (.emitted id port v))
  | accept {g : Graph β} {s : SubscriptionId} {edge : Edge} {v : Value} :
    g.arena.get? s = some edge → edge.publisher = id → Effect id g (g.accept v edge)
  | assign {g : Graph β} {name : String} {v : Value} : Effect id g (g.setVariable name v)
  | display {g : Graph β} {screen : Screen} {message : Value} :
    Effect id g (g.record (.shown screen message))
  | say {g : Graph β} {action : String} {remark : Remark} :
    Effect id g (g.record (.said id action remark))

abbrev Effects (id : BlockId) : Graph β → Graph β → Prop := Relation.ReflTransGen (Effect id)

/-! What effects keep -/

theorem Effect.layout_eq (he : Effect id g h) : h.layout = g.layout := by
  cases he with
  | take => exact layout_updateNode _ _ fun _ => rfl
  | accept => exact layout_accept _ _ _
  | _ => rfl

theorem Effects.layout_eq (he : Effects id g h) : h.layout = g.layout := by
  induction he with
  | refl => rfl
  | tail _ he ih => exact he.layout_eq.trans ih

theorem Effect.processing_eq (he : Effect id g h) : h.processing = g.processing := by
  cases he with
  | accept => exact processing_accept _ _ _
  | _ => rfl

theorem Effects.processing_eq (he : Effects id g h) : h.processing = g.processing := by
  induction he with
  | refl => rfl
  | tail _ he ih => exact he.processing_eq.trans ih

theorem behaviour?_updateNode (g : Graph β) (id j : BlockId) (f : Node → Node) :
    (g.updateNode id f).behaviour? j = g.behaviour? j := by
  simp only [behaviour?, slot?_updateNode]
  split
  · cases g.slot? j <;> rfl
  · rfl

theorem behaviour?_accept (g : Graph β) (v : Value) (edge : Edge) (j : BlockId) :
    (g.accept v edge).behaviour? j = g.behaviour? j := by
  refine (behaviour?_updateNode _ _ _ _).trans ?_
  simp only [behaviour?, slot?_queue]
  rfl

theorem behaviour?_editNode {α : Type} (g : Graph β) (id : BlockId)
    (f : Node → Except GraphError (α × Node)) (j : BlockId) :
    (g.editNode id f).graph.behaviour? j = g.behaviour? j := by
  unfold editNode
  split
  · rw [Reply.graph_ok, behaviour?_updateNode]
  · rfl

theorem Effect.behaviour?_eq (he : Effect id g h) (j : BlockId) :
    h.behaviour? j = g.behaviour? j := by
  cases he with
  | take => exact behaviour?_updateNode _ _ _ _
  | accept => exact behaviour?_accept _ _ _ _
  | _ => rfl

theorem Effects.behaviour?_eq (he : Effects id g h) (j : BlockId) :
    h.behaviour? j = g.behaviour? j := by
  induction he with
  | refl => rfl
  | tail _ he ih => exact (he.behaviour?_eq j).trans ih

theorem Sound.take (hs : g.Sound) (id : BlockId) (port : String) :
    (g.updateNode id (·.discard port)).Sound := by
  refine hs.updateNode fun e he => ⟨rfl, fun p hp => ?_⟩
  simp only [Node.discard, Dict.list_setList] at hp
  split at hp
  · next heq =>
    subst heq
    refine hs.stored id e he p fun hnil => hp ?_
    rw [hnil]
    rfl
  · exact hs.stored id e he p hp

theorem Wired.behaviour?_input (hw : g.Wired) (id : BlockId) (s : SubscriptionId) (v : Value)
    (j : BlockId) : (g.input id s v).graph.behaviour? j = g.behaviour? j := by
  rcases hw.input_cases id s v with ⟨edge, -, -, hok⟩ | ⟨err, herr⟩
  · rw [hok]
    exact behaviour?_accept g v edge j
  · rw [herr, Reply.graph_error]

theorem Effect.sound (he : Effect id g h) (hs : g.Sound) : h.Sound := by
  cases he with
  | take => exact hs.take _ _
  | accept hg => exact hs.accept hg _
  | emit | display | say => exact hs.record _
  | assign =>
    exact hs.of_slots (hs.wired.of_layout (layout_setVariable _ _ _)) rfl rfl (fun _ hl => hl)
      hs.stored

theorem Effects.sound (he : Effects id g h) (hs : g.Sound) : h.Sound := by
  induction he with
  | refl => exact hs
  | tail _ he ih => exact he.sound ih

theorem Effect.history_suffix (he : Effect id g h) : g.history <:+ h.history := by
  cases he with
  | take | assign => exact List.suffix_refl _
  | emit | display | say => exact List.suffix_cons _ _
  | accept =>
    rw [history_accept]
    exact List.suffix_cons _ _

theorem Effects.history_suffix (he : Effects id g h) : g.history <:+ h.history := by
  induction he with
  | refl => exact List.suffix_refl _
  | tail _ he ih => exact ih.trans he.history_suffix

theorem isSome_slot?_congr {α : Type} {g : Graph α} {h : Graph β} (hl : h.layout = g.layout)
    (id : BlockId) : (h.slot? id).isSome = (g.slot? id).isSome := by
  rw [← outline_isSome, outline_congr hl, outline_isSome]

/-! Programs have effects -/

theorem popValue_eq_ok {e : Entry β} (h : g.slot? id = some e) {port : String}
    (hp : port ∈ e.node.inputs) : g.popValue id port =
      .ok (g.buffer id port).head? (g.updateNode id (·.discard port)) := by
  have hn : g.node id = .ok e.node := node_eq_ok_iff.mpr ⟨e, h, rfl⟩
  have hu : (g.updateNode id fun _ => e.node.discard port) = g.updateNode id (·.discard port) :=
    updateNode_congr h rfl
  simp only [popValue, editNode, hn, bind, Except.bind, Node.pop_eq_ok hp, buffer_of_slot? h, hu]

theorem popValue_eq_error {e : Entry β} (h : g.slot? id = some e) {port : String}
    (hp : port ∉ e.node.inputs) :
    g.popValue id port = .error (.invalidPort e.node.id port .input) g := by
  have hn : g.node id = .ok e.node := node_eq_ok_iff.mpr ⟨e, h, rfl⟩
  simp [popValue, editNode, hn, Node.pop_eq_error hp, bind, Except.bind]

/-- A value is taken from a declared input, or the graph stays as it is and the error names the
block. -/
theorem popValue_cases (g : Graph β) (id : BlockId) (port : String) :
    (∃ e, g.slot? id = some e ∧ port ∈ e.node.inputs ∧
        g.popValue id port =
          .ok (g.buffer id port).head? (g.updateNode id (·.discard port))) ∨
      ∃ err, err.block?.isSome ∧ g.popValue id port = .error err g := by
  cases h : g.slot? id with
  | none =>
    refine Or.inr ⟨.unknownBlock id, rfl, ?_⟩
    simp [popValue, editNode, node, h, bind, Except.bind]
  | some e =>
    by_cases hp : port ∈ e.node.inputs
    · exact Or.inl ⟨e, rfl, hp, popValue_eq_ok h hp⟩
    · exact Or.inr ⟨.invalidPort e.node.id port .input, rfl, popValue_eq_error h hp⟩

theorem layout_popValue (g : Graph β) (id : BlockId) (port : String) :
    (g.popValue id port).graph.layout = g.layout := by
  rcases popValue_cases g id port with ⟨e, -, -, hok⟩ | ⟨err, -, herr⟩
  · rw [hok, Reply.graph_ok]
    exact layout_updateNode g id (f := fun n => n.discard port) fun _ => rfl
  · rw [herr, Reply.graph_error]

theorem effects_foldl_accept (v : Value) {l : List Edge}
    (hl : ∀ edge ∈ l, edge.publisher = id ∧ ∃ s, g.arena.get? s = some edge) :
    Effects id g (l.foldl (·.accept v ·) g) := by
  induction l generalizing g with
  | nil => exact .refl
  | cons edge rest ih =>
    obtain ⟨hp, s, hs⟩ := hl edge List.mem_cons_self
    refine .head (.accept hs hp) (ih fun x hx => ?_)
    rw [arena_congr (layout_accept g v edge)]
    exact hl x (List.mem_cons_of_mem _ hx)

theorem Wired.effects_broadcast (hw : g.Wired) {e : Entry β} (h : g.slot? id = some e)
    {port : String} (hp : port ∈ e.node.outputs) (v : Value) :
    Effects id g (g.broadcast id port v) := by
  refine .head (.emit h hp) (effects_foldl_accept v fun edge hm => ?_)
  obtain ⟨hpub, -, s, hs⟩ := Arena.mem_edgesFrom.mp hm
  exact ⟨hpub, s, hw.arena.get?_eq_some_iff.mpr hs⟩

theorem Wired.behaviour?_output (hw : g.Wired) (id : BlockId) (port : String) (v : Value)
    (j : BlockId) : (g.output id port v).graph.behaviour? j = g.behaviour? j := by
  rcases hw.output_cases id port v with ⟨e, he, hp, hok⟩ | ⟨err, -, herr⟩
  · rw [hok]
    exact (hw.effects_broadcast he hp v).behaviour?_eq j
  · rw [herr, Reply.graph_error]

/-- What a single call of a block's program does to the graph, where a value that is emitted is
delivered within the call. -/
inductive Call (id : BlockId) : Graph β → Graph β → Prop
  | take {g : Graph β} {e : Entry β} {port : String} :
    g.slot? id = some e → port ∈ e.node.inputs → Call id g (g.updateNode id (·.discard port))
  | emit {g : Graph β} {e : Entry β} {port : String} {v : Value} :
    g.slot? id = some e → port ∈ e.node.outputs → Call id g (g.broadcast id port v)
  | assign {g : Graph β} {name : String} {v : Value} : Call id g (g.setVariable name v)
  | display {g : Graph β} {screen : Screen} {message : Value} :
    Call id g (g.record (.shown screen message))
  | say {g : Graph β} {action : String} {remark : Remark} :
    Call id g (g.record (.said id action remark))

abbrev Calls (id : BlockId) : Graph β → Graph β → Prop := Relation.ReflTransGen (Call id)

theorem Call.effects (hc : Call id g h) (hw : g.Wired) : Effects id g h := by
  cases hc with
  | take he hp => exact .single (.take he hp)
  | emit he hp => exact hw.effects_broadcast he hp _
  | assign => exact .single .assign
  | display => exact .single .display
  | say => exact .single .say

theorem Calls.effects (hc : Calls id g h) (hw : g.Wired) : Effects id g h := by
  induction hc with
  | refl => exact .refl
  | tail _ hc ih => exact ih.trans (hc.effects (hw.of_layout ih.layout_eq))

theorem calls_run (p : Program β) (waiting : Bool) (hw : g.Wired) :
    Calls id g (p.run id waiting g).graph := by
  -- A call does what it is there for, or it fails and changes nothing.
  induction p generalizing waiting g with
  | look next ih => exact ih _ waiting hw
  | pop port next ih =>
    rcases popValue_cases g id port with ⟨e, he, hp, hok⟩ | ⟨err, -, herr⟩
    · have hcall : Call id g (g.updateNode id (·.discard port)) := .take he hp
      simp only [Program.run, hok, Reply.graph]
      exact .head hcall (ih _ waiting (hw.of_layout (hcall.effects hw).layout_eq))
    · simp only [Program.run, herr, Reply.graph]
      exact ih _ waiting hw
  | emit port v next ih =>
    rcases hw.output_cases id port v with ⟨e, he, hp, hok⟩ | ⟨err, -, herr⟩
    · simp only [Program.run, hok, Reply.graph]
      exact .head (.emit he hp) (ih _ waiting (hw.of_layout (layout_broadcast g id port v)))
    · simp only [Program.run, herr, Reply.graph]
      exact ih _ waiting hw
  | assign name v next ih => exact .head .assign (ih waiting (hw.of_layout rfl))
  | wait next ih => exact ih true hw
  | display screen message next ih => exact .head .display (ih waiting (hw.of_layout rfl))
  | say action remark next ih => exact .head .say (ih waiting (hw.of_layout rfl))
  | again b => exact .refl
  | finish b result => exact .refl

theorem isSome_slot?_of_behaviour? {b : β} (hb : g.behaviour? id = some b) :
    (g.slot? id).isSome := by
  obtain ⟨e, he, -⟩ := Option.bind_eq_some_iff.mp hb
  exact Option.isSome_iff_exists.mpr ⟨e, he⟩

def conclude (id : BlockId) : β × Except GraphError Unit × Bool × Graph β → Reply β Bool
  | (b, .ok (), waiting, g) => .ok waiting (g.setBehaviour id (some b))
  | (b, .error err, _, g) => .error err (g.setBehaviour id (some b))

theorem graph_conclude (id : BlockId) (b : β) (result : Except GraphError Unit) (waiting : Bool)
    (g : Graph β) : (conclude id (b, result, waiting, g)).graph = g.setBehaviour id (some b) := by
  cases result <;> rfl

variable [Behaviour β]

theorem takeTurns_eq (id : BlockId) (fuel : Nat) (c : β) (waiting : Bool) (g : Graph β) :
    takeTurns id (fuel + 1) c waiting g =
      match (Behaviour.process id c).run id waiting g with
      | .again c waiting g => takeTurns id fuel c waiting g
      | .finished c result waiting g => some (c, result, waiting, g) := rfl

theorem calls_takeTurns {fuel : Nat} {b b' : β} {waiting waiting' : Bool}
    {result : Except GraphError Unit} (hw : g.Wired)
    (ht : takeTurns id fuel b waiting g = some (b', result, waiting', h)) : Calls id g h := by
  induction fuel generalizing b waiting g with
  | zero => cases ht
  | succ fuel ih =>
    have hcalls : Calls id g ((Behaviour.process id b).run id waiting g).graph :=
      calls_run _ waiting hw
    unfold takeTurns at ht
    cases hturn : (Behaviour.process id b).run id waiting g with
    | again b₁ waiting₁ g₁ =>
      simp only [hturn] at ht hcalls
      exact hcalls.trans (ih (hw.of_layout (hcalls.effects hw).layout_eq) ht)
    | finished b₁ result₁ waiting₁ g₁ =>
      simp only [hturn, Option.some.injEq, Prod.mk.injEq] at ht hcalls
      obtain ⟨-, -, -, rfl⟩ := ht
      exact hcalls

theorem effects_takeTurns {fuel : Nat} {b b' : β} {waiting waiting' : Bool}
    {result : Except GraphError Unit} (hw : g.Wired)
    (ht : takeTurns id fuel b waiting g = some (b', result, waiting', h)) : Effects id g h :=
  (calls_takeTurns hw ht).effects hw

/-! Invocations -/

theorem invoke_eq {b : β} (hb : g.behaviour? id = some b) (fuel : Nat) : g.invoke fuel id =
    (takeTurns id fuel b false (g.setBehaviour id none)).map (conclude id) := by
  unfold invoke
  rw [hb]
  dsimp only
  split <;> rename_i ht <;> rw [ht] <;> rfl

theorem invoke_eq_unknown (hb : g.behaviour? id = none) (fuel : Nat) :
    g.invoke fuel id = some (.error (.unknownBlock id) g) := by
  unfold invoke
  rw [hb]

theorem invoke_eq_ok_iff {b : β} (hb : g.behaviour? id = some b) {fuel : Nat} {waiting : Bool} :
    g.invoke fuel id = some (.ok waiting h) ↔ ∃ b' k,
      takeTurns id fuel b false (g.setBehaviour id none) = some (b', .ok (), waiting, k) ∧
      h = k.setBehaviour id (some b') := by
  rw [invoke_eq hb]
  constructor
  · intro hi
    obtain ⟨⟨b', result, waiting', k⟩, ht, hc⟩ := Option.map_eq_some_iff.mp hi
    cases result with
    | error => cases hc
    | ok =>
      cases hc
      exact ⟨b', k, ht, rfl⟩
  · rintro ⟨b', k, ht, rfl⟩
    rw [ht]
    rfl

/-- An invocation takes the behaviour out, makes calls and puts a behaviour back, unless there is
none to take. -/
theorem Wired.invoke_calls (hw : g.Wired) {fuel : Nat} {reply : Reply β Bool}
    (hi : g.invoke fuel id = some reply) :
    g.behaviour? id = none ∧ reply = .error (.unknownBlock id) g ∨
      ∃ b' k, (g.slot? id).isSome ∧ Calls id (g.setBehaviour id none) k ∧
        reply.graph = k.setBehaviour id (some b') := by
  cases hb : g.behaviour? id with
  | none =>
    rw [invoke_eq_unknown hb] at hi
    cases hi
    exact Or.inl ⟨rfl, rfl⟩
  | some b =>
    rw [invoke_eq hb] at hi
    obtain ⟨⟨b', result, waiting, k⟩, ht, rfl⟩ := Option.map_eq_some_iff.mp hi
    exact Or.inr ⟨b', k, isSome_slot?_of_behaviour? hb,
      calls_takeTurns (hw.setBehaviour id none) ht, graph_conclude ..⟩

theorem Wired.invoke_cases (hw : g.Wired) {fuel : Nat} {reply : Reply β Bool}
    (hi : g.invoke fuel id = some reply) :
    g.behaviour? id = none ∧ reply = .error (.unknownBlock id) g ∨
      ∃ b' k, (g.slot? id).isSome ∧ Effects id (g.setBehaviour id none) k ∧
        reply.graph = k.setBehaviour id (some b') := by
  rcases hw.invoke_calls hi with hnone | ⟨b', k, hl, hcalls, heq⟩
  · exact Or.inl hnone
  · exact Or.inr ⟨b', k, hl, hcalls.effects (hw.setBehaviour id none), heq⟩

/-! No call takes a block away, whatever graph it is made on -/

section

omit [Behaviour β]

theorem isSome_slot?_input (g : Graph β) (id : BlockId) (s : SubscriptionId) (v : Value)
    (j : BlockId) : ((g.input id s v).graph.slot? j).isSome = (g.slot? j).isSome := by
  unfold input
  split
  · rfl
  · split
    · rfl
    · split
      · rfl
      · refine (isSome_slot?_editNode _ _ j _).trans ?_
        rw [slot?_queue]
        rfl

theorem isSome_slot?_deliver (v : Value) (ids : List SubscriptionId) (g : Graph β) (j : BlockId) :
    ((deliver v ids g).graph.slot? j).isSome = (g.slot? j).isSome := by
  induction ids generalizing g with
  | nil => rfl
  | cons s rest ih =>
    unfold deliver
    split
    · rfl
    · next edge _ =>
      have hkeep := isSome_slot?_input g edge.subscriber s v j
      split
      · next h => rwa [h] at hkeep
      · next k h =>
        rw [h] at hkeep
        exact (ih k).trans hkeep

theorem isSome_slot?_output (g : Graph β) (id : BlockId) (port : String) (v : Value) (j : BlockId) :
    ((g.output id port v).graph.slot? j).isSome = (g.slot? j).isSome := by
  unfold output
  split
  · rfl
  · split
    · rfl
    · exact isSome_slot?_deliver v _ _ j

theorem isSome_slot?_run (p : Program β) (waiting : Bool) (g : Graph β) (j : BlockId) :
    ((p.run id waiting g).graph.slot? j).isSome = (g.slot? j).isSome := by
  induction p generalizing waiting g with
  | look next ih => exact ih _ waiting g
  | pop port next ih => exact (ih _ waiting _).trans (isSome_slot?_editNode g id j _)
  | emit port v next ih => exact (ih _ waiting _).trans (isSome_slot?_output g id port v j)
  | assign name v next ih => exact ih waiting _
  | wait next ih => exact ih true g
  | display screen message next ih => exact ih waiting _
  | say action remark next ih => exact ih waiting _
  | again b => rfl
  | finish b result => rfl

end

theorem isSome_slot?_takeTurns {fuel : Nat} {b b' : β} {waiting waiting' : Bool}
    {result : Except GraphError Unit}
    (ht : takeTurns id fuel b waiting g = some (b', result, waiting', h)) (j : BlockId) :
    (h.slot? j).isSome = (g.slot? j).isSome := by
  induction fuel generalizing b waiting g with
  | zero => cases ht
  | succ fuel ih =>
    have hkeep : (((Behaviour.process id b).run id waiting g).graph.slot? j).isSome =
        (g.slot? j).isSome := isSome_slot?_run _ waiting g j
    rw [takeTurns_eq] at ht
    cases hturn : (Behaviour.process id b).run id waiting g with
    | again b₁ waiting₁ g₁ =>
      simp only [hturn] at ht hkeep
      exact (ih ht).trans hkeep
    | finished b₁ result₁ waiting₁ g₁ =>
      simp only [hturn, Option.some.injEq, Prod.mk.injEq] at ht hkeep
      obtain ⟨-, -, -, rfl⟩ := ht
      exact hkeep

theorem isSome_slot?_invoke {fuel : Nat} {waiting : Bool}
    (hi : g.invoke fuel id = some (.ok waiting h)) : (h.slot? id).isSome := by
  cases hb : g.behaviour? id with
  | none =>
    rw [invoke_eq_unknown hb] at hi
    cases hi
  | some b =>
    obtain ⟨b', k, ht, rfl⟩ := (invoke_eq_ok_iff hb).mp hi
    have hk : (k.slot? id).isSome = (g.slot? id).isSome :=
      (isSome_slot?_takeTurns ht id).trans (isSome_slot?_updateEntry g id id _)
    have hh : ((k.setBehaviour id (some b')).slot? id).isSome = (k.slot? id).isSome :=
      isSome_slot?_updateEntry k id id _
    rw [hh, hk]
    exact isSome_slot?_of_behaviour? hb

theorem endTurn_invoke {fuel : Nat} {waiting : Bool}
    (hi : g.invoke fuel id = some (.ok waiting h)) :
    h.endTurn id waiting = .ok () (h.settle id waiting) :=
  endTurn_eq (isSome_slot?_invoke hi) waiting

/-! What invocations keep -/

omit [Behaviour β] in
theorem behaviour?_setBehaviour (g : Graph β) (id j : BlockId) (b : Option β)
    (hl : (g.slot? id).isSome) :
    (g.setBehaviour id b).behaviour? j = if j = id then b else g.behaviour? j := by
  obtain ⟨e, he⟩ := Option.isSome_iff_exists.mp hl
  simp only [behaviour?, slot?_setBehaviour]
  split
  · next h => simp [h, he]
  · rfl

omit [Behaviour β] in
theorem Sound.setBehaviour (hs : g.Sound) (id : BlockId) (b : Option β) :
    (g.setBehaviour id b).Sound := by
  have hl := layout_setBehaviour g id b
  refine hs.of_slots (hs.wired.of_layout hl) rfl rfl
    (fun j hj => by rwa [isSome_slot?_congr hl]) fun j e he port hb => ?_
  rw [slot?_setBehaviour] at he
  split at he
  · obtain ⟨e', he', rfl⟩ := Option.map_eq_some_iff.mp he
    exact hs.stored j e' he' port hb
  · exact hs.stored j e he port hb

/-- The answer and the behaviour that is put back are what the turns of the block end with. -/
theorem exists_takeTurns_of_invoke {b : β} (hb : g.behaviour? id = some b) {fuel : Nat}
    {reply : Reply β Bool} (hi : g.invoke fuel id = some reply) : ∃ b' result waiting k,
      takeTurns id fuel b false (g.setBehaviour id none) = some (b', result, waiting, k) ∧
      reply.result = result.map (fun _ => waiting) ∧ reply.graph.behaviour? id = some b' := by
  rw [invoke_eq hb] at hi
  obtain ⟨⟨b', result, waiting, k⟩, ht, rfl⟩ := Option.map_eq_some_iff.mp hi
  have hl : (k.slot? id).isSome := by
    rw [isSome_slot?_takeTurns ht, isSome_slot?_congr (layout_setBehaviour g id none)]
    exact isSome_slot?_of_behaviour? hb
  refine ⟨b', result, waiting, k, ht, by cases result <;> rfl, ?_⟩
  rw [graph_conclude, behaviour?_setBehaviour k id id _ hl, if_pos rfl]

section

variable {fuel : Nat} {reply : Reply β Bool} (hi : g.invoke fuel id = some reply)

include hi

theorem Wired.layout_invoke (hw : g.Wired) : reply.graph.layout = g.layout := by
  rcases hw.invoke_cases hi with ⟨-, rfl⟩ | ⟨b', k, -, heff, heq⟩
  · rfl
  · rw [heq, layout_setBehaviour, heff.layout_eq, layout_setBehaviour]

theorem Wired.processing_invoke (hw : g.Wired) : reply.graph.processing = g.processing := by
  rcases hw.invoke_cases hi with ⟨-, rfl⟩ | ⟨b', k, -, heff, heq⟩
  · rfl
  · exact (congrArg Graph.processing heq).trans heff.processing_eq

theorem Wired.history_suffix_invoke (hw : g.Wired) : g.history <:+ reply.graph.history := by
  rcases hw.invoke_cases hi with ⟨-, rfl⟩ | ⟨b', k, -, heff, heq⟩
  · exact List.suffix_refl _
  · have hs : g.history <:+ k.history := heff.history_suffix
    rw [heq]
    exact hs

theorem Sound.invoke (hs : g.Sound) : reply.graph.Sound := by
  rcases hs.wired.invoke_cases hi with ⟨-, rfl⟩ | ⟨b', k, -, heff, heq⟩
  · exact hs
  · exact heq ▸ (heff.sound (hs.setBehaviour id none)).setBehaviour id _

theorem Wired.behaviour?_invoke (hw : g.Wired) {j : BlockId} (hj : j ≠ id) :
    reply.graph.behaviour? j = g.behaviour? j := by
  rcases hw.invoke_cases hi with ⟨-, rfl⟩ | ⟨b', k, hl, heff, heq⟩
  · rfl
  · have hl' : (k.slot? id).isSome := by
      rwa [isSome_slot?_congr (heff.layout_eq.trans (layout_setBehaviour g id none))]
    rw [heq, behaviour?_setBehaviour k id j _ hl', if_neg hj, heff.behaviour?_eq,
      behaviour?_setBehaviour g id j _ hl, if_neg hj]

theorem Wired.complete_invoke (hw : g.Wired) (hc : g.Complete) : reply.graph.Complete := by
  refine complete_iff.mpr fun j hj => ?_
  rw [isSome_slot?_congr (hw.layout_invoke hi)] at hj
  by_cases hid : j = id
  · rcases hw.invoke_cases hi with ⟨-, rfl⟩ | ⟨b', k, hl, heff, heq⟩
    · exact complete_iff.mp hc j hj
    · have hl' : (k.slot? id).isSome := by
        rwa [isSome_slot?_congr (heff.layout_eq.trans (layout_setBehaviour g id none))]
      rw [heq, behaviour?_setBehaviour k id j _ hl', if_pos hid]
      rfl
  · rw [hw.behaviour?_invoke hi hid]
    exact complete_iff.mp hc j hj

end

end Graph

end Patchbay
