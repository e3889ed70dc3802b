import Patchbay.Proofs.Discretion
import Patchbay.Proofs.Limits

/-! No built-in block looks at the history of its graph. So a run does the same whatever happened
before it, and adds the same to the history. -/

namespace Patchbay

/-- The graph as it would be with a longer past. -/
def Graph.recall {β : Type} (past : List Occurrence) (g : Graph β) : Graph β :=
  { g with history := g.history ++ past }

def Reply.recall {α β : Type} (past : List Occurrence) : Reply β α → Reply β α
  | ok a g => ok a (g.recall past)
  | error e g => error e (g.recall past)

def Turn.recall {β : Type} (past : List Occurrence) : Turn β → Turn β
  | again b waiting g => again b waiting (g.recall past)
  | finished b result waiting g => finished b result waiting (g.recall past)

namespace Reply

variable {α β : Type} (past : List Occurrence) (r : Reply β α)

@[simp] theorem result_recall : (r.recall past).result = r.result := by cases r <;> rfl

@[simp] theorem graph_recall : (r.recall past).graph = r.graph.recall past := by cases r <;> rfl

end Reply

namespace Graph

variable {α β : Type} (past : List Occurrence) (g : Graph β) (id : BlockId)

/-! Single calls -/

theorem editNode_recall (f : Node → Except GraphError (α × Node)) :
    (g.recall past).editNode id f = (g.editNode id f).recall past := by
  have hn : (g.recall past).node id = g.node id := rfl
  unfold editNode
  rw [hn]
  split <;> rfl

theorem queue_recall : (g.recall past).queue id = (g.queue id).recall past := by
  rw [queue_eq, queue_eq]
  rfl

theorem input_recall (s : SubscriptionId) (v : Value) :
    (g.recall past).input id s v = (g.input id s v).recall past := by
  have ha : (g.recall past).arena = g.arena := rfl
  have hc : ∀ port, (g.recall past).checkInput id port = g.checkInput id port := fun _ => rfl
  unfold input
  rw [ha]
  split
  · rfl
  · next edge _ =>
    split
    · rfl
    · rw [hc]
      split
      · rfl
      · have hq : ((g.recall past).notify (.received id edge v)).queue id =
            ((g.notify (.received id edge v)).queue id).recall past :=
          queue_recall past (g.notify (.received id edge v)) id
        rw [hq]
        exact editNode_recall past _ id _

theorem deliver_recall (v : Value) (ids : List SubscriptionId) :
    deliver v ids (g.recall past) = (deliver v ids g).recall past := by
  induction ids generalizing g with
  | nil => rfl
  | cons s rest ih =>
    have ha : (g.recall past).arena = g.arena := rfl
    unfold deliver
    rw [ha]
    split
    · rfl
    · rw [input_recall]
      cases g.input _ s v with
      | error err h => rfl
      | ok u h => exact ih h

theorem output_recall (port : String) (v : Value) :
    (g.recall past).output id port v = (g.output id port v).recall past := by
  have hn : (g.recall past).node id = g.node id := rfl
  unfold output
  rw [hn]
  split
  · rfl
  · split
    · rfl
    · exact deliver_recall past (g.notify (.emitted id port v)) v _

theorem closeRun_recall (report : RunReport) (r : Reply β Unit) :
    closeRun report (r.recall past) = (closeRun report r).recall past := by
  cases r <;> rfl

theorem incoming_recall : (g.recall past).incoming id = g.incoming id := by
  have hsearch : ∀ (target : BlockId) (steps : Nat) (stack : List BlockId)
      (visited : List SubscriptionId),
      (g.recall past).search target steps stack visited = g.search target steps stack visited := by
    intro target steps
    induction steps with
    | zero => exact fun _ _ => rfl
    | succ steps ih =>
      intro stack visited
      cases stack with
      | nil => rfl
      | cons j stack =>
        simp only [search, ih]
        rfl
  unfold incoming reaches
  simp only [hsearch]
  rfl

theorem agrees_recall (waiting : Bool) :
    View.Agrees ⟨g.recall past, id, waiting⟩ ⟨g, id, waiting⟩ where
  block := rfl
  node := rfl
  incoming := incoming_recall past g id

end Graph

theorem Program.Discreet.run_recall {β : Type} {P : Program β} (hd : P.Discreet)
    (past : List Occurrence) (g : Graph β) (id : BlockId) (waiting : Bool) :
    P.run id waiting (g.recall past) = (P.run id waiting g).recall past := by
  induction P generalizing waiting g with
  | look next ih =>
    have hsame := hd.1 _ _ (g.agrees_recall past id waiting)
    simp only [Program.run, hsame]
    exact ih _ (hd.2 _) g waiting
  | pop port next ih =>
    have hpop : (g.recall past).popValue id port = (g.popValue id port).recall past :=
      g.editNode_recall past id _
    simp only [Program.run, hpop, Reply.result_recall, Reply.graph_recall]
    exact ih _ (hd _) _ waiting
  | emit port v next ih =>
    simp only [Program.run, g.output_recall past, Reply.result_recall, Reply.graph_recall]
    exact ih _ (hd _) _ waiting
  | assign name v next ih => exact ih hd (g.setVariable name v) waiting
  | wait next ih => exact ih hd g true
  | display screen message next ih => exact ih hd (g.record (.shown screen message)) waiting
  | say action remark next ih => exact ih hd (g.record (.said id action remark)) waiting
  | again b => rfl
  | finish b result => rfl

namespace Graph

open HostsBuiltins (block)

variable {β : Type} [Behaviour β] [HostsBuiltins β] {g h : Graph β} {id : BlockId}
  (past : List Occurrence)

/-! Invocations and rounds -/

theorem takeTurns_recall (b : Builtin) (fuel : Nat) (waiting : Bool) (g : Graph β) :
    takeTurns id fuel (block b) waiting (g.recall past) =
      (takeTurns id fuel (block b) waiting g).map
        fun x => (x.1, x.2.1, x.2.2.1, x.2.2.2.recall past) := by
  induction fuel generalizing waiting g with
  | zero => rfl
  | succ fuel ih =>
    let P : Program β := b.process block id
    have hrun : P.run id waiting (g.recall past) = (P.run id waiting g).recall past :=
      (Builtin.process_discreet block id b).run_recall past g id waiting
    have hsame : (P.run id waiting g).block = block b :=
      (Builtin.process_endsIn block id b).run id waiting g
    rw [takeTurns_eq, takeTurns_eq, HostsBuiltins.process_block, hrun]
    cases hturn : P.run id waiting g with
    | again c waiting₁ k =>
      rw [hturn] at hsame
      obtain rfl : c = block b := hsame
      exact ih waiting₁ k
    | finished c result waiting₁ k => rfl

theorem MadeOfBuiltins.invoke_recall (hb : g.MadeOfBuiltins) (fuel : Nat) (id : BlockId) :
    (g.recall past).invoke fuel id = (g.invoke fuel id).map (Reply.recall past) := by
  cases hc : g.behaviour? id with
  | none =>
    have hc' : (g.recall past).behaviour? id = none := hc
    rw [invoke_eq_unknown hc, invoke_eq_unknown hc']
    rfl
  | some c =>
    obtain ⟨b, hbe⟩ := hb id (isSome_slot?_of_behaviour? hc)
    have hbe' : (g.recall past).behaviour? id = some (block b) := hbe
    have hset : (g.recall past).setBehaviour id none = (g.setBehaviour id none).recall past := rfl
    rw [invoke_eq hbe, invoke_eq hbe', hset, takeTurns_recall, Option.map_map, Option.map_map]
    congr 1
    funext x
    obtain ⟨b', result, waiting, k⟩ := x
    cases result <;> rfl

omit [Behaviour β] [HostsBuiltins β] in
theorem endTurn_recall (g : Graph β) (id : BlockId) (waiting : Bool) :
    (g.recall past).endTurn id waiting = (g.endTurn id waiting).recall past := by
  cases waiting with
  | true => exact congrArg (Reply.ok ()) (queue_recall past g id)
  | false => exact editNode_recall past g id _

/-- A wired graph in which every block is a built-in one, as it is between the invocations of a
run. -/
structure Plain (g : Graph β) : Prop where
  wired : g.Wired
  builtins : g.MadeOfBuiltins

theorem Plain.of_layout (hp : g.Plain) (hl : h.layout = g.layout)
    (hb : ∀ j, g.contains j → h.behaviour? j = g.behaviour? j) : h.Plain where
  wired := hp.wired.of_layout hl
  builtins j hj := by
    have hj' : g.contains j := (isSome_slot?_congr hl j).symm.trans hj
    rw [hb j hj']
    exact hp.builtins j hj'

theorem Plain.behaviour?_invoke (hp : g.Plain) {fuel : Nat} {reply : Reply β Bool}
    (hi : g.invoke fuel id = some reply) {j : BlockId} (hj : g.contains j) :
    reply.graph.behaviour? j = g.behaviour? j := by
  by_cases hid : j = id
  · subst hid
    obtain ⟨b, hb⟩ := hp.builtins j hj
    rw [hb]
    exact hp.wired.behaviour?_invoke_builtin hb hi
  · exact hp.wired.behaviour?_invoke hi hid

theorem Plain.settle (hp : g.Plain) {fuel : Nat} {waiting : Bool}
    (hi : g.invoke fuel id = some (.ok waiting h)) : (h.settle id waiting).Plain := by
  have hl : (h.settle id waiting).layout = g.layout :=
    (layout_settle h id waiting).trans (hp.wired.layout_invoke hi)
  refine hp.of_layout hl fun j hj => ?_
  rw [behaviour?_settle]
  exact hp.behaviour?_invoke hi hj

theorem Plain.runRound_recall (hp : g.Plain) (fuel : Nat) (ids : List BlockId) :
    runRound fuel ids (g.recall past) = (runRound fuel ids g).map (Reply.recall past) ∧
      ∀ count k, runRound fuel ids g = some (.ok count k) → k.Plain := by
  induction ids generalizing g with
  | nil =>
    refine ⟨rfl, fun count k hr => ?_⟩
    cases hr
    exact hp
  | cons id rest ih =>
    have hinvoke := hp.builtins.invoke_recall past fuel id
    unfold runRound
    cases hi : g.invoke fuel id with
    | none => simp [hinvoke, hi]
    | some answer =>
      cases answer with
      | error err h => simp [hinvoke, hi, Reply.recall]
      | ok waiting h =>
        obtain ⟨hrec, hplain⟩ := ih (hp.settle hi)
        have hturn := endTurn_recall past h id waiting
        rw [endTurn_invoke hi] at hturn
        simp only [hinvoke, hi, Option.map_some, Reply.recall, hturn, endTurn_invoke hi, hrec]
        cases hrest : runRound fuel rest (h.settle id waiting) with
        | none => exact ⟨rfl, nofun⟩
        | some answer =>
          cases answer with
          | error err k => exact ⟨rfl, nofun⟩
          | ok count k =>
            refine ⟨rfl, fun count' k' hr => ?_⟩
            cases hr
            exact hplain count k hrest

theorem Plain.runRounds_recall (hp : g.Plain) (fuel rounds : Nat) (report : RunReport) :
    runRounds fuel rounds report (g.recall past) =
      (runRounds fuel rounds report g).map fun x => (x.1, x.2.recall past) := by
  induction rounds generalizing report g with
  | zero => rfl
  | succ rounds ih =>
    have hq : (g.recall past).receivers = g.receivers := rfl
    have hs : (g.recall past).settings = g.settings := rfl
    unfold runRounds
    rw [hq, hs]
    split
    · rfl
    · split
      · rfl
      · have hplain : (g.startRound (report.rounds + 1)).Plain := hp.of_layout rfl fun _ _ => rfl
        obtain ⟨hrec, hkeep⟩ := hplain.runRound_recall past fuel g.receivers
        have hround : runRound fuel ((g.recall past).startRound (report.rounds + 1)).processing
            ((g.recall past).startRound (report.rounds + 1)) =
              (runRound fuel g.receivers (g.startRound (report.rounds + 1))).map
                (Reply.recall past) := hrec
        have hproc : (g.startRound (report.rounds + 1)).processing = g.receivers := rfl
        dsimp only
        rw [hround, hproc]
        cases hr : runRound fuel g.receivers (g.startRound (report.rounds + 1)) with
        | none => rfl
        | some answer =>
          cases answer with
          | error err k => rfl
          | ok count k => exact ih (hkeep count k hr) _

end Graph

end Patchbay
