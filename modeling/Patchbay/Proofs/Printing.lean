import Patchbay.Proofs.Endings
import Patchbay.Proofs.Limits

/-! What runs of built-in blocks print. Only alerts show anything, and none of the blocks assigns a
variable, so each invocation prints at most the newest message of an alert, and a run prints what
its invocations print, up to the one that it failed at. -/

namespace Patchbay

theorem filterMap_cons_toList {α γ : Type} (f : α → Option γ) (a : α) (l : List α) :
    (a :: l).filterMap f = (f a).toList ++ l.filterMap f := by
  cases h : f a <;> simp [h]

/-- What an occurrence shows on the console. -/
def Occurrence.printed? : Occurrence → Option Value
  | shown .console message => some message
  | _ => none

namespace Graph

variable {β : Type} {g h k : Graph β} {id : BlockId} {l l' : List Value}

/-- What has been shown on the console, the oldest first. -/
def printed (g : Graph β) : List Value := (g.history.filterMap Occurrence.printed?).reverse

/-- Whether exactly the messages `l` are shown on the console on the way from `g` to `h`, and no
variable changes meanwhile. -/
structure Prints (g : Graph β) (l : List Value) (h : Graph β) : Prop where
  vars : h.vars = g.vars
  printed : h.printed = g.printed ++ l

theorem Prints.refl (g : Graph β) : Prints g [] g := ⟨rfl, by simp⟩

theorem Prints.trans (hp : Prints g l h) (hp' : Prints h l' k) : Prints g (l ++ l') k := by
  refine ⟨hp'.vars.trans hp.vars, ?_⟩
  rw [hp'.printed, hp.printed, List.append_assoc]

theorem prints_record (g : Graph β) (o : Occurrence) :
    Prints g o.printed?.toList (g.record o) := by
  refine ⟨rfl, ?_⟩
  cases ho : o.printed? <;> simp [printed, record, ho]

theorem prints_editNode {α : Type} (g : Graph β) (id : BlockId)
    (f : Node → Except GraphError (α × Node)) : Prints g [] (g.editNode id f).graph := by
  unfold editNode
  split
  · exact ⟨rfl, by simp [printed, updateNode, updateEntry]⟩
  · exact .refl g

theorem prints_queue (g : Graph β) (id : BlockId) : Prints g [] (g.queue id) := by
  unfold queue
  split
  · exact .refl g
  · exact ⟨rfl, by simp [printed]⟩

theorem prints_input (g : Graph β) (id : BlockId) (s : SubscriptionId) (v : Value) :
    Prints g [] (g.input id s v).graph := by
  unfold input
  split
  · exact .refl g
  · next edge _ =>
    split
    · exact .refl g
    · split
      · exact .refl g
      · have hseen := prints_record g (.observed g.observers (.received id edge v))
        have hqueue := prints_queue (g.notify (.received id edge v)) id
        exact (hseen.trans hqueue).trans (prints_editNode _ id _)

theorem prints_deliver (v : Value) (ids : List SubscriptionId) (g : Graph β) :
    Prints g [] (deliver v ids g).graph := by
  induction ids generalizing g with
  | nil => exact .refl g
  | cons s rest ih =>
    unfold deliver
    split
    · exact .refl g
    · next edge _ =>
      have hinput := prints_input g edge.subscriber s v
      split
      · next heq => rwa [heq] at hinput
      · next k heq =>
        rw [heq] at hinput
        exact hinput.trans (ih k)

theorem prints_output (g : Graph β) (id : BlockId) (port : String) (v : Value) :
    Prints g [] (g.output id port v).graph := by
  unfold output
  split
  · exact .refl g
  · split
    · exact .refl g
    · have hseen := prints_record g (.observed g.observers (.emitted id port v))
      exact hseen.trans (prints_deliver v _ _)

theorem prints_settle (g : Graph β) (id : BlockId) (waiting : Bool) :
    Prints g [] (g.settle id waiting) := by
  cases waiting with
  | true => exact prints_queue g id
  | false => exact ⟨rfl, by simp [printed, settle, updateNode, updateEntry]⟩

theorem prints_startRound (g : Graph β) (round : Nat) : Prints g [] (g.startRound round) := by
  have hseen := prints_record ({ g with processing := g.receivers, receivers := [] } : Graph β)
    (.observed g.observers (.roundStarted round g.receivers))
  exact ⟨hseen.vars, hseen.printed⟩

theorem prints_closeRun (report : RunReport) (r : Reply β Unit) :
    Prints r.graph [] (closeRun report r).graph := by
  cases r with
  | ok u g =>
    have hseen := prints_record ({ g with processing := [] } : Graph β)
      (.observed g.observers (.runFinished report))
    exact ⟨hseen.vars, hseen.printed⟩
  | error e g =>
    have hseen := prints_record
      ({ g with processing := [], receivers := [] } : Graph β).clearBuffers
      (.logged (.runAborted e.block? report.rounds e))
    exact ⟨hseen.vars, hseen.printed⟩

end Graph

/-! Programs that print nothing -/

/-- Whether a program neither assigns a variable nor shows anything. -/
def Program.Reticent {β : Type} : Program β → Prop
  | look next => ∀ view, (next view).Reticent
  | pop _ next => ∀ x, (next x).Reticent
  | emit _ _ next => ∀ x, (next x).Reticent
  | assign _ _ _ => False
  | wait next => next.Reticent
  | display _ _ _ => False
  | say _ _ next => next.Reticent
  | again _ => True
  | finish _ _ => True

theorem Program.Reticent.prints {β : Type} {p : Program β} (hp : p.Reticent) (id : BlockId)
    (waiting : Bool) (g : Graph β) : g.Prints [] (p.run id waiting g).graph := by
  induction p generalizing waiting g with
  | look next ih => exact ih _ (hp _) waiting g
  | pop port next ih =>
    exact (Graph.prints_editNode g id _).trans (ih _ (hp _) waiting (g.popValue id port).graph)
  | emit port v next ih =>
    exact (Graph.prints_output g id port v).trans (ih _ (hp _) waiting (g.output id port v).graph)
  | wait next ih => exact ih hp true g
  | say action remark next ih =>
    exact (Graph.prints_record g (.said id action remark)).trans (ih hp waiting _)
  | assign | display => exact hp.elim
  | again b | finish b result => exact .refl g

namespace Builtin

variable {β : Type}

theorem sumRest_reticent (b : β) (id : BlockId) (count : Nat) (total : Value) :
    (sumRest b id count total).Reticent := by
  induction count generalizing total with
  | zero => exact fun _ => trivial
  | succ count ih =>
    intro x
    rcases x with err | _ | v
    · trivial
    · exact fun _ => trivial
    · cases h : total.add? v with
      | none => simp [h, fail, Program.Reticent]
      | some total => simpa [h] using ih total

theorem compareRest_reticent (b : β) : (compareRest b).Reticent := by
  intro view
  dsimp only
  split
  · trivial
  · split <;> trivial

theorem compareProgram_reticent (b : β) : (compareProgram b).Reticent := by
  have hrest := compareRest_reticent b
  intro view
  dsimp only
  split
  · trivial
  · exact hrest
  · intro v
    rcases v with err | v
    · trivial
    · intro o
      rcases o with err | o
      · trivial
      · rcases v with _ | v <;> rcases o with _ | o
        · exact hrest
        · exact hrest
        · exact hrest
        · intro x
          rcases x with err | u <;> trivial

theorem process_reticent (wrap : Builtin → β) (id : BlockId) {self : Builtin}
    (hn : ∀ screen, self ≠ .alert screen) : (self.process wrap id).Reticent := by
  cases self with
  | forward =>
    intro x
    rcases x with err | _ | v
    · trivial
    · trivial
    · exact fun _ => trivial
  | source initial =>
    intro view
    dsimp only
    split
    · trivial
    · exact fun _ => trivial
  | sum =>
    intro x
    rcases x with err | _ | v
    · trivial
    · trivial
    · intro view
      dsimp only
      split
      · trivial
      · exact sumRest_reticent _ _ _ _
  | alert screen => exact absurd rfl (hn screen)
  | compare => exact compareProgram_reticent _

end Builtin

/-! Invocations -/

namespace Graph

/-- A block takes the newest value off an input, or fails where there is none. -/
theorem Sound.popValue_cases {β : Type} {g : Graph β} (hs : g.Sound) (id : BlockId)
    (port : String) :
    (∃ k, g.popValue id port = .ok (g.buffer id port).head? k) ∨
      (g.buffer id port = [] ∧ ∃ err, g.popValue id port = .error err g) := by
  cases he : g.slot? id with
  | none =>
    refine Or.inr ⟨by simp [buffer, he], .unknownBlock id, ?_⟩
    simp [popValue, editNode, node, he, bind, Except.bind]
  | some e =>
    by_cases hp : port ∈ e.node.inputs
    · exact Or.inl ⟨_, popValue_eq_ok he hp⟩
    · refine Or.inr ⟨?_, _, popValue_eq_error he hp⟩
      rw [buffer_of_slot? he]
      by_contra hne
      exact hp (hs.stored id e he port hne)

section

variable {β : Type} [Behaviour β] [HostsBuiltins β] {g h : Graph β} {id : BlockId}

open HostsBuiltins (block)

theorem prints_takeTurns {fuel : Nat} {self : Builtin} (hn : ∀ screen, self ≠ .alert screen)
    {waiting : Bool} {b' : β} {result : Except GraphError Unit} {waiting' : Bool}
    (ht : takeTurns id fuel (block self) waiting g = some (b', result, waiting', h)) :
    g.Prints [] h := by
  induction fuel generalizing waiting g with
  | zero => cases ht
  | succ fuel ih =>
    have hturn : g.Prints [] ((self.process block id).run id waiting g).graph :=
      (self.process_reticent block id hn).prints id waiting g
    have hstay : ((self.process block id).run id waiting g).block = block self :=
      (self.process_endsIn block id).run id waiting g
    rw [takeTurns_eq, HostsBuiltins.process_block] at ht
    cases hr : (self.process block id).run id waiting g with
    | again c w k =>
      rw [hr] at ht hturn hstay
      obtain rfl : c = block self := hstay
      exact hturn.trans (ih ht)
    | finished c r w k =>
      rw [hr] at ht hturn
      cases ht
      exact hturn

theorem Sound.prints_alert (hs : g.Sound) {fuel : Nat} {waiting : Bool} {b' : β}
    {result : Except GraphError Unit} {waiting' : Bool}
    (ht : takeTurns id fuel (block (.alert .console)) waiting g = some (b', result, waiting', h)) :
    g.Prints (g.buffer id Builtin.messageInput).head?.toList h := by
  cases fuel with
  | zero => cases ht
  | succ fuel =>
    rw [takeTurns_eq, HostsBuiltins.process_block] at ht
    have hpop : g.Prints [] (g.popValue id Builtin.messageInput).graph := prints_editNode g id _
    rcases hs.popValue_cases id Builtin.messageInput with ⟨k, hok⟩ | ⟨hnil, err, herr⟩
    · rw [hok, Reply.graph_ok] at hpop
      cases hb : (g.buffer id Builtin.messageInput).head? with
      | none =>
        simp only [Builtin.process, Builtin.alertProgram, Program.run, hok, hb, Reply.result,
          Reply.graph, Builtin.done] at ht
        cases ht
        exact hpop
      | some message =>
        simp only [Builtin.process, Builtin.alertProgram, Program.run, hok, hb, Reply.result,
          Reply.graph, Builtin.done] at ht
        cases ht
        exact hpop.trans (prints_record k (.shown .console message))
    · simp only [Builtin.process, Builtin.alertProgram, Program.run, herr, Reply.result,
        Reply.graph, Builtin.fail] at ht
      cases ht
      simpa [hnil] using Prints.refl g

end

/-- Whether all alerts show their messages on the console. -/
def Consoled (g : Graph Builtin) : Prop :=
  ∀ id screen, g.behaviour? id = some (.alert screen) → screen = .console

end Graph

namespace Moment

/-- The message that the next invocation shows: the newest one, if the block is an alert that has
one. -/
def message? (μ : Moment Builtin) : Option Value :=
  match μ.pending with
  | [] => none
  | id :: _ =>
    match μ.graph.behaviour? id with
    | some (.alert _) => (μ.graph.buffer id Builtin.messageInput).head?
    | _ => none

end Moment

namespace Graph

variable {g : Graph Builtin}

theorem Sound.prints_invoke (hs : g.Sound) (hc : g.Consoled) {fuel : Nat} {id : BlockId}
    {reply : Reply Builtin Bool} (hi : g.invoke fuel id = some reply) (report : RunReport)
    (rest : List BlockId) :
    g.Prints (Moment.mk g report (id :: rest)).message?.toList reply.graph := by
  cases hb : g.behaviour? id with
  | none =>
    rw [invoke_eq_unknown hb] at hi
    cases hi
    simpa [Moment.message?, hb] using Prints.refl g
  | some b =>
    rw [invoke_eq hb] at hi
    obtain ⟨⟨b', result, waiting, k⟩, ht, rfl⟩ := Option.map_eq_some_iff.mp hi
    rw [graph_conclude]
    have hturns : (g.setBehaviour id none).Prints
        (Moment.mk g report (id :: rest)).message?.toList k := by
      by_cases ha : ∃ screen, b = .alert screen
      · obtain ⟨screen, rfl⟩ := ha
        obtain rfl : screen = .console := hc id screen hb
        have hprints := (hs.setBehaviour id none).prints_alert ht
        simpa [Moment.message?, hb, buffer_setBehaviour] using hprints
      · have hn : ∀ screen, b ≠ .alert screen := fun screen heq => ha ⟨screen, heq⟩
        have hnone : (Moment.mk g report (id :: rest)).message? = none := by
          simp only [Moment.message?, hb]
          split
          · next screen heq => exact absurd (Option.some.inj heq) (hn screen)
          · rfl
        rw [hnone]
        exact prints_takeTurns hn ht
    exact ⟨hturns.vars, hturns.printed⟩

end Graph

/-! Whole runs -/

namespace Moment

variable {β : Type} [Behaviour β] {μ ν : Moment β}

/-- Whether a run goes from here through exactly these moments, and what it answers after the last
one. -/
inductive Course : Moment β → List (Moment β) → Reply β RunReport → Prop
  | ends {μ : Moment β} {r : Reply β Unit} :
    μ.Ends r → Course μ [μ] (Graph.closeRun μ.report r)
  | step {μ ν : Moment β} {l : List (Moment β)} {reply : Reply β RunReport} :
    μ.Step ν → Course ν l reply → Course μ (μ :: l) reply

theorem exists_course {r : Reply β Unit} (hs : Relation.ReflTransGen Step μ ν) (he : ν.Ends r) :
    ∃ l, μ.Course l (Graph.closeRun ν.report r) := by
  induction hs using Relation.ReflTransGen.head_induction_on with
  | refl => exact ⟨_, .ends he⟩
  | head hs _ ih =>
    obtain ⟨l, hl⟩ := ih
    exact ⟨_, .step hs hl⟩

theorem Course.exists_end {l : List (Moment β)} {reply : Reply β RunReport}
    (hc : μ.Course l reply) : ∃ ν r, Relation.ReflTransGen Step μ ν ∧ ν.Ends r ∧
      reply = Graph.closeRun ν.report r := by
  induction hc with
  | ends he => exact ⟨_, _, .refl, he, rfl⟩
  | step hs _ ih =>
    obtain ⟨ν, r, hν, he, hreply⟩ := ih
    exact ⟨ν, r, .head hs hν, he, hreply⟩

end Moment

namespace Graph

variable {β : Type} [Behaviour β] {g : Graph β}

/-- Whether a run of `g` goes through exactly these moments and answers so. -/
def Course (g : Graph β) : List (Moment β) → Reply β RunReport → Prop :=
  Moment.Course ⟨g.startRun, ⟨0, 0⟩, []⟩

theorem run_eq_some_iff_course {reply : Reply β RunReport} :
    (∃ fuel, g.run fuel = some reply) ↔ ∃ l, g.Course l reply := by
  rw [run_eq_some_iff]
  constructor
  · rintro ⟨μ, r, hv, he, rfl⟩
    exact Moment.exists_course hv he
  · rintro ⟨l, hl⟩
    exact hl.exists_end

end Graph

namespace Moment

variable {g : Graph Builtin} {μ ν : Moment Builtin}

theorem Ends.prints {r : Reply Builtin Unit} (he : μ.Ends r) (hs : μ.graph.Sound)
    (hc : μ.graph.Consoled) : μ.graph.Prints μ.message?.toList r.graph := by
  cases he with
  | quiet | limit => exact .refl _
  | failure hi => exact hs.prints_invoke hc hi _ _

theorem Step.prints (hstep : μ.Step ν) (hs : μ.graph.Sound) (hc : μ.graph.Consoled) :
    μ.graph.Prints μ.message?.toList ν.graph := by
  cases hstep with
  | @start k report => exact Graph.prints_startRound k _
  | @invoke k h report id rest fuel waiting hi =>
    have hinvoke := hs.prints_invoke hc hi report rest
    have hsettle := Graph.prints_settle h id waiting
    simpa using hinvoke.trans hsettle

end Moment

namespace Graph

variable {g : Graph Builtin} {μ : Moment Builtin}

theorem Visits.consoled (hg : g.Ready) (hc : g.Consoled) (hv : g.Visits μ) : μ.graph.Consoled := by
  intro id screen hb
  have hμ := hv.regular hg.toSound hg.complete
  have hl : (g.slot? id).isSome := by
    rw [← isSome_slot?_congr hμ.layout]
    exact isSome_slot?_of_behaviour? hb
  obtain ⟨b, hbe⟩ := Option.isSome_iff_exists.mp (complete_iff.mp hg.complete id hl)
  have hkeep := hv.behaviour?_builtin hg.toSound hg.complete hbe
  rw [hb] at hkeep
  cases hkeep
  exact hc id screen hbe

theorem Visits.prints (hg : g.Ready) (hc : g.Consoled) (hv : g.Visits μ) {l : List (Moment Builtin)}
    {reply : Reply Builtin RunReport} (hl : μ.Course l reply) :
    μ.graph.Prints (l.filterMap Moment.message?) reply.graph := by
  induction hl with
  | @ends μ r he =>
    have hμ := hv.regular hg.toSound hg.complete
    have hend := he.prints hμ.sound (hv.consoled hg hc)
    rw [filterMap_cons_toList]
    exact hend.trans (prints_closeRun μ.report r)
  | step hs _ ih =>
    have hμ := hv.regular hg.toSound hg.complete
    have hstep := hs.prints hμ.sound (hv.consoled hg hc)
    rw [filterMap_cons_toList]
    exact hstep.trans (ih (hv.tail hs))

/-- A run of built-in blocks prints the newest message of each alert that is invoked with one, and
leaves no variables. -/
theorem Ready.course_prints (hg : g.Ready) (hc : g.Consoled) {l : List (Moment Builtin)}
    {reply : Reply Builtin RunReport} (hl : g.Course l reply) :
    reply.graph.vars = .empty ∧
      reply.graph.printed = g.printed ++ l.filterMap Moment.message? := by
  have hprints := Visits.prints hg hc .refl hl
  exact ⟨hprints.vars, hprints.printed⟩

end Graph

end Patchbay
