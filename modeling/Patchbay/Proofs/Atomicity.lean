import Patchbay.Blocks.Builtin
import Patchbay.Proofs.Operations

/-! Calls that fail. Several calls change a graph in more than one step, with a look at the graph
before each of them; whatever a call may fail for, it finds at the first look, before it changes
anything. -/

namespace Patchbay

/-- Whether a call on `g` leaves `g` as it was, history included, if it fails. -/
def Reply.Spares {α β : Type} (r : Reply β α) (g : Graph β) : Prop :=
  ∀ err h, r = .error err h → h = g

namespace Reply

variable {α β : Type} {r : Reply β α} {g : Graph β} {err : GraphError}

theorem Spares.ok (a : α) (h g : Graph β) : (ok a h).Spares g := nofun

theorem Spares.error (err : GraphError) (g : Graph β) : (error err g : Reply β α).Spares g := by
  rintro _ _ ⟨⟩
  rfl

theorem Spares.eq_error (hs : r.Spares g) (hr : r.result = .error err) : r = .error err g := by
  have herr : r = .error err r.graph := Reply.eq_error hr
  rwa [hs err r.graph herr] at herr

end Reply

namespace Graph

variable {α β : Type} {g : Graph β} {id : BlockId}

open Reply (Spares)

theorem spares_editNode (g : Graph β) (id : BlockId) (f : Node → Except GraphError (α × Node)) :
    (g.editNode id f).Spares g := by
  unfold editNode
  split
  · exact .ok _ _ _
  · exact .error _ _

theorem spares_subscribe (g : Graph β) (edge : Edge) :
    (g.subscribe edge.subscriber edge.input edge.publisher edge.output).Spares g := by
  cases hc : g.checkEdge edge with
  | error err =>
    rw [subscribe_eq_error hc]
    exact .error err g
  | ok =>
    -- Both ends exist, so neither list is missing when the edge is entered there.
    rw [subscribe_eq hc]
    cases g.arena.find? edge with
    | some s => exact .ok s g g
    | none => exact .ok _ _ g

theorem spares_unsubscribe (g : Graph β) (id : BlockId) (input : String)
    (publisher : Option BlockId) (output : Option String) :
    (g.unsubscribe id input publisher output).Spares g := by
  unfold unsubscribe
  split
  · exact .error _ g
  · split
    · exact .error _ g
    · exact .ok _ _ g

theorem Wired.spares_input (hw : g.Wired) (id : BlockId) (s : SubscriptionId) (v : Value) :
    (g.input id s v).Spares g := by
  rcases hw.input_cases id s v with ⟨edge, -, -, hok⟩ | ⟨err, herr⟩
  · rw [hok]
    exact .ok _ _ g
  · rw [herr]
    exact .error err g

theorem Wired.spares_output (hw : g.Wired) (id : BlockId) (port : String) (v : Value) :
    (g.output id port v).Spares g := by
  rcases hw.output_cases id port v with ⟨e, -, -, hok⟩ | ⟨err, -, herr⟩
  · rw [hok]
    exact .ok _ _ g
  · rw [herr]
    exact .error err g

theorem Idle.spares_remove (hi : g.Idle) (id : BlockId) : (g.remove id).Spares g := by
  cases hs : g.slot? id with
  | none =>
    rw [remove_eq_unknown hs]
    exact .error _ g
  | some e =>
    -- Between calls no behaviour is away, so there is one to answer with.
    obtain ⟨b, hb⟩ := Option.isSome_iff_exists.mp (hi.complete id e hs)
    obtain ⟨h, hok⟩ := remove_eq_ok ((behaviour?_of_slot? hs).trans hb)
    rw [hok]
    exact .ok b h g

/-- A call that fails leaves everything as it was and tells nobody, and an output that is declared
never fails, so no value reaches some of its subscribers only. -/
theorem Reachable.failures_spare [Behaviour β] (hr : g.Reachable) :
    (∀ id, (g.remove id).Spares g) ∧
    (∀ subscriber input publisher output,
      (g.subscribe subscriber input publisher output).Spares g) ∧
    (∀ publisher output subscriber input,
      (g.publish publisher output subscriber input).Spares g) ∧
    (∀ id input publisher output, (g.unsubscribe id input publisher output).Spares g) ∧
    (∀ id name v, (g.setParameter id name v).Spares g) ∧
    (∀ id port v, (g.pushValue id port v).Spares g) ∧
    (∀ id s v, (g.input id s v).Spares g) ∧
    (∀ id port v, (g.output id port v).Spares g) ∧
    ∀ id port v, g.checkOutput id port = .ok () →
      g.output id port v = .ok () (g.broadcast id port v) := by
  have hg := hr.ready
  refine ⟨hg.spares_remove, fun subscriber input publisher output => ?_,
    fun publisher output subscriber input => ?_, g.spares_unsubscribe,
    fun id name v => ?_, fun id port v => ?_, hg.wired.spares_input, hg.wired.spares_output,
    fun id port v hc => ?_⟩
  · exact g.spares_subscribe ⟨publisher, output, subscriber, input⟩
  · exact g.spares_subscribe ⟨publisher, output, subscriber, input⟩
  · exact g.spares_editNode id _
  · exact g.spares_editNode id _
  · obtain ⟨e, he, hp⟩ := checkOutput_eq_ok_iff.mp hc
    exact hg.wired.output_eq he hp v

/-- A source feeds a block that forwards; a sum stands beside them. -/
def forwardedSource : List (Operation Builtin) :=
  [.add (.source (.bool true)), .add .forward, .add .sum,
    .subscribe ⟨1⟩ defaultInput ⟨0⟩ Builtin.dataName]

theorem failures_spare_forwardedSource : ∃ g : Graph Builtin,
    performAll 1 forwardedSource (.new .standard) = some g ∧
    g.remove ⟨3⟩ = .error (.unknownBlock ⟨3⟩) g ∧
    g.subscribe ⟨2⟩ Builtin.valuesInput ⟨1⟩ defaultInput =
      .error (.invalidPort ⟨1⟩ defaultInput .output) g ∧
    g.publish ⟨1⟩ defaultOutput ⟨2⟩ defaultInput =
      .error (.invalidPort ⟨2⟩ defaultInput .input) g ∧
    g.unsubscribe ⟨0⟩ defaultInput none none = .error (.invalidPort ⟨0⟩ defaultInput .input) g ∧
    g.setParameter ⟨1⟩ Builtin.dataName .null =
      .error (.invalidParameter ⟨1⟩ Builtin.dataName) g ∧
    g.pushValue ⟨1⟩ defaultOutput .null = .error (.invalidPort ⟨1⟩ defaultOutput .input) g ∧
    g.input ⟨2⟩ ⟨1⟩ .null = .error (.subscriberMismatch ⟨2⟩ ⟨1⟩ ⟨1⟩) g ∧
    g.output ⟨1⟩ defaultInput .null = .error (.invalidPort ⟨1⟩ defaultInput .output) g ∧
    g.output ⟨0⟩ Builtin.dataName .null = .ok () (g.broadcast ⟨0⟩ Builtin.dataName .null) := by
  have hdec : (performAll 1 forwardedSource (.new .standard)).any (fun g =>
      (g.remove ⟨3⟩).result = .error (.unknownBlock ⟨3⟩) ∧
      (g.subscribe ⟨2⟩ Builtin.valuesInput ⟨1⟩ defaultInput).result =
        .error (.invalidPort ⟨1⟩ defaultInput .output) ∧
      (g.publish ⟨1⟩ defaultOutput ⟨2⟩ defaultInput).result =
        .error (.invalidPort ⟨2⟩ defaultInput .input) ∧
      (g.unsubscribe ⟨0⟩ defaultInput none none).result =
        .error (.invalidPort ⟨0⟩ defaultInput .input) ∧
      (g.setParameter ⟨1⟩ Builtin.dataName .null).result =
        .error (.invalidParameter ⟨1⟩ Builtin.dataName) ∧
      (g.pushValue ⟨1⟩ defaultOutput .null).result =
        .error (.invalidPort ⟨1⟩ defaultOutput .input) ∧
      (g.input ⟨2⟩ ⟨1⟩ .null).result = .error (.subscriberMismatch ⟨2⟩ ⟨1⟩ ⟨1⟩) ∧
      (g.output ⟨1⟩ defaultInput .null).result =
        .error (.invalidPort ⟨1⟩ defaultInput .output) ∧
      g.checkOutput ⟨0⟩ Builtin.dataName = .ok ()) = true := by decide +kernel
  obtain ⟨g, hg, hp⟩ := (Option.any_eq_true _ _).mp hdec
  obtain ⟨hrem, hsub, hpub, hunsub, hset, hpush, hin, hout, hdecl⟩ := of_decide_eq_true hp
  have hr : g.Reachable := Reachable.performAll (.new _) hg
  obtain ⟨remove, subscribe, publish, unsubscribe, setParameter, pushValue, input, output,
    declared⟩ := Reachable.failures_spare hr
  exact ⟨g, hg, (remove _).eq_error hrem, (subscribe _ _ _ _).eq_error hsub,
    (publish _ _ _ _).eq_error hpub, (unsubscribe _ _ _ _).eq_error hunsub,
    (setParameter _ _ _).eq_error hset, (pushValue _ _ _).eq_error hpush,
    (input _ _ _).eq_error hin, (output _ _ _).eq_error hout, declared _ _ _ hdecl⟩

end Graph

end Patchbay
