import Patchbay.Proofs.Mirroring

/-! Invocations in mirrored graphs. The programs of built-in blocks are alike, whatever blocks of
the same types stand in for them, so an invocation answers the same with the same fuel. -/

namespace Patchbay.Mirror

open HostsBuiltins (block)

variable {β : Type} [Behaviour β] [HostsBuiltins β] {m : Mirror} {g h : Graph β} {id : BlockId}
  {c c' : β}

/-! The built-in programs -/

theorem alike_done (hk : Kin c c') : m.Alike id (Builtin.done c) (Builtin.done c') :=
  .finish (.ok ()) hk

theorem alike_fail (hk : Kin c c') (e : GraphError) :
    m.Alike id (Builtin.fail c e) (Builtin.fail c' (e.rename m.image)) :=
  .finish (.error e) hk

theorem alike_emit_finish (hk : Kin c c') (port : String) (v : Value) :
    m.Alike id (.emit port v (.finish c)) (.emit port v (.finish c')) :=
  .emit fun x => .finish x hk

theorem alike_sumRest (hk : Kin c c') (count : Nat) (total : Value) :
    m.Alike id (Builtin.sumRest c id count total)
      (Builtin.sumRest c' (m.image id) count total) := by
  induction count generalizing total with
  | zero => exact alike_emit_finish hk _ _
  | succ count ih =>
    refine .pop fun x => ?_
    rcases x with err | _ | v
    · exact alike_fail hk err
    · exact alike_emit_finish hk _ _
    · cases hsum : total.add? v with
      | none =>
        simp only [Except.mapError, hsum]
        exact alike_fail hk _
      | some total' =>
        simp only [Except.mapError, hsum]
        exact ih total'

theorem alike_sum (hk : Kin c c') :
    m.Alike id (Builtin.sumProgram c id) (Builtin.sumProgram c' (m.image id)) := by
  refine .pop fun x => ?_
  rcases x with err | _ | total
  · exact alike_fail hk err
  · exact alike_done hk
  · refine .look fun g h waiting hs hl => ?_
    obtain ⟨e, e', he, he', -⟩ := hs.exists_twin hl
    -- How many values are added is read off the buffer, which is the same in both graphs.
    have hbuffer : e'.node.buffers.list Builtin.valuesInput =
        e.node.buffers.list Builtin.valuesInput := by
      rw [← Graph.buffer_of_slot? he, ← Graph.buffer_of_slot? he', hs.buffer id hl]
    simp only [View.node, Graph.node, he, he', hbuffer]
    exact alike_sumRest hk _ _

theorem Shows.bothWaiting (hs : m.Shows g h) (hl : g.contains id) (waiting : Bool) :
    Builtin.bothWaiting ⟨h, m.image id, waiting⟩ =
      (Builtin.bothWaiting ⟨g, id, waiting⟩).mapError (GraphError.rename m.image) := by
  rw [Builtin.bothWaiting, Builtin.bothWaiting, hs.hasValue hl, hs.hasValue hl]
  rcases View.hasValue ⟨g, id, waiting⟩ Builtin.valuesInput with err | _ | _ <;> rfl

theorem Shows.anyWaiting (hs : m.Shows g h) (hl : g.contains id) (waiting : Bool) :
    Builtin.anyWaiting ⟨h, m.image id, waiting⟩ =
      (Builtin.anyWaiting ⟨g, id, waiting⟩).mapError (GraphError.rename m.image) := by
  rw [Builtin.anyWaiting, Builtin.anyWaiting, hs.hasValue hl, hs.hasValue hl]
  rcases View.hasValue ⟨g, id, waiting⟩ Builtin.valuesInput with err | _ | _ <;> rfl

theorem alike_compareRest (hk : Kin c c') :
    m.Alike id (Builtin.compareRest c) (Builtin.compareRest c') := by
  refine .look fun g h waiting hs hl => ?_
  have hincoming : View.incoming ⟨h, m.image id, waiting⟩ =
      (View.incoming ⟨g, id, waiting⟩).map m.image := hs.incoming hl
  rw [hs.anyWaiting hl]
  cases Builtin.anyWaiting ⟨g, id, waiting⟩ with
  | error err => exact alike_fail hk err
  | ok unmatched =>
    simp only [Except.mapError, hincoming, List.isEmpty_map]
    split
    · exact .wait (alike_done hk)
    · exact alike_done hk

theorem alike_compare (hk : Kin c c') :
    m.Alike id (Builtin.compareProgram c) (Builtin.compareProgram c') := by
  refine .look fun g h waiting hs hl => ?_
  rw [hs.bothWaiting hl]
  rcases Builtin.bothWaiting ⟨g, id, waiting⟩ with err | _ | _
  · exact alike_fail hk err
  · exact alike_compareRest hk
  · refine .pop fun x => ?_
    rcases x with err | v?
    · exact alike_fail hk err
    · refine .pop fun y => ?_
      rcases y with err | other?
      · exact alike_fail hk err
      · rcases v? with _ | v <;> rcases other? with _ | other
        · exact alike_compareRest hk
        · exact alike_compareRest hk
        · exact alike_compareRest hk
        · refine .emit fun z => ?_
          rcases z with err | u
          · exact alike_fail hk err
          · exact .again hk

theorem alike_process (hk : Kin c c') :
    m.Alike id (Behaviour.process id c) (Behaviour.process (m.image id) c') := by
  obtain ⟨b, b', rfl, rfl, hb⟩ := hk
  have hk : Kin (block b : β) (block b') := ⟨b, b', rfl, rfl, hb⟩
  rw [HostsBuiltins.process_block, HostsBuiltins.process_block]
  cases hb with
  | forward =>
    refine .pop fun x => ?_
    rcases x with err | _ | v
    · exact alike_fail hk err
    · exact alike_done hk
    · exact alike_emit_finish hk _ _
  | source initial initial' =>
    refine .look fun g h waiting hs hl => ?_
    rw [hs.parameter hl]
    cases View.parameter ⟨g, id, waiting⟩ Builtin.dataName with
    | error err => exact alike_fail hk err
    | ok v => exact alike_emit_finish hk _ _
  | sum => exact alike_sum hk
  | alert screen screen' =>
    refine .pop fun x => ?_
    rcases x with err | _ | v
    · exact alike_fail hk err
    · exact alike_done hk
    · exact .display (alike_done hk)
  | compare => exact alike_compare hk

/-! Invocations -/

theorem Shows.setBehaviour (hs : m.Shows g h) (hl : g.contains id) {b b' : Option β}
    (hb : Option.Rel Kin b b') :
    m.Shows (g.setBehaviour id b) (h.setBehaviour (m.image id) b') := by
  refine hs.step (Graph.layout_setBehaviour g id b) (Graph.layout_setBehaviour h _ b')
    (hs.sound.setBehaviour id b) ?_ ?_ hs.processing hs.receivers hs.saw
  · intro j hj port
    rw [Graph.buffer_setBehaviour, Graph.buffer_setBehaviour, hs.buffer j hj]
  · intro j hj
    rw [Graph.behaviour?_setBehaviour g id j b hl,
      Graph.behaviour?_setBehaviour h _ _ b' (hs.image.live hl)]
    by_cases hid : j = id
    · rw [if_pos hid, if_pos (congrArg m.image hid)]
      exact hb
    · rw [if_neg hid, if_neg (hs.image_ne hl hj hid)]
      exact hs.behaviour j hj

inductive Ends (m : Mirror) : β × Except GraphError Unit × Bool × Graph β →
    β × Except GraphError Unit × Bool × Graph β → Prop
  | mk {c c' : β} {g h : Graph β} (result : Except GraphError Unit) (waiting : Bool) :
    Kin c c' → m.Shows g h → Ends m (c, result, waiting, g)
      (c', result.mapError (GraphError.rename m.image), waiting, h)

theorem Shows.takeTurns (hs : m.Shows g h) (hl : g.contains id) (hk : Kin c c') (fuel : Nat)
    (waiting : Bool) : Option.Rel m.Ends (Graph.takeTurns id fuel c waiting g)
      (Graph.takeTurns (m.image id) fuel c' waiting h) := by
  induction fuel generalizing c c' waiting g h with
  | zero => exact .none
  | succ fuel ih =>
    have hturn := (alike_process hk).run hs hl waiting
    have hcalls : Graph.Calls id g ((Behaviour.process id c).run id waiting g).graph :=
      Graph.calls_run _ waiting hs.wired
    have hlayout := (hcalls.effects hs.wired).layout_eq
    rw [Graph.takeTurns_eq, Graph.takeTurns_eq]
    generalize (Behaviour.process id c).run id waiting g = t at hturn hlayout
    generalize (Behaviour.process (m.image id) c').run (m.image id) waiting h = t' at hturn
    cases hturn with
    | again waiting' hk' hs' =>
      have hl' := Graph.contains_congr hlayout id
      exact ih hs' (hl'.trans hl) hk' waiting'
    | finished result waiting' hk' hs' => exact .some (.mk result waiting' hk' hs')

theorem Ends.conclude {x y : β × Except GraphError Unit × Bool × Graph β} (he : m.Ends x y)
    (hl : x.2.2.2.contains id) :
    m.Replies (Graph.conclude id x) (Graph.conclude (m.image id) y) := by
  obtain ⟨result, waiting, hk, hs⟩ := he
  have hback := hs.setBehaviour hl (.some hk)
  cases result with
  | ok u => exact .ok waiting hback
  | error err => exact .error err hback

theorem rel_map {α α' γ γ' : Type} {R : α → γ → Prop} {S : α' → γ' → Prop} {p : α → α'}
    {q : γ → γ'} {x : Option α} {y : Option γ} (hr : Option.Rel R x y)
    (hS : ∀ a c, x = some a → R a c → S (p a) (q c)) : Option.Rel S (x.map p) (y.map q) := by
  cases hr with
  | none => exact .none
  | some hac => exact .some (hS _ _ rfl hac)

theorem Shows.invoke (hs : m.Shows g h) (hl : g.contains id) (fuel : Nat) :
    Option.Rel m.Replies (g.invoke fuel id) (h.invoke fuel (m.image id)) := by
  have hb := hs.behaviour id hl
  generalize hc : g.behaviour? id = o at hb
  generalize hc' : h.behaviour? (m.image id) = o' at hb
  cases hb with
  | none =>
    rw [Graph.invoke_eq_unknown hc, Graph.invoke_eq_unknown hc']
    exact .some (.error (.unknownBlock id) hs)
  | @some c c' hk =>
    have hout : m.Shows (g.setBehaviour id none) (h.setBehaviour (m.image id) none) :=
      hs.setBehaviour hl .none
    have hlout := Graph.contains_congr (Graph.layout_setBehaviour g id none) id
    have hturns := hout.takeTurns (hlout.trans hl) hk fuel false
    rw [Graph.invoke_eq hc, Graph.invoke_eq hc']
    refine rel_map hturns fun x y hx hends => hends.conclude ?_
    have heffects := Graph.effects_takeTurns (hs.wired.setBehaviour id none) hx
    exact (Graph.contains_congr heffects.layout_eq id).trans (hlout.trans hl)

end Patchbay.Mirror
