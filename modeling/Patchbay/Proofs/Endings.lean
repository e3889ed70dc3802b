import Patchbay.Blocks.Block
import Patchbay.Proofs.Invocations

/-! The blocks in which programs end their turns. A built-in block ends in itself and a script in a
script, so no block turns into a built-in one that it was not. -/

namespace Patchbay

/-- Whether every block in which a program may end a turn satisfies `p`. -/
def Program.EndsIn {β : Type} (p : β → Prop) : Program β → Prop
  | look next => ∀ view, (next view).EndsIn p
  | pop _ next => ∀ x, (next x).EndsIn p
  | emit _ _ next => ∀ x, (next x).EndsIn p
  | assign _ _ next => next.EndsIn p
  | wait next => next.EndsIn p
  | display _ _ next => next.EndsIn p
  | say _ _ next => next.EndsIn p
  | again b => p b
  | finish b _ => p b

def Turn.block {β : Type} : Turn β → β
  | again b _ _ => b
  | finished b _ _ _ => b

namespace Program

variable {β : Type} {p q : β → Prop} {P : Program β}

theorem EndsIn.imp (h : ∀ b, p b → q b) (hp : P.EndsIn p) : P.EndsIn q := by
  induction P with
  | look next ih | pop port next ih | emit port v next ih => exact fun x => ih x (hp x)
  | assign name v next ih | wait next ih | display screen message next ih
  | say action remark next ih => exact ih hp
  | again b | finish b result => exact h b hp

theorem EndsIn.run (hp : P.EndsIn p) (id : BlockId) (waiting : Bool) (g : Graph β) :
    p (P.run id waiting g).block := by
  induction P generalizing waiting g with
  | look next ih | pop port next ih | emit port v next ih => exact ih _ (hp _) _ _
  | assign name v next ih | wait next ih | display screen message next ih
  | say action remark next ih => exact ih hp _ _
  | again b | finish b result => exact hp

end Program

theorem Builtin.sumRest_endsIn {β : Type} (b : β) (id : BlockId) (count : Nat) (total : Value) :
    (sumRest b id count total).EndsIn (· = b) := by
  induction count generalizing total with
  | zero => exact fun _ => rfl
  | succ count ih =>
    intro x
    rcases x with err | _ | v
    · exact rfl
    · exact fun _ => rfl
    · cases h : total.add? v with
      | none => simp [h, fail, Program.EndsIn]
      | some total => simpa [h] using ih total

theorem Builtin.compareRest_endsIn {β : Type} (b : β) : (compareRest b).EndsIn (· = b) := by
  intro view
  dsimp only
  split
  · exact rfl
  · split <;> exact rfl

theorem Builtin.compareProgram_endsIn {β : Type} (b : β) : (compareProgram b).EndsIn (· = b) := by
  have hrest := compareRest_endsIn b
  intro view
  dsimp only
  split
  · exact rfl
  · exact hrest
  · intro v
    rcases v with err | v
    · exact rfl
    · intro o
      rcases o with err | o
      · exact rfl
      · rcases v with _ | v <;> rcases o with _ | o
        · exact hrest
        · exact hrest
        · exact hrest
        · intro x
          rcases x with err | u <;> exact rfl

theorem Builtin.process_endsIn {β : Type} (wrap : Builtin → β) (id : BlockId) (self : Builtin) :
    (self.process wrap id).EndsIn (· = wrap self) := by
  cases self with
  | forward =>
    intro x
    rcases x with err | _ | v
    · exact rfl
    · exact rfl
    · exact fun _ => rfl
  | source initial =>
    intro view
    dsimp only
    split
    · exact rfl
    · exact fun _ => rfl
  | sum =>
    intro x
    rcases x with err | _ | v
    · exact rfl
    · exact rfl
    · intro view
      dsimp only
      split
      · exact rfl
      · exact sumRest_endsIn _ _ _ _
  | alert screen =>
    intro x
    rcases x with err | _ | v <;> exact rfl
  | compare => exact compareProgram_endsIn _

theorem Script.perform_endsIn {β : Type} (wrap : Script → β) (id : BlockId) (s : Script)
    (actions : List ScriptAction) (last : Option Value) :
    (perform wrap id s actions last).EndsIn fun c => ∃ s', c = wrap s' := by
  have hend : ∀ (s' : Script) (result : Except GraphError Unit),
      (Program.finish (wrap s') result).EndsIn fun c => ∃ s', c = wrap s' := fun s' _ => ⟨s', rfl⟩
  induction actions generalizing last with
  | nil => exact hend s _
  | cons action rest ih =>
    cases action with
    | emit port v =>
      intro x
      rcases x with err | u
      · exact hend s _
      · exact ih last
    | emitLast port =>
      rcases last with _ | v
      · exact ih none
      · intro x
        rcases x with err | u
        · exact hend s _
        · exact ih (some v)
    | drain input output =>
      intro x
      rcases x with err | _ | v
      · exact hend s _
      · exact ih last
      · intro x
        rcases x with err | u
        · exact hend s _
        · exact ⟨_, rfl⟩
    | pop port =>
      intro x
      rcases x with err | v
      · exact hend s _
      · exact ih v
    | peek port | has port | parameter name | graph =>
      intro view
      dsimp only
      split
      · exact hend s _
      · exact ih _
    | assign name v | wait | idle => exact ih last
    | assignLast name => rcases last with _ | v <;> exact ih _
    | waitRuns count =>
      simp only [perform]
      split <;> exact ih last
    | waitIfIncoming =>
      intro view
      dsimp only
      split <;> exact ih last
    | «variable» name | waiting | incoming => exact fun view => ih _
    | fail reason => exact hend s _

/-- A type of blocks where the built-in ones have their definitions, and where no other block ever
turns into one of them. -/
class KeepsBuiltins (β : Type) [Behaviour β] [HostsBuiltins β] : Prop where
  typeName_block : ∀ b, Behaviour.typeName (HostsBuiltins.block b : β) = b.typeName
  definition_block : ∀ b, Behaviour.definition (HostsBuiltins.block b : β) = b.definition
  endsIn : ∀ id (c : β) b, (Behaviour.process id c).EndsIn fun c' =>
    c' = HostsBuiltins.block b → c = HostsBuiltins.block b

instance : KeepsBuiltins Builtin where
  typeName_block _ := rfl
  definition_block _ := rfl
  endsIn id c _ := by
    refine (Builtin.process_endsIn (fun b => b) id c).imp ?_
    rintro _ rfl heq
    exact heq

instance : KeepsBuiltins Block where
  typeName_block _ := rfl
  definition_block _ := rfl
  endsIn id c b := by
    cases c with
    | builtin c =>
      refine (Builtin.process_endsIn Block.builtin id c).imp ?_
      rintro _ rfl heq
      exact heq
    | script s =>
      change (Script.process Block.script id s).EndsIn _
      unfold Script.process
      split
      all_goals
        refine (Script.perform_endsIn Block.script id _ _ _).imp ?_
        rintro _ ⟨s', rfl⟩ heq
        cases heq

namespace Graph

open HostsBuiltins (block)

variable {β : Type} [Behaviour β] [HostsBuiltins β] [KeepsBuiltins β] {g h : Graph β} {id : BlockId}

theorem eq_block_of_takeTurns {fuel : Nat} {c c' : β} {waiting waiting' : Bool}
    {result : Except GraphError Unit} {b : Builtin}
    (ht : takeTurns id fuel c waiting g = some (c', result, waiting', h)) (hc : c' = block b) :
    c = block b := by
  induction fuel generalizing c waiting g with
  | zero => cases ht
  | succ fuel ih =>
    have hturn := (KeepsBuiltins.endsIn id c b).run id waiting g
    rw [takeTurns_eq] at ht
    cases hrun : (Behaviour.process id c).run id waiting g with
    | again c₁ waiting₁ g₁ =>
      rw [hrun] at ht hturn
      exact hturn (ih ht)
    | finished c₁ result₁ waiting₁ g₁ =>
      rw [hrun] at ht hturn
      cases ht
      exact hturn hc

theorem Wired.block_of_invoke (hw : g.Wired) {fuel : Nat} {reply : Reply β Bool}
    (hi : g.invoke fuel id = some reply) {j : BlockId} {b : Builtin}
    (hb : reply.graph.behaviour? j = some (block b)) : g.behaviour? j = some (block b) := by
  by_cases hj : j = id
  · subst hj
    cases hbe : g.behaviour? j with
    | none =>
      rw [invoke_eq_unknown hbe] at hi
      cases hi
      rw [← hb]
      exact hbe.symm
    | some c =>
      obtain ⟨c', result, waiting, k, ht, -, hback⟩ := exists_takeTurns_of_invoke hbe hi
      rw [hback] at hb
      rw [eq_block_of_takeTurns ht (Option.some.inj hb)]
  · rwa [hw.behaviour?_invoke hi hj] at hb

theorem Visits.block_of_behaviour? {μ : Moment β} (hs : g.Sound) (hc : g.Complete)
    (hv : g.Visits μ) {b : Builtin} (hb : μ.graph.behaviour? id = some (block b)) :
    g.behaviour? id = some (block b) := by
  induction hv with
  | refl => exact (behaviour?_clearBuffers _ id).symm.trans hb
  | tail hv' hstep ih =>
    have hw := (Visits.regular hs hc hv').sound.wired
    cases hstep with
    | start => exact ih hb
    | @invoke k h report j rest fuel waiting hi =>
      exact ih (hw.block_of_invoke hi ((behaviour?_settle h j id waiting).symm.trans hb))

end Graph

end Patchbay
