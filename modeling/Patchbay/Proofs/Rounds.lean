import Patchbay.Proofs.Invocations
import Patchbay.Proofs.Paths

/-! Rounds, and what a round queues for the next one: blocks that a block of the round feeds, and
blocks of the round that wait. A built-in block waits only while another block of the round leads to
it. -/

namespace Patchbay

namespace Moment

variable {β : Type} [Behaviour β] {μ ν : Moment β}

/-- A step that invokes a block. -/
def Invokes (μ ν : Moment β) : Prop := μ.pending ≠ [] ∧ μ.Step ν

theorem steps_of_invokes (hc : Relation.ReflTransGen Invokes μ ν) :
    Relation.ReflTransGen Step μ ν :=
  Relation.ReflTransGen.mono (fun _ _ (hs : Invokes _ _) => hs.2) _ _ hc

/-- Whether a run gets from one moment between rounds to the next. -/
structure Round (μ ν : Moment β) : Prop where
  before : μ.pending = []
  after : ν.pending = []
  course : ∃ ξ, μ.Step ξ ∧ Relation.ReflTransGen Invokes ξ ν

theorem Round.steps (hr : μ.Round ν) : Relation.ReflTransGen Step μ ν := by
  obtain ⟨ξ, hs, hc⟩ := hr.course
  exact .head hs (steps_of_invokes hc)

theorem Step.rounds_le (hs : μ.Step ν) : μ.report.rounds ≤ ν.report.rounds := by
  cases hs with
  | start => exact Nat.le_succ _
  | invoke => exact Nat.le_refl _

theorem rounds_le_of_steps (hs : Relation.ReflTransGen Step μ ν) :
    μ.report.rounds ≤ ν.report.rounds := by
  induction hs with
  | refl => exact Nat.le_refl _
  | tail _ hs ih => exact Nat.le_trans ih hs.rounds_le

theorem Round.rounds_lt (hr : μ.Round ν) : μ.report.rounds < ν.report.rounds := by
  obtain ⟨ξ, hs, hc⟩ := hr.course
  have hbefore := hr.before
  have hle := rounds_le_of_steps (steps_of_invokes hc)
  cases hs with
  | start => exact hle
  | invoke => cases hbefore

/-- A moment that always goes on comes to the end of its round. -/
theorem exists_round (hp : μ.pending = [])
    (hgo : ∀ ξ, Relation.ReflTransGen Step μ ξ → ∃ ξ', ξ.Step ξ') : ∃ ν, μ.Round ν := by
  obtain ⟨ξ, hξ⟩ := hgo μ .refl
  have hfinish : ∀ pending (ξ : Moment β), ξ.pending = pending →
      Relation.ReflTransGen Step μ ξ → ∃ ν, ν.pending = [] ∧
        Relation.ReflTransGen Invokes ξ ν := by
    intro pending
    induction pending with
    | nil => exact fun ξ hnil _ => ⟨ξ, hnil, .refl⟩
    | cons id rest ih =>
      intro ξ hcons hsteps
      obtain ⟨ξ', hs⟩ := hgo ξ hsteps
      have hrest : ξ'.pending = rest := by
        cases hs with
        | start => cases hcons
        | invoke => exact (List.cons.inj hcons).2
      obtain ⟨ν, hν, hc⟩ := ih ξ' hrest (hsteps.tail hs)
      exact ⟨ν, hν, .head ⟨hcons ▸ List.cons_ne_nil _ _, hs⟩ hc⟩
  obtain ⟨ν, hν, hc⟩ := hfinish _ ξ rfl (.single hξ)
  exact ⟨ν, ⟨hp, hν, ξ, hξ, hc⟩⟩

end Moment

namespace Graph

variable {β : Type} {g h : Graph β} {id j : BlockId}

theorem Effect.mem_receivers (he : Effect id g h) (hj : j ∈ h.receivers) :
    j ∈ g.receivers ∨ g.Feeds id j := by
  cases he with
  | @accept s edge v hs hp =>
    rw [receivers_accept, mem_receivers_queue] at hj
    rcases hj with hj | rfl
    · exact Or.inl hj
    · exact Or.inr ⟨s, edge, hs, hp, rfl⟩
  | _ => exact Or.inl hj

theorem Effects.mem_receivers (he : Effects id g h) (hj : j ∈ h.receivers) :
    j ∈ g.receivers ∨ g.Feeds id j := by
  induction he with
  | refl => exact Or.inl hj
  | tail heff he ih =>
    rcases he.mem_receivers hj with hj | hf
    · exact ih hj
    · rw [feeds_congr (Effects.layout_eq heff)] at hf
      exact Or.inr hf

theorem Effect.receivers_subset (he : Effect id g h) : g.receivers ⊆ h.receivers := by
  intro x hx
  cases he with
  | accept =>
    rw [receivers_accept, mem_receivers_queue]
    exact Or.inl hx
  | _ => exact hx

theorem Effects.receivers_subset (he : Effects id g h) : g.receivers ⊆ h.receivers := by
  induction he with
  | refl => exact List.Subset.refl _
  | tail _ he ih => exact List.Subset.trans ih he.receivers_subset

/-- A value comes to an input together with a place in the queue. -/
theorem Effect.buffer_ne_nil (hw : g.Wired) (he : Effect id g h) {port : String}
    (hb : h.buffer j port ≠ []) : g.buffer j port ≠ [] ∨ j ∈ h.receivers := by
  cases he with
  | @take e p hs =>
    refine Or.inl fun hnil => hb ?_
    by_cases hid : j = id
    · subst hid
      have hs' : (g.updateNode j (·.discard p)).slot? j =
          some { e with node := e.node.discard p } := by simp [slot?_updateNode, hs]
      rw [buffer_of_slot? hs] at hnil
      rw [buffer_of_slot? hs']
      simp only [Node.discard, Dict.list_setList]
      split <;> simp_all
    · simpa [buffer, slot?_updateNode, hid] using hnil
  | @accept s edge v hs =>
    rw [buffer_accept g v edge (hw.live_subscriber hs)] at hb
    split at hb
    · next heq =>
      rw [receivers_accept, mem_receivers_queue]
      exact Or.inr (Or.inr heq.1.symm)
    · exact Or.inl hb
  | _ => exact Or.inl hb

theorem Effects.buffer_ne_nil (hw : g.Wired) (he : Effects id g h) {port : String}
    (hb : h.buffer j port ≠ []) : g.buffer j port ≠ [] ∨ j ∈ h.receivers := by
  induction he with
  | refl => exact Or.inl hb
  | tail heff he ih =>
    rcases he.buffer_ne_nil (hw.of_layout (Effects.layout_eq heff)) hb with hb | hj
    · exact (ih hb).imp_right (he.receivers_subset ·)
    · exact Or.inr hj

theorem mem_receivers_settle {waiting : Bool} :
    j ∈ (g.settle id waiting).receivers ↔ j ∈ g.receivers ∨ waiting = true ∧ j = id := by
  cases waiting with
  | true => simp [settle, mem_receivers_queue]
  | false =>
    simp only [settle, Bool.false_eq_true, if_false, false_and, or_false]
    rfl

theorem buffer_updateNode_of_ne (g : Graph β) (hne : j ≠ id) (f : Node → Node) (input : String) :
    (g.updateNode id f).buffer j input = g.buffer j input := by
  simp only [buffer, slot?_updateNode, if_neg hne]

theorem buffer_settle_of_ne (g : Graph β) (hne : j ≠ id) (waiting : Bool) (input : String) :
    (g.settle id waiting).buffer j input = g.buffer j input := by
  cases waiting with
  | true => simp [settle, buffer, slot?_queue]
  | false => exact buffer_updateNode_of_ne g hne Node.clearBuffers input

theorem buffer_settle_waiting (g : Graph β) (id j : BlockId) (input : String) :
    (g.settle id true).buffer j input = g.buffer j input := by
  simp [settle, buffer, slot?_queue]

theorem buffer_settle_done (g : Graph β) (id : BlockId) (input : String) :
    (g.settle id false).buffer id input = [] := by
  simp only [settle, Bool.false_eq_true, if_false, buffer, slot?_updateNode, if_pos]
  cases g.slot? id <;> rfl

variable [Behaviour β] {μ : Moment β}

theorem Wired.mem_receivers_invoke (hw : g.Wired) {fuel : Nat} {reply : Reply β Bool}
    (hi : g.invoke fuel id = some reply) (hj : j ∈ reply.graph.receivers) :
    j ∈ g.receivers ∨ g.Feeds id j := by
  rcases hw.invoke_cases hi with ⟨-, rfl⟩ | ⟨b', k, -, heff, heq⟩
  · exact Or.inl hj
  · rw [heq] at hj
    have hf := heff.mem_receivers hj
    rwa [feeds_congr (layout_setBehaviour g id none)] at hf

theorem Wired.receivers_subset_invoke (hw : g.Wired) {fuel : Nat} {reply : Reply β Bool}
    (hi : g.invoke fuel id = some reply) : g.receivers ⊆ reply.graph.receivers := by
  rcases hw.invoke_cases hi with ⟨-, rfl⟩ | ⟨b', k, -, heff, heq⟩
  · exact List.Subset.refl _
  · rw [heq]
    exact heff.receivers_subset

theorem Wired.buffer_invoke_ne_nil (hw : g.Wired) {fuel : Nat} {reply : Reply β Bool}
    (hi : g.invoke fuel id = some reply) {port : String} (hb : reply.graph.buffer j port ≠ []) :
    g.buffer j port ≠ [] ∨ j ∈ reply.graph.receivers := by
  rcases hw.invoke_cases hi with ⟨-, rfl⟩ | ⟨b', k, -, heff, heq⟩
  · exact Or.inl hb
  · rw [heq, buffer_setBehaviour] at hb
    rw [heq]
    have hor := heff.buffer_ne_nil (hw.setBehaviour id none) hb
    rwa [buffer_setBehaviour] at hor

/-- While a round is in progress, whatever is queued was put there by a block of the round. -/
theorem Visits.queued (hs : g.Sound) (hc : g.Complete) (hv : g.Visits μ) (hp : μ.pending ≠ [])
    (hj : j ∈ μ.graph.receivers) : (∃ k ∈ μ.graph.processing, g.Feeds k j) ∨
      j ∈ μ.graph.processing ∧ j ∉ μ.pending := by
  induction hv with
  | refl => exact absurd rfl hp
  | tail hv' hstep ih =>
    have hμ := Visits.regular hs hc hv'
    cases hstep with
    | start => exact absurd hj List.not_mem_nil
    | @invoke k h report id rest fuel waiting hi =>
      have hproc : (h.settle id waiting).processing = k.processing :=
        (processing_settle h id waiting).trans (hμ.sound.wired.processing_invoke hi)
      have hid : id ∈ k.processing := hμ.pending.mem List.mem_cons_self
      have hnot : id ∉ rest :=
        (List.nodup_cons.mp (hμ.sound.nodup_processing.sublist hμ.pending.sublist)).1
      rw [hproc]
      rcases mem_receivers_settle.mp hj with hj | ⟨-, rfl⟩
      · rcases hμ.sound.wired.mem_receivers_invoke hi hj with hj | hf
        · rcases ih (List.cons_ne_nil _ _) hj with hfed | ⟨hin, hout⟩
          · exact Or.inl hfed
          · exact Or.inr ⟨hin, fun hm => hout (List.mem_cons_of_mem _ hm)⟩
        · exact Or.inl ⟨id, hid, by rwa [feeds_congr hμ.layout] at hf⟩
      · exact Or.inr ⟨hid, hnot⟩

/-! Waiting -/

omit [Behaviour β] in
theorem Wired.lingers_iff (hw : g.Wired) : g.lingers id = true ↔
    (g.buffer id Builtin.valuesInput ≠ [] ∨ g.buffer id Builtin.compareInput ≠ []) ∧
      ∃ k ∈ g.processing, k ≠ id ∧ g.LeadsTo k id := by
  have hinc : g.incoming id ≠ [] ↔ ∃ k ∈ g.processing, k ≠ id ∧ g.LeadsTo k id := by
    simp [List.eq_nil_iff_forall_not_mem, hw.mem_incoming_iff]
  rw [← hinc]
  simp [lingers]

omit [Behaviour β] in
theorem Wired.lingers_setBehaviour (hw : g.Wired) (id j : BlockId) (b : Option β) :
    (g.setBehaviour id b).lingers j = g.lingers j := by
  have hl := layout_setBehaviour g id b
  rw [Bool.eq_iff_iff, (hw.of_layout hl).lingers_iff, hw.lingers_iff, leadsTo_congr hl,
    buffer_setBehaviour, buffer_setBehaviour]
  rfl

variable [HostsBuiltins β]

open HostsBuiltins (block)

theorem Wired.lingers_of_invoke (hw : g.Wired) {b : Builtin} {fuel : Nat}
    (hb : g.behaviour? id = some (block b)) (hi : g.invoke fuel id = some (.ok true h)) :
    h.lingers id = true := by
  have hw' : (g.setBehaviour id none).Wired := hw.setBehaviour id none
  obtain ⟨b', k, ht, rfl⟩ := (invoke_eq_ok_iff hb).mp hi
  rw [(hw'.of_layout (effects_takeTurns hw' ht).layout_eq).lingers_setBehaviour]
  exact ((hw'.takeTurns_builtin_ends ht).2.2 rfl rfl).2

/-- An invocation of a comparison leaves no pair, and it waits if what it leaves may be matched. -/
theorem Wired.invoke_compare_ok (hw : g.Wired) {fuel : Nat} {waiting : Bool}
    (hb : g.behaviour? id = some (block .compare))
    (hi : g.invoke fuel id = some (.ok waiting h)) :
    (h.buffer id Builtin.valuesInput = [] ∨ h.buffer id Builtin.compareInput = []) ∧
      waiting = h.lingers id := by
  have hw' : (g.setBehaviour id none).Wired := hw.setBehaviour id none
  obtain ⟨b', k, ht, rfl⟩ := (invoke_eq_ok_iff hb).mp hi
  obtain ⟨hempty, hwait⟩ := (hw'.takeTurns_compare_ends ht).2.2 rfl
  rw [(hw'.of_layout (effects_takeTurns hw' ht).layout_eq).lingers_setBehaviour,
    buffer_setBehaviour, buffer_setBehaviour]
  exact ⟨hempty, hwait⟩

theorem Wired.exists_upstream_of_waiting (hw : g.Wired) {b : Builtin} {fuel : Nat}
    (hb : g.behaviour? id = some (block b)) (hi : g.invoke fuel id = some (.ok true h)) :
    ∃ k ∈ g.processing, g.LeadsTo k id := by
  have hl : h.layout = g.layout := hw.layout_invoke hi
  have hp : h.processing = g.processing := hw.processing_invoke hi
  obtain ⟨-, k, hk, -, hpath⟩ :=
    (hw.of_layout hl).lingers_iff.mp (hw.lingers_of_invoke hb hi)
  exact ⟨k, hp ▸ hk, by rwa [leadsTo_congr hl] at hpath⟩

end Graph

end Patchbay
