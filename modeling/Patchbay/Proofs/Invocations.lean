import Patchbay.Proofs.Pairing

/-! Invocations of built-in blocks. They leave the block what it was and fail at blocks only, and
they come to an end unless a comparison revolves. -/

namespace Patchbay.Graph

variable {β : Type} {g h : Graph β} {id : BlockId}

theorem buffer_setBehaviour (g : Graph β) (id j : BlockId) (b : Option β) (port : String) :
    (g.setBehaviour id b).buffer j port = g.buffer j port := by
  simp only [buffer, slot?_setBehaviour]
  split
  · cases g.slot? j <;> rfl
  · rfl

theorem revolves_setBehaviour (g : Graph β) (id : BlockId) (b : Option β) :
    (g.setBehaviour id b).Revolves id ↔ g.Revolves id := by
  have hl := layout_setBehaviour g id b
  simp only [Revolves, buffer_setBehaviour]
  constructor
  · rintro ⟨hb, ht⟩
    exact ⟨hb.congr hl.symm, ht.congr hl.symm⟩
  · rintro ⟨hb, ht⟩
    exact ⟨hb.congr hl, ht.congr hl⟩

theorem behaviour?_clearBuffers (g : Graph β) (id : BlockId) :
    g.clearBuffers.behaviour? id = g.behaviour? id := by
  simp only [behaviour?, slot?_clearBuffers]
  cases g.slot? id <;> rfl

theorem behaviour?_settle (g : Graph β) (id j : BlockId) (waiting : Bool) :
    (g.settle id waiting).behaviour? j = g.behaviour? j := by
  cases waiting with
  | true => simp only [settle, if_true, behaviour?, slot?_queue]
  | false => exact behaviour?_updateNode _ _ _ _

theorem behaviour?_closeRun (report : RunReport) (r : Reply β Unit) (j : BlockId) :
    (closeRun report r).graph.behaviour? j = r.graph.behaviour? j := by
  cases r with
  | ok u k => rfl
  | error e k => exact behaviour?_clearBuffers _ j

theorem layout_closeRun (report : RunReport) (r : Reply β Unit) :
    (closeRun report r).graph.layout = r.graph.layout := by
  cases r with
  | ok u k => rfl
  | error e k => exact layout_clearBuffers _

variable [Behaviour β] [HostsBuiltins β]

open HostsBuiltins (block)

/-- A built-in block stays what it is, fails at a block, and waits only for what lingers on a
comparison. -/
theorem Wired.takeTurns_builtin_ends (hw : g.Wired) {b : Builtin} {fuel : Nat} {b' : β}
    {result : Except GraphError Unit} {waiting : Bool}
    (ht : takeTurns id fuel (block b) false g = some (b', result, waiting, h)) :
    b' = block b ∧ Located result ∧
      (result = .ok () → waiting = true → b = .compare ∧ h.lingers id = true) := by
  by_cases hc : b = .compare
  · subst hc
    obtain ⟨hstay, hloc, hok⟩ := hw.takeTurns_compare_ends ht
    exact ⟨hstay, hloc, fun hr hwait => ⟨rfl, by simpa [hwait] using (hok hr).2.symm⟩⟩
  · cases fuel with
    | zero => cases ht
    | succ fuel =>
      obtain ⟨result', k, hloc, hrun⟩ := (Builtin.process_direct block id hc).run hw id false
      simp only [takeTurns, HostsBuiltins.process_block, hrun] at ht
      cases ht
      exact ⟨rfl, hloc, fun _ hwait => absurd hwait Bool.false_ne_true⟩

theorem Wired.behaviour?_invoke_builtin (hw : g.Wired) {b : Builtin} {fuel : Nat}
    {reply : Reply β Bool} (hb : g.behaviour? id = some (block b))
    (hi : g.invoke fuel id = some reply) : reply.graph.behaviour? id = some (block b) := by
  obtain ⟨b', result, waiting, k, ht, -, hback⟩ := exists_takeTurns_of_invoke hb hi
  rw [hback, ((hw.setBehaviour id none).takeTurns_builtin_ends ht).1]

theorem Wired.located_of_invoke_builtin (hw : g.Wired) {b : Builtin} {fuel : Nat}
    {err : GraphError} (hb : g.behaviour? id = some (block b))
    (hi : g.invoke fuel id = some (.error err h)) : err.block?.isSome := by
  have hw' : (g.setBehaviour id none).Wired := hw.setBehaviour id none
  rw [invoke_eq hb] at hi
  obtain ⟨⟨b', result, waiting, k⟩, ht, hr⟩ := Option.map_eq_some_iff.mp hi
  cases result with
  | ok => cases hr
  | error err' =>
    cases hr
    exact (hw'.takeTurns_builtin_ends ht).2.1 err rfl

/-- An invocation of a built-in block comes to an end, unless it is a comparison that revolves. -/
theorem Wired.invoke_builtin_iff (hw : g.Wired) {b : Builtin}
    (hb : g.behaviour? id = some (block b)) :
    (∃ fuel reply, g.invoke fuel id = some reply) ↔ ¬(b = .compare ∧ g.Revolves id) := by
  have hw' : (g.setBehaviour id none).Wired := hw.setBehaviour id none
  constructor
  · rintro ⟨fuel, reply, hi⟩ ⟨rfl, hr⟩
    obtain ⟨hloop, htie⟩ := (revolves_setBehaviour g id none).mpr hr
    rw [invoke_eq hb, takeTurns_of_comesToTie hw' hloop htie rfl rfl rfl] at hi
    cases hi
  · intro hn
    by_cases hc : b = .compare
    · subst hc
      have hr : ¬(g.setBehaviour id none).Revolves id := fun hr =>
        hn ⟨rfl, (revolves_setBehaviour g id none).mp hr⟩
      obtain ⟨fuel, result, waiting, h, ht⟩ := takeTurns_of_not_revolves hw' hr false
      exact ⟨fuel, _, by rw [invoke_eq hb, ht]; rfl⟩
    · obtain ⟨result, h, -, hrun⟩ := (Builtin.process_direct block id hc).run hw' id false
      refine ⟨1, conclude id (block b, result, false, h), ?_⟩
      rw [invoke_eq hb]
      simp [takeTurns, HostsBuiltins.process_block, hrun]

theorem Visits.behaviour?_builtin {μ : Moment β} (hs : g.Sound) (hc : g.Complete)
    (hv : g.Visits μ) {b : Builtin} (hb : g.behaviour? id = some (block b)) :
    μ.graph.behaviour? id = some (block b) := by
  induction hv with
  | refl => exact (behaviour?_clearBuffers _ id).trans hb
  | tail hv' hstep ih =>
    have hw := (Visits.regular hs hc hv').sound.wired
    cases hstep with
    | start => exact ih
    | @invoke k h report j rest fuel waiting hi =>
      refine (behaviour?_settle h j id waiting).trans ?_
      by_cases hid : id = j
      · subst hid
        exact hw.behaviour?_invoke_builtin ih hi
      · exact (hw.behaviour?_invoke hi hid).trans ih

end Patchbay.Graph
