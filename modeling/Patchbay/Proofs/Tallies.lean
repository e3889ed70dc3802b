import Patchbay.Proofs.Rounds

/-! How many values a block has emitted and how many were delivered to it, as the history tells.
What was delivered to an input of a comparison is emitted or still buffered. -/

namespace Patchbay

namespace Occurrence

def isEmission (id : BlockId) : Occurrence → Bool
  | observed _ (.emitted block _ _) => block = id
  | _ => false

def isDelivery (id : BlockId) (input : String) : Occurrence → Bool
  | observed _ (.received block edge _) => block = id ∧ edge.input = input
  | _ => false

end Occurrence

/-- How many values a block emitted, on all of its outputs. -/
def emissions (id : BlockId) (history : List Occurrence) : Nat :=
  history.countP (·.isEmission id)

def deliveries (id : BlockId) (input : String) (history : List Occurrence) : Nat :=
  history.countP (·.isDelivery id input)

theorem emissions_append (id : BlockId) (l l' : List Occurrence) :
    emissions id (l ++ l') = emissions id l + emissions id l' := List.countP_append ..

theorem deliveries_append (id : BlockId) (input : String) (l l' : List Occurrence) :
    deliveries id input (l ++ l') = deliveries id input l + deliveries id input l' :=
  List.countP_append ..

namespace Graph

variable {β : Type} {g h : Graph β} {id c : BlockId} {input : String}

/-- What was delivered to an input, less what the block emitted and what is still buffered there. -/
def balance (g : Graph β) (id : BlockId) (input : String) : Int :=
  deliveries id input g.history - emissions id g.history - (g.buffer id input).length

theorem balance_congr (hh : h.history = g.history) (hb : h.buffer id input = g.buffer id input) :
    h.balance id input = g.balance id input := by
  simp only [balance, hh, hb]

theorem balance_of_nil (hb : g.buffer id input = []) :
    g.balance id input = deliveries id input g.history - emissions id g.history := by
  simp [balance, hb]

theorem balance_emitted (g : Graph β) (id c : BlockId) (port : String) (v : Value) :
    (g.notify (.emitted id port v)).balance c input =
      g.balance c input - if id = c then 1 else 0 := by
  have hb : (g.notify (.emitted id port v)).buffer c input = g.buffer c input := rfl
  have hh : (g.notify (.emitted id port v)).history =
      .observed g.observers (.emitted id port v) :: g.history := rfl
  simp only [balance, hb, hh, deliveries, emissions, List.countP_cons, Occurrence.isEmission,
    Occurrence.isDelivery, decide_eq_true_eq]
  by_cases hid : id = c
  · simp only [if_pos hid, Bool.false_eq_true, if_false]
    omega
  · simp only [if_neg hid, Bool.false_eq_true, if_false]
    omega

/-- A value that is delivered is buffered. -/
theorem balance_accept (g : Graph β) (v : Value) (edge : Edge)
    (hs : (g.slot? edge.subscriber).isSome) :
    (g.accept v edge).balance c input = g.balance c input := by
  rw [balance, balance, history_accept, buffer_accept g v edge hs]
  simp only [deliveries, emissions, List.countP_cons, Occurrence.isEmission,
    Occurrence.isDelivery, decide_eq_true_eq, Bool.false_eq_true, if_false]
  by_cases heq : edge.subscriber = c ∧ edge.input = input
  · simp only [if_pos heq, List.length_cons]
    omega
  · simp only [if_neg heq]
    omega

theorem balance_foldl_accept (v : Value) {l : List Edge}
    (hl : ∀ edge ∈ l, (g.slot? edge.subscriber).isSome) :
    (l.foldl (·.accept v ·) g).balance c input = g.balance c input := by
  induction l generalizing g with
  | nil => rfl
  | cons edge rest ih =>
    have hrest : ∀ x ∈ rest, ((g.accept v edge).slot? x.subscriber).isSome := by
      intro x hx
      rw [isSome_slot?_congr (layout_accept g v edge)]
      exact hl x (List.mem_cons_of_mem _ hx)
    exact (ih hrest).trans (balance_accept g v edge (hl edge List.mem_cons_self))

theorem Wired.balance_broadcast (hw : g.Wired) (id c : BlockId) (output : String) (v : Value) :
    (g.broadcast id output v).balance c input =
      g.balance c input - if id = c then 1 else 0 := by
  refine (balance_foldl_accept v fun edge hm => ?_).trans (balance_emitted g id c output v)
  obtain ⟨-, -, s, hs⟩ := Arena.mem_edgesFrom.mp hm
  exact hw.live_subscriber (hw.arena.get?_eq_some_iff.mpr hs)

theorem balance_setBehaviour (g : Graph β) (id : BlockId) (b : Option β) :
    (g.setBehaviour id b).balance c input = g.balance c input :=
  balance_congr rfl (buffer_setBehaviour g id c b input)

/-! Invocations -/

theorem Effect.balance_eq (hw : g.Wired) (he : Effect id g h) (hne : c ≠ id) :
    h.balance c input = g.balance c input := by
  cases he with
  | take => exact balance_congr rfl (buffer_updateNode_of_ne g hne _ input)
  | emit => rw [balance_emitted, if_neg hne.symm, Int.sub_zero]
  | @accept s edge v hs => exact balance_accept g v edge (hw.live_subscriber hs)
  | assign => rfl
  | display | say => simp [balance, record, deliveries, emissions, Occurrence.isEmission,
      Occurrence.isDelivery, buffer, slot?]

theorem Effects.balance_eq (hw : g.Wired) (he : Effects id g h) (hne : c ≠ id) :
    h.balance c input = g.balance c input := by
  induction he with
  | refl => rfl
  | tail heff he ih => exact (he.balance_eq (hw.of_layout (Effects.layout_eq heff)) hne).trans ih

/-- A turn takes one value from each input and emits one. -/
theorem Wired.balance_turn (hw : g.Wired) {v o : Value} {vs os : List Value}
    (hvs : g.buffer id Builtin.valuesInput = v :: vs)
    (hos : g.buffer id Builtin.compareInput = o :: os) (output : String)
    (hin : input = Builtin.valuesInput ∨ input = Builtin.compareInput) :
    ((g.drawn id).broadcast id output v).balance id input = g.balance id input := by
  obtain ⟨hbv, hbo⟩ := buffers_drawn hvs hos
  have hh : (g.drawn id).history = g.history := rfl
  rw [(hw.of_layout (layout_drawn g id)).balance_broadcast, if_pos rfl]
  rcases hin with rfl | rfl
  · simp only [balance, hh, hbv, hvs, List.length_cons]
    omega
  · simp only [balance, hh, hbo, hos, List.length_cons]
    omega

variable [Behaviour β]

theorem Wired.balance_invoke (hw : g.Wired) {fuel : Nat} {reply : Reply β Bool}
    (hi : g.invoke fuel id = some reply) (hne : c ≠ id) :
    reply.graph.balance c input = g.balance c input := by
  rcases hw.invoke_cases hi with ⟨-, rfl⟩ | ⟨b', k, -, heff, heq⟩
  · rfl
  · rw [heq, balance_setBehaviour, heff.balance_eq (hw.setBehaviour id none) hne,
      balance_setBehaviour]

variable [HostsBuiltins β]

open HostsBuiltins (block)

theorem Wired.balance_takeTurns (hw : g.Wired) {fuel : Nat} {waiting waiting' : Bool} {b : β}
    (ht : takeTurns id fuel (block .compare) waiting g = some (b, .ok (), waiting', h))
    (hin : input = Builtin.valuesInput ∨ input = Builtin.compareInput) :
    h.balance id input = g.balance id input := by
  induction fuel generalizing g with
  | zero => cases ht
  | succ fuel ih =>
    rw [takeTurns_compare] at ht
    rcases hw.compare_cases id (block .compare) waiting with ⟨err, k, -, hrun⟩ |
      ⟨e, v, vs, o, os, -, -, -, -, hvs, hos, hrun⟩ | ⟨-, hrun⟩
    · rw [hrun] at ht
      cases ht
    · rw [hrun] at ht
      exact (ih (hw.of_layout (layout_paired g id _ v)) ht).trans (hw.balance_turn hvs hos _ hin)
    · rw [hrun] at ht
      cases ht
      rfl

theorem Wired.balance_invoke_compare (hw : g.Wired) {fuel : Nat} {waiting : Bool}
    (hb : g.behaviour? id = some (block .compare))
    (hi : g.invoke fuel id = some (.ok waiting h))
    (hin : input = Builtin.valuesInput ∨ input = Builtin.compareInput) :
    h.balance id input = g.balance id input := by
  obtain ⟨b', k, ht, rfl⟩ := (invoke_eq_ok_iff hb).mp hi
  rw [balance_setBehaviour, (hw.setBehaviour id none).balance_takeTurns ht hin,
    balance_setBehaviour]

end Graph

end Patchbay
