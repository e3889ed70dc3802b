import Patchbay.Proofs.Rounds

/-! What a block tells of itself while it is invoked. The occurrences of an invocation account for
all that it does to the queue and to the buffers of other blocks. -/

namespace Patchbay

namespace Occurrence

def recipient? : Occurrence → Option BlockId
  | observed _ (.received block _ _) => some block
  | _ => none

/-- The value that came to an input of a block. -/
def delivered? (id : BlockId) (port : String) : Occurrence → Option Value
  | observed _ (.received block edge v) => if block = id ∧ edge.input = port then some v else none
  | _ => none

theorem recipient?_of_delivered? {o : Occurrence} {id : BlockId} {port : String} {v : Value}
    (hd : o.delivered? id port = some v) : o.recipient? = some id := by
  cases o with
  | observed observers activity =>
    cases activity with
    | received block edge w =>
      simp only [delivered?] at hd
      split at hd
      · next heq => rw [recipient?, heq.1]
      · cases hd
    | _ => cases hd
  | _ => cases hd

/-- Whether an occurrence is one that the calls of a block's program cause, along the edges of an
arena. -/
def CausedBy (a : Arena) (id : BlockId) : Occurrence → Prop
  | observed _ (.emitted block _ _) => block = id
  | observed _ (.received block edge _) =>
    edge.publisher = id ∧ edge.subscriber = block ∧ ∃ s, a.get? s = some edge
  | shown _ _ => True
  | said block _ _ => block = id
  | _ => False

end Occurrence

theorem eraseDups_concat {α : Type} [BEq α] [LawfulBEq α] (l : List α) (a : α) :
    (l ++ [a]).eraseDups = if a ∈ l then l.eraseDups else l.eraseDups ++ [a] := by
  by_cases ha : a ∈ l <;> simp [List.eraseDups_append, List.removeAll, ha, List.eraseDups_cons]

namespace Graph

variable {β : Type} {g h k : Graph β} {id : BlockId} {events more : List Occurrence}

/-- Whether the occurrences since `g`, the oldest first, account for what block `id` did up to
`h`. -/
structure Account (id : BlockId) (g h : Graph β) (events : List Occurrence) : Prop where
  history : h.history = events.reverse ++ g.history
  queue : ∀ calls, g.receivers = calls.eraseDups →
    h.receivers = (calls ++ events.filterMap Occurrence.recipient?).eraseDups
  buffer : ∀ j, j ≠ id → ∀ port, (h.buffer j port).reverse =
    (g.buffer j port).reverse ++ events.filterMap (Occurrence.delivered? j port)
  caused : ∀ o ∈ events, o.CausedBy g.arena id

namespace Account

theorem refl (id : BlockId) (g : Graph β) : g.Account id g [] where
  history := rfl
  queue calls hq := by simpa using hq
  buffer j _ port := by simp
  caused o ho := absurd ho List.not_mem_nil

theorem trans (ha : Account id g h events) (hb : Account id h k more)
    (harena : h.arena = g.arena) : Account id g k (events ++ more) where
  history := by rw [hb.history, ha.history, List.reverse_append, List.append_assoc]
  queue calls hq := by
    rw [hb.queue _ (ha.queue calls hq), List.filterMap_append, List.append_assoc]
  buffer j hj port := by
    rw [hb.buffer j hj port, ha.buffer j hj port, List.filterMap_append, List.append_assoc]
  caused o ho := by
    rcases List.mem_append.mp ho with ho | ho
    · exact ha.caused o ho
    · exact harena ▸ hb.caused o ho

theorem quiet (hh : h.history = g.history) (hq : h.receivers = g.receivers)
    (hb : ∀ j, j ≠ id → ∀ port, h.buffer j port = g.buffer j port) : Account id g h [] where
  history := hh
  queue calls hc := by simpa [hq] using hc
  buffer j hj port := by simp [hb j hj port]
  caused o ho := absurd ho List.not_mem_nil

theorem record {o : Occurrence} (ho : o.CausedBy g.arena id) (hr : o.recipient? = none) :
    Account id g (g.record o) [o] where
  history := rfl
  queue calls hc := by
    have hnone : [o].filterMap Occurrence.recipient? = [] := by simp [hr]
    rw [hnone, List.append_nil]
    exact hc
  buffer j _ port := by
    have hd : o.delivered? j port = none := by
      refine Option.eq_none_iff_forall_not_mem.mpr fun v hv => ?_
      rw [Occurrence.recipient?_of_delivered? hv] at hr
      cases hr
    simp only [List.filterMap_cons, hd, List.filterMap_nil, List.append_nil]
    rfl
  caused x hx := by rwa [List.mem_singleton.mp hx]

theorem accept (hw : g.Wired) {s : SubscriptionId} {edge : Edge} (hs : g.arena.get? s = some edge)
    (hp : edge.publisher = id) (v : Value) : Account id g (g.accept v edge)
      [.observed g.observers (.received edge.subscriber edge v)] where
  history := history_accept g v edge
  queue calls hc := by
    rw [receivers_accept, queue_eq]
    simp [Occurrence.recipient?, eraseDups_concat, hc]
  buffer j _ port := by
    rw [buffer_accept g v edge (hw.live_subscriber hs)]
    split <;> simp_all [Occurrence.delivered?]
  caused o ho := by
    rw [List.mem_singleton.mp ho]
    exact ⟨hp, rfl, s, hs⟩

end Account

theorem Effect.account (he : Effect id g h) (hw : g.Wired) : ∃ events, Account id g h events := by
  cases he with
  | take => exact ⟨[], .quiet rfl rfl fun j hj port => buffer_updateNode_of_ne g hj _ port⟩
  | emit => exact ⟨_, .record rfl rfl⟩
  | accept hs hp => exact ⟨_, .accept hw hs hp _⟩
  | assign => exact ⟨[], .quiet rfl rfl fun _ _ _ => rfl⟩
  | display => exact ⟨_, .record trivial rfl⟩
  | say => exact ⟨_, .record rfl rfl⟩

theorem Effects.account (he : Effects id g h) (hw : g.Wired) :
    ∃ events, Account id g h events := by
  induction he with
  | refl => exact ⟨[], .refl id g⟩
  | tail heff he ih =>
    have hl := Effects.layout_eq heff
    obtain ⟨events, ha⟩ := ih
    obtain ⟨more, hb⟩ := he.account (hw.of_layout hl)
    exact ⟨events ++ more, ha.trans hb (arena_congr hl)⟩

theorem Account.setBehaviour (id : BlockId) (g : Graph β) (j : BlockId) (b : Option β) :
    Account id g (g.setBehaviour j b) [] :=
  .quiet rfl rfl fun _ _ _ => buffer_setBehaviour g j _ b _

variable [Behaviour β]

theorem Wired.account_invoke (hw : g.Wired) {fuel : Nat} {reply : Reply β Bool}
    (hi : g.invoke fuel id = some reply) : ∃ events, Account id g reply.graph events := by
  rcases hw.invoke_cases hi with ⟨-, rfl⟩ | ⟨b', l, -, heff, heq⟩
  · exact ⟨[], .refl id g⟩
  · obtain ⟨events, ha⟩ := heff.account (hw.setBehaviour id none)
    have hfirst := (Account.setBehaviour id g id none).trans ha rfl
    have hl : l.arena = g.arena :=
      arena_congr (heff.layout_eq.trans (layout_setBehaviour g id none))
    exact ⟨_, heq ▸ hfirst.trans (.setBehaviour id l id (some b')) hl⟩

theorem Wired.account_of_history (hw : g.Wired) {fuel : Nat} {reply : Reply β Bool}
    (hi : g.invoke fuel id = some reply) (hh : reply.graph.history = events.reverse ++ g.history) :
    Account id g reply.graph events := by
  obtain ⟨events', ha⟩ := hw.account_invoke hi
  have heq : events'.reverse = events.reverse :=
    List.append_cancel_right (ha.history.symm.trans hh)
  exact List.reverse_injective heq ▸ ha

end Graph

end Patchbay
