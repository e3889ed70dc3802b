import Patchbay.Proofs.Wiring

/-! Adding and removing blocks and subscriptions keeps a graph wired. An edge enters or leaves the
arena together with the lists of both its ends, also where both ends are one block. -/

namespace Patchbay.Graph

variable {β : Type} {g : Graph β}

/-! Adding a block -/

theorem slot?_add [Behaviour β] (g : Graph β) (b : β) (j : BlockId) :
    (g.add b).2.slot? j =
      if j = (g.add b).1 then some ⟨some b, .ofDefinition j (Behaviour.definition b)⟩
      else g.slot? j := by
  obtain ⟨j⟩ := j
  simp only [slot?, add, List.getElem?_append, BlockId.mk.injEq]
  by_cases hlt : j < g.slots.length
  · simp [hlt, Nat.ne_of_lt hlt]
  · by_cases heq : j = g.slots.length
    · subst heq
      simp
    · have hgt : j - g.slots.length ≠ 0 := by omega
      simp [hlt, heq, hgt]

theorem Wired.add [Behaviour β] (hw : g.Wired) (b : β) : (g.add b).2.Wired := by
  have hfresh : g.slot? (g.add b).1 = none := slot?_eq_none_of_length_le (Nat.le_refl _)
  have hkeep : ∀ id n, g.wiring id = some n → (g.add b).2.wiring id = some n := by
    intro id n hn
    obtain ⟨e, he, rfl⟩ := exists_slot?_of_wiring hn
    have hne : id ≠ (g.add b).1 := fun heq => by rw [heq, hfresh] at he; cases he
    simp [wiring, slot?_add, hne, he]
  have hcases : ∀ id n, (g.add b).2.wiring id = some n →
      (id = (g.add b).1 ∧ n = (Node.ofDefinition id (Behaviour.definition b)).wiring) ∨
        g.wiring id = some n := by
    intro id n hn
    simp only [wiring, slot?_add] at hn
    split at hn
    · next h => exact Or.inl ⟨h, by simpa using hn.symm⟩
    · exact Or.inr hn
  have hnone : ∀ p : Edge → Bool, (∀ e, p e = true → e.publisher = (g.add b).1 ∨
      e.subscriber = (g.add b).1) → g.arena.select p = [] := by
    intro p hp
    refine List.eq_nil_iff_forall_not_mem.mpr fun s hs => ?_
    obtain ⟨e, hm, he⟩ := Arena.mem_select.mp hs
    rcases hp e he with h | h
    · obtain ⟨x, hx, -⟩ := hw.exists_publisher (hw.arena.get?_eq_some_iff.mpr hm)
      rw [h, hfresh] at hx
      cases hx
    · obtain ⟨x, hx, -⟩ := hw.exists_subscriber (hw.arena.get?_eq_some_iff.mpr hm)
      rw [h, hfresh] at hx
      cases hx
  refine ⟨hw.arena, fun id => ?_, ?_, fun id n hn => ?_, fun id n hn => ?_, fun id n hn o => ?_,
    fun id n hn i => ?_, fun s e hm => ?_, fun s e hm => ?_⟩
  · rw [wiring_isSome, slot?_add]
    have ho : id ∈ (g.add b).2.order ↔ id ∈ g.order ∨ id = (g.add b).1 := by simp [Graph.add]
    rw [ho, hw.mem_order_iff]
    split <;> simp_all
  · refine List.pairwise_append.mpr ⟨hw.order_rising, List.pairwise_singleton _ _, ?_⟩
    intro x hx y hy
    rw [List.mem_singleton.mp hy]
    obtain ⟨e, he⟩ := Option.isSome_iff_exists.mp ((hw.mem_order_iff x).mp hx)
    exact index_lt_of_slot? he
  · rcases hcases id n hn with ⟨-, rfl⟩ | h
    · rfl
    · exact hw.named id n h
  · rcases hcases id n hn with ⟨-, rfl⟩ | h
    · exact ⟨Node.nodup_distinct _, Node.nodup_distinct _⟩
    · exact hw.ports id n h
  · rcases hcases id n hn with ⟨rfl, rfl⟩ | h
    · exact (hnone _ (by simp +contextual)).symm
    · exact hw.leaving id n h o
  · rcases hcases id n hn with ⟨rfl, rfl⟩ | h
    · exact (hnone _ (by simp +contextual)).symm
    · exact hw.entering id n h i
  · obtain ⟨n, hn, ho⟩ := hw.publisher s e hm
    exact ⟨n, hkeep _ n hn, ho⟩
  · obtain ⟨n, hn, hi⟩ := hw.subscriber s e hm
    exact ⟨n, hkeep _ n hn, hi⟩

/-! Adding and removing an edge -/

/-- A change of the lists of subscriptions that follows the arena. -/
theorem Wired.rewire {h : Graph β} (hw : g.Wired) (ho : h.order = g.order) (ha : h.arena.Sound)
    {f : BlockId → Node → Node} (hf : ∀ id, h.wiring id = (g.wiring id).map (f id))
    (hk : ∀ id n, (f id n).id = n.id ∧ (f id n).inputs = n.inputs ∧ (f id n).outputs = n.outputs)
    (hl : ∀ id n, g.wiring id = some n → ∀ o,
      (f id n).subscribers.list o = h.arena.leaving id o)
    (he : ∀ id n, g.wiring id = some n → ∀ i,
      (f id n).subscriptions.list i = h.arena.entering id i)
    (hp : ∀ s e, (s, e) ∈ h.arena.entries →
      ∃ n, g.wiring e.publisher = some n ∧ e.output ∈ n.outputs)
    (hs : ∀ s e, (s, e) ∈ h.arena.entries →
      ∃ n, g.wiring e.subscriber = some n ∧ e.input ∈ n.inputs) : h.Wired where
  arena := ha
  mem_order id := by rw [ho, hf, Option.isSome_map]; exact hw.mem_order id
  order_rising := ho ▸ hw.order_rising
  named id n hn := by
    rw [hf] at hn
    obtain ⟨m, hm, rfl⟩ := Option.map_eq_some_iff.mp hn
    rw [(hk id m).1]
    exact hw.named id m hm
  ports id n hn := by
    rw [hf] at hn
    obtain ⟨m, hm, rfl⟩ := Option.map_eq_some_iff.mp hn
    rw [(hk id m).2.1, (hk id m).2.2]
    exact hw.ports id m hm
  leaving id n hn := by
    rw [hf] at hn
    obtain ⟨m, hm, rfl⟩ := Option.map_eq_some_iff.mp hn
    exact hl id m hm
  entering id n hn := by
    rw [hf] at hn
    obtain ⟨m, hm, rfl⟩ := Option.map_eq_some_iff.mp hn
    exact he id m hm
  publisher s e hm := by
    obtain ⟨n, hn, hout⟩ := hp s e hm
    exact ⟨f _ n, by rw [hf, hn]; rfl, by rwa [(hk _ n).2.2]⟩
  subscriber s e hm := by
    obtain ⟨n, hn, hin⟩ := hs s e hm
    exact ⟨f _ n, by rw [hf, hn]; rfl, by rwa [(hk _ n).2.1]⟩

/-- Enters an edge in the arena and in the lists of its ends, where both exist. -/
def connect (g : Graph β) (edge : Edge) : Graph β :=
  let id := g.arena.nextId
  let g := { g with arena := g.arena.add edge }
  let g := g.updateNode edge.subscriber (·.attachSubscription edge.input id)
  g.updateNode edge.publisher (·.attachSubscriber edge.output id)

theorem attach_eq {edge : Edge} (hs : (g.slot? edge.subscriber).isSome)
    (hp : (g.slot? edge.publisher).isSome) (id : SubscriptionId) : g.attach id edge =
      .ok () ((g.updateNode edge.subscriber (·.attachSubscription edge.input id)).updateNode
        edge.publisher (·.attachSubscriber edge.output id)) := by
  obtain ⟨x, hx⟩ := Option.isSome_iff_exists.mp hs
  have hp' : ((g.updateNode edge.subscriber (·.attachSubscription edge.input id)).slot?
      edge.publisher).isSome := (isSome_slot?_updateEntry g _ _ _).trans hp
  obtain ⟨y, hy⟩ := Option.isSome_iff_exists.mp hp'
  unfold attach
  rw [editNode_eq_ok hx (·.attachSubscription edge.input id) rfl]
  exact editNode_eq_ok hy (·.attachSubscriber edge.output id) rfl

/-- The ends of an edge are looked at before anything changes, so nothing fails after that. -/
theorem subscribe_eq {edge : Edge} (hc : g.checkEdge edge = .ok ()) :
    g.subscribe edge.subscriber edge.input edge.publisher edge.output =
      match g.arena.find? edge with
      | some s => .ok s g
      | none => .ok g.arena.nextId ((g.connect edge).record (.logged (.subscribed edge))) := by
  obtain ⟨hi, ho⟩ := checkEdge_eq_ok_iff.mp hc
  obtain ⟨x, hx, -⟩ := checkInput_eq_ok_iff.mp hi
  obtain ⟨y, hy, -⟩ := checkOutput_eq_ok_iff.mp ho
  have ha : attach { g with arena := g.arena.add edge } g.arena.nextId edge =
      .ok () (g.connect edge) := by
    refine attach_eq ?_ ?_ _
    · exact Option.isSome_iff_exists.mpr ⟨x, hx⟩
    · exact Option.isSome_iff_exists.mpr ⟨y, hy⟩
  obtain ⟨publisher, output, subscriber, input⟩ := edge
  cases hf : g.arena.find? ⟨publisher, output, subscriber, input⟩ <;> simp [subscribe, hc, hf, ha]

theorem subscribe_eq_error {edge : Edge} {err : GraphError} (hc : g.checkEdge edge = .error err) :
    g.subscribe edge.subscriber edge.input edge.publisher edge.output = .error err g := by
  obtain ⟨publisher, output, subscriber, input⟩ := edge
  simp [subscribe, hc]

/-- A subscription is refused, or there already, or entered under the next number. -/
theorem graph_subscribe_cases (g : Graph β) (edge : Edge) :
    (g.subscribe edge.subscriber edge.input edge.publisher edge.output).graph = g ∨
      g.checkEdge edge = .ok () ∧ g.arena.find? edge = none ∧
        (g.subscribe edge.subscriber edge.input edge.publisher edge.output).graph =
          (g.connect edge).record (.logged (.subscribed edge)) := by
  cases hc : g.checkEdge edge with
  | error err => exact Or.inl (by rw [subscribe_eq_error hc]; rfl)
  | ok =>
    rw [subscribe_eq hc]
    cases g.arena.find? edge with
    | some s => exact Or.inl rfl
    | none => exact Or.inr ⟨rfl, rfl, rfl⟩

theorem slot?_connect (g : Graph β) (edge : Edge) (id : BlockId) :
    (g.connect edge).slot? id = (g.slot? id).map fun e =>
      { e with node := e.node.connected id edge g.arena.nextId } := by
  simp only [connect, slot?_updateNode]
  change _ = (slot? { g with arena := g.arena.add edge } id).map _
  cases slot? { g with arena := g.arena.add edge } id with
  | none => simp
  | some e =>
    simp only [Option.map_some, Node.connected]
    split <;> split <;> rfl

theorem slot?_disconnect (g : Graph β) (s : SubscriptionId) (edge : Edge) (id : BlockId) :
    (g.disconnect s edge).slot? id = (g.slot? id).map fun e =>
      { e with node := e.node.disconnected id edge s } := by
  simp only [disconnect, slot?_updateNode]
  change _ = (slot? { g with arena := g.arena.erase s edge } id).map _
  cases slot? { g with arena := g.arena.erase s edge } id with
  | none => simp
  | some e =>
    simp only [Option.map_some, Node.disconnected]
    split <;> split <;> rfl

theorem wiring_connect (g : Graph β) (edge : Edge) (id : BlockId) :
    (g.connect edge).wiring id = (g.wiring id).map (·.connected id edge g.arena.nextId) := by
  simp [wiring, slot?_connect, Function.comp_def, Node.wiring_connected]

theorem wiring_disconnect (g : Graph β) (s : SubscriptionId) (edge : Edge) (id : BlockId) :
    (g.disconnect s edge).wiring id = (g.wiring id).map (·.disconnected id edge s) := by
  simp [wiring, slot?_disconnect, Function.comp_def, Node.wiring_disconnected]

theorem Wired.connect (hw : g.Wired) {edge : Edge} (hn : g.arena.find? edge = none)
    (hp : ∃ n, g.wiring edge.publisher = some n ∧ edge.output ∈ n.outputs)
    (hs : ∃ n, g.wiring edge.subscriber = some n ∧ edge.input ∈ n.inputs) :
    (g.connect edge).Wired := by
  have hm : ∀ s e, (s, e) ∈ (g.connect edge).arena.entries →
      (s, e) ∈ g.arena.entries ∨ e = edge := by
    intro s e hm
    rcases List.mem_append.mp hm with h | h
    · exact Or.inl h
    · exact Or.inr (congrArg Prod.snd (List.mem_singleton.mp h))
  refine hw.rewire rfl (hw.arena.add hn) (wiring_connect g edge)
    (fun id n => n.connected_ports id edge _) (fun id n hid o => ?_) (fun id n hid i => ?_)
    (fun s e he => ?_) (fun s e he => ?_)
  · rw [Node.connected_subscribers, hw.leaving id n hid]
    exact (Arena.leaving_add id o).symm
  · rw [Node.connected_subscriptions, hw.entering id n hid]
    exact (Arena.entering_add id i).symm
  · rcases hm s e he with h | rfl
    · exact hw.publisher s e h
    · exact hp
  · rcases hm s e he with h | rfl
    · exact hw.subscriber s e h
    · exact hs

theorem Wired.disconnect (hw : g.Wired) {s : SubscriptionId} {edge : Edge}
    (hg : g.arena.get? s = some edge) : (g.disconnect s edge).Wired := by
  refine hw.rewire rfl (hw.arena.erase hg) (wiring_disconnect g s edge)
    (fun id n => n.disconnected_ports id edge s) (fun id n hid o => ?_) (fun id n hid i => ?_)
    (fun s e he => hw.publisher s e (List.mem_of_mem_filter he))
    (fun s e he => hw.subscriber s e (List.mem_of_mem_filter he))
  · rw [Node.disconnected_subscribers, hw.leaving id n hid]
    exact (hw.arena.leaving_erase hg id o).symm
  · rw [Node.disconnected_subscriptions, hw.entering id n hid]
    exact (hw.arena.entering_erase hg id i).symm

theorem Wired.subscribe (hw : g.Wired) (subscriber : BlockId) (input : String)
    (publisher : BlockId) (output : String) :
    (g.subscribe subscriber input publisher output).graph.Wired := by
  rcases graph_subscribe_cases g ⟨publisher, output, subscriber, input⟩ with heq | ⟨hc, hn, heq⟩
  · exact heq.symm ▸ hw
  · obtain ⟨hi, ho⟩ := checkEdge_eq_ok_iff.mp hc
    obtain ⟨x, hx, hin⟩ := checkInput_eq_ok_iff.mp hi
    obtain ⟨y, hy, hout⟩ := checkOutput_eq_ok_iff.mp ho
    rw [heq]
    exact (hw.connect hn ⟨_, wiring_of_slot? hy, hout⟩ ⟨_, wiring_of_slot? hx, hin⟩).of_layout
      (layout_record _ _)

/-! Removing subscriptions -/

theorem Wired.removeSubscription (hw : g.Wired) (s : SubscriptionId) :
    (g.removeSubscription s).2.Wired := by
  unfold Graph.removeSubscription
  split
  · exact hw
  · next edge hg => exact (hw.disconnect hg).of_layout (layout_record _ _)

theorem entries_removeSubscription (hw : g.Wired) (s : SubscriptionId) :
    (g.removeSubscription s).2.arena.entries = g.arena.entries.filter (·.1 ≠ s) := by
  unfold Graph.removeSubscription
  split
  · next hg =>
    refine (List.filter_eq_self.mpr fun x hx => ?_).symm
    have hne : x.1 ≠ s := fun heq => by
      rw [← heq, hw.arena.get?_eq_some_iff.mpr hx] at hg
      cases hg
    simpa using hne
  · rfl

theorem Wired.removeSubscriptions (hw : g.Wired) (ids : List SubscriptionId) :
    (g.removeSubscriptions ids).Wired ∧
      (g.removeSubscriptions ids).arena.entries = g.arena.entries.filter (·.1 ∉ ids) := by
  induction ids generalizing g with
  | nil => exact ⟨hw, (List.filter_eq_self.mpr (by simp)).symm⟩
  | cons s rest ih =>
    obtain ⟨hr, he⟩ := ih (hw.removeSubscription s)
    refine ⟨hr, he.trans ?_⟩
    rw [entries_removeSubscription hw, List.filter_filter]
    apply List.filter_congr
    intro x _
    simp [Bool.and_comm]

@[simp] theorem unwired_disconnect (g : Graph β) (s : SubscriptionId) (edge : Edge) :
    (g.disconnect s edge).unwired = g.unwired := by
  refine (unwired_updateNode _ _ ?_).trans (unwired_updateNode _ _ ?_) <;> exact fun _ => rfl

@[simp] theorem unwired_connect (g : Graph β) (edge : Edge) :
    (g.connect edge).unwired = g.unwired := by
  refine (unwired_updateNode _ _ ?_).trans (unwired_updateNode _ _ ?_) <;> exact fun _ => rfl

@[simp] theorem unwired_subscribe (g : Graph β) (subscriber : BlockId) (input : String)
    (publisher : BlockId) (output : String) :
    (g.subscribe subscriber input publisher output).graph.unwired = g.unwired := by
  rcases graph_subscribe_cases g ⟨publisher, output, subscriber, input⟩ with heq | ⟨-, -, heq⟩
  · rw [heq]
  · rw [heq]
    exact unwired_connect g _

@[simp] theorem unwired_removeSubscription (g : Graph β) (s : SubscriptionId) :
    (g.removeSubscription s).2.unwired = g.unwired := by
  unfold removeSubscription
  split
  · rfl
  · exact unwired_disconnect g _ _

@[simp] theorem unwired_removeSubscriptions (g : Graph β) (ids : List SubscriptionId) :
    (g.removeSubscriptions ids).unwired = g.unwired := by
  induction ids generalizing g with
  | nil => rfl
  | cons s rest ih => exact (ih _).trans (unwired_removeSubscription g s)

/-! Removing a block -/

/-- Takes a block out of its slot and out of every queue. -/
def vacate (g : Graph β) (id : BlockId) : Graph β :=
  { g with
    slots := g.slots.set id.index none
    order := g.order.filter (· ≠ id)
    processing := g.processing.filter (· ≠ id)
    receivers := g.receivers.filter (· ≠ id) }

theorem slot?_vacate (g : Graph β) (id j : BlockId) :
    (g.vacate id).slot? j = if j = id then none else g.slot? j := by
  obtain ⟨i⟩ := id
  obtain ⟨j⟩ := j
  simp only [slot?, vacate, List.getElem?_set, BlockId.mk.injEq]
  by_cases h : j = i
  · subst h
    by_cases hlt : j < g.slots.length <;> simp [hlt]
  · simp [h, Ne.symm h]

theorem Wired.vacate (hw : g.Wired) {id : BlockId}
    (hp : ∀ s e, (s, e) ∈ g.arena.entries → e.publisher ≠ id ∧ e.subscriber ≠ id) :
    (g.vacate id).Wired := by
  have hwiring : ∀ j, (g.vacate id).wiring j = if j = id then none else g.wiring j := by
    intro j
    simp only [wiring, slot?_vacate]
    split <;> rfl
  have hkeep : ∀ j n, (g.vacate id).wiring j = some n → g.wiring j = some n := by
    intro j n hn
    rw [hwiring] at hn
    split at hn
    · cases hn
    · exact hn
  refine ⟨hw.arena, fun j => ?_, hw.order_rising.filter _,
    fun j n hn => hw.named j n (hkeep j n hn),
    fun j n hn => hw.ports j n (hkeep j n hn), fun j n hn => hw.leaving j n (hkeep j n hn),
    fun j n hn => hw.entering j n (hkeep j n hn), fun s e hm => ?_, fun s e hm => ?_⟩
  · have ho : j ∈ (g.vacate id).order ↔ j ∈ g.order ∧ j ≠ id := by simp [Graph.vacate]
    rw [ho, hw.mem_order, hwiring]
    split <;> simp_all
  · obtain ⟨n, hn, hout⟩ := hw.publisher s e hm
    exact ⟨n, by rw [hwiring, if_neg (hp s e hm).1, hn], hout⟩
  · obtain ⟨n, hn, hin⟩ := hw.subscriber s e hm
    exact ⟨n, by rw [hwiring, if_neg (hp s e hm).2, hn], hin⟩

theorem remove_eq_unknown {id : BlockId} (h : g.slot? id = none) :
    g.remove id = .error (.unknownBlock id) g := by
  simp [remove, node, h]

/-- A block is still there after its subscriptions are gone, with the behaviour that it had. -/
theorem remove_eq {id : BlockId} {e : Entry β} (h : g.slot? id = some e) : g.remove id =
    match e.behaviour with
    | some b => .ok b ((g.removeSubscriptions e.node.edges).vacate id)
    | none => .error (.unknownBlock id) ((g.removeSubscriptions e.node.edges).vacate id) := by
  have hn : g.node id = .ok e.node := node_eq_ok_iff.mpr ⟨e, h, rfl⟩
  have hu := slot?_unwired (g.removeSubscriptions e.node.edges) id
  rw [unwired_removeSubscriptions, slot?_unwired, h] at hu
  obtain ⟨x, hx, hb⟩ := Option.map_eq_some_iff.mp hu.symm
  have hbehaviour : x.behaviour = e.behaviour := (Entry.mk.inj hb).1
  simp only [remove, hn, hx, hbehaviour]
  rfl

theorem graph_remove {id : BlockId} {e : Entry β} (h : g.slot? id = some e) :
    (g.remove id).graph = (g.removeSubscriptions e.node.edges).vacate id := by
  rw [remove_eq h]
  cases e.behaviour <;> rfl

theorem Wired.mem_edges_iff (hw : g.Wired) {id : BlockId} {e : Entry β} (h : g.slot? id = some e)
    {s : SubscriptionId} {edge : Edge} (hm : (s, edge) ∈ g.arena.entries) :
    s ∈ e.node.edges ↔ edge.publisher = id ∨ edge.subscriber = id := by
  simp only [Node.mem_edges, hw.subscriptions_list h, hw.subscribers_list h, Arena.entering,
    Arena.leaving, hw.arena.mem_select_iff hm]
  constructor
  · rintro (⟨i, hi⟩ | ⟨o, ho⟩)
    · exact Or.inr (of_decide_eq_true hi).1
    · exact Or.inl (of_decide_eq_true ho).1
  · rintro (hp | hs)
    · exact Or.inr ⟨edge.output, by simp [hp]⟩
    · exact Or.inl ⟨edge.input, by simp [hs]⟩

theorem Wired.remove (hw : g.Wired) (id : BlockId) : (g.remove id).graph.Wired := by
  cases h : g.slot? id with
  | none =>
    rw [remove_eq_unknown h]
    exact hw
  | some e =>
    rw [graph_remove h]
    obtain ⟨hr, he⟩ := hw.removeSubscriptions e.node.edges
    refine hr.vacate fun s edge hm => ?_
    rw [he, List.mem_filter] at hm
    have hnot : s ∉ e.node.edges := by simpa using hm.2
    rw [hw.mem_edges_iff h hm.1, not_or] at hnot
    exact hnot

end Patchbay.Graph
