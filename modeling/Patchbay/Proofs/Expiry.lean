import Patchbay.Proofs.Coherence
import Patchbay.Proofs.EdgeSets
import Patchbay.Proofs.Interior
import Patchbay.Proofs.Repetition

/-! Numbers of blocks and subscriptions that are gone. Both kinds are counted upwards, and what is
removed is forgotten in every place that knows it, so a call that names it fails at any time
after. -/

namespace Patchbay.Graph

variable {β : Type} {g h k : Graph β} {b : BlockId} {s : SubscriptionId}

/-! Slots -/

/-- Which slots hold a block. -/
def tenancy (g : Graph β) : List Bool := g.slots.map Option.isSome

/-- Whether a slot was used and holds no block any more. -/
def Vacant (g : Graph β) (b : BlockId) : Prop := g.tenancy[b.index]? = some false

theorem tenancy_of_outlines {α γ : Type} {g : Graph α} {h : Graph β} {p : Entry α → γ}
    {q : Entry β → γ} (heq : h.slots.map (Option.map q) = g.slots.map (Option.map p)) :
    h.tenancy = g.tenancy := by
  have hsome := congrArg (List.map Option.isSome) heq
  simpa [List.map_map, Function.comp_def, tenancy] using hsome

theorem tenancy_updateEntry (g : Graph β) (id : BlockId) (f : Entry β → Entry β) :
    (g.updateEntry id f).tenancy = g.tenancy :=
  tenancy_of_outlines (map_slots_updateEntry g id (p := fun _ => ()) fun _ => rfl)

theorem tenancy_editNode {α : Type} (g : Graph β) (id : BlockId)
    (f : Node → Except GraphError (α × Node)) : (g.editNode id f).graph.tenancy = g.tenancy := by
  unfold editNode
  split
  · exact tenancy_updateEntry g id _
  · rfl

theorem tenancy_of_unwired (hu : h.unwired = g.unwired) : h.tenancy = g.tenancy :=
  tenancy_of_outlines (congrArg Graph.slots hu)

theorem tenancy_of_layout (hl : h.layout = g.layout) : h.tenancy = g.tenancy :=
  tenancy_of_outlines (congrArg Graph.slots hl)

theorem Vacant.slot?_eq (hv : g.Vacant b) : g.slot? b = none := by
  simp only [Vacant, tenancy, List.getElem?_map, Option.map_eq_some_iff] at hv
  obtain ⟨o, ho, hnone⟩ := hv
  simpa [slot?, ho] using hnone

theorem Vacant.index_lt (hv : g.Vacant b) : b.index < g.slots.length := by
  obtain ⟨hlt, -⟩ := List.getElem?_eq_some_iff.mp hv
  simpa [tenancy] using hlt

theorem vacant_of_remove {x : β} (hr : g.remove b = .ok x h) : h.Vacant b := by
  cases he : g.slot? b with
  | none =>
    rw [remove_eq_unknown he] at hr
    cases hr
  | some e =>
    have hgraph := graph_remove he
    rw [hr, Reply.graph_ok] at hgraph
    have hlen : (g.removeSubscriptions e.node.edges).tenancy.length = g.tenancy.length :=
      congrArg List.length (tenancy_of_unwired (unwired_removeSubscriptions g _))
    have hlt : b.index < g.tenancy.length := by simpa [tenancy] using index_lt_of_slot? he
    simp only [tenancy, List.length_map] at hlen hlt
    simp [Vacant, tenancy, hgraph, vacate, hlen, hlt]

theorem tenancy_remove (g : Graph β) (id : BlockId) : (g.remove id).graph.tenancy = g.tenancy ∨
    (g.remove id).graph.tenancy = g.tenancy.set id.index false := by
  cases he : g.slot? id with
  | none => exact Or.inl (by rw [remove_eq_unknown he, Reply.graph_error])
  | some e =>
    have hkeep := tenancy_of_unwired (unwired_removeSubscriptions g e.node.edges)
    refine Or.inr ?_
    rw [graph_remove he, ← hkeep]
    simp [tenancy, vacate, List.map_set]

theorem graph_unsubscribe (g : Graph β) (id : BlockId) (input : String)
    (publisher : Option BlockId) (output : Option String) :
    ∃ ids, (g.unsubscribe id input publisher output).graph = g.removeSubscriptions ids := by
  unfold unsubscribe
  split
  · exact ⟨[], rfl⟩
  · split
    · exact ⟨[], rfl⟩
    · exact ⟨_, rfl⟩

/-- A call may fill a slot at the end or empty one, and fills none that was empty. -/
theorem Ready.tenancy_perform [Behaviour β] (hg : g.Ready) {fuel : Nat} {op : Operation β}
    (hp : g.perform fuel op = some h) : h.tenancy = g.tenancy ∨ h.tenancy = g.tenancy ++ [true] ∨
      ∃ i, h.tenancy = g.tenancy.set i false := by
  cases ht : op.transient with
  | true => exact Or.inl (tenancy_of_layout (hg.layout_perform ht hp))
  | false =>
    cases op with
    | add c =>
      cases hp
      exact Or.inr (Or.inl (by simp [tenancy, Graph.add]))
    | remove id =>
      cases hp
      rcases tenancy_remove g id with heq | heq
      · exact Or.inl heq
      · exact Or.inr (Or.inr ⟨id.index, heq⟩)
    | subscribe subscriber input publisher output | publish publisher output subscriber input =>
      cases hp
      exact Or.inl (tenancy_of_unwired (unwired_subscribe g _ _ _ _))
    | unsubscribe id input publisher output =>
      cases hp
      obtain ⟨ids, heq⟩ := graph_unsubscribe g id input publisher output
      rw [heq]
      exact Or.inl (tenancy_of_unwired (unwired_removeSubscriptions g ids))
    | removeSubscription s =>
      cases hp
      exact Or.inl (tenancy_of_unwired (unwired_removeSubscription g s))
    | setParameter id name v => cases hp; exact Or.inl (tenancy_editNode g id _)
    | annotateBlock id metadata => cases hp; exact Or.inl (tenancy_updateEntry g id _)
    | annotate | configure | observe => cases hp; exact Or.inl rfl
    | _ => cases ht

theorem Ready.vacant_perform [Behaviour β] (hg : g.Ready) (hv : g.Vacant b) {fuel : Nat}
    {op : Operation β} (hp : g.perform fuel op = some h) : h.Vacant b := by
  unfold Vacant at *
  rcases hg.tenancy_perform hp with heq | heq | ⟨i, heq⟩
  · rwa [heq]
  · obtain ⟨hlt, -⟩ := List.getElem?_eq_some_iff.mp hv
    rwa [heq, List.getElem?_append_left hlt]
  · rw [heq, List.getElem?_set]
    split
    · next hi =>
      obtain ⟨hlt, -⟩ := List.getElem?_eq_some_iff.mp hv
      simp [hi, hlt]
    · exact hv

/-! Subscriptions -/

/-- Whether a number was given to a subscription that is not there any more. -/
structure Dropped (g : Graph β) (s : SubscriptionId) : Prop where
  absent : ∀ edge, (s, edge) ∉ g.arena.entries
  used : s.number ≤ g.arena.lastNumber

theorem Ready.entries_perform [Behaviour β] (hg : g.Ready) {fuel : Nat} {op : Operation β}
    (hp : g.perform fuel op = some h) : ∀ x ∈ h.arena.entries,
      x ∈ g.arena.entries ∨ g.arena.lastNumber < x.1.number := by
  have hsubscribe : ∀ edge : Edge, ∀ x ∈ (g.subscribe edge.subscriber edge.input edge.publisher
      edge.output).graph.arena.entries, x ∈ g.arena.entries ∨ g.arena.lastNumber < x.1.number := by
    intro edge x hx
    rcases graph_subscribe_cases g edge with heq | ⟨-, -, heq⟩
    · rw [heq] at hx
      exact Or.inl hx
    · rw [heq] at hx
      rcases List.mem_append.mp hx with hx | hx
      · exact Or.inl hx
      · rw [List.mem_singleton.mp hx]
        exact Or.inr (Nat.lt_succ_self _)
  have hdrop : ∀ ids, ∀ x ∈ (g.removeSubscriptions ids).arena.entries, x ∈ g.arena.entries := by
    intro ids x hx
    rw [(hg.wired.removeSubscriptions ids).2] at hx
    exact List.mem_of_mem_filter hx
  intro x hx
  cases ht : op.transient with
  | true => exact Or.inl (by rwa [arena_congr (hg.layout_perform ht hp)] at hx)
  | false =>
    cases op with
    | subscribe subscriber input publisher output | publish publisher output subscriber input =>
      cases hp
      exact hsubscribe ⟨publisher, output, subscriber, input⟩ x hx
    | remove id =>
      cases hp
      cases he : g.slot? id with
      | none =>
        rw [remove_eq_unknown he] at hx
        exact Or.inl hx
      | some e =>
        rw [graph_remove he] at hx
        exact Or.inl (hdrop _ x hx)
    | unsubscribe id input publisher output =>
      cases hp
      obtain ⟨ids, heq⟩ := graph_unsubscribe g id input publisher output
      rw [heq] at hx
      exact Or.inl (hdrop ids x hx)
    | removeSubscription s => cases hp; exact Or.inl (hdrop [s] x hx)
    | setParameter id name v =>
      cases hp
      exact Or.inl (by rwa [Graph.setParameter, arena_editNode] at hx)
    | add | annotate | annotateBlock | configure | observe => cases hp; exact Or.inl hx
    | _ => cases ht

theorem Ready.dropped_perform [Behaviour β] (hg : g.Ready) (hd : g.Dropped s) {fuel : Nat}
    {op : Operation β} (hp : g.perform fuel op = some h) : h.Dropped s where
  absent edge hm := by
    have hused := hd.used
    rcases hg.entries_perform hp _ hm with hold | hnew
    · exact hd.absent edge hold
    · dsimp only at hnew
      omega
  used := Nat.le_trans hd.used (hg.lastNumber_perform hp)

theorem Dropped.get?_eq (hw : g.Wired) (hd : g.Dropped s) : g.arena.get? s = none := by
  refine Option.eq_none_iff_forall_not_mem.mpr fun edge hm => ?_
  exact hd.absent edge (hw.arena.get?_eq_some_iff.mp hm)

/-- The calls that remove a subscription, and the graph that they leave. -/
inductive Drops (g : Graph β) (s : SubscriptionId) : Graph β → Prop
  | removed {edge : Edge} {h : Graph β} :
    g.removeSubscription s = (some edge, h) → Drops g s h
  | unsubscribed {edge : Edge} {id : BlockId} {input : String} {publisher : Option BlockId}
    {output : Option String} {n : Nat} {h : Graph β} :
    g.arena.get? s = some edge → edge.Answers id input publisher output →
    g.unsubscribe id input publisher output = .ok n h → Drops g s h
  | vacated {edge : Edge} {id : BlockId} {x : β} {h : Graph β} :
    g.arena.get? s = some edge → edge.publisher = id ∨ edge.subscriber = id →
    g.remove id = .ok x h → Drops g s h

theorem Wired.dropped (hw : g.Wired) {edge : Edge} (hs : (s, edge) ∈ g.arena.entries)
    {p : SubscriptionId × Edge → Bool} (hp : p (s, edge) = false)
    (he : h.arena.entries = g.arena.entries.filter p)
    (hl : h.arena.lastNumber = g.arena.lastNumber) : h.Dropped s where
  absent edge' hm := by
    rw [he, List.mem_filter] at hm
    have hsame : g.arena.get? s = some edge' := hw.arena.get?_eq_some_iff.mpr hm.1
    rw [hw.arena.get?_eq_some_iff.mpr hs] at hsame
    cases hsame
    simp [hp] at hm
  used := hl ▸ hw.arena.bounded _ hs

theorem Ready.dropped (hg : g.Ready) (hd : g.Drops s h) : h.Dropped s := by
  have hw := hg.wired
  cases hd with
  | removed hr =>
    obtain ⟨hm, hrewires⟩ := hw.removeSubscription_some hr
    have hl := lastNumber_removeSubscriptions g [s]
    have hh : g.removeSubscriptions [s] = h := congrArg Prod.snd hr
    exact hw.dropped hm (by simp) hrewires.entries (hh ▸ hl)
  | @unsubscribed edge id input publisher output n _ hs hans hu =>
    have hl := lastNumber_unsubscribe g id input publisher output
    rw [hu] at hl
    exact hw.dropped (hw.arena.get?_eq_some_iff.mp hs) (by simp [hans])
      (hw.unsubscribe_eq hu).2.entries hl
  | @vacated edge id x _ hs hend hr =>
    have hl := lastNumber_remove g id
    rw [hr] at hl
    have hp : ¬(edge.publisher ≠ id ∧ edge.subscriber ≠ id) :=
      fun hne => hend.elim hne.1 hne.2
    exact hw.dropped (hw.arena.get?_eq_some_iff.mp hs) (decide_eq_false hp)
      (hg.rewires_remove hr).2.entries hl

/-! Calls that name what is gone -/

/-- No call knows a block under this number, and no block is given it. -/
structure StaleBlock [Behaviour β] (g : Graph β) (b : BlockId) : Prop where
  contains : g.contains b = false
  behaviour : g.behaviour? b = none
  add : ∀ c, (g.add c).1 ≠ b
  node : g.node b = .error (.unknownBlock b)
  remove : g.remove b = .error (.unknownBlock b) g
  subscriber : ∀ input publisher output,
    g.subscribe b input publisher output = .error (.unknownBlock b) g ∧
      g.publish publisher output b input = .error (.unknownBlock b) g
  publisher : ∀ subscriber input output, ∃ err,
    g.subscribe subscriber input b output = .error err g ∧
      g.publish b output subscriber input = .error err g
  unsubscribe : ∀ input publisher output,
    g.unsubscribe b input publisher output = .error (.unknownBlock b) g
  isSubscriber : ∀ publisher output, g.isSubscriber b publisher output = .error (.unknownBlock b)
  setParameter : ∀ name v, g.setParameter b name v = .error (.unknownBlock b) g
  pushValue : ∀ port v, g.pushValue b port v = .error (.unknownBlock b) g
  input : ∀ s v, ∃ err, g.input b s v = .error err g
  output : ∀ port v, g.output b port v = .error (.unknownBlock b) g
  processBlock : ∀ fuel,
    g.processBlock fuel b = some (.error (.unknownBlock b) { g with receivers := [] })

theorem Vacant.stale [Behaviour β] (hw : g.Wired) (hv : g.Vacant b) : g.StaleBlock b := by
  have hs : g.slot? b = none := hv.slot?_eq
  have hn : g.node b = .error (.unknownBlock b) := by simp [node, hs]
  have hb : g.behaviour? b = none := by simp [behaviour?, hs]
  have hsubscriber : ∀ edge : Edge, edge.subscriber = b →
      g.checkEdge edge = .error (.unknownBlock b) := by
    rintro edge rfl
    simp [checkEdge, checkInput, hn, bind, Except.bind]
  have hpublisher : ∀ edge : Edge, edge.publisher = b → ∃ err, g.checkEdge edge = .error err := by
    rintro edge rfl
    cases hc : g.checkEdge edge with
    | error err => exact ⟨err, rfl⟩
    | ok =>
      obtain ⟨e, he, -⟩ := checkOutput_eq_ok_iff.mp (checkEdge_eq_ok_iff.mp hc).2
      rw [hs] at he
      cases he
  refine ⟨by simp [contains, hs], hb, fun c heq => ?_, hn, remove_eq_unknown hs,
    fun input publisher output => ?_, fun subscriber input output => ?_,
    fun input publisher output => by simp [unsubscribe, hn],
    fun publisher output => by simp [isSubscriber, hn, bind, Except.bind],
    fun name v => by simp [setParameter, editNode, hn, bind, Except.bind],
    fun port v => by simp [pushValue, editNode, hn, bind, Except.bind],
    fun s v => ?_, fun port v => by simp [output, hn],
    fun fuel => by simp [processBlock, invoke_eq_unknown hb]⟩
  · have hlt := hv.index_lt
    rw [← heq] at hlt
    exact Nat.lt_irrefl _ hlt
  · have herr := subscribe_eq_error (hsubscriber ⟨publisher, output, b, input⟩ rfl)
    exact ⟨herr, herr⟩
  · obtain ⟨err, hc⟩ := hpublisher ⟨b, output, subscriber, input⟩ rfl
    have herr := subscribe_eq_error hc
    exact ⟨err, herr, herr⟩
  · rcases hw.input_cases b s v with ⟨edge, hget, hsub, -⟩ | herr
    · obtain ⟨e, he, -⟩ := hw.exists_subscriber hget
      rw [hsub, hs] at he
      cases he
    · exact herr

/-- No call knows a subscription under this number, none is given it, and no list has it. -/
structure StaleSubscription (g : Graph β) (s : SubscriptionId) : Prop where
  get? : g.arena.get? s = none
  input : ∀ id v, g.input id s v = .error (.unknownSubscription s) g
  subscribe : ∀ subscriber input publisher output t h,
    g.subscribe subscriber input publisher output = .ok t h ∨
      g.publish publisher output subscriber input = .ok t h → t ≠ s
  subscribers : ∀ id output, s ∉ g.subscribers id output
  subscriptions : ∀ id input, s ∉ g.subscriptions id input

theorem Dropped.stale (hw : g.Wired) (hd : g.Dropped s) : g.StaleSubscription s := by
  have hs : g.arena.get? s = none := hd.get?_eq hw
  have hselect : ∀ p : Edge → Bool, s ∉ g.arena.select p := by
    intro p hm
    obtain ⟨edge, he, -⟩ := Arena.mem_select.mp hm
    exact hd.absent edge he
  refine ⟨hs, fun id v => by simp [input, hs], fun subscriber input publisher output t h ht => ?_,
    fun id output => ?_, fun id input => ?_⟩
  · let edge : Edge := ⟨publisher, output, subscriber, input⟩
    have ht' : g.subscribe edge.subscriber edge.input edge.publisher edge.output = .ok t h :=
      ht.elim (fun hsub => hsub) fun hpub => hpub
    rintro rfl
    rcases hw.subscribe_cases ht' with ⟨hm, -⟩ | ⟨-, hnext, -⟩
    · exact hd.absent _ hm
    · have hused := hd.used
      rw [hnext] at hused
      exact Nat.not_succ_le_self _ hused
  · rw [hw.subscribers_eq]
    exact hselect _
  · rw [hw.subscriptions_eq]
    exact hselect _

variable [Behaviour β]

/-- The states after `h`: the graphs that calls lead to, and those in the middle of a call that runs
blocks. -/
inductive Precedes (h : Graph β) : Graph β → Prop
  | between {k : Graph β} : h.Becomes k → Precedes h k
  | within {k m : Graph β} : h.Becomes k → k.Occurs m → Precedes h m

/-- What every call keeps, and depends on the layout only, holds of all states that follow. -/
theorem Reachable.of_precedes {P : Graph β → Prop} (hr : h.Reachable) (hh : P h)
    (hp : ∀ {g k : Graph β} {fuel : Nat} {op : Operation β}, g.Ready → P g →
      g.perform fuel op = some k → P k)
    (hl : ∀ {g k : Graph β}, k.layout = g.layout → P g → P k) (hk : h.Precedes k) :
    k.Wired ∧ P k := by
  have hall : ∀ k, h.Becomes k → P k := by
    intro k hb
    induction hb with
    | refl => exact hh
    | tail hb hstep ih =>
      obtain ⟨fuel, op, hop⟩ := hstep
      exact hp (hr.becomes hb).ready ih hop
  cases hk with
  | between hb => exact ⟨(hr.becomes hb).ready.wired, hall k hb⟩
  | within hb ho =>
    have hg := (hr.becomes hb).ready
    exact ⟨hg.wired_occurs ho, hl (hg.layout_occurs ho) (hall _ hb)⟩

theorem Drops.becomes (hd : g.Drops s h) : ∃ fuel op, g.perform fuel op = some h := by
  cases hd with
  | removed hr => exact ⟨0, .removeSubscription s, congrArg some (congrArg Prod.snd hr)⟩
  | @unsubscribed edge id input publisher output n _ _ _ hu =>
    exact ⟨0, .unsubscribe id input publisher output, congrArg some (congrArg Reply.graph hu)⟩
  | @vacated edge id x _ _ _ hr => exact ⟨0, .remove id, congrArg some (congrArg Reply.graph hr)⟩

/-- After a block or a subscription is removed, nothing that is done brings its number back: every
call that names the block fails, nothing comes in through the subscription and no list has it, also
between the calls of a block that is being processed. -/
theorem Reachable.stale_for_ever (hr : g.Reachable) :
    (∀ b x h k, g.remove b = .ok x h → h.Precedes k → k.StaleBlock b) ∧
    ∀ s h k, g.Drops s h → h.Precedes k → k.StaleSubscription s := by
  refine ⟨fun b x h k hrem hk => ?_, fun s h k hd hk => ?_⟩
  · have hop : g.perform 0 (.remove b) = some h := congrArg some (congrArg Reply.graph hrem)
    obtain ⟨hw, hv⟩ := (hr.perform hop).of_precedes (P := fun g => g.Vacant b)
      (vacant_of_remove hrem) (fun hg hv hop => hg.vacant_perform hv hop)
      (fun hl hv => by rwa [Vacant, tenancy_of_layout hl]) hk
    exact hv.stale hw
  · obtain ⟨fuel, op, hop⟩ := hd.becomes
    obtain ⟨hw, hdrop⟩ := (hr.perform hop).of_precedes (P := fun g => g.Dropped s)
      (hr.ready.dropped hd) (fun hg hd hop => hg.dropped_perform hd hop)
      (fun hl hd =>
        ⟨by rw [arena_congr hl]; exact hd.absent, by rw [arena_congr hl]; exact hd.used⟩)
      hk
    exact hdrop.stale hw

theorem becomes_of_performAll {fuel : Nat} {ops : List (Operation β)}
    (hp : performAll fuel ops g = some h) : g.Becomes h := by
  induction ops generalizing g with
  | nil =>
    cases hp
    exact .refl
  | cons op rest ih =>
    obtain ⟨k, hk, hrest⟩ := Option.bind_eq_some_iff.mp hp
    exact .head ⟨fuel, op, hk⟩ (ih hrest)

/-- A new block that forwards stands in for the one in the middle of `alertedSource`. The first call
still names the old block. -/
def replacement : List (Operation Builtin) :=
  [.add .forward, .subscribe ⟨2⟩ Builtin.messageInput ⟨1⟩ defaultOutput,
    .subscribe ⟨3⟩ defaultInput ⟨0⟩ Builtin.dataName,
    .subscribe ⟨2⟩ Builtin.messageInput ⟨3⟩ defaultOutput]

theorem stale_after_replacement : ∃ g h k h' k' : Graph Builtin,
    performAll 1 alertedSource (.new .standard) = some g ∧
    g.remove ⟨1⟩ = .ok .forward h ∧ performAll 1 replacement h = some k ∧
    k.StaleBlock ⟨1⟩ ∧ k.StaleSubscription ⟨2⟩ ∧
    g.unsubscribe ⟨1⟩ defaultInput none none = .ok 1 h' ∧
    performAll 9 [.subscribe ⟨1⟩ defaultInput ⟨0⟩ Builtin.dataName, .run] h' = some k' ∧
    k'.arena.find? ⟨⟨0⟩, Builtin.dataName, ⟨1⟩, defaultInput⟩ = some ⟨3⟩ ∧
    k'.StaleSubscription ⟨1⟩ := by
  have hdec : (performAll 1 alertedSource (.new .standard)).any (fun g =>
      g.behaviour? ⟨1⟩ = some .forward ∧
      g.arena.get? ⟨1⟩ = some ⟨⟨0⟩, Builtin.dataName, ⟨1⟩, defaultInput⟩ ∧
      g.arena.get? ⟨2⟩ = some ⟨⟨1⟩, defaultOutput, ⟨2⟩, Builtin.messageInput⟩ ∧
      (g.unsubscribe ⟨1⟩ defaultInput none none).result = .ok 1 ∧
      (performAll 9 [.subscribe ⟨1⟩ defaultInput ⟨0⟩ Builtin.dataName, .run]
        (g.unsubscribe ⟨1⟩ defaultInput none none).graph).any fun k =>
          k.arena.find? ⟨⟨0⟩, Builtin.dataName, ⟨1⟩, defaultInput⟩ = some ⟨3⟩) = true := by
    decide +kernel
  obtain ⟨g, hg, hp⟩ := (Option.any_eq_true _ _).mp hdec
  obtain ⟨hforward, hfirst, hsecond, hunsub, hany⟩ := of_decide_eq_true hp
  obtain ⟨h, hremove⟩ := remove_eq_ok hforward
  obtain ⟨k', hk', hfind⟩ := (Option.any_eq_true _ _).mp hany
  have hr : g.Reachable := Reachable.performAll (.new _) hg
  obtain ⟨blocks, subscriptions⟩ := Reachable.stale_for_ever hr
  have hunsubscribe := Reply.eq_ok hunsub
  have hout : g.Drops ⟨2⟩ h := .vacated hsecond (Or.inl rfl) hremove
  have hin : g.Drops ⟨1⟩ (g.unsubscribe ⟨1⟩ defaultInput none none).graph :=
    .unsubscribed hfirst (by decide) hunsubscribe
  have hlater : ∀ k, performAll 1 replacement h = some k → h.Precedes k :=
    fun k hk => .between (becomes_of_performAll hk)
  exact ⟨g, h, _, _, k', hg, hremove, rfl, blocks _ _ _ _ hremove (hlater _ rfl),
    subscriptions _ _ _ hout (hlater _ rfl), hunsubscribe, hk', of_decide_eq_true hfind,
    subscriptions _ _ _ hin (.between (becomes_of_performAll hk'))⟩

end Patchbay.Graph
