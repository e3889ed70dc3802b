import Patchbay.Blocks.Builtin
import Patchbay.Proofs.Transience

/-! The wiring of a graph is an ordered set of edges. The calls that change it add an edge at the
end or drop edges from the list, and change nothing else, also where an edge leads from a block to
itself. -/

namespace Patchbay

/-- Whether a call to unsubscribe an input is meant for this edge. -/
def Edge.Answers (edge : Edge) (id : BlockId) (input : String) (publisher : Option BlockId)
    (output : Option String) : Prop :=
  edge.subscriber = id ∧ edge.input = input ∧
    (∀ p ∈ publisher, p = edge.publisher) ∧ ∀ o ∈ output, o = edge.output

instance (edge : Edge) (id : BlockId) (input : String) (publisher : Option BlockId)
    (output : Option String) : Decidable (edge.Answers id input publisher output) :=
  inferInstanceAs (Decidable (_ ∧ _))

theorem Edge.answers_iff {edge : Edge} {id : BlockId} {input : String} {publisher : Option BlockId}
    {output : Option String} : edge.Answers id input publisher output ↔
      (edge.subscriber = id ∧ edge.input = input) ∧ edge.matches? publisher output = true := by
  cases publisher <;> cases output <;> simp [Answers, matches?, and_assoc]

namespace Graph

variable {β : Type} {g h : Graph β} {id : BlockId} {s : SubscriptionId} {edge : Edge}

/-- Whether `edges` are all subscriptions by number, and the lists of the blocks are parts of it. -/
structure Tabulates (g : Graph β) (edges : List (SubscriptionId × Edge)) : Prop where
  rising : edges.Pairwise fun x y => x.1.number < y.1.number
  distinct : (edges.map Prod.snd).Nodup
  get? : ∀ s edge, g.arena.get? s = some edge ↔ (s, edge) ∈ edges
  find? : ∀ s edge, g.arena.find? edge = some s ↔ (s, edge) ∈ edges
  subscribers : ∀ id e, g.slot? id = some e → ∀ output, e.node.subscribers.list output =
    (edges.filter fun x => x.2.publisher = id ∧ x.2.output = output).map Prod.fst
  subscriptions : ∀ id e, g.slot? id = some e → ∀ input, e.node.subscriptions.list input =
    (edges.filter fun x => x.2.subscriber = id ∧ x.2.input = input).map Prod.fst

theorem Wired.tabulates (hw : g.Wired) : g.Tabulates g.arena.entries where
  rising := hw.arena.rising
  distinct := hw.arena.distinct
  get? _ _ := hw.arena.get?_eq_some_iff
  find? _ _ := hw.arena.find?_eq_some_iff
  subscribers _ _ := hw.subscribers_list
  subscriptions _ _ := hw.subscriptions_list

/-- Whether `h` is `g` wired by `edges`, with all else but the log as it was. -/
structure Rewires (g h : Graph β) (edges : List (SubscriptionId × Edge)) : Prop where
  entries : h.arena.entries = edges
  tabulates : h.Tabulates edges
  unwired : h.unwired = g.unwired

theorem Wired.rewires {edges : List (SubscriptionId × Edge)} (hw : h.Wired)
    (he : h.arena.entries = edges) (hu : h.unwired = g.unwired) : g.Rewires h edges :=
  ⟨he, he ▸ hw.tabulates, hu⟩

/-! Subscribing -/

theorem Wired.rewires_connect (hw : g.Wired) (hc : g.checkEdge edge = .ok ())
    (hn : g.arena.find? edge = none) :
    g.Rewires ((g.connect edge).record (.logged (.subscribed edge)))
      (g.arena.entries ++ [(g.arena.nextId, edge)]) := by
  have hsub : g.subscribe edge.subscriber edge.input edge.publisher edge.output =
      .ok g.arena.nextId ((g.connect edge).record (.logged (.subscribed edge))) := by
    rw [subscribe_eq hc, hn]
  have hwired := hw.subscribe edge.subscriber edge.input edge.publisher edge.output
  have hkeep := unwired_subscribe g edge.subscriber edge.input edge.publisher edge.output
  rw [hsub] at hwired hkeep
  exact hwired.rewires rfl hkeep

theorem Wired.subscribe_cases (hw : g.Wired)
    (hs : g.subscribe edge.subscriber edge.input edge.publisher edge.output = .ok s h) :
    (s, edge) ∈ g.arena.entries ∧ h = g ∨ (∀ t, (t, edge) ∉ g.arena.entries) ∧
      s = g.arena.nextId ∧ g.Rewires h (g.arena.entries ++ [(s, edge)]) := by
  cases hc : g.checkEdge edge with
  | error err =>
    rw [subscribe_eq_error hc] at hs
    cases hs
  | ok =>
    rw [subscribe_eq hc] at hs
    cases hf : g.arena.find? edge with
    | some t =>
      rw [hf] at hs
      cases hs
      exact Or.inl ⟨hw.arena.find?_eq_some_iff.mp hf, rfl⟩
    | none =>
      rw [hf] at hs
      cases hs
      refine Or.inr ⟨fun t hm => ?_, rfl, hw.rewires_connect hc hf⟩
      rw [hw.arena.find?_eq_some_iff.mpr hm] at hf
      cases hf

/-! Unsubscribing -/

theorem Wired.doomed_eq (hw : g.Wired) {e : Entry β} (he : g.slot? id = some e) (input : String)
    (publisher : Option BlockId) (output : Option String) :
    (e.node.subscriptions.list input).filter (g.subscriptionMatches publisher output) =
      g.arena.select fun edge => edge.Answers id input publisher output := by
  rw [hw.subscriptions_list he, Arena.entering, Arena.select, Arena.select, List.filter_map,
    List.filter_filter]
  congr 1
  refine List.filter_congr fun x hx => ?_
  obtain ⟨s, edge⟩ := x
  have hg : g.arena.get? s = some edge := hw.arena.get?_eq_some_iff.mpr hx
  rw [Bool.eq_iff_iff]
  simp [subscriptionMatches, hg, Edge.answers_iff, and_comm]

theorem Wired.rewires_removeSubscriptions (hw : g.Wired) (p : Edge → Bool) :
    g.Rewires (g.removeSubscriptions (g.arena.select p))
      (g.arena.entries.filter fun x => ¬p x.2) := by
  obtain ⟨hwired, hentries⟩ := hw.removeSubscriptions (g.arena.select p)
  refine hwired.rewires (hentries.trans (List.filter_congr fun x hx => ?_))
    (unwired_removeSubscriptions g _)
  have hiff := hw.arena.mem_select_iff (p := p) hx
  simp [hiff]

theorem Wired.unsubscribe_eq (hw : g.Wired) {input : String} {publisher : Option BlockId}
    {output : Option String} {n : Nat} (hu : g.unsubscribe id input publisher output = .ok n h) :
    n = (g.arena.entries.filter fun x => x.2.Answers id input publisher output).length ∧
      g.Rewires h (g.arena.entries.filter fun x => ¬x.2.Answers id input publisher output) := by
  have hrewires := hw.rewires_removeSubscriptions fun edge => edge.Answers id input publisher output
  cases he : g.slot? id with
  | none => simp [unsubscribe, node, he] at hu
  | some e =>
    have hn : g.node id = .ok e.node := node_eq_ok_iff.mpr ⟨e, he, rfl⟩
    unfold unsubscribe at hu
    rw [hn] at hu
    dsimp only at hu
    rw [hw.doomed_eq he] at hu
    split at hu
    · cases hu
    · cases hu
      exact ⟨by simp [Arena.select], by simpa using hrewires⟩

theorem Wired.removeSubscription_some (hw : g.Wired)
    (hr : g.removeSubscription s = (some edge, h)) : (s, edge) ∈ g.arena.entries ∧
      g.Rewires h (g.arena.entries.filter fun x => x.1 ≠ s) := by
  have hentries := entries_removeSubscription hw s
  have hwired := hw.removeSubscription s
  have hkeep := unwired_removeSubscription g s
  rw [hr] at hentries hwired hkeep
  refine ⟨?_, hwired.rewires hentries hkeep⟩
  unfold Graph.removeSubscription at hr
  split at hr
  · cases hr
  · next hg =>
    cases hr
    exact hw.arena.get?_eq_some_iff.mp hg

theorem Wired.removeSubscription_none (hw : g.Wired) (hr : g.removeSubscription s = (none, h)) :
    (∀ edge, (s, edge) ∉ g.arena.entries) ∧ h = g := by
  unfold Graph.removeSubscription at hr
  split at hr
  · next hg =>
    cases hr
    refine ⟨fun edge hm => ?_, rfl⟩
    rw [hw.arena.get?_eq_some_iff.mpr hm] at hg
    cases hg
  · cases hr

/-! Removing a block -/

theorem unwired_vacate (g : Graph β) (id : BlockId) :
    (g.vacate id).unwired = g.unwired.vacate id := by
  simp [unwired, vacate, List.map_set]

theorem Ready.rewires_remove (hg : g.Ready) {b : β} (hr : g.remove id = .ok b h) :
    g.behaviour? id = some b ∧ (g.vacate id).Rewires h
      (g.arena.entries.filter fun x => x.2.publisher ≠ id ∧ x.2.subscriber ≠ id) := by
  cases he : g.slot? id with
  | none =>
    rw [remove_eq_unknown he] at hr
    cases hr
  | some e =>
    have hw := hg.wired.remove id
    have hgraph := graph_remove he
    obtain ⟨-, hentries⟩ := hg.wired.removeSubscriptions e.node.edges
    rw [hr, Reply.graph_ok] at hw hgraph
    refine ⟨?_, hw.rewires ?_ ?_⟩
    · rw [behaviour?_of_slot? he]
      rw [remove_eq he] at hr
      cases hb : e.behaviour with
      | none =>
        rw [hb] at hr
        cases hr
      | some c =>
        rw [hb] at hr
        cases hr
        rfl
    · rw [hgraph]
      refine hentries.trans (List.filter_congr fun x hx => ?_)
      obtain ⟨s, edge⟩ := x
      have hiff := hg.wired.mem_edges_iff he hx
      simp [hiff]
    · rw [hgraph, unwired_vacate, unwired_removeSubscriptions, unwired_vacate]

/-! Numbers are never used again -/

theorem lastNumber_removeSubscriptions (g : Graph β) (ids : List SubscriptionId) :
    (g.removeSubscriptions ids).arena.lastNumber = g.arena.lastNumber := by
  induction ids generalizing g with
  | nil => rfl
  | cons s rest ih =>
    have hone : (g.removeSubscription s).2.arena.lastNumber = g.arena.lastNumber := by
      unfold removeSubscription
      split <;> rfl
    exact (ih _).trans hone

theorem lastNumber_subscribe (g : Graph β) (edge : Edge) : g.arena.lastNumber ≤
    (g.subscribe edge.subscriber edge.input edge.publisher edge.output).graph.arena.lastNumber := by
  rcases graph_subscribe_cases g edge with heq | ⟨-, -, heq⟩
  · exact Nat.le_of_eq (by rw [heq])
  · rw [heq]
    exact Nat.le_succ _

theorem lastNumber_remove (g : Graph β) (id : BlockId) :
    (g.remove id).graph.arena.lastNumber = g.arena.lastNumber := by
  cases he : g.slot? id with
  | none => rw [remove_eq_unknown he, Reply.graph_error]
  | some e =>
    rw [graph_remove he]
    exact lastNumber_removeSubscriptions g e.node.edges

theorem lastNumber_unsubscribe (g : Graph β) (id : BlockId) (input : String)
    (publisher : Option BlockId) (output : Option String) :
    (g.unsubscribe id input publisher output).graph.arena.lastNumber = g.arena.lastNumber := by
  unfold unsubscribe
  split
  · rfl
  · split
    · rfl
    · exact lastNumber_removeSubscriptions g _

variable [Behaviour β]

theorem Ready.lastNumber_perform (hg : g.Ready) {fuel : Nat} {op : Operation β}
    (hp : g.perform fuel op = some h) : g.arena.lastNumber ≤ h.arena.lastNumber := by
  cases ht : op.transient with
  | true => exact Nat.le_of_eq (by rw [arena_congr (hg.layout_perform ht hp)])
  | false =>
    cases op with
    | subscribe subscriber input publisher output =>
      cases hp
      exact lastNumber_subscribe g ⟨publisher, output, subscriber, input⟩
    | publish publisher output subscriber input =>
      cases hp
      exact lastNumber_subscribe g ⟨publisher, output, subscriber, input⟩
    | remove id => cases hp; exact Nat.le_of_eq (lastNumber_remove g id).symm
    | unsubscribe id input publisher output =>
      cases hp
      exact Nat.le_of_eq (lastNumber_unsubscribe g id input publisher output).symm
    | removeSubscription s =>
      cases hp
      exact Nat.le_of_eq (lastNumber_removeSubscriptions g [s]).symm
    | setParameter id name v =>
      cases hp
      exact Nat.le_of_eq (congrArg Arena.lastNumber (arena_editNode g id _)).symm
    | add | annotate | annotateBlock | configure | observe =>
      cases hp
      exact Nat.le_refl _
    | _ => cases ht

/-- Whether calls on `g`, failing ones included, lead to `h`. -/
abbrev Becomes : Graph β → Graph β → Prop :=
  Relation.ReflTransGen fun g h => ∃ fuel op, g.perform fuel op = some h

theorem Reachable.becomes (hr : g.Reachable) (hb : g.Becomes h) : h.Reachable := by
  induction hb with
  | refl => exact hr
  | tail _ hstep ih =>
    obtain ⟨fuel, op, hp⟩ := hstep
    exact ih.perform hp

theorem Reachable.lastNumber_becomes (hr : g.Reachable) (hb : g.Becomes h) :
    g.arena.lastNumber ≤ h.arena.lastNumber := by
  induction hb with
  | refl => exact Nat.le_refl _
  | tail hb hstep ih =>
    obtain ⟨fuel, op, hp⟩ := hstep
    exact Nat.le_trans ih ((hr.becomes hb).ready.lastNumber_perform hp)

/-- Whether a number was given to a subscription on the way to this graph, there still or not. -/
def HandedOut (g : Graph β) (s : SubscriptionId) : Prop :=
  ∃ (k : Graph β) (edge : Edge), k.Reachable ∧ k.Becomes g ∧ (s, edge) ∈ k.arena.entries

theorem HandedOut.number_lt (hs : g.HandedOut s) : s.number < g.arena.nextId.number := by
  obtain ⟨k, edge, hr, hb, hm⟩ := hs
  have hle : s.number ≤ k.arena.lastNumber := hr.ready.wired.arena.bounded _ hm
  exact Nat.lt_succ_of_le (Nat.le_trans hle (hr.lastNumber_becomes hb))

/-- The wiring is an ordered set of edges under numbers that rise. Subscribing appends an edge that
is not there, under a number larger than any given before; unsubscribing and removing drop the edges
that are meant and tell how many, which one, or which block; and all else stays, except that a block
that is removed leaves its slot, the order and the queues. -/
theorem Reachable.wiring_calls (hr : g.Reachable) :
    g.Tabulates g.arena.entries ∧
    (∀ edge s h,
      g.subscribe edge.subscriber edge.input edge.publisher edge.output = .ok s h ∨
        g.publish edge.publisher edge.output edge.subscriber edge.input = .ok s h →
      (∀ t, (t, edge) ∈ g.arena.entries → s = t ∧ h = g) ∧
      ((∀ t, (t, edge) ∉ g.arena.entries) → (∀ t, g.HandedOut t → t.number < s.number) ∧
        g.Rewires h (g.arena.entries ++ [(s, edge)]))) ∧
    (∀ id input publisher output n h, g.unsubscribe id input publisher output = .ok n h →
      n = (g.arena.entries.filter fun x => x.2.Answers id input publisher output).length ∧
      g.Rewires h (g.arena.entries.filter fun x => ¬x.2.Answers id input publisher output)) ∧
    (∀ s edge h, g.removeSubscription s = (some edge, h) → (s, edge) ∈ g.arena.entries ∧
      g.Rewires h (g.arena.entries.filter fun x => x.1 ≠ s)) ∧
    (∀ s h, g.removeSubscription s = (none, h) →
      (∀ edge, (s, edge) ∉ g.arena.entries) ∧ h = g) ∧
    ∀ id b h, g.remove id = .ok b h → g.behaviour? id = some b ∧ (g.vacate id).Rewires h
      (g.arena.entries.filter fun x => x.2.publisher ≠ id ∧ x.2.subscriber ≠ id) := by
  have hg := hr.ready
  have hw := hg.wired
  refine ⟨hw.tabulates, fun edge s h hs => ?_, fun _ _ _ _ _ _ => hw.unsubscribe_eq,
    fun _ _ _ => hw.removeSubscription_some, fun _ _ => hw.removeSubscription_none,
    fun _ _ _ => hg.rewires_remove⟩
  -- To publish is to subscribe with the ends the other way round.
  have hs' : g.subscribe edge.subscriber edge.input edge.publisher edge.output = .ok s h :=
    hs.elim (fun hsub => hsub) fun hpub => hpub
  rcases hw.subscribe_cases hs' with ⟨hm, rfl⟩ | ⟨hnew, rfl, hrewires⟩
  · refine ⟨fun t ht => ⟨?_, rfl⟩, fun hnew => absurd hm (hnew s)⟩
    have hfind := hw.arena.find?_eq_some_iff.mpr hm
    rw [hw.arena.find?_eq_some_iff.mpr ht] at hfind
    exact (Option.some.inj hfind).symm
  · exact ⟨fun t ht => absurd ht (hnew t), fun _ => ⟨fun t ht => ht.number_lt, hrewires⟩⟩

/-- A source and the block itself feed a block that forwards, and for a while it fed a sum. -/
def selfFeeding : List (Operation Builtin) :=
  [.add (.source (.bool true)), .add .forward, .add .sum,
    .subscribe ⟨1⟩ defaultInput ⟨0⟩ Builtin.dataName, .publish ⟨1⟩ defaultOutput ⟨1⟩ defaultInput,
    .subscribe ⟨2⟩ Builtin.valuesInput ⟨1⟩ defaultOutput]

theorem wiring_calls_on_selfFeeding : ∃ k g : Graph Builtin,
    performAll 1 selfFeeding (.new .standard) = some k ∧
    k.perform 1 (.removeSubscription ⟨3⟩) = some g ∧
    let fed : Edge := ⟨⟨0⟩, Builtin.dataName, ⟨1⟩, defaultInput⟩
    let loop : Edge := ⟨⟨1⟩, defaultOutput, ⟨1⟩, defaultInput⟩
    let summed : Edge := ⟨⟨1⟩, defaultOutput, ⟨2⟩, Builtin.valuesInput⟩
    (∃ s h, g.subscribe ⟨2⟩ Builtin.valuesInput ⟨1⟩ defaultOutput = .ok s h ∧ 3 < s.number ∧
      h.Tabulates [(⟨1⟩, fed), (⟨2⟩, loop), (s, summed)]) ∧
    (∃ h, g.unsubscribe ⟨1⟩ defaultInput (some ⟨1⟩) none = .ok 1 h ∧
      h.Tabulates [(⟨1⟩, fed)]) ∧
    (∃ h, g.removeSubscription ⟨1⟩ = (some fed, h) ∧ h.Tabulates [(⟨2⟩, loop)]) ∧
    g.removeSubscription ⟨3⟩ = (none, g) ∧
    ∃ h, g.remove ⟨1⟩ = .ok .forward h ∧ h.Tabulates [] := by
  have hdec : (performAll 1 selfFeeding (.new .standard)).any (fun k =>
      k.arena.entries.any (fun x => x.1 = ⟨3⟩) ∧
      (k.perform 1 (.removeSubscription ⟨3⟩)).any fun g =>
        g.arena.entries = [(⟨1⟩, ⟨⟨0⟩, Builtin.dataName, ⟨1⟩, defaultInput⟩),
          (⟨2⟩, ⟨⟨1⟩, defaultOutput, ⟨1⟩, defaultInput⟩)] ∧
        (g.subscribe ⟨2⟩ Builtin.valuesInput ⟨1⟩ defaultOutput).result = .ok ⟨4⟩ ∧
        (g.unsubscribe ⟨1⟩ defaultInput (some ⟨1⟩) none).result = .ok 1 ∧
        (g.removeSubscription ⟨1⟩).1 = some ⟨⟨0⟩, Builtin.dataName, ⟨1⟩, defaultInput⟩ ∧
        (g.removeSubscription ⟨3⟩).1 = none ∧
        g.behaviour? ⟨1⟩ = some .forward) = true := by decide +kernel
  obtain ⟨k, hk, hp⟩ := (Option.any_eq_true _ _).mp hdec
  obtain ⟨hthird, hany⟩ := of_decide_eq_true hp
  obtain ⟨g, hg, hq⟩ := (Option.any_eq_true _ _).mp hany
  obtain ⟨hentries, hsub, hunsub, hfirst, hgone, hforward⟩ := of_decide_eq_true hq
  obtain ⟨h, hremove⟩ := remove_eq_ok hforward
  have hrk : k.Reachable := Reachable.performAll (.new _) hk
  obtain ⟨-, subscribed, unsubscribed, removed, missing, vacated⟩ :=
    Reachable.wiring_calls (hrk.perform hg)
  rw [hentries] at subscribed unsubscribed removed vacated
  have hold : g.HandedOut ⟨3⟩ := by
    obtain ⟨⟨s, edge⟩, hm, hs⟩ := List.any_eq_true.mp hthird
    obtain rfl : s = ⟨3⟩ := of_decide_eq_true hs
    exact ⟨k, edge, hrk, .single ⟨1, _, hg⟩, hm⟩
  have hnew := (subscribed ⟨⟨1⟩, defaultOutput, ⟨2⟩, Builtin.valuesInput⟩ _ _
    (Or.inl (Reply.eq_ok hsub))).2 (by simp)
  refine ⟨k, g, hk, hg, ⟨_, _, Reply.eq_ok hsub, hnew.1 _ hold, hnew.2.tabulates⟩,
    ⟨_, Reply.eq_ok hunsub, ?_⟩, ⟨_, Prod.ext hfirst rfl, ?_⟩, ?_, ⟨h, hremove, ?_⟩⟩
  · exact (unsubscribed _ _ _ _ _ _ (Reply.eq_ok hunsub)).2.tabulates
  · exact (removed _ _ _ (Prod.ext hfirst rfl)).2.tabulates
  · exact Prod.ext hgone (missing _ _ (Prod.ext hgone rfl)).2
  · exact (vacated _ _ _ hremove).2.tabulates

end Graph

end Patchbay
