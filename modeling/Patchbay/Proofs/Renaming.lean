import Patchbay.Proofs.Paths
import Patchbay.Proofs.Running

/-! Graphs with their blocks renamed. What the scheduler reads off the wiring (which blocks are fed,
which lead to which, which of a round are still to come) goes along with the renaming, whatever
numbers the subscriptions have and in whatever order they enter an input. -/

namespace Patchbay

def Edge.rename (f : BlockId → BlockId) (edge : Edge) : Edge :=
  { edge with publisher := f edge.publisher, subscriber := f edge.subscriber }

def GraphError.rename (f : BlockId → BlockId) : GraphError → GraphError
  | invalidPort block port direction => .invalidPort (f block) port direction
  | invalidParameter block parameter => .invalidParameter (f block) parameter
  | subscriberMismatch block s expected => .subscriberMismatch (f block) s (f expected)
  | unknownSubscription s => .unknownSubscription s
  | unknownBlock block => .unknownBlock (f block)
  | unknownBlockType name => .unknownBlockType name
  | unknownRecord id => .unknownRecord id
  | duplicateRecord id => .duplicateRecord id
  | unsuitableValue block reason => .unsuitableValue (f block) reason
  | notConverged rounds => .notConverged rounds

def Activity.rename (f : BlockId → BlockId) : Activity → Activity
  | roundStarted round blocks => .roundStarted round (blocks.map f)
  | emitted block port v => .emitted (f block) port v
  | received block edge v => .received (f block) (edge.rename f) v
  | runFinished report => .runFinished report

/-- What a run shows: to observers, or on the screen of an alert. -/
inductive Sight where
  | told (activity : Activity)
  | shown (message : Value)
deriving DecidableEq

def Sight.rename (f : BlockId → BlockId) : Sight → Sight
  | told activity => .told (activity.rename f)
  | shown message => .shown message

def Occurrence.sight? : Occurrence → Option Sight
  | observed _ activity => some (.told activity)
  | shown _ message => some (.shown message)
  | logged _ => none
  | said _ _ _ => none

/-- Whether two nodes differ in nothing but their numbers, wiring, buffers and metadata. -/
structure Node.Twin (f : BlockId → BlockId) (n m : Node) : Prop where
  id : m.id = f n.id
  inputs : m.inputs = n.inputs
  outputs : m.outputs = n.outputs
  parameters : m.parameters = n.parameters

theorem Node.Twin.congr {f : BlockId → BlockId} {n n' m m' : Node} (ht : n.Twin f m)
    (hn : n'.outline = n.outline) (hm : m'.outline = m.outline) :
    n'.Twin f m' := by
  have hfield : ∀ {γ : Type} (p : Node → γ), (∀ k : Node, p k.outline = p k) →
      p n' = p n ∧ p m' = p m := by
    intro γ p hp
    exact ⟨by rw [← hp n', hn, hp n], by rw [← hp m', hm, hp m]⟩
  have hid := hfield Node.id fun _ => rfl
  have hin := hfield Node.inputs fun _ => rfl
  have hout := hfield Node.outputs fun _ => rfl
  have hpar := hfield Node.parameters fun _ => rfl
  exact ⟨by rw [hid.1, hid.2, ht.id], by rw [hin.1, hin.2, ht.inputs],
    by rw [hout.1, hout.2, ht.outputs], by rw [hpar.1, hpar.2, ht.parameters]⟩

namespace Graph

variable {β : Type} {g g' h h' : Graph β} {f : BlockId → BlockId} {a b id : BlockId}

/-- What has been seen of a graph, the newest first. -/
def sights (g : Graph β) : List Sight := g.history.filterMap Occurrence.sight?

theorem exists_slot?_of_layout (hl : h.layout = g.layout) {e : Entry β}
    (he : h.slot? id = some e) :
    ∃ e', g.slot? id = some e' ∧ e'.node.outline = e.node.outline := by
  have ho := outline_congr hl id
  rw [outline, outline, he] at ho
  exact Option.map_eq_some_iff.mp ho.symm

theorem contains_congr (hl : h.layout = g.layout) (id : BlockId) :
    h.contains id = g.contains id :=
  isSome_slot?_congr hl id

theorem Wired.feeds_iff (hw : g.Wired) :
    g.Feeds a b ↔ ∃ output, ∃ edge ∈ g.arena.edgesFrom a output, edge.subscriber = b := by
  constructor
  · rintro ⟨s, edge, hs, rfl, rfl⟩
    have hm := hw.arena.get?_eq_some_iff.mp hs
    exact ⟨edge.output, edge, Arena.mem_edgesFrom.mpr ⟨rfl, rfl, s, hm⟩, rfl⟩
  · rintro ⟨output, edge, hm, rfl⟩
    obtain ⟨hpub, -, s, hs⟩ := Arena.mem_edgesFrom.mp hm
    exact ⟨s, edge, hw.arena.get?_eq_some_iff.mpr hs, hpub, rfl⟩

theorem Wired.live_of_feeds (hw : g.Wired) (hf : g.Feeds a b) : g.contains a ∧ g.contains b := by
  obtain ⟨s, edge, hs, rfl, rfl⟩ := hf
  exact ⟨hw.live_publisher hs, hw.live_subscriber hs⟩

theorem Wired.isFed_iff (hw : g.Wired) {e : Entry β} (he : g.slot? id = some e) :
    e.node.isFed = true ↔ ∃ a, g.Feeds a id := by
  have hany : e.node.isFed = true ↔ ∃ s, s ∈ e.node.subscriptions.values.flatten := by
    simp only [Node.isFed, List.any_eq_true, Bool.not_eq_true', List.isEmpty_eq_false_iff,
      List.mem_flatten]
    constructor
    · rintro ⟨ids, hm, hne⟩
      obtain ⟨s, hs⟩ := List.exists_mem_of_ne_nil ids hne
      exact ⟨s, ids, hm, hs⟩
    · rintro ⟨s, ids, hm, hs⟩
      exact ⟨ids, hm, List.ne_nil_of_mem hs⟩
  rw [hany]
  constructor
  · rintro ⟨s, hs⟩
    obtain ⟨input, hs⟩ := Dict.mem_flatten_values.mp hs
    rw [hw.subscriptions_list he] at hs
    obtain ⟨edge, hm, hp⟩ := Arena.mem_select.mp hs
    have hsub : edge.subscriber = id := (of_decide_eq_true hp).1
    exact ⟨edge.publisher, s, edge, hw.arena.get?_eq_some_iff.mpr hm, rfl, hsub⟩
  · rintro ⟨_, s, edge, hs, -, rfl⟩
    have hm := hw.arena.get?_eq_some_iff.mp hs
    refine ⟨s, Dict.mem_flatten_values.mpr ⟨edge.input, ?_⟩⟩
    rw [hw.subscriptions_list he]
    exact Arena.mem_select.mpr ⟨edge, hm, by simp⟩

theorem Wired.isFed_eq (hw : g.Wired) {e : Entry β} (he : g.slot? id = some e) :
    e.node.isFed = g.arena.entries.any (·.2.subscriber = id) := by
  rw [Bool.eq_iff_iff, hw.isFed_iff he, List.any_eq_true]
  constructor
  · rintro ⟨a, s, edge, hs, -, hsub⟩
    exact ⟨(s, edge), hw.arena.get?_eq_some_iff.mp hs, decide_eq_true hsub⟩
  · rintro ⟨⟨s, edge⟩, hs, hsub⟩
    exact ⟨edge.publisher, s, edge, hw.arena.get?_eq_some_iff.mpr hs, rfl, of_decide_eq_true hsub⟩

/-! Images -/

/-- Whether the blocks and edges of one graph are those of another under a renaming, with the same
order of blocks and the same order of subscribers at each output. -/
structure Image (f : BlockId → BlockId) (g h : Graph β) : Prop where
  source : g.Wired
  target : h.Wired
  order : h.order = g.order.map f
  twin : ∀ id e, g.slot? id = some e → ∃ e', h.slot? (f id) = some e' ∧ e.node.Twin f e'.node
  edges : ∀ id, g.contains id → ∀ output,
    h.arena.edgesFrom (f id) output = (g.arena.edgesFrom id output).map (Edge.rename f)
  maxRounds : h.settings.maxRounds = g.settings.maxRounds

namespace Image

theorem congr (hi : Image f g h) (hl : g'.layout = g.layout) (hl' : h'.layout = h.layout) :
    Image f g' h' where
  source := hi.source.of_layout hl
  target := hi.target.of_layout hl'
  order := by rw [order_congr hl', order_congr hl, hi.order]
  twin id e he := by
    obtain ⟨k, hk, hn⟩ := exists_slot?_of_layout hl he
    obtain ⟨k', hk', ht⟩ := hi.twin id k hk
    obtain ⟨e', he', hn'⟩ := exists_slot?_of_layout hl'.symm hk'
    exact ⟨e', he', ht.congr hn.symm hn'⟩
  edges id hl₁ output := by
    have hlive : g.contains id := by rwa [contains_congr hl] at hl₁
    rw [arena_congr hl', arena_congr hl, hi.edges id hlive]
  maxRounds := by rw [settings_congr hl', settings_congr hl, hi.maxRounds]

variable (hi : Image f g h)

include hi

theorem inj (ha : g.contains a) (hb : g.contains b) (heq : f a = f b) : a = b := by
  -- No block comes twice in the order of the image, so the renaming merges none.
  have hn : (g.order.map f).Nodup := hi.order ▸ hi.target.nodup_order
  have hma : a ∈ g.order := (hi.source.mem_order_iff a).mpr ha
  have hmb : b ∈ g.order := (hi.source.mem_order_iff b).mpr hb
  exact List.inj_on_of_nodup_map hn hma hmb heq

theorem live (ha : g.contains a) : h.contains (f a) := by
  obtain ⟨e, he⟩ := Option.isSome_iff_exists.mp ha
  obtain ⟨e', he', -⟩ := hi.twin a e he
  simp [contains, he']

theorem exists_of_live (hb : h.contains b) : ∃ a, g.contains a ∧ f a = b := by
  have hm : b ∈ h.order := (hi.target.mem_order_iff b).mpr hb
  rw [hi.order] at hm
  obtain ⟨a, ha, rfl⟩ := List.mem_map.mp hm
  exact ⟨a, (hi.source.mem_order_iff a).mp ha, rfl⟩

theorem mem_map_iff {l : List BlockId} (hl : ∀ x ∈ l, g.contains x) (ha : g.contains a) :
    f a ∈ l.map f ↔ a ∈ l := by
  constructor
  · intro hm
    obtain ⟨x, hx, heq⟩ := List.mem_map.mp hm
    have hxa : x = a := hi.inj (hl x hx) ha heq
    exact hxa ▸ hx
  · exact List.mem_map_of_mem

/-! Paths -/

theorem feeds (hf : g.Feeds a b) : h.Feeds (f a) (f b) := by
  have ha := (hi.source.live_of_feeds hf).1
  obtain ⟨output, edge, hm, rfl⟩ := hi.source.feeds_iff.mp hf
  refine hi.target.feeds_iff.mpr ⟨output, edge.rename f, ?_, rfl⟩
  rw [hi.edges a ha]
  exact List.mem_map_of_mem hm

theorem exists_feeds (ha : g.contains a) {y : BlockId} (hf : h.Feeds (f a) y) :
    ∃ b, g.Feeds a b ∧ f b = y := by
  obtain ⟨output, edge, hm, rfl⟩ := hi.target.feeds_iff.mp hf
  rw [hi.edges a ha] at hm
  obtain ⟨x, hx, rfl⟩ := List.mem_map.mp hm
  exact ⟨x.subscriber, hi.source.feeds_iff.mpr ⟨output, x, hx, rfl⟩, rfl⟩

theorem exists_leadsTo (ha : g.contains a) {y : BlockId} (hp : h.LeadsTo (f a) y) :
    ∃ b, g.LeadsTo a b ∧ g.contains b ∧ f b = y := by
  induction hp with
  | single hf =>
    obtain ⟨b, hb, rfl⟩ := hi.exists_feeds ha hf
    exact ⟨b, .single hb, (hi.source.live_of_feeds hb).2, rfl⟩
  | tail _ hf ih =>
    obtain ⟨b, hab, hb, rfl⟩ := ih
    obtain ⟨c, hbc, rfl⟩ := hi.exists_feeds hb hf
    exact ⟨c, hab.tail hbc, (hi.source.live_of_feeds hbc).2, rfl⟩

theorem leadsTo_iff (ha : g.contains a) (hb : g.contains b) :
    h.LeadsTo (f a) (f b) ↔ g.LeadsTo a b := by
  constructor
  · intro hp
    obtain ⟨c, hac, hc, heq⟩ := hi.exists_leadsTo ha hp
    exact hi.inj hc hb heq ▸ hac
  · exact Relation.TransGen.lift f (fun _ _ hf => hi.feeds hf) a b

theorem incoming (hp : h.processing = g.processing.map f)
    (hl : ∀ id ∈ g.processing, g.contains id) (ha : g.contains a) :
    h.incoming (f a) = (g.incoming a).map f := by
  rw [Graph.incoming, Graph.incoming, hp, List.filter_map]
  refine congrArg (List.map f) (List.filter_congr fun id hm => ?_)
  have hid := hl id hm
  have hne : f id = f a ↔ id = a := ⟨hi.inj hid ha, congrArg f⟩
  have hreach : h.reaches (f id) (f a) = g.reaches id a := by
    rw [Bool.eq_iff_iff, hi.target.reaches_iff, hi.source.reaches_iff, hi.leadsTo_iff hid ha]
  simp [hne, hreach]

/-! Roots -/

theorem fed_iff (ha : g.contains a) : (∃ x, h.Feeds x (f a)) ↔ ∃ x, g.Feeds x a := by
  constructor
  · rintro ⟨x, hf⟩
    obtain ⟨p, hp, rfl⟩ := hi.exists_of_live (hi.target.live_of_feeds hf).1
    obtain ⟨b, hpb, heq⟩ := hi.exists_feeds hp hf
    have hba : b = a := hi.inj (hi.source.live_of_feeds hpb).2 ha heq
    exact ⟨p, hba ▸ hpb⟩
  · rintro ⟨x, hf⟩
    exact ⟨f x, hi.feeds hf⟩

theorem roots : h.roots = g.roots.map f := by
  rw [Graph.roots, Graph.roots, hi.order, List.filter_map]
  refine congrArg (List.map f) (List.filter_congr fun id hm => ?_)
  have hl : g.contains id := (hi.source.mem_order_iff id).mp hm
  obtain ⟨e, he⟩ := Option.isSome_iff_exists.mp hl
  obtain ⟨e', he', -⟩ := hi.twin id e he
  have hfed : e'.node.isFed = e.node.isFed := by
    rw [Bool.eq_iff_iff, hi.target.isFed_iff he', hi.source.isFed_iff he, hi.fed_iff hl]
  simp [node, he, he', hfed]

end Image

end Graph

end Patchbay
