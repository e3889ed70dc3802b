import Patchbay.Proofs.Coherence
import Patchbay.Proofs.Fitting
import Patchbay.Proofs.Limits
import Patchbay.Proofs.Loading
import Patchbay.Proofs.Renaming

/-! Saving a graph and rebuilding it. Records are numbered by position, so the rebuilt graph has
each block at its position in the order of adding; no edge is lost or added on the way, and each
output keeps the order of its subscribers. -/

namespace Patchbay

theorem Arena.Sound.filterMap_get?_leaving {a : Arena} (h : a.Sound) (id : BlockId)
    (output : String) : (a.leaving id output).filterMap a.get? = a.edgesFrom id output := by
  have hmap := congrArg (List.filterMap fun o => o) (h.map_get?_leaving id output)
  rw [List.filterMap_map, List.filterMap_map] at hmap
  exact hmap.trans List.filterMap_some

namespace Builtin

/-- The block that a registry of the built-in types creates for the type of another. -/
def prototype (screen : Screen) : Builtin → Builtin
  | forward => forward
  | source _ => source .null
  | sum => sum
  | alert _ => alert screen
  | compare => compare

theorem fits_prototype {n : Node} {b : Builtin} (hn : n.Fits b.definition) (screen : Screen) :
    n.Fits (b.prototype screen).definition := by
  cases b with
  | source initial =>
    refine ⟨hn.typeName, hn.inputs, hn.outputs, fun name => ?_⟩
    rw [hn.parameters]
    simp [definition, prototype, Dict.contains_insert]
  | forward | sum | alert | compare => exact hn

end Builtin

theorem Registry.create_builtins {β : Type} [Behaviour β] [HostsBuiltins β] [KeepsBuiltins β]
    (screen : Screen) (b : Builtin) : (builtins HostsBuiltins.block screen : Registry β).create
      b.typeName = .ok (HostsBuiltins.block (b.prototype screen)) := by
  cases b <;>
    simp [builtins, registerType, register, create, empty, KeepsBuiltins.typeName_block,
      Dict.find?_insert, Builtin.typeName, Builtin.definition, Builtin.prototype]

namespace Graph

open HostsBuiltins (block)

variable {β : Type} {g h : Graph β} {id : BlockId}

theorem Wired.mem_edges_live (hw : g.Wired) {edge : Edge} (hm : edge ∈ g.arena.edges) :
    (∃ e, g.slot? edge.publisher = some e ∧ edge.output ∈ e.node.outputs) ∧
      ∃ e, g.slot? edge.subscriber = some e ∧ edge.input ∈ e.node.inputs := by
  obtain ⟨⟨s, edge⟩, hs, rfl⟩ := List.mem_map.mp hm
  have hget : g.arena.get? s = some edge := hw.arena.get?_eq_some_iff.mpr hs
  exact ⟨hw.exists_publisher hget, hw.exists_subscriber hget⟩

/-! Places -/

/-- The block at the position that a block has in the order of adding. -/
def place (g : Graph β) (id : BlockId) : BlockId := ⟨g.order.idxOf id⟩

theorem getElem?_place (hm : id ∈ g.order) : g.order[(g.place id).index]? = some id :=
  List.getElem?_idxOf hm

theorem position?_eq (hm : id ∈ g.order) : g.position? id = some (g.place id).index := by
  obtain ⟨i, hi⟩ := Option.isSome_iff_exists.mp (List.isSome_idxOf?.mpr hm)
  have hplace : (g.place id).index = i := by
    have hidx := List.idxOf_eq_getD_idxOf? id g.order
    rwa [hi] at hidx
  rw [position?, hi, hplace]

theorem Wired.place_eq (hw : g.Wired) {i : Nat} (hi : g.order[i]? = some id) :
    g.place id = ⟨i⟩ := by
  obtain ⟨hlt, rfl⟩ := List.getElem?_eq_some_iff.mp hi
  exact congrArg BlockId.mk (hw.nodup_order.idxOf_getElem i hlt)

theorem place_inj {j : BlockId} (hm : id ∈ g.order) (heq : g.place id = g.place j) : id = j :=
  (List.idxOf_inj hm).mp (congrArg BlockId.index heq)

theorem Wired.map_place (hw : g.Wired) :
    g.order.map g.place = (List.range g.size).map BlockId.mk := by
  apply List.ext_getElem?
  intro i
  simp only [List.getElem?_map]
  cases hi : g.order[i]? with
  | none =>
    have hle : g.size ≤ i := List.getElem?_eq_none_iff.mp hi
    simp [hle]
  | some id =>
    have hlt : i < g.size := (List.getElem?_eq_some_iff.mp hi).1
    simp [List.getElem?_range hlt, hw.place_eq hi]

/-! The records of a saved graph -/

theorem Wired.getElem?_blocks (hw : g.Wired) (i : Nat) : g.toDocument.blocks[i]? =
    g.order[i]?.bind fun id => (g.slot? id).map fun e => g.blockRecord e.node i := by
  -- Every block of the order is there, so the records stand at the positions of their blocks.
  have hfilter : ∀ (f : BlockId × Nat → Option BlockRecord) (l : List (BlockId × Nat)),
      (∀ x ∈ l, (f x).isSome) → ∀ i : Nat, (l.filterMap f)[i]? = l[i]?.bind f := by
    intro f l
    induction l with
    | nil => intro _ i; rfl
    | cons x rest ih =>
      intro hsome i
      obtain ⟨r, hr⟩ := Option.isSome_iff_exists.mp (hsome x List.mem_cons_self)
      rw [List.filterMap_cons_some hr]
      cases i with
      | zero => simp [hr]
      | succ i => simpa using ih (fun y hy => hsome y (List.mem_cons_of_mem _ hy)) i
  have hlive : ∀ x ∈ g.order.zipIdx, (g.slot? x.1).isSome := fun x hx =>
    (hw.mem_order_iff x.1).mp (List.mem_of_getElem? (List.mem_zipIdx_iff_getElem?.mp hx))
  refine (hfilter _ _ (fun x hx => ?_) i).trans ?_
  · obtain ⟨e, he⟩ := Option.isSome_iff_exists.mp (hlive x hx)
    simp [node, he]
  · rw [List.getElem?_zipIdx]
    cases g.order[i]? with
    | none => rfl
    | some id => cases hs : g.slot? id <;> simp [node, hs]

theorem Wired.exists_block (hw : g.Wired) {i : Nat} {r : BlockRecord}
    (hr : g.toDocument.blocks[i]? = some r) : ∃ id e, g.order[i]? = some id ∧
      g.slot? id = some e ∧ r = g.blockRecord e.node i := by
  rw [hw.getElem?_blocks] at hr
  obtain ⟨id, hid, hr⟩ := Option.bind_eq_some_iff.mp hr
  obtain ⟨e, he, rfl⟩ := Option.map_eq_some_iff.mp hr
  exact ⟨id, e, hid, he, rfl⟩

theorem Wired.block_place (hw : g.Wired) {e : Entry β} (he : g.slot? id = some e) :
    g.toDocument.blocks[(g.place id).index]? = some (g.blockRecord e.node (g.place id).index) := by
  have hm : id ∈ g.order := (hw.mem_order_iff id).mpr (by simp [he])
  rw [hw.getElem?_blocks, getElem?_place hm]
  simp [he]

theorem Wired.length_blocks (hw : g.Wired) : g.toDocument.blocks.length = g.size := by
  have hnone : ∀ i, g.toDocument.blocks.length ≤ i ↔ g.size ≤ i := by
    intro i
    rw [size, ← List.getElem?_eq_none_iff, ← List.getElem?_eq_none_iff, hw.getElem?_blocks]
    cases hi : g.order[i]? with
    | none => simp
    | some id =>
      have hlive := (hw.mem_order_iff id).mp (List.mem_of_getElem? hi)
      obtain ⟨e, he⟩ := Option.isSome_iff_exists.mp hlive
      simp [he]
  exact Nat.le_antisymm ((hnone _).mpr (Nat.le_refl _)) ((hnone _).mp (Nat.le_refl _))

theorem Wired.map_id_blocks (hw : g.Wired) :
    g.toDocument.blocks.map BlockRecord.id = List.range g.size := by
  apply List.ext_getElem?
  intro i
  rw [List.getElem?_map]
  cases hr : g.toDocument.blocks[i]? with
  | none =>
    have hle : g.size ≤ i := hw.length_blocks ▸ List.getElem?_eq_none_iff.mp hr
    simp [hle]
  | some r =>
    have hlt : i < g.size := hw.length_blocks ▸ (List.getElem?_eq_some_iff.mp hr).1
    obtain ⟨id, e, -, -, rfl⟩ := hw.exists_block hr
    simp [List.getElem?_range hlt, blockRecord]

theorem Wired.nodup_blocks (hw : g.Wired) : (g.toDocument.blocks.map BlockRecord.id).Nodup :=
  hw.map_id_blocks ▸ List.nodup_range

theorem Wired.find?_place (hw : g.Wired) (hl : (g.slot? id).isSome) :
    RecordIndex.find? g.toDocument.index (g.place id).index = some (g.place id) := by
  obtain ⟨e, he⟩ := Option.isSome_iff_exists.mp hl
  exact Document.find?_index hw.nodup_blocks (hw.block_place he)

theorem list_subscribers_blockRecord (g : Graph β) (n : Node) (i : Nat) (output : String) :
    (g.blockRecord n i).subscribers.list output =
      if output ∈ n.outputs then g.subscriberRecords n output else [] := by
  have hfold : ∀ (l : List String) (d : Dict (List SubscriberRecord)),
      (l.foldl (fun d o => d.setList o (g.subscriberRecords n o)) d).list output =
        if output ∈ l then g.subscriberRecords n output else d.list output := by
    intro l
    induction l with
    | nil => intro d; rfl
    | cons o rest ih =>
      intro d
      rw [List.foldl_cons, ih, Dict.list_setList]
      by_cases hr : output ∈ rest
      · simp [hr]
      · by_cases ho : output = o <;> simp [hr, ho]
  exact hfold n.outputs .empty

theorem Wired.subscriberRecords_eq (hw : g.Wired) {e : Entry β} (he : g.slot? id = some e)
    (output : String) : g.subscriberRecords e.node output =
      (g.arena.edgesFrom id output).map fun edge =>
        ⟨(g.place edge.subscriber).index, edge.input⟩ := by
  have hlive : ∀ edge ∈ g.arena.edgesFrom id output, edge.subscriber ∈ g.order := by
    intro edge hm
    obtain ⟨hedge, -⟩ := Arena.mem_edgesFrom_iff.mp hm
    obtain ⟨e', he', -⟩ := (hw.mem_edges_live hedge).2
    exact (hw.mem_order_iff _).mpr (by simp [he'])
  have hedges : (e.node.subscribers.list output).filterMap g.arena.get? =
      g.arena.edgesFrom id output := by
    rw [hw.subscribers_list he, hw.arena.filterMap_get?_leaving]
  rw [subscriberRecords, hedges, ← List.filterMap_eq_map]
  refine List.filterMap_congr fun edge hm => ?_
  rw [position?_eq (hlive edge hm)]
  rfl

/-! A saved graph can be rebuilt -/

/-- Whether a registry creates, for the type name of each block of a graph, a block of the same
name, with the same ports and the same parameter names. -/
def Provides [Behaviour β] (registry : Registry β) (g : Graph β) : Prop := ∀ id n,
  g.node id = .ok n → ∃ b, registry.create n.typeName = .ok b ∧ n.Fits (Behaviour.definition b)

section

variable [Behaviour β] {registry : Registry β}

theorem Provides.exists_fit (hp : Provides registry g) {e : Entry β} (he : g.slot? id = some e) :
    ∃ b, registry.create e.node.typeName = .ok b ∧ e.node.Fits (Behaviour.definition b) :=
  hp id e.node (node_eq_ok_iff.mpr ⟨e, he, rfl⟩)

theorem Wired.accepted (hw : g.Wired) (hp : Provides registry g) :
    g.toDocument.Accepted registry where
  distinct := hw.nodup_blocks
  created r hr := by
    obtain ⟨i, hi⟩ := List.mem_iff_getElem?.mp hr
    obtain ⟨id, e, -, he, rfl⟩ := hw.exists_block hi
    obtain ⟨b, hb, -⟩ := hp.exists_fit he
    exact ⟨b, hb⟩
  declared r hr b hb name hname := by
    obtain ⟨i, hi⟩ := List.mem_iff_getElem?.mp hr
    obtain ⟨id, e, -, he, rfl⟩ := hw.exists_block hi
    obtain ⟨b', hb', hfits⟩ := hp.exists_fit he
    obtain rfl : b' = b := Except.ok.inj (hb'.symm.trans hb)
    have hcontains : e.node.parameters.contains name = true := hname
    rwa [hfits.parameters] at hcontains
  wired r hr b hb output s hs := by
    obtain ⟨i, hi⟩ := List.mem_iff_getElem?.mp hr
    obtain ⟨id, e, -, he, rfl⟩ := hw.exists_block hi
    obtain ⟨b', hb', hfits⟩ := hp.exists_fit he
    obtain rfl : b' = b := Except.ok.inj (hb'.symm.trans hb)
    rw [list_subscribers_blockRecord] at hs
    split at hs
    · next hout =>
      rw [hw.subscriberRecords_eq he] at hs
      obtain ⟨edge, hm, rfl⟩ := List.mem_map.mp hs
      obtain ⟨hedge, -⟩ := Arena.mem_edgesFrom_iff.mp hm
      obtain ⟨t, ht, hin⟩ := (hw.mem_edges_live hedge).2
      obtain ⟨c, hc, hfits'⟩ := hp.exists_fit ht
      rw [hfits.outputs, Node.mem_distinct] at hout
      rw [hfits'.inputs, Node.mem_distinct] at hin
      exact ⟨hout, _, c, List.mem_of_getElem? (hw.block_place ht), rfl, hc, hin⟩
    · exact absurd hs List.not_mem_nil

end

/-! Edges of a saved graph -/

theorem flatMap_of_unique {α γ : Type} {l : List α} (hn : l.Nodup) {x : α} (hx : x ∈ l)
    {f : α → List γ} (hf : ∀ y ∈ l, y ≠ x → f y = []) : l.flatMap f = f x := by
  induction l with
  | nil => exact absurd hx List.not_mem_nil
  | cons a rest ih =>
    obtain ⟨hnot, hrest⟩ := List.nodup_cons.mp hn
    rw [List.flatMap_cons]
    rcases List.mem_cons.mp hx with rfl | hx
    · have hempty : rest.flatMap f = [] := by
        refine List.flatMap_eq_nil_iff.mpr fun y hy => ?_
        exact hf y (List.mem_cons_of_mem _ hy) fun heq => hnot (heq ▸ hy)
      rw [hempty, List.append_nil]
    · have hne : a ≠ x := fun heq => hnot (heq ▸ hx)
      rw [hf a List.mem_cons_self hne, List.nil_append]
      exact ih hrest hx fun y hy => hf y (List.mem_cons_of_mem _ hy)

theorem RecordIndex.publisher_of_edge? {index : RecordIndex} {publisher : BlockId}
    {w : String × SubscriberRecord} {edge : Edge} (h : index.edge? publisher w = some edge) :
    edge.publisher = publisher ∧ edge.output = w.1 := by
  obtain ⟨subscriber, -, rfl⟩ := Option.map_eq_some_iff.mp h
  exact ⟨rfl, rfl⟩

theorem filter_edges_document {d : Document} {i : Nat} {r : BlockRecord}
    (hr : d.blocks[i]? = some r) (output : String) :
    d.edges.filter (fun edge => edge.publisher = ⟨i⟩ ∧ edge.output = output) =
      (r.subscribers.list output).filterMap fun s => d.index.edge? ⟨i⟩ (output, s) := by
  have hn : d.blocks.zipIdx.Nodup := by
    refine List.Nodup.of_map Prod.snd ?_
    rw [List.zipIdx_map_snd]
    exact List.nodup_range'
  have hmem : (r, i) ∈ d.blocks.zipIdx := List.mk_mem_zipIdx_iff_getElem?.mpr hr
  rw [Document.edges, List.filter_flatMap, flatMap_of_unique hn hmem]
  · -- The edges of the record itself stand by output.
    have hlist : ((r.subscribers.list output).map (output, ·)).filterMap (d.index.edge? ⟨i⟩) =
        (r.subscribers.list output).filterMap fun s => d.index.edge? ⟨i⟩ (output, s) :=
      List.filterMap_map ..
    rw [← hlist, ← Dict.filter_spread, List.filter_filterMap, List.filterMap_filter]
    refine List.filterMap_congr fun w _ => ?_
    cases hedge : d.index.edge? ⟨i⟩ w with
    | none => simp
    | some edge =>
      obtain ⟨hpub, hout⟩ := RecordIndex.publisher_of_edge? hedge
      by_cases hw : w.1 = output <;> simp [hpub, hout, hw, Option.filter]
  · rintro ⟨r', j⟩ hj hne
    have hji : j ≠ i := by
      rintro rfl
      have hr' := List.mk_mem_zipIdx_iff_getElem?.mp hj
      rw [hr] at hr'
      exact hne (by rw [Option.some.inj hr'])
    refine List.filter_eq_nil_iff.mpr fun edge hm => ?_
    obtain ⟨w, -, hedge⟩ := List.mem_filterMap.mp hm
    simp [(RecordIndex.publisher_of_edge? hedge).1, hji]

theorem Wired.filter_edges (hw : g.Wired) {e : Entry β} (he : g.slot? id = some e)
    (output : String) : g.toDocument.edges.filter
      (fun edge => edge.publisher = g.place id ∧ edge.output = output) =
      (g.arena.edgesFrom id output).map (Edge.rename g.place) := by
  have hfilter := filter_edges_document (hw.block_place he) output
  refine hfilter.trans ?_
  rw [list_subscribers_blockRecord]
  split
  · rw [hw.subscriberRecords_eq he, List.filterMap_map, ← List.filterMap_eq_map]
    refine List.filterMap_congr fun edge hm => ?_
    obtain ⟨hedge, rfl, rfl⟩ := Arena.mem_edgesFrom_iff.mp hm
    obtain ⟨t, ht, -⟩ := (hw.mem_edges_live hedge).2
    have hfind := hw.find?_place (Option.isSome_iff_exists.mpr ⟨t, ht⟩)
    simp [RecordIndex.edge?, hfind, Edge.rename]
  · next hout =>
    have hnone : g.arena.edgesFrom id output = [] := by
      refine List.eq_nil_iff_forall_not_mem.mpr fun edge hm => ?_
      obtain ⟨hedge, rfl, rfl⟩ := Arena.mem_edgesFrom_iff.mp hm
      obtain ⟨e', he', hout'⟩ := (hw.mem_edges_live hedge).1
      rw [he] at he'
      cases he'
      exact hout hout'
    rw [hnone]
    rfl

theorem Wired.exists_place_of_mem (hw : g.Wired) {edge : Edge} (hm : edge ∈ g.toDocument.edges) :
    ∃ id e, g.slot? id = some e ∧ edge.publisher = g.place id := by
  obtain ⟨⟨r, i⟩, hx, hm⟩ := List.mem_flatMap.mp hm
  obtain ⟨w, -, hedge⟩ := List.mem_filterMap.mp hm
  obtain ⟨id, e, hi, he, -⟩ := hw.exists_block (List.mk_mem_zipIdx_iff_getElem?.mp hx)
  exact ⟨id, e, he, (RecordIndex.publisher_of_edge? hedge).1.trans (hw.place_eq hi).symm⟩

theorem Wired.mem_edges_toDocument (hw : g.Wired) {edge : Edge} : edge ∈ g.toDocument.edges ↔
    edge ∈ g.arena.edges.map (Edge.rename g.place) := by
  constructor
  · intro hm
    obtain ⟨id, e, he, hpub⟩ := hw.exists_place_of_mem hm
    have hfilter : edge ∈ g.toDocument.edges.filter
        (fun x => x.publisher = g.place id ∧ x.output = edge.output) :=
      List.mem_filter.mpr ⟨hm, by simp [hpub]⟩
    rw [hw.filter_edges he] at hfilter
    obtain ⟨x, hx, rfl⟩ := List.mem_map.mp hfilter
    exact List.mem_map_of_mem (Arena.mem_edgesFrom_iff.mp hx).1
  · intro hm
    obtain ⟨x, hx, rfl⟩ := List.mem_map.mp hm
    obtain ⟨e, he, -⟩ := (hw.mem_edges_live hx).1
    have hfrom : x ∈ g.arena.edgesFrom x.publisher x.output :=
      Arena.mem_edgesFrom_iff.mpr ⟨hx, rfl, rfl⟩
    have hfilter := List.mem_map_of_mem (f := Edge.rename g.place) hfrom
    rw [← hw.filter_edges he] at hfilter
    exact List.mem_of_mem_filter hfilter

theorem Wired.rename_inj (hw : g.Wired) {x y : Edge} (hx : x ∈ g.arena.edges)
    (hy : y ∈ g.arena.edges) (heq : x.rename g.place = y.rename g.place) : x = y := by
  obtain ⟨⟨p, hp, -⟩, ⟨t, ht, -⟩⟩ := hw.mem_edges_live hx
  have hpub : x.publisher ∈ g.order := (hw.mem_order_iff _).mpr (by simp [hp])
  have hsub : x.subscriber ∈ g.order := (hw.mem_order_iff _).mpr (by simp [ht])
  obtain ⟨publisher, output, subscriber, input⟩ := x
  obtain ⟨publisher', output', subscriber', input'⟩ := y
  simp only [Edge.rename, Edge.mk.injEq] at heq ⊢
  exact ⟨place_inj hpub heq.1, heq.2.1, place_inj hsub heq.2.2.1, heq.2.2.2⟩

theorem Wired.nodup_renamed (hw : g.Wired) : (g.arena.edges.map (Edge.rename g.place)).Nodup :=
  List.Nodup.map_on (fun _ hx _ hy heq => hw.rename_inj hx hy heq) hw.arena.distinct

theorem Wired.nodup_edges_toDocument (hw : g.Wired) : g.toDocument.edges.Nodup := by
  refine List.nodup_iff_count_le_one.mpr fun edge => ?_
  by_cases hm : edge ∈ g.toDocument.edges
  · -- An edge occurs among those of its own output only.
    obtain ⟨id, e, he, hpub⟩ := hw.exists_place_of_mem hm
    have hcount := List.count_filter (l := g.toDocument.edges) (a := edge)
      (p := fun x => x.publisher = g.place id ∧ x.output = edge.output) (by simp [hpub])
    rw [hw.filter_edges he, Arena.edgesFrom_eq] at hcount
    have hnodup : ((g.arena.edges.filter fun x => x.publisher = id ∧ x.output = edge.output).map
        (Edge.rename g.place)).Nodup :=
      hw.nodup_renamed.sublist (List.filter_sublist.map _)
    rw [← hcount]
    exact List.nodup_iff_count_le_one.mp hnodup edge
  · rw [List.count_eq_zero_of_not_mem hm]
    exact Nat.zero_le _

/-! The rebuilt graph -/

/-- Whether one graph is another with each block at its place: nodes, metadata, variables and
settings are the same, and so are the edges, in the same order at each output. -/
structure Copies (g h : Graph β) : Prop where
  order : h.order = g.order.map g.place
  node : ∀ id n, g.node id = .ok n → ∃ m, h.node (g.place id) = .ok m ∧
    m.typeName = n.typeName ∧ m.inputs = n.inputs ∧ m.outputs = n.outputs ∧
    m.parameters = n.parameters ∧ m.metadata = n.metadata
  edges : h.arena.edges.Perm (g.arena.edges.map (Edge.rename g.place))
  subscribers : ∀ id output, g.contains id →
    (h.subscribers (g.place id) output).map h.arena.get? =
      (g.subscribers id output).map fun s => (g.arena.get? s).map (Edge.rename g.place)
  metadata : h.metadata = g.metadata
  vars : h.vars = g.vars
  settings : h.settings = g.settings

variable [Behaviour β] {registry : Registry β}

section

variable (hw : g.Wired) (hp : Provides registry g)
  (hr : Rebuilt registry g.toDocument h)

include hw hr

theorem Rebuilt.order_eq : h.order = g.order.map g.place := by
  rw [hr.order, hw.length_blocks, hw.map_place]

theorem Rebuilt.edges_eq : h.arena.edges = g.toDocument.edges :=
  hr.edges.trans (eraseDups_of_nodup hw.nodup_edges_toDocument)

theorem Rebuilt.edgesFrom_place {e : Entry β} (he : g.slot? id = some e) (output : String) :
    h.arena.edgesFrom (g.place id) output =
      (g.arena.edgesFrom id output).map (Edge.rename g.place) := by
  rw [Arena.edgesFrom_eq, hr.edges_eq hw, hw.filter_edges he]

include hp

/-- At the place of each block there is one that the registry creates for its type, with the node
that the block had. -/
theorem Rebuilt.block_place {e : Entry β} (he : g.slot? id = some e) : ∃ b e',
    registry.create e.node.typeName = .ok b ∧ h.slot? (g.place id) = some e' ∧
    e'.behaviour = some b ∧ e'.node.id = g.place id ∧ e'.node.typeName = e.node.typeName ∧
    e'.node.inputs = e.node.inputs ∧ e'.node.outputs = e.node.outputs ∧
    e'.node.parameters = e.node.parameters ∧ e'.node.metadata = e.node.metadata := by
  obtain ⟨b, e', hb, he', hbe, hn⟩ := hr.block _ _ (hw.block_place he)
  obtain ⟨b', hb', hfits⟩ := hp.exists_fit he
  obtain rfl : b' = b := Except.ok.inj (hb'.symm.trans hb)
  have hfield : ∀ {γ : Type} (p : Node → γ), (∀ n : Node, p n.unwired = p n) →
      p e'.node = p (fill (g.blockRecord e.node (g.place id).index)
        (.ofDefinition (g.place id) (Behaviour.definition b'))) := by
    intro γ p hp'
    rw [← hp' e'.node, hn]
  refine ⟨b', e', hb, he', hbe, hfield Node.id fun _ => rfl,
    (hfield Node.typeName fun _ => rfl).trans hfits.typeName.symm,
    (hfield Node.inputs fun _ => rfl).trans hfits.inputs.symm,
    (hfield Node.outputs fun _ => rfl).trans hfits.outputs.symm,
    (hfield Node.parameters fun _ => rfl).trans ?_, hfield Node.metadata fun _ => rfl⟩
  refine Dict.overlay_of_contains fun name hname => ?_
  have hcontains : (Behaviour.definition b').parameters.contains name = true := by
    simpa [Node.ofDefinition, BlockDefinition.initialValues, Dict.contains_map] using hname
  exact (hfits.parameters name).trans hcontains

theorem Rebuilt.copies (hw' : h.Wired) : Copies g h where
  order := hr.order_eq hw
  node id n hn := by
    obtain ⟨e, he, rfl⟩ := node_eq_ok_iff.mp hn
    obtain ⟨b, e', -, he', -, -, hname, hin, hout, hpar, hmeta⟩ := hr.block_place hw hp he
    exact ⟨e'.node, node_eq_ok_iff.mpr ⟨e', he', rfl⟩, hname, hin, hout, hpar, hmeta⟩
  edges := by
    rw [hr.edges_eq hw]
    exact (List.perm_ext_iff_of_nodup hw.nodup_edges_toDocument hw.nodup_renamed).mpr
      fun _ => hw.mem_edges_toDocument
  subscribers id output hl := by
    obtain ⟨e, he⟩ := Option.isSome_iff_exists.mp hl
    have hfrom := hr.edgesFrom_place hw he output
    have hmap := congrArg (List.map (Option.map (Edge.rename g.place)))
      (hw.arena.map_get?_leaving id output)
    rw [List.map_map, List.map_map] at hmap
    rw [hw'.subscribers_eq, hw'.arena.map_get?_leaving, hfrom, List.map_map, hw.subscribers_eq]
    exact hmap.symm
  metadata := hr.metadata
  vars := hr.vars
  settings := hr.settings

end

theorem Reachable.provides_builtins [HostsBuiltins β] [KeepsBuiltins β] (hr : g.Reachable)
    (hb : g.MadeOfBuiltins) (screen : Screen) : Provides (Registry.builtins block screen) g := by
  intro id n hn
  obtain ⟨e, he, rfl⟩ := node_eq_ok_iff.mp hn
  obtain ⟨b, hbe⟩ := hb id (by simp [contains, he])
  rw [behaviour?_of_slot? he] at hbe
  have hfits := hr.fitted id e b he hbe
  have hname : e.node.typeName = b.typeName := hfits.typeName
  refine ⟨block (b.prototype screen), hname ▸ Registry.create_builtins screen b, ?_⟩
  rw [KeepsBuiltins.definition_block]
  exact Builtin.fits_prototype hfits screen

/-- A graph that is saved can be rebuilt by every registry that provides its block types, and the
result is a copy of it. -/
theorem Reachable.save_load (hr : g.Reachable) (hp : Provides registry g) :
    ∃ h, ofDocument registry g.toDocument = .ok () h ∧ Copies g h := by
  have hw := hr.ready.wired
  obtain ⟨h, hload, hrebuilt⟩ := ofDocument_eq_ok (hw.accepted hp)
  have hw' : h.Wired := (Reachable.loaded hload).ready.wired
  exact ⟨h, hload, hrebuilt.copies hw hp hw'⟩

/-- Two blocks are removed, one after it was fed and one that fed, so the numbers of blocks and of
subscriptions have gaps. -/
def removedBlocks : List (Operation Builtin) :=
  [.add (.source (.bool true)), .add .sum, .add .compare, .add .forward, .add (.alert .log),
    .subscribe ⟨1⟩ Builtin.valuesInput ⟨0⟩ Builtin.dataName,
    .subscribe ⟨2⟩ Builtin.compareInput ⟨0⟩ Builtin.dataName,
    .subscribe ⟨4⟩ Builtin.messageInput ⟨2⟩ Builtin.equalOutput,
    .subscribe ⟨2⟩ Builtin.valuesInput ⟨0⟩ Builtin.dataName,
    .publish ⟨3⟩ defaultOutput ⟨4⟩ Builtin.messageInput, .remove ⟨1⟩, .remove ⟨3⟩,
    .setParameter ⟨0⟩ Builtin.dataName (.string "on"), .run]

theorem save_load_of_removedBlocks : ∃ g h : Graph Builtin,
    performAll 9 removedBlocks (.new .standard) = some g ∧ g.order = [⟨0⟩, ⟨2⟩, ⟨4⟩] ∧
    Provides (Registry.builtins block .console) g ∧
    ofDocument (Registry.builtins block .console) g.toDocument = .ok () h ∧ Copies g h := by
  have hdec : (performAll 9 removedBlocks (.new .standard)).any
      (fun g => g.order = [⟨0⟩, ⟨2⟩, ⟨4⟩]) = true := by decide +kernel
  obtain ⟨g, hg, ho⟩ := (Option.any_eq_true _ _).mp hdec
  have hr : g.Reachable := Reachable.performAll (.new _) hg
  have hp : Provides (Registry.builtins block .console) g :=
    hr.provides_builtins hr.ready.complete.madeOfBuiltins .console
  obtain ⟨h, hload, hcopies⟩ := Reachable.save_load hr hp
  exact ⟨g, h, hg, of_decide_eq_true ho, hp, hload, hcopies⟩

end Graph

end Patchbay
