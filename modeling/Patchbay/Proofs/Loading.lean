import Patchbay.Proofs.Operations

/-! Rebuilding a graph from a document. Each of the three passes is a fold over the records where
nothing is wrong with them, and a document without a fault becomes a graph that it describes in
full. -/

namespace Patchbay

/-- The edges of an arena, in the order of subscribing. -/
def Arena.edges (a : Arena) : List Edge := a.entries.map Prod.snd

theorem Arena.edgesFrom_eq (a : Arena) (id : BlockId) (output : String) :
    a.edgesFrom id output =
      a.edges.filter fun edge => edge.publisher = id ∧ edge.output = output := by
  rw [edgesFrom, edges, List.filter_map]
  rfl

theorem Arena.mem_edgesFrom_iff {a : Arena} {id : BlockId} {output : String} {edge : Edge} :
    edge ∈ a.edgesFrom id output ↔
      edge ∈ a.edges ∧ edge.publisher = id ∧ edge.output = output := by
  rw [edgesFrom_eq, List.mem_filter, decide_eq_true_eq]

theorem Arena.Sound.mem_edges_iff {a : Arena} (h : a.Sound) {edge : Edge} :
    edge ∈ a.edges ↔ a.find? edge ≠ none := by
  simp only [edges, List.mem_map, ne_eq, Option.eq_none_iff_forall_not_mem, Option.mem_def,
    h.find?_eq_some_iff, not_forall, not_not]
  constructor
  · rintro ⟨⟨s, e⟩, hm, rfl⟩
    exact ⟨s, hm⟩
  · rintro ⟨s, hm⟩
    exact ⟨(s, edge), hm, rfl⟩

theorem eraseDups_of_nodup {α : Type} [BEq α] [LawfulBEq α] {l : List α} (h : l.Nodup) :
    l.eraseDups = l := by
  induction l with
  | nil => rfl
  | cons a rest ih =>
    obtain ⟨hnot, hrest⟩ := List.nodup_cons.mp h
    have hfilter : rest.filter (fun b => !b == a) = rest := by
      refine List.filter_eq_self.mpr fun b hb => ?_
      have hne : b ≠ a := fun heq => hnot (heq ▸ hb)
      simpa using hne
    rw [List.eraseDups_cons, hfilter, ih hrest]

namespace Graph

/-! First pass -/

section

variable {β : Type} [Behaviour β] {g : Graph β}

def addAll (bs : List β) (g : Graph β) : Graph β := bs.foldl (fun g b => (g.add b).2) g

theorem slots_addAll (bs : List β) (g : Graph β) : (addAll bs g).slots = g.slots ++
    (bs.zipIdx g.slots.length).map fun x =>
      some ⟨some x.1, .ofDefinition ⟨x.2⟩ (Behaviour.definition x.1)⟩ := by
  induction bs generalizing g with
  | nil => simp [addAll]
  | cons b rest ih =>
    have hrest : addAll (b :: rest) g = addAll rest (g.add b).2 := rfl
    rw [hrest, ih]
    simp [add, List.zipIdx_cons]

theorem order_addAll (bs : List β) (g : Graph β) : (addAll bs g).order =
    g.order ++ (List.range' g.slots.length bs.length).map BlockId.mk := by
  induction bs generalizing g with
  | nil => simp [addAll]
  | cons b rest ih =>
    have hrest : addAll (b :: rest) g = addAll rest (g.add b).2 := rfl
    rw [hrest, ih]
    simp [add, List.range'_succ]

theorem addAll_keeps (bs : List β) (g : Graph β) : (addAll bs g).arena = g.arena ∧
    (addAll bs g).settings = g.settings ∧ (addAll bs g).observers = g.observers := by
  induction bs generalizing g with
  | nil => exact ⟨rfl, rfl, rfl⟩
  | cons b rest ih => exact ih (g.add b).2

theorem createBlocks_eq {registry : Registry β} {records : List BlockRecord} {bs : List β}
    {index : RecordIndex} (hn : (index.map Prod.fst ++ records.map BlockRecord.id).Nodup)
    (hc : records.map (fun r => registry.create r.typeName) = bs.map .ok) :
    createBlocks registry records index g = .ok
      (index ++ (records.zipIdx g.slots.length).map fun x => (x.1.id, ⟨x.2⟩)) (addAll bs g) := by
  induction records generalizing g bs index with
  | nil =>
    obtain rfl : bs = [] := by simpa using hc.symm
    simp [createBlocks, addAll]
  | cons r rest ih =>
    obtain ⟨b, bs, rfl⟩ : ∃ b bs', bs = b :: bs' := by
      cases bs with
      | nil => simp at hc
      | cons b bs => exact ⟨b, bs, rfl⟩
    obtain ⟨hb, hbs⟩ := List.cons.inj hc
    have hfresh : RecordIndex.find? index r.id = none := by
      have hnot : r.id ∉ index.map Prod.fst := fun hm =>
        (List.nodup_append.mp hn).2.2 _ hm _ List.mem_cons_self rfl
      simp only [RecordIndex.find?, Option.map_eq_none_iff, List.find?_eq_none,
        decide_eq_true_eq]
      intro x hx heq
      exact hnot (List.mem_map.mpr ⟨x, hx, heq⟩)
    have hn' : ((index ++ [(r.id, (⟨g.slots.length⟩ : BlockId))]).map Prod.fst ++
        rest.map BlockRecord.id).Nodup := by
      simpa using hn
    have hrest := ih (g := (g.add b).2) hn' hbs
    simp only [createBlocks, hfresh, hb]
    refine Eq.trans hrest ?_
    simp [add, List.zipIdx_cons, addAll]

end

variable {β : Type} {g h : Graph β}

/-! Second pass -/

theorem updateNode_self (g : Graph β) (id : BlockId) : (g.updateNode id fun n => n) = g := by
  have hsame : (Option.map fun e : Entry β => ({ e with node := e.node } : Entry β)) =
      fun o => o := by
    funext o
    cases o <;> rfl
  have hslots : g.slots.modify id.index (fun o => o) = g.slots := List.modify_id _ _
  simp only [updateNode, updateEntry, hsame, hslots]

theorem updateNode_updateNode (g : Graph β) (id : BlockId) (f f' : Node → Node) :
    (g.updateNode id f).updateNode id f' = g.updateNode id fun n => f' (f n) := by
  simp only [updateNode, updateEntry, List.modify_modify_eq]
  congr 2
  funext o
  cases o <;> rfl

/-- What a record makes of the node of its block. -/
def fill (r : BlockRecord) (n : Node) : Node :=
  { n with parameters := n.parameters.overlay r.values, metadata := r.metadata }

theorem assignValues_eq {id : BlockId} {e : Entry β} {values : List (String × Value)}
    (he : g.slot? id = some e) (hc : ∀ x ∈ values, e.node.parameters.contains x.1) :
    assignValues id values g = .ok () (g.updateNode id fun n =>
      { n with parameters := values.foldl (fun d x => d.insert x.1 x.2) n.parameters }) := by
  induction values generalizing g e with
  | nil => exact congrArg (Reply.ok ()) (updateNode_self g id).symm
  | cons x rest ih =>
    obtain ⟨name, v⟩ := x
    let set : Node → Node := fun n => { n with parameters := n.parameters.insert name v }
    have hname : e.node.parameters.contains name = true := hc _ List.mem_cons_self
    have hset : g.setParameter id name v = .ok () (g.updateNode id set) := by
      have hn : g.node id = .ok e.node := node_eq_ok_iff.mpr ⟨e, he, rfl⟩
      have hm : e.node.setParameter name v = .ok (set e.node) := by
        simp [Node.setParameter, hname, set]
      have hu : (g.updateNode id fun _ => set e.node) = g.updateNode id set :=
        updateNode_congr he rfl
      simp only [setParameter, editNode, hn, bind, Except.bind, hm, Except.map, hu]
    have he' : (g.updateNode id set).slot? id = some { e with node := set e.node } := by
      simp [slot?_updateNode, he]
    have hrest := ih he' fun y hy => by
      have hy' := hc y (List.mem_cons_of_mem _ hy)
      simp [set, Dict.contains_insert, hy']
    simp only [assignValues, hset, hrest, updateNode_updateNode, List.foldl_cons, set]

def fillAll (l : List (BlockRecord × Nat)) (g : Graph β) : Graph β :=
  l.foldl (fun g x => g.updateNode ⟨x.2⟩ (fill x.1)) g

theorem fillAll_keeps (l : List (BlockRecord × Nat)) (g : Graph β) :
    (fillAll l g).arena = g.arena ∧ (fillAll l g).order = g.order ∧
      (fillAll l g).settings = g.settings ∧ (fillAll l g).observers = g.observers := by
  induction l generalizing g with
  | nil => exact ⟨rfl, rfl, rfl, rfl⟩
  | cons x rest ih => exact ih _

theorem slot?_fillAll_of_not_mem {l : List (BlockRecord × Nat)} {i : Nat}
    (hn : i ∉ l.map Prod.snd) : (fillAll l g).slot? ⟨i⟩ = g.slot? ⟨i⟩ := by
  induction l generalizing g with
  | nil => rfl
  | cons x rest ih =>
    have hne : i ≠ x.2 := fun heq => hn (by simp [heq])
    have hrest : i ∉ rest.map Prod.snd := fun hm => hn (List.mem_cons_of_mem _ hm)
    refine (ih (g := g.updateNode ⟨x.2⟩ (fill x.1)) hrest).trans ?_
    simp [slot?_updateNode, hne]

theorem slot?_fillAll {l : List (BlockRecord × Nat)} (hn : (l.map Prod.snd).Nodup)
    {x : BlockRecord × Nat} (hx : x ∈ l) : (fillAll l g).slot? ⟨x.2⟩ =
      (g.slot? ⟨x.2⟩).map fun e => { e with node := fill x.1 e.node } := by
  induction l generalizing g with
  | nil => exact absurd hx List.not_mem_nil
  | cons y rest ih =>
    obtain ⟨hy, hrest⟩ := List.nodup_cons.mp hn
    rcases List.mem_cons.mp hx with rfl | hx
    · refine (slot?_fillAll_of_not_mem (g := g.updateNode ⟨x.2⟩ (fill x.1)) hy).trans ?_
      simp [slot?_updateNode]
    · have hne : x.2 ≠ y.2 := fun heq => hy (heq ▸ List.mem_map_of_mem hx)
      refine (ih (g := g.updateNode ⟨y.2⟩ (fill y.1)) hrest hx).trans ?_
      simp [slot?_updateNode, hne]

theorem fillBlocks_eq {index : RecordIndex} {l : List (BlockRecord × Nat)}
    (hi : ∀ x ∈ l, RecordIndex.find? index x.1.id = some ⟨x.2⟩)
    (hc : ∀ x ∈ l, ∃ e, g.slot? ⟨x.2⟩ = some e ∧
      ∀ name, x.1.values.contains name → e.node.parameters.contains name) :
    fillBlocks index (l.map Prod.fst) g = .ok () (fillAll l g) := by
  induction l generalizing g with
  | nil => rfl
  | cons x rest ih =>
    obtain ⟨e, he, hdeclared⟩ := hc x List.mem_cons_self
    have hvalues : ∀ y ∈ x.1.values.entries, e.node.parameters.contains y.1 := by
      intro y hy
      have hfind := Dict.mem_entries_iff.mp hy
      exact hdeclared y.1 (by simp [Dict.contains, hfind])
    have hassign := assignValues_eq he hvalues
    have hrest := ih (g := g.updateNode ⟨x.2⟩ (fill x.1))
      (fun y hy => hi y (List.mem_cons_of_mem _ hy)) fun y hy => by
        obtain ⟨e', he', hdeclared'⟩ := hc y (List.mem_cons_of_mem _ hy)
        rw [slot?_updateNode]
        split
        · refine ⟨_, by rw [he']; rfl, fun name hname => ?_⟩
          simp [fill, Dict.contains_overlay, hdeclared' name hname]
        · exact ⟨e', he', hdeclared'⟩
    simp only [List.map_cons, fillBlocks, hi x List.mem_cons_self, hassign,
      updateNode_updateNode]
    exact hrest

/-! Third pass -/

theorem checkEdge_of_unwired (hu : h.unwired = g.unwired) {edge : Edge}
    (hc : g.checkEdge edge = .ok ()) : h.checkEdge edge = .ok () := by
  simp only [checkEdge_eq_ok_iff, checkInput_eq_ok_iff, checkOutput_eq_ok_iff] at hc ⊢
  obtain ⟨⟨e, he, hin⟩, ⟨e', he', hout⟩⟩ := hc
  obtain ⟨x, hx, -, hn⟩ := exists_slot?_of_unwired hu.symm he
  obtain ⟨x', hx', -, hn'⟩ := exists_slot?_of_unwired hu.symm he'
  have hinputs : x.node.unwired.inputs = e.node.unwired.inputs := congrArg Node.inputs hn
  have houtputs : x'.node.unwired.outputs = e'.node.unwired.outputs := congrArg Node.outputs hn'
  change x.node.inputs = e.node.inputs at hinputs
  change x'.node.outputs = e'.node.outputs at houtputs
  exact ⟨⟨x, hx, hinputs ▸ hin⟩, ⟨x', hx', houtputs ▸ hout⟩⟩

def join (g : Graph β) (edge : Edge) : Graph β :=
  (g.subscribe edge.subscriber edge.input edge.publisher edge.output).graph

def joinAll (edges : List Edge) (g : Graph β) : Graph β := edges.foldl join g

theorem joinAll_append (l l' : List Edge) (g : Graph β) :
    joinAll (l ++ l') g = joinAll l' (joinAll l g) := List.foldl_append

theorem unwired_joinAll (edges : List Edge) (g : Graph β) :
    (joinAll edges g).unwired = g.unwired := by
  induction edges generalizing g with
  | nil => rfl
  | cons edge rest ih => exact (ih (g.join edge)).trans (unwired_subscribe _ _ _ _ _)

theorem publish_eq_ok {edge : Edge} (hc : g.checkEdge edge = .ok ()) : ∃ s,
    g.publish edge.publisher edge.output edge.subscriber edge.input = .ok s (g.join edge) := by
  rw [publish, join, subscribe_eq hc]
  cases g.arena.find? edge with
  | none => exact ⟨_, rfl⟩
  | some s => exact ⟨s, rfl⟩

theorem Wired.edges_join (hw : g.Wired) {edge : Edge} (hc : g.checkEdge edge = .ok ()) :
    (g.join edge).arena.edges =
      if edge ∈ g.arena.edges then g.arena.edges else g.arena.edges ++ [edge] := by
  rw [join, subscribe_eq hc]
  cases hf : g.arena.find? edge with
  | some s =>
    have hm : edge ∈ g.arena.edges := hw.arena.mem_edges_iff.mpr (by simp [hf])
    simp [hm]
  | none =>
    have hm : edge ∉ g.arena.edges := fun hm => hw.arena.mem_edges_iff.mp hm hf
    have hadd : (g.arena.add edge).edges = g.arena.edges ++ [edge] := by
      simp [Arena.edges, Arena.add]
    rw [if_neg hm]
    exact hadd

theorem checkEdge_join (g : Graph β) (edge : Edge) {edge' : Edge}
    (hc : g.checkEdge edge' = .ok ()) : (g.join edge).checkEdge edge' = .ok () :=
  checkEdge_of_unwired (unwired_subscribe _ _ _ _ _) hc

/-- An edge that is there already is not joined again. -/
theorem Wired.edges_joinAll (hw : g.Wired) {edges : List Edge}
    (hc : ∀ edge ∈ edges, g.checkEdge edge = .ok ()) :
    (joinAll edges g).arena.edges = (g.arena.edges ++ edges).eraseDups := by
  induction edges generalizing g with
  | nil =>
    have hnodup : g.arena.edges.Nodup := hw.arena.distinct
    rw [List.append_nil, eraseDups_of_nodup hnodup]
    rfl
  | cons edge rest ih =>
    have hedge : g.checkEdge edge = .ok () := hc edge List.mem_cons_self
    have hw' : (g.join edge).Wired := hw.subscribe _ _ _ _
    have hrest : (joinAll rest (g.join edge)).arena.edges =
        ((g.join edge).arena.edges ++ rest).eraseDups :=
      ih hw' fun x hx => checkEdge_join g edge (hc x (List.mem_cons_of_mem _ hx))
    have hstart : joinAll (edge :: rest) g = joinAll rest (g.join edge) := rfl
    rw [hstart, hrest, hw.edges_join hedge]
    by_cases hm : edge ∈ g.arena.edges
    · have hall : (edge :: rest).removeAll g.arena.edges = rest.removeAll g.arena.edges := by
        simp [List.removeAll, hm]
      rw [if_pos hm, List.eraseDups_append, List.eraseDups_append, hall]
    · rw [if_neg hm, List.append_assoc]
      rfl

/-- The edge that a record tells of, where it names a block of the index. -/
def RecordIndex.edge? (index : RecordIndex) (publisher : BlockId) (x : String × SubscriberRecord) :
    Option Edge :=
  (RecordIndex.find? index x.2.block).map fun subscriber => ⟨publisher, x.1, subscriber, x.2.input⟩

theorem publishAll_eq {index : RecordIndex} {publisher : BlockId}
    {wires : List (String × SubscriberRecord)}
    (hc : ∀ x ∈ wires, ∃ edge, index.edge? publisher x = some edge ∧ g.checkEdge edge = .ok ()) :
    publishAll index publisher wires g =
      .ok () (joinAll (wires.filterMap (index.edge? publisher)) g) := by
  induction wires generalizing g with
  | nil => rfl
  | cons x rest ih =>
    obtain ⟨edge, hedge, hcheck⟩ := hc x List.mem_cons_self
    have hrest := ih (g := g.join edge) fun y hy => by
      obtain ⟨edge', hedge', hcheck'⟩ := hc y (List.mem_cons_of_mem _ hy)
      exact ⟨edge', hedge', checkEdge_join g edge hcheck'⟩
    obtain ⟨s, hs⟩ := publish_eq_ok hcheck
    obtain ⟨subscriber, hfind, rfl⟩ := Option.map_eq_some_iff.mp hedge
    rw [List.filterMap_cons_some hedge]
    simp only [publishAll, hfind, hs]
    exact hrest

theorem wireBlocks_eq {index : RecordIndex} {l : List (BlockRecord × Nat)}
    (hi : ∀ x ∈ l, RecordIndex.find? index x.1.id = some ⟨x.2⟩)
    (hc : ∀ x ∈ l, ∀ w ∈ x.1.subscribers.spread, ∃ edge, index.edge? ⟨x.2⟩ w = some edge ∧
      g.checkEdge edge = .ok ()) :
    wireBlocks index (l.map Prod.fst) g = .ok () (joinAll
      (l.flatMap fun x => x.1.subscribers.spread.filterMap (index.edge? ⟨x.2⟩)) g) := by
  induction l generalizing g with
  | nil => rfl
  | cons x rest ih =>
    have hpublish := publishAll_eq (hc x List.mem_cons_self)
    have hrest := ih (g := joinAll (x.1.subscribers.spread.filterMap (index.edge? ⟨x.2⟩)) g)
      (fun y hy => hi y (List.mem_cons_of_mem _ hy)) fun y hy w hw => by
        obtain ⟨edge, hedge, hcheck⟩ := hc y (List.mem_cons_of_mem _ hy) w hw
        exact ⟨edge, hedge, checkEdge_of_unwired (unwired_joinAll _ g) hcheck⟩
    rw [Dict.spread] at hpublish
    simp only [List.map_cons, wireBlocks, hi x List.mem_cons_self, hpublish, List.flatMap_cons,
      joinAll_append]
    exact hrest

end Graph

/-! Documents without a fault -/

namespace Document

variable {d : Document}

def index (d : Document) : Graph.RecordIndex := d.blocks.zipIdx.map fun x => (x.1.id, ⟨x.2⟩)

/-- The edges that a document tells of, by record, output and place in the list. -/
def edges (d : Document) : List Edge := d.blocks.zipIdx.flatMap fun x =>
  x.1.subscribers.spread.filterMap (d.index.edge? ⟨x.2⟩)

theorem find?_index (hn : (d.blocks.map BlockRecord.id).Nodup) {i : Nat} {r : BlockRecord}
    (hr : d.blocks[i]? = some r) : Graph.RecordIndex.find? d.index r.id = some ⟨i⟩ := by
  have hfst : d.index.map Prod.fst = d.blocks.map BlockRecord.id := by
    have hids : d.index.map Prod.fst = (d.blocks.zipIdx.map Prod.fst).map BlockRecord.id := by
      rw [index, List.map_map, List.map_map]
      rfl
    rw [hids, List.zipIdx_map_fst]
  have hmem : (r.id, (⟨i⟩ : BlockId)) ∈ d.index :=
    List.mem_map.mpr ⟨(r, i), List.mk_mem_zipIdx_iff_getElem?.mpr hr, rfl⟩
  exact (Arena.lookup_eq_some_iff (hfst ▸ hn)).mpr hmem

variable {β : Type} [Behaviour β]

/-- Whether a document can be rebuilt: its records have different numbers and registered types, and
they name nothing that the blocks of these types do not declare. -/
structure Accepted (d : Document) (registry : Registry β) : Prop where
  distinct : (d.blocks.map BlockRecord.id).Nodup
  created : ∀ r ∈ d.blocks, ∃ b, registry.create r.typeName = .ok b
  declared : ∀ r ∈ d.blocks, ∀ b, registry.create r.typeName = .ok b →
    ∀ name, r.values.contains name → (Behaviour.definition b).parameters.contains name
  wired : ∀ r ∈ d.blocks, ∀ b, registry.create r.typeName = .ok b →
    ∀ output s, s ∈ r.subscribers.list output →
      output ∈ (Behaviour.definition b).ports.outputNames ∧
      ∃ t c, t ∈ d.blocks ∧ t.id = s.block ∧ registry.create t.typeName = .ok c ∧
        s.input ∈ (Behaviour.definition c).ports.inputNames

end Document

namespace Graph

variable {β : Type} [Behaviour β] {registry : Registry β} {d : Document}

/-- What a document says of the graph that is rebuilt from it. -/
structure Rebuilt (registry : Registry β) (d : Document) (h : Graph β) : Prop where
  order : h.order = (List.range d.blocks.length).map BlockId.mk
  block : ∀ i r, d.blocks[i]? = some r → ∃ b e, registry.create r.typeName = .ok b ∧
    h.slot? ⟨i⟩ = some e ∧ e.behaviour = some b ∧
    e.node.unwired = fill r (.ofDefinition ⟨i⟩ (Behaviour.definition b))
  edges : h.arena.edges = d.edges.eraseDups
  metadata : h.metadata = d.metadata
  vars : h.vars = d.vars
  settings : h.settings = d.settings
  observers : h.observers = []

omit [Behaviour β] in
theorem exists_created {records : List BlockRecord}
    (hc : ∀ r ∈ records, ∃ b, registry.create r.typeName = .ok b) :
    ∃ bs : List β, records.map (fun r => registry.create r.typeName) = bs.map .ok := by
  induction records with
  | nil => exact ⟨[], rfl⟩
  | cons r rest ih =>
    obtain ⟨b, hb⟩ := hc r List.mem_cons_self
    obtain ⟨bs, hbs⟩ := ih fun x hx => hc x (List.mem_cons_of_mem _ hx)
    exact ⟨b :: bs, by simp [hb, hbs]⟩

/-- The graph between the second pass and the third. -/
def filled (d : Document) (bs : List β) : Graph β :=
  fillAll d.blocks.zipIdx (addAll bs (.new d.settings))

section

variable {bs : List β}
  (hbs : d.blocks.map (fun r => registry.create r.typeName) = bs.map .ok)

include hbs

theorem slot?_created {i : Nat} {r : BlockRecord} (hr : d.blocks[i]? = some r) :
    ∃ b, registry.create r.typeName = .ok b ∧ (addAll bs (.new d.settings)).slot? ⟨i⟩ =
      some ⟨some b, .ofDefinition ⟨i⟩ (Behaviour.definition b)⟩ := by
  have hcreate := congrArg (fun l => l[i]?) hbs
  simp only [List.getElem?_map, hr, Option.map_some] at hcreate
  obtain ⟨b, hb, hok⟩ := Option.map_eq_some_iff.mp hcreate.symm
  refine ⟨b, hok.symm, ?_⟩
  simp [slot?, slots_addAll, Graph.new, List.getElem?_zipIdx, hb]

theorem slot?_filled {i : Nat} {r : BlockRecord} (hr : d.blocks[i]? = some r) :
    ∃ b, registry.create r.typeName = .ok b ∧ (filled d bs).slot? ⟨i⟩ =
      some ⟨some b, fill r (.ofDefinition ⟨i⟩ (Behaviour.definition b))⟩ := by
  obtain ⟨b, hb, hslot⟩ := slot?_created hbs hr
  have hn : (d.blocks.zipIdx.map Prod.snd).Nodup := by
    rw [List.zipIdx_map_snd]
    exact List.nodup_range'
  have hmem : (r, i) ∈ d.blocks.zipIdx := List.mk_mem_zipIdx_iff_getElem?.mpr hr
  refine ⟨b, hb, ?_⟩
  rw [filled, slot?_fillAll hn hmem, hslot]
  rfl

variable (ha : d.Accepted registry)

include ha

theorem createBlocks_accepted : createBlocks registry d.blocks [] (.new d.settings) =
    .ok d.index (addAll bs (.new d.settings)) := by
  have hn : (([] : RecordIndex).map Prod.fst ++ d.blocks.map BlockRecord.id).Nodup := ha.distinct
  exact createBlocks_eq hn hbs

theorem fillBlocks_accepted :
    fillBlocks d.index d.blocks (addAll bs (.new d.settings)) = .ok () (filled d bs) := by
  have hpass := fillBlocks_eq (g := addAll bs (.new d.settings)) (l := d.blocks.zipIdx)
    (fun x hx => d.find?_index ha.distinct (List.mem_zipIdx_iff_getElem?.mp hx)) fun x hx => by
      have hr := List.mem_zipIdx_iff_getElem?.mp hx
      obtain ⟨b, hb, hslot⟩ := slot?_created hbs hr
      refine ⟨_, hslot, fun name hname => ?_⟩
      have hdeclared := ha.declared x.1 (List.mem_of_getElem? hr) b hb name hname
      simpa [Node.ofDefinition, BlockDefinition.initialValues, Dict.contains_map] using hdeclared
  rwa [List.zipIdx_map_fst] at hpass

theorem checkEdge_filled {i : Nat} {r : BlockRecord} (hr : d.blocks[i]? = some r)
    {w : String × SubscriberRecord} (hw : w ∈ r.subscribers.spread) :
    ∃ edge, d.index.edge? ⟨i⟩ w = some edge ∧ (filled d bs).checkEdge edge = .ok () := by
  obtain ⟨output, s⟩ := w
  obtain ⟨b, hb, hslot⟩ := slot?_filled hbs hr
  obtain ⟨hout, t, c, ht, hid, hc, hin⟩ :=
    ha.wired r (List.mem_of_getElem? hr) b hb output s (Dict.mem_spread.mp hw)
  obtain ⟨j, hj⟩ := List.mem_iff_getElem?.mp ht
  obtain ⟨c', hc', hslot'⟩ := slot?_filled hbs hj
  obtain rfl : c = c' := Except.ok.inj (hc.symm.trans hc')
  have hfind : RecordIndex.find? d.index s.block = some ⟨j⟩ := hid ▸ d.find?_index ha.distinct hj
  refine ⟨⟨⟨i⟩, output, ⟨j⟩, s.input⟩, by simp [RecordIndex.edge?, hfind], ?_⟩
  refine checkEdge_eq_ok_iff.mpr ⟨checkInput_eq_ok_iff.mpr ⟨_, hslot', ?_⟩,
    checkOutput_eq_ok_iff.mpr ⟨_, hslot, ?_⟩⟩
  · exact Node.mem_distinct.mpr hin
  · exact Node.mem_distinct.mpr hout

theorem checkEdge_of_mem_edges {edge : Edge} (hm : edge ∈ d.edges) :
    (filled d bs).checkEdge edge = .ok () := by
  obtain ⟨x, hx, hm⟩ := List.mem_flatMap.mp hm
  obtain ⟨w, hw, hedge⟩ := List.mem_filterMap.mp hm
  obtain ⟨edge', hedge', hcheck⟩ :=
    checkEdge_filled hbs ha (List.mem_zipIdx_iff_getElem?.mp hx) hw
  rw [hedge] at hedge'
  cases hedge'
  exact hcheck

theorem wireBlocks_accepted :
    wireBlocks d.index d.blocks (filled d bs) = .ok () (joinAll d.edges (filled d bs)) := by
  have hpass := wireBlocks_eq (g := filled d bs) (l := d.blocks.zipIdx)
    (fun x hx => d.find?_index ha.distinct (List.mem_zipIdx_iff_getElem?.mp hx))
    fun x hx w hw => checkEdge_filled hbs ha (List.mem_zipIdx_iff_getElem?.mp hx) hw
  rwa [List.zipIdx_map_fst] at hpass

theorem ready_filled : (filled d bs).Ready := by
  have hcreate : (createBlocks registry d.blocks [] (.new d.settings)).graph.Ready :=
    keptByLoading_ready.createBlocks registry (.new d.settings)
  rw [createBlocks_accepted hbs ha] at hcreate
  have hfill : (fillBlocks d.index d.blocks (addAll bs (.new d.settings))).graph.Ready :=
    keptByLoading_ready.fillBlocks hcreate
  rwa [fillBlocks_accepted hbs ha] at hfill

end

theorem filled_keeps (d : Document) (bs : List β) :
    (filled d bs).order = (List.range bs.length).map BlockId.mk ∧
      (filled d bs).arena.edges = [] ∧ (filled d bs).settings = d.settings ∧
      (filled d bs).observers = [] := by
  obtain ⟨hfarena, hforder, hfsettings, hfobservers⟩ :=
    fillAll_keeps d.blocks.zipIdx (addAll bs (.new d.settings))
  obtain ⟨haarena, hasettings, haobservers⟩ := addAll_keeps bs (.new d.settings)
  refine ⟨?_, ?_, hfsettings.trans hasettings, hfobservers.trans haobservers⟩
  · have horder := hforder.trans (order_addAll bs (.new d.settings))
    rw [List.range_eq_range']
    exact horder
  · rw [filled, hfarena, haarena]
    rfl

/-- A document without a fault is rebuilt, and the graph is as it says. -/
theorem ofDocument_eq_ok (ha : d.Accepted registry) :
    ∃ h, ofDocument registry d = .ok () h ∧ Rebuilt registry d h := by
  obtain ⟨bs, hbs⟩ := exists_created ha.created
  have hlength : bs.length = d.blocks.length := by
    have hlen := congrArg List.length hbs
    simpa using hlen.symm
  have hunwired := unwired_joinAll d.edges (filled d bs)
  have hedges := (ready_filled hbs ha).wired.edges_joinAll
    fun edge hm => checkEdge_of_mem_edges hbs ha hm
  obtain ⟨horder, hempty, hsettings, hobservers⟩ := filled_keeps d bs
  rw [hempty, List.nil_append] at hedges
  rw [hlength] at horder
  let built : Graph β :=
    { joinAll d.edges (filled d bs) with metadata := d.metadata, vars := d.vars }
  refine ⟨built.record (.logged (.loaded built.size built.arena.size)), ?_, ?_⟩
  · simp only [ofDocument, createBlocks_accepted hbs ha, fillBlocks_accepted hbs ha,
      wireBlocks_accepted hbs ha, built]
  · refine ⟨(congrArg Graph.order hunwired).trans horder, fun i r hr => ?_, hedges, rfl, rfl,
      (congrArg Graph.settings hunwired).trans hsettings,
      (congrArg Graph.observers hunwired).trans hobservers⟩
    obtain ⟨b, hb, hslot⟩ := slot?_filled hbs hr
    obtain ⟨e, he, hbe, hn⟩ := exists_slot?_of_unwired hunwired.symm hslot
    exact ⟨b, e, hb, he, hbe, hn⟩

end Graph

end Patchbay
