import Patchbay.Proofs.Acceptance
import Patchbay.Proofs.Accounts
import Patchbay.Proofs.Rebuilding
import Mathlib.Data.List.Induction

/-! The canonical form of a document. Saving a graph that was just rebuilt gives it: records are
numbered by position, parameters that were left out have their initial values, and of the
subscribers of an output each stands once, at its first place. A canonical document stays as it
is. -/

namespace Patchbay

/-! Lists without repetitions -/

section

variable {α β : Type} [BEq α] [LawfulBEq α]

theorem filter_eraseDups (p : α → Bool) (l : List α) :
    l.eraseDups.filter p = (l.filter p).eraseDups := by
  induction l using List.reverseRecOn with
  | nil => rfl
  | append_singleton l a ih =>
    rw [eraseDups_concat, List.filter_append, List.filter_singleton]
    by_cases ha : a ∈ l <;> by_cases hp : p a <;>
      simp [ha, hp, ih, eraseDups_concat, List.mem_filter]

theorem eraseDups_map [BEq β] [LawfulBEq β] {f : α → β} (hf : Function.Injective f)
    (l : List α) : (l.map f).eraseDups = l.eraseDups.map f := by
  induction l using List.reverseRecOn with
  | nil => rfl
  | append_singleton l a ih =>
    have hmem : f a ∈ l.map f ↔ a ∈ l := List.mem_map_of_injective hf
    rw [List.map_append, List.map_singleton, eraseDups_concat, eraseDups_concat, ih]
    by_cases ha : a ∈ l <;> simp [hmem, ha]

theorem eraseDups_eraseDups (l : List α) : l.eraseDups.eraseDups = l.eraseDups := by
  induction l using List.reverseRecOn with
  | nil => rfl
  | append_singleton l a ih =>
    rw [eraseDups_concat]
    by_cases ha : a ∈ l
    · rw [if_pos ha, ih]
    · have hnot : a ∉ l.eraseDups := fun hm => ha (List.mem_eraseDups.mp hm)
      rw [if_neg ha, eraseDups_concat, if_neg hnot, ih]

end

namespace Dict

variable {α : Type}

/-- Leaves out the keys of empty lists. -/
def occupied (d : Dict (List α)) : Dict (List α) :=
  ⟨d.entries.filter fun x => !x.2.isEmpty, d.sorted.filter _⟩

theorem mem_of_find? {d : Dict α} {key : String} {a : α} (h : d.find? key = some a) :
    (key, a) ∈ d.entries := mem_entries_iff.mpr h

theorem find?_occupied (d : Dict (List α)) (key : String) :
    d.occupied.find? key = if d.list key = [] then none else some (d.list key) := by
  cases hf : d.find? key with
  | none =>
    have hlist : d.list key = [] := by simp [list, hf]
    rw [if_pos hlist]
    refine Option.eq_none_iff_forall_not_mem.mpr fun l hl => ?_
    have hm : (key, l) ∈ d.entries := List.mem_of_mem_filter (mem_of_find? hl)
    simp [mem_entries_iff.mp hm] at hf
  | some l =>
    have hlist : d.list key = l := by simp [list, hf]
    rw [hlist]
    split
    · next hl =>
      refine Option.eq_none_iff_forall_not_mem.mpr fun l' hl' => ?_
      have hm := List.mem_filter.mp (mem_of_find? hl')
      have heq : l' = l := Option.some.inj ((mem_entries_iff.mp hm.1).symm.trans hf)
      simp [heq, hl] at hm
    · next hl =>
      exact mem_entries_iff.mp (List.mem_filter.mpr ⟨mem_of_find? hf, by simp [hl]⟩)

theorem list_occupied (d : Dict (List α)) (key : String) : d.occupied.list key = d.list key := by
  rw [list, find?_occupied]
  by_cases hl : d.list key = [] <;> simp [hl]

theorem list_map {γ : Type} (f : List α → List γ) (hf : f [] = []) (d : Dict (List α))
    (key : String) : (d.map f).list key = f (d.list key) := by
  rw [list, list, find?_map]
  cases d.find? key <;> simp [hf]

/-- Changing nothing but what a dictionary does not bind changes nothing. -/
theorem occupied_map_occupied {f : List α → List α} (hempty : f [] = []) {d : Dict (List α)}
    (hf : ∀ key, f (d.list key) = d.list key) : (d.occupied.map f).occupied = d.occupied := by
  refine ext_find? fun key => ?_
  rw [find?_occupied, find?_occupied, list_map f hempty, list_occupied, hf]

theorem find?_setList (d : Dict (List α)) (key k : String) (l : List α) :
    (d.setList key l).find? k =
      if k = key then (if l = [] then none else some l) else d.find? k := by
  by_cases hl : l = []
  · simp [setList, hl, find?_erase]
  · have hempty : l.isEmpty = false := by simp [hl]
    simp [setList, hempty, hl, find?_insert]

end Dict

namespace Document

/-- The place of the first record with a number. -/
def position (d : Document) (id : Nat) : Nat := d.blocks.findIdx (·.id = id)

def renumber (d : Document) (s : SubscriberRecord) : SubscriberRecord :=
  ⟨d.position s.block, s.input⟩

/-- Whether `e` lists the blocks of `d` by position, with the initial values of the parameters that
were left out, each subscriber of an output once, and no output without subscribers. -/
structure Canonical {β : Type} [Behaviour β] (registry : Registry β) (d e : Document) : Prop where
  version : e.version = "1.0.0"
  length : e.blocks.length = d.blocks.length
  block : ∀ (i : Nat) (r : BlockRecord), d.blocks[i]? = some r → ∃ (b : β) (s : BlockRecord),
    registry.create r.typeName = .ok b ∧ e.blocks[i]? = some s ∧ s.id = i ∧
    s.typeName = (Behaviour.definition b).name ∧
    (∀ name, s.values.find? name = (r.values.find? name).or
      (((Behaviour.definition b).parameters.find? name).map Parameter.initial)) ∧
    s.subscribers = (r.subscribers.map fun l => (l.map d.renumber).eraseDups).occupied ∧
    s.metadata = r.metadata
  metadata : e.metadata = d.metadata
  vars : e.vars = d.vars
  settings : e.settings = d.settings

variable {d e : Document}

theorem find?_index_eq (hn : (d.blocks.map BlockRecord.id).Nodup) {t : BlockRecord}
    (ht : t ∈ d.blocks) : Graph.RecordIndex.find? d.index t.id = some ⟨d.position t.id⟩ := by
  have hlt : d.position t.id < d.blocks.length := List.findIdx_lt_length_of_exists ⟨t, ht, by simp⟩
  have hget : d.blocks[d.position t.id]? = some _ := List.getElem?_eq_getElem hlt
  have hid := of_decide_eq_true (List.findIdx_getElem (w := hlt))
  rw [← hid]
  exact find?_index hn (hid.symm ▸ hget)

theorem position_eq (hn : (d.blocks.map BlockRecord.id).Nodup) {i : Nat} {t : BlockRecord}
    (ht : d.blocks[i]? = some t) : d.position t.id = i := by
  have hplace := find?_index_eq hn (List.mem_of_getElem? ht)
  rw [find?_index hn ht] at hplace
  exact (congrArg BlockId.index (Option.some.inj hplace)).symm

variable {β : Type} [Behaviour β] {registry : Registry β}

/-- Whether the name of each created block's definition leads to a block with the same name, ports
and parameter names. -/
def Steady (registry : Registry β) (d : Document) : Prop := ∀ r ∈ d.blocks, ∀ b,
  registry.create r.typeName = .ok b →
    ∃ c, registry.create (Behaviour.definition b).name = .ok c ∧
      (Behaviour.definition c).name = (Behaviour.definition b).name ∧
      (Behaviour.definition c).ports = (Behaviour.definition b).ports ∧
      ∀ name, (Behaviour.definition c).parameters.contains name =
        (Behaviour.definition b).parameters.contains name

theorem Canonical.position_eq (hc : Canonical registry d e) {t : BlockRecord} (ht : t ∈ e.blocks)
    (hn : (e.blocks.map BlockRecord.id).Nodup) : e.position t.id = t.id := by
  obtain ⟨i, hi⟩ := List.mem_iff_getElem?.mp ht
  have hlt : i < d.blocks.length := hc.length ▸ (List.getElem?_eq_some_iff.mp hi).1
  obtain ⟨b, s, -, hs, hid, -⟩ := hc.block i _ (List.getElem?_eq_getElem hlt)
  obtain rfl : s = t := Option.some.inj (hs.symm.trans hi)
  rw [Document.position_eq hn hi, hid]

/-- The subscribers of a canonical document are recorded by positions. -/
theorem Canonical.renumber_eq (hc : Canonical registry d e) (ha : e.Accepted registry)
    {r : BlockRecord} (hr : r ∈ e.blocks) {b : β} (hb : registry.create r.typeName = .ok b)
    (output : String) : ∀ x ∈ r.subscribers.list output, e.renumber x = x := by
  intro x hx
  obtain ⟨-, t, -, ht, hid, -⟩ := ha.wired r hr b hb output x hx
  have hpos := hc.position_eq ht ha.distinct
  rw [hid] at hpos
  simp [renumber, hpos]

theorem Canonical.blocks_eq_of_steady {f : Document} (hc : Canonical registry d e)
    (hs : d.Steady registry) (ha : e.Accepted registry) (he : Canonical registry e f) :
    f.blocks = e.blocks := by
  apply List.ext_getElem?
  intro i
  cases hi : d.blocks[i]? with
  | none =>
    have hle : d.blocks.length ≤ i := List.getElem?_eq_none_iff.mp hi
    have hle' : e.blocks.length ≤ i := hc.length ▸ hle
    rw [List.getElem?_eq_none hle', List.getElem?_eq_none (he.length ▸ hle')]
  | some r =>
    have hr : r ∈ d.blocks := List.mem_of_getElem? hi
    obtain ⟨b, s, hb, hsi, hid, hname, hvalues, hsubs, -⟩ := hc.block i r hi
    obtain ⟨c, s', hcreate, hsi', hid', hname', hvalues', hsubs', hmeta'⟩ := he.block i s hsi
    obtain ⟨c', hcreate', hsame, -, hparams⟩ := hs r hr b hb
    have hmem := hc.renumber_eq ha (List.mem_of_getElem? hsi) hcreate
    rw [hname] at hcreate
    obtain rfl : c' = c := Except.ok.inj (hcreate'.symm.trans hcreate)
    have hkeep : s'.values = s.values := by
      refine Dict.ext_find? fun name => ?_
      rw [hvalues']
      cases hf : s.values.find? name with
      | some v => rfl
      | none =>
        -- A parameter that the document does not set now is none of the definition's.
        rw [hvalues, Option.or_eq_none_iff, Option.map_eq_none_iff] at hf
        have hnone : (Behaviour.definition c').parameters.find? name = none := by
          simpa [Dict.contains, hf.2] using hparams name
        rw [hnone]
        rfl
    have hlists : s'.subscribers = s.subscribers := by
      rw [hsubs', hsubs]
      refine Dict.occupied_map_occupied rfl fun output => ?_
      have hlist := hmem output
      rw [hsubs, Dict.list_occupied] at hlist
      rw [List.map_congr_left hlist, List.map_id', Dict.list_map _ rfl, eraseDups_eraseDups]
    have htype : s'.typeName = s.typeName := by rw [hname', hsame, hname]
    rw [hsi, hsi']
    cases s
    cases s'
    simp_all

/-- What is canonical already stays as it is. -/
theorem Canonical.eq_of_steady {f : Document} (hc : Canonical registry d e)
    (hs : d.Steady registry) (ha : e.Accepted registry) (he : Canonical registry e f) : f = e := by
  have hblocks := hc.blocks_eq_of_steady hs ha he
  have hversion := he.version.trans hc.version.symm
  have hmetadata := he.metadata
  have hvars := he.vars
  have hsettings := he.settings
  cases e
  cases f
  simp_all

end Document

namespace Graph

variable {β : Type} [Behaviour β] {g h : Graph β} {registry : Registry β} {d : Document}

omit [Behaviour β] in
/-- The record of a block binds an output exactly if something is subscribed to it. -/
theorem find?_subscribers_blockRecord (g : Graph β) (n : Node) (i : Nat) (output : String) :
    (g.blockRecord n i).subscribers.find? output =
      if output ∈ n.outputs ∧ g.subscriberRecords n output ≠ [] then
        some (g.subscriberRecords n output)
      else none := by
  have hfold : ∀ (l : List String) (d : Dict (List SubscriberRecord)),
      (l.foldl (fun d o => d.setList o (g.subscriberRecords n o)) d).find? output =
        if output ∈ l then
          (if g.subscriberRecords n output = [] then none
          else some (g.subscriberRecords n output))
        else d.find? output := by
    intro l
    induction l with
    | nil => intro d; rfl
    | cons o rest ih =>
      intro d
      rw [List.foldl_cons, ih, Dict.find?_setList]
      by_cases hr : output ∈ rest
      · simp [hr]
      · by_cases ho : output = o <;> simp [hr, ho]
  refine (hfold n.outputs .empty).trans ?_
  by_cases ho : output ∈ n.outputs <;> by_cases hs : g.subscriberRecords n output = [] <;>
    simp [ho, hs, Dict.find?, Dict.empty, Dict.lookupIn]

section

variable (hr : Rebuilt registry d h) (hw : h.Wired)

include hr hw

theorem Rebuilt.place_eq {i : Nat} (hi : i < d.blocks.length) : h.place ⟨i⟩ = ⟨i⟩ := by
  refine hw.place_eq ?_
  simp [hr.order, List.getElem?_range hi]

theorem Rebuilt.subscriberRecords_eq (ha : d.Accepted registry) {i : Nat} {r : BlockRecord}
    (hri : d.blocks[i]? = some r) {e : Entry β} (he : h.slot? ⟨i⟩ = some e) (output : String) :
    h.subscriberRecords e.node output =
      ((r.subscribers.list output).map d.renumber).eraseDups := by
  let edge : SubscriberRecord → Edge := fun s => ⟨⟨i⟩, output, ⟨s.block⟩, s.input⟩
  have hinj : Function.Injective edge := by
    rintro ⟨block, input⟩ ⟨block', input'⟩ heq
    simpa [edge] using heq
  obtain ⟨b, hb⟩ := ha.created r (List.mem_of_getElem? hri)
  have hedge : ∀ s ∈ r.subscribers.list output,
      d.index.edge? ⟨i⟩ (output, s) = some (edge (d.renumber s)) ∧
        d.position s.block < d.blocks.length := by
    intro s hs
    obtain ⟨-, t, c, ht, hid, -, -⟩ := ha.wired r (List.mem_of_getElem? hri) b hb output s hs
    have hfind := Document.find?_index_eq ha.distinct ht
    rw [hid] at hfind
    refine ⟨by simp [RecordIndex.edge?, hfind, edge, Document.renumber], ?_⟩
    exact List.findIdx_lt_length_of_exists ⟨t, ht, by simp [hid]⟩
  have hfrom : h.arena.edgesFrom ⟨i⟩ output =
      (((r.subscribers.list output).map d.renumber).eraseDups).map edge := by
    have hlist : ((r.subscribers.list output).filterMap fun s => d.index.edge? ⟨i⟩ (output, s)) =
        ((r.subscribers.list output).map d.renumber).map edge := by
      rw [List.map_map, ← List.filterMap_eq_map]
      exact List.filterMap_congr fun s hs => (hedge s hs).1
    rw [Arena.edgesFrom_eq, hr.edges, filter_eraseDups, filter_edges_document hri, hlist,
      eraseDups_map hinj]
  rw [hw.subscriberRecords_eq he, hfrom, List.map_map]
  refine (List.map_congr_left fun s hs => ?_).trans (List.map_id _)
  obtain ⟨s', hs', rfl⟩ := List.mem_map.mp (List.mem_eraseDups.mp hs)
  have hplace := hr.place_eq hw (hedge s' hs').2
  simp [edge, Document.renumber, hplace]

theorem Rebuilt.canonical (ha : d.Accepted registry) :
    Document.Canonical registry d h.toDocument where
  version := rfl
  length := by
    rw [hw.length_blocks, size, hr.order]
    simp
  block i r hri := by
    obtain ⟨b, e, hb, he, -, hn⟩ := hr.block i r hri
    have hlt : i < d.blocks.length := (List.getElem?_eq_some_iff.mp hri).1
    have hblock := hw.block_place he
    rw [hr.place_eq hw hlt] at hblock
    have hname : e.node.typeName = (Behaviour.definition b).name := congrArg Node.typeName hn
    have houtputs : e.node.outputs = Node.distinct (Behaviour.definition b).ports.outputNames :=
      congrArg Node.outputs hn
    have hparameters : e.node.parameters =
        ((Behaviour.definition b).parameters.map Parameter.initial).overlay r.values :=
      congrArg Node.parameters hn
    have hvalues : ∀ name, e.node.parameters.find? name = (r.values.find? name).or
        (((Behaviour.definition b).parameters.find? name).map Parameter.initial) := fun name => by
      rw [hparameters, Dict.find?_overlay, Dict.find?_map]
    refine ⟨b, _, hb, hblock, rfl, hname, hvalues, ?_, congrArg Node.metadata hn⟩
    refine Dict.ext_find? fun output => ?_
    have hsubs := hr.subscriberRecords_eq hw ha hri he output
    rw [find?_subscribers_blockRecord, Dict.find?_occupied, Dict.list_map _ rfl, ← hsubs]
    by_cases hs : h.subscriberRecords e.node output = []
    · simp [hs]
    · -- An output with subscribers is one that the definition declares.
      have hne : r.subscribers.list output ≠ [] := by
        intro hnil
        rw [hsubs, hnil] at hs
        exact hs rfl
      obtain ⟨s, hsm⟩ := List.exists_mem_of_ne_nil _ hne
      have hdeclared := (ha.wired r (List.mem_of_getElem? hri) b hb output s hsm).1
      have hout : output ∈ e.node.outputs := houtputs ▸ Node.mem_distinct.mpr hdeclared
      simp [hs, hout]
  metadata := hr.metadata
  vars := hr.vars
  settings := hr.settings

end

omit [Behaviour β] in
theorem fits_fill {n : Node} {b : BlockDefinition} {r : BlockRecord} (hn : n.Fits b)
    (hv : ∀ name, r.values.contains name → b.parameters.contains name) : (fill r n).Fits b := by
  refine ⟨hn.typeName, hn.inputs, hn.outputs, fun name => ?_⟩
  have hown := hn.parameters name
  simp only [fill, Dict.contains_overlay, hown]
  cases hr : r.values.contains name with
  | false => rfl
  | true => exact (hv name hr).symm

theorem Rebuilt.provides (hr : Rebuilt registry d h) (hw : h.Wired) (ha : d.Accepted registry)
    (hs : d.Steady registry) : Provides registry h := by
  intro id n hn
  obtain ⟨e, he, rfl⟩ := node_eq_ok_iff.mp hn
  have hm : id ∈ h.order := (hw.mem_order_iff id).mpr (by simp [he])
  rw [hr.order] at hm
  obtain ⟨i, hi, rfl⟩ := List.mem_map.mp hm
  have hri := List.getElem?_eq_getElem (List.mem_range.mp hi)
  obtain ⟨b, e', hb, he', -, hnode⟩ := hr.block i _ hri
  obtain rfl : e' = e := Option.some.inj (he'.symm.trans he)
  have hmem := List.mem_of_getElem? hri
  have hfits : e'.node.Fits (Behaviour.definition b) := by
    rw [← Node.fits_unwired_iff, hnode]
    exact fits_fill (Node.fits_ofDefinition _ _) (ha.declared _ hmem b hb)
  obtain ⟨c, hc, hname, hports, hparams⟩ := hs _ hmem b hb
  refine ⟨c, hfits.typeName ▸ hc, hfits.typeName.trans hname.symm, hports ▸ hfits.inputs,
    hports ▸ hfits.outputs, fun name => ?_⟩
  rw [hfits.parameters, hparams]

/-- A graph that was rebuilt is saved in the canonical form of its document, and that form is
rebuilt and saved as it is. -/
theorem saved_canonical (ho : ofDocument registry d = .ok () g) :
    Document.Canonical registry d g.toDocument ∧ (d.Steady registry →
      ∃ h, ofDocument registry g.toDocument = .ok () h ∧ h.toDocument = g.toDocument) := by
  have ha := accepted_of_ofDocument ho
  have hr := rebuilt_of_ofDocument ho
  have hw : g.Wired := (Reachable.loaded ho).ready.wired
  have hcanonical := hr.canonical hw ha
  refine ⟨hcanonical, fun hs => ?_⟩
  have ha' := hw.accepted (hr.provides hw ha hs)
  obtain ⟨h, hload, hr'⟩ := ofDocument_eq_ok ha'
  have hw' : h.Wired := (Reachable.loaded hload).ready.wired
  exact ⟨h, hload, hcanonical.eq_of_steady hs ha' (hr'.canonical hw' ha')⟩

/-- Numbers are sparse and name records that come later, a subscriber is recorded twice, two types
go by other names, one parameter with an initial value and one without are left out, and one output
is recorded without subscribers. -/
def sparseRecords : Document :=
  { Document.empty with
    blocks := [
      ((BlockRecord.new 40 "Data").setValue "Data" (.bool true)).addSubscriber "Data" ⟨7, "Values"⟩
        |>.addSubscriber "Data" ⟨9, "Message"⟩ |>.addSubscriber "Data" ⟨7, "Values"⟩,
      BlockRecord.new 9 "Alert", { BlockRecord.new 7 "Sum" with
        subscribers := Dict.empty.insert "Result" [] },
      BlockRecord.new 3 "Data", BlockRecord.new 5 "Constant"] }

/-- The built-in types, a sum by another name, and a source that has a value from the start. -/
def sparseRegistry : Registry Builtin :=
  ((Registry.builtins id .log).register "Sum" .sum).register "Constant" (.source (.string "on"))

theorem steady_sparseRecords : sparseRecords.Steady sparseRegistry := by
  have hsame : ∀ r ∈ sparseRecords.blocks, (sparseRegistry.create r.typeName).toOption.all (fun b =>
      (sparseRegistry.create (Behaviour.definition b).name).toOption.any fun c =>
        (Behaviour.definition c).name = (Behaviour.definition b).name ∧
        (Behaviour.definition c).ports = (Behaviour.definition b).ports ∧
        (Behaviour.definition c).parameters.map (fun _ => ()) =
          (Behaviour.definition b).parameters.map fun _ => ()) = true := by
    decide +kernel
  intro r hr b hb
  have hagain := hsame r hr
  rw [hb] at hagain
  cases hc : sparseRegistry.create (Behaviour.definition b).name with
  | error => simp [hc, Except.toOption] at hagain
  | ok c =>
    obtain ⟨hname, hports, hparameters⟩ := by simpa [hc, Except.toOption] using hagain
    refine ⟨c, rfl, hname, hports, fun name => ?_⟩
    have hcontains := congrArg (Dict.contains · name) hparameters
    simpa only [Dict.contains_map] using hcontains

theorem saved_canonical_of_sparseRecords : ∃ g h : Graph Builtin,
    ofDocument sparseRegistry sparseRecords = .ok () g ∧
    sparseRecords.Steady sparseRegistry ∧
    Document.Canonical sparseRegistry sparseRecords g.toDocument ∧
    (g.toDocument.blocks[4]?.bind fun r => r.values.find? "Data") = some (.string "on") ∧
    ofDocument sparseRegistry g.toDocument = .ok () h ∧ h.toDocument = g.toDocument := by
  have hresult : (ofDocument sparseRegistry sparseRecords).result.toOption = some () := by
    decide +kernel
  have hload := Reply.eq_ok_of_toOption hresult
  obtain ⟨hcanonical, hagain⟩ := saved_canonical hload
  obtain ⟨h, hload', hsaved⟩ := hagain steady_sparseRecords
  have hinitial : ((ofDocument sparseRegistry sparseRecords).graph.toDocument.blocks[4]?.bind
      fun r => r.values.find? "Data") = some (.string "on") := by decide +kernel
  exact ⟨_, h, hload, steady_sparseRecords, hcanonical, hinitial, hload', hsaved⟩

end Graph

end Patchbay
