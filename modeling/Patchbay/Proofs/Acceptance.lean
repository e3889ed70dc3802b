import Patchbay.Proofs.Loading

/-! What a document is whose rebuilding succeeds. Each pass stops at the first fault of its own
kind, so success of all three leaves none, and the rebuilt graph is the one that the document
describes. -/

namespace Patchbay.Graph

variable {β : Type} {g h : Graph β}

/-! First pass -/

theorem RecordIndex.not_mem_of_find? {index : RecordIndex} {id : Nat}
    (hf : RecordIndex.find? index id = none) : id ∉ index.map Prod.fst := by
  intro hm
  obtain ⟨x, hx, heq⟩ := List.mem_map.mp hm
  have hnone : List.find? (fun y => decide (y.1 = id)) index = none := Option.map_eq_none_iff.mp hf
  have hne := List.find?_eq_none.mp hnone x hx
  simp [heq] at hne

theorem created_of_createBlocks [Behaviour β] {registry : Registry β}
    {records : List BlockRecord} {index made : RecordIndex}
    (hi : (index.map Prod.fst).Nodup) (hc : createBlocks registry records index g = .ok made h) :
    (index.map Prod.fst ++ records.map BlockRecord.id).Nodup ∧
      ∀ r ∈ records, ∃ b, registry.create r.typeName = .ok b := by
  induction records generalizing index g with
  | nil => simpa using hi
  | cons r rest ih =>
    unfold createBlocks at hc
    split at hc
    · cases hc
    · next hfresh =>
      split at hc
      · cases hc
      · next b hb =>
        have hnot : r.id ∉ index.map Prod.fst := RecordIndex.not_mem_of_find? hfresh
        have hi' : ((index ++ [(r.id, (g.add b).1)]).map Prod.fst).Nodup := by
          rw [List.map_append]
          exact List.nodup_append.mpr ⟨hi, List.nodup_singleton _, by
            intro x hx y hy heq
            have hy' : y = r.id := by simpa using hy
            exact hnot (hy' ▸ heq ▸ hx)⟩
        obtain ⟨hn, hall⟩ := ih hi' hc
        refine ⟨by simpa using hn, fun x hx => ?_⟩
        rcases List.mem_cons.mp hx with rfl | hx
        · exact ⟨b, hb⟩
        · exact hall x hx

/-! Second pass -/

theorem contains_of_setParameter {id : BlockId} {name : String} {v : Value} {e : Entry β}
    (he : g.slot? id = some e) (hs : g.setParameter id name v = .ok () h) :
    e.node.parameters.contains name := by
  by_contra hno
  have hn : g.node id = .ok e.node := node_eq_ok_iff.mpr ⟨e, he, rfl⟩
  simp [setParameter, editNode, hn, bind, Except.bind, Node.setParameter, hno, Except.map] at hs

theorem contains_of_assignValues {id : BlockId} {values : List (String × Value)} {e : Entry β}
    (he : g.slot? id = some e) (ha : assignValues id values g = .ok () h) :
    ∀ x ∈ values, e.node.parameters.contains x.1 := by
  induction values generalizing g e with
  | nil => exact fun x hx => absurd hx List.not_mem_nil
  | cons x rest ih =>
    obtain ⟨name, v⟩ := x
    unfold assignValues at ha
    split at ha
    · cases ha
    · next g' hset =>
      have hname := contains_of_setParameter he hset
      -- The value set under a declared name leaves the names as they are.
      have hone : assignValues id [(name, v)] g = .ok () g' := by simp [assignValues, hset]
      rw [assignValues_eq he (by simpa using hname)] at hone
      obtain rfl : _ = g' := (Reply.ok.inj hone).2
      have he' := slot?_updateNode g id id fun n =>
        { n with parameters := [(name, v)].foldl (fun d x => d.insert x.1 x.2) n.parameters }
      rw [if_pos rfl, he] at he'
      have hrest := ih he' ha
      intro y hy
      rcases List.mem_cons.mp hy with rfl | hy
      · exact hname
      · have hy' := hrest y hy
        simp only [List.foldl_cons, List.foldl_nil, Dict.contains_insert, Bool.or_eq_true,
          decide_eq_true_eq] at hy'
        rcases hy' with heq | hy'
        · exact heq ▸ hname
        · exact hy'

theorem declared_of_fillBlocks {index : RecordIndex} {l : List (BlockRecord × Nat)}
    (hi : ∀ x ∈ l, RecordIndex.find? index x.1.id = some ⟨x.2⟩)
    (hs : ∀ x ∈ l, (g.slot? ⟨x.2⟩).isSome)
    (hf : fillBlocks index (l.map Prod.fst) g = .ok () h) :
    ∀ x ∈ l, ∀ e, g.slot? ⟨x.2⟩ = some e →
      ∀ name, x.1.values.contains name → e.node.parameters.contains name := by
  induction l generalizing g with
  | nil => exact fun x hx => absurd hx List.not_mem_nil
  | cons x rest ih =>
    obtain ⟨e, he⟩ := Option.isSome_iff_exists.mp (hs x List.mem_cons_self)
    simp only [List.map_cons, fillBlocks, hi x List.mem_cons_self] at hf
    split at hf
    · cases hf
    · next g' hassign =>
      have hvalues := contains_of_assignValues he hassign
      have hx : ∀ name, x.1.values.contains name → e.node.parameters.contains name := by
        intro name hname
        obtain ⟨v, hv⟩ := Option.isSome_iff_exists.mp hname
        exact hvalues (name, v) (Dict.mem_entries_iff.mpr hv)
      rw [assignValues_eq he hvalues] at hassign
      obtain rfl : _ = g' := (Reply.ok.inj hassign).2
      rw [updateNode_updateNode] at hf
      have hstep : ∀ id, (g.updateNode ⟨x.2⟩ (fill x.1)).slot? id =
          if id = ⟨x.2⟩ then (g.slot? id).map fun e => { e with node := fill x.1 e.node }
          else g.slot? id := fun id => slot?_updateNode g ⟨x.2⟩ id _
      have hrest := ih (g := g.updateNode ⟨x.2⟩ (fill x.1))
        (fun y hy => hi y (List.mem_cons_of_mem _ hy))
        (fun y hy => by
          have hlive := hs y (List.mem_cons_of_mem _ hy)
          rw [hstep]
          split
          · rwa [Option.isSome_map]
          · exact hlive) hf
      intro y hy e' he' name hname
      rcases List.mem_cons.mp hy with rfl | hy
      · obtain rfl : e = e' := Option.some.inj (he.symm.trans he')
        exact hx name hname
      · by_cases hsame : (⟨y.2⟩ : BlockId) = ⟨x.2⟩
        · have hfilled := hrest y hy _ (by rw [hstep, if_pos hsame, he']; rfl) name hname
          simp only [fill, Dict.contains_overlay, Bool.or_eq_true] at hfilled
          rcases hfilled with hset | hkept
          · have heq : e = e' := Option.some.inj (he.symm.trans (hsame ▸ he'))
            exact heq ▸ hx name hset
          · exact hkept
        · exact hrest y hy e' (by rw [hstep, if_neg hsame, he']) name hname

/-! Third pass -/

theorem checkEdge_of_publish (edge : Edge) {s : SubscriptionId}
    (hp : g.publish edge.publisher edge.output edge.subscriber edge.input = .ok s h) :
    g.checkEdge edge = .ok () ∧ h = g.join edge := by
  cases hc : g.checkEdge edge with
  | error err =>
    rw [publish, subscribe_eq_error hc] at hp
    cases hp
  | ok =>
    obtain ⟨s', hs'⟩ := publish_eq_ok hc
    rw [hs'] at hp
    exact ⟨rfl, (Reply.ok.inj hp).2.symm⟩

theorem checked_of_publishAll {index : RecordIndex} {publisher : BlockId}
    {wires : List (String × SubscriberRecord)}
    (hp : publishAll index publisher wires g = .ok () h) :
    ∀ x ∈ wires, ∃ edge, index.edge? publisher x = some edge ∧ g.checkEdge edge = .ok () := by
  induction wires generalizing g with
  | nil => exact fun x hx => absurd hx List.not_mem_nil
  | cons x rest ih =>
    obtain ⟨output, s⟩ := x
    unfold publishAll at hp
    split at hp
    · cases hp
    · next subscriber hfind =>
      split at hp
      · cases hp
      · next hpub =>
        let edge : Edge := ⟨publisher, output, subscriber, s.input⟩
        obtain ⟨hcheck, rfl⟩ := checkEdge_of_publish edge hpub
        intro y hy
        rcases List.mem_cons.mp hy with rfl | hy
        · exact ⟨edge, by simp [RecordIndex.edge?, hfind, edge], hcheck⟩
        · obtain ⟨edge', hedge', hcheck'⟩ := ih hp y hy
          exact ⟨edge', hedge', checkEdge_of_unwired (unwired_subscribe _ _ _ _ _).symm hcheck'⟩

theorem checked_of_wireBlocks {index : RecordIndex} {l : List (BlockRecord × Nat)}
    (hi : ∀ x ∈ l, RecordIndex.find? index x.1.id = some ⟨x.2⟩)
    (hw : wireBlocks index (l.map Prod.fst) g = .ok () h) :
    ∀ x ∈ l, ∀ w ∈ x.1.subscribers.spread, ∃ edge, index.edge? ⟨x.2⟩ w = some edge ∧
      g.checkEdge edge = .ok () := by
  induction l generalizing g with
  | nil => exact fun x hx => absurd hx List.not_mem_nil
  | cons x rest ih =>
    simp only [List.map_cons, wireBlocks, hi x List.mem_cons_self] at hw
    split at hw
    · cases hw
    · next g' hpub =>
      have hx := checked_of_publishAll hpub
      rw [publishAll_eq hx] at hpub
      obtain rfl : _ = g' := (Reply.ok.inj hpub).2
      have hrest := ih (fun y hy => hi y (List.mem_cons_of_mem _ hy)) hw
      intro y hy w hwm
      rcases List.mem_cons.mp hy with rfl | hy
      · exact hx w hwm
      · obtain ⟨edge, hedge, hcheck⟩ := hrest y hy w hwm
        exact ⟨edge, hedge, checkEdge_of_unwired (unwired_joinAll _ g).symm hcheck⟩

/-! All three passes -/

variable [Behaviour β] {registry : Registry β} {d : Document}

theorem passes_of_ofDocument (ho : ofDocument registry d = .ok () h) : ∃ index g₁ g₂ g₃,
    createBlocks registry d.blocks [] (.new d.settings) = .ok index g₁ ∧
    fillBlocks index d.blocks g₁ = .ok () g₂ ∧ wireBlocks index d.blocks g₂ = .ok () g₃ := by
  unfold ofDocument at ho
  split at ho
  · cases ho
  · next index g₁ hcreate =>
    split at ho
    · cases ho
    · next g₂ hfill =>
      split at ho
      · cases ho
      · next g₃ hwire => exact ⟨index, g₁, g₂, g₃, hcreate, hfill, hwire⟩

section

variable {bs : List β} (hbs : d.blocks.map (fun r => registry.create r.typeName) = bs.map .ok)
  (hn : (d.blocks.map BlockRecord.id).Nodup)

include hbs hn

theorem declared_of_created
    (hf : fillBlocks d.index d.blocks (addAll bs (.new d.settings)) = .ok () g) :
    g = filled d bs ∧ ∀ r ∈ d.blocks, ∀ b, registry.create r.typeName = .ok b →
      ∀ name, r.values.contains name → (Behaviour.definition b).parameters.contains name := by
  have hi : ∀ x ∈ d.blocks.zipIdx, RecordIndex.find? d.index x.1.id = some ⟨x.2⟩ := fun x hx =>
    d.find?_index hn (List.mem_zipIdx_iff_getElem?.mp hx)
  have hslot : ∀ x ∈ d.blocks.zipIdx, ∃ b, registry.create x.1.typeName = .ok b ∧
      (addAll bs (.new d.settings)).slot? ⟨x.2⟩ =
        some ⟨some b, .ofDefinition ⟨x.2⟩ (Behaviour.definition b)⟩ := fun x hx =>
    slot?_created hbs (List.mem_zipIdx_iff_getElem?.mp hx)
  rw [← List.zipIdx_map_fst 0 d.blocks] at hf
  have hdeclared := declared_of_fillBlocks hi (fun x hx => by
    obtain ⟨b, -, hb⟩ := hslot x hx
    simp [hb]) hf
  have hfilled := fillBlocks_eq hi fun x hx => by
    obtain ⟨b, -, hb⟩ := hslot x hx
    exact ⟨_, hb, hdeclared x hx _ hb⟩
  refine ⟨(Reply.ok.inj (hf.symm.trans hfilled)).2, fun r hr b hb name hname => ?_⟩
  obtain ⟨i, hri⟩ := List.mem_iff_getElem?.mp hr
  have hmem : (r, i) ∈ d.blocks.zipIdx := List.mk_mem_zipIdx_iff_getElem?.mpr hri
  obtain ⟨b', hb', hslot'⟩ := hslot (r, i) hmem
  obtain rfl : b' = b := Except.ok.inj (hb'.symm.trans hb)
  have hfield := hdeclared (r, i) hmem _ hslot' name hname
  simpa [Node.ofDefinition, BlockDefinition.initialValues, Dict.contains_map] using hfield

theorem wired_of_filled (hw : wireBlocks d.index d.blocks (filled d bs) = .ok () g) :
    ∀ r ∈ d.blocks, ∀ b, registry.create r.typeName = .ok b →
      ∀ output s, s ∈ r.subscribers.list output →
        output ∈ (Behaviour.definition b).ports.outputNames ∧
        ∃ t c, t ∈ d.blocks ∧ t.id = s.block ∧ registry.create t.typeName = .ok c ∧
          s.input ∈ (Behaviour.definition c).ports.inputNames := by
  have hi : ∀ x ∈ d.blocks.zipIdx, RecordIndex.find? d.index x.1.id = some ⟨x.2⟩ := fun x hx =>
    d.find?_index hn (List.mem_zipIdx_iff_getElem?.mp hx)
  rw [← List.zipIdx_map_fst 0 d.blocks] at hw
  intro r hr b hb output s hs
  obtain ⟨i, hri⟩ := List.mem_iff_getElem?.mp hr
  obtain ⟨edge, hedge, hcheck⟩ := checked_of_wireBlocks hi hw (r, i)
    (List.mk_mem_zipIdx_iff_getElem?.mpr hri) (output, s) (Dict.mem_spread.mpr hs)
  obtain ⟨subscriber, hfind, rfl⟩ := Option.map_eq_some_iff.mp hedge
  obtain ⟨hin, hout⟩ := checkEdge_eq_ok_iff.mp hcheck
  obtain ⟨e, he, hin⟩ := checkInput_eq_ok_iff.mp hin
  obtain ⟨e', he', hout⟩ := checkOutput_eq_ok_iff.mp hout
  obtain ⟨b', hb', hslot⟩ := slot?_filled hbs hri
  obtain rfl : b' = b := Except.ok.inj (hb'.symm.trans hb)
  obtain rfl := Option.some.inj (hslot.symm.trans he')
  -- The subscriber's number stands in the index, so it is that of a record.
  obtain ⟨x, hx, rfl⟩ := Option.map_eq_some_iff.mp hfind
  have hid : x.1 = s.block := by simpa using List.find?_some hx
  obtain ⟨⟨t, j⟩, ht, rfl⟩ := List.mem_map.mp (List.mem_of_find?_eq_some hx)
  have htj : d.blocks[j]? = some t := List.mk_mem_zipIdx_iff_getElem?.mp ht
  obtain ⟨c, hc, hslot'⟩ := slot?_filled hbs htj
  obtain rfl := Option.some.inj (hslot'.symm.trans he)
  exact ⟨Node.mem_distinct.mp hout, t, c, List.mem_of_getElem? htj, hid, hc,
    Node.mem_distinct.mp hin⟩

end

/-- A document that can be rebuilt has no fault. -/
theorem accepted_of_ofDocument (ho : ofDocument registry d = .ok () h) : d.Accepted registry := by
  obtain ⟨index, g₁, g₂, g₃, hcreate, hfill, hwire⟩ := passes_of_ofDocument ho
  have hempty : (([] : RecordIndex).map Prod.fst).Nodup := List.nodup_nil
  obtain ⟨hn, hall⟩ := created_of_createBlocks hempty hcreate
  have hdistinct : (d.blocks.map BlockRecord.id).Nodup := hn
  obtain ⟨bs, hbs⟩ := exists_created hall
  have hcreated : createBlocks registry d.blocks [] (.new d.settings) =
      .ok d.index (addAll bs (.new d.settings)) := createBlocks_eq hn hbs
  obtain ⟨rfl, rfl⟩ := Reply.ok.inj (hcreated.symm.trans hcreate)
  obtain ⟨rfl, hdeclared⟩ := declared_of_created hbs hdistinct hfill
  exact ⟨hdistinct, hall, hdeclared, wired_of_filled hbs hdistinct hwire⟩

/-- The graph rebuilt from a document is the one that the document describes. -/
theorem rebuilt_of_ofDocument (ho : ofDocument registry d = .ok () h) : Rebuilt registry d h := by
  obtain ⟨h', hload, hrebuilt⟩ := ofDocument_eq_ok (accepted_of_ofDocument ho)
  obtain rfl : h' = h := (Reply.ok.inj (hload.symm.trans ho)).2
  exact hrebuilt

end Patchbay.Graph
