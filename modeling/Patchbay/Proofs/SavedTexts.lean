import Patchbay.Proofs.Interruption

/-! The texts of saved graphs and of block definitions. Each record is recovered field by field;
numbers of records must fit a machine word, and values must be storable. A text that was cut ends
too early for some field, and no field before it can be at fault. -/

namespace Patchbay

open Json (Recovers recovers_record recovers_string recovers_nat recovers_nat? recovers_bool
  recovers_value recovers_list recovers_dict recovers_variant decode_make within Spells Printed)

theorem spells_toList_pretty (v : Value) :
    Spells Printed (.value (Json.valueTree v)) v.pretty.toList := by
  rw [Value.pretty, String.toList_ofList]
  exact Json.spells_pretty v 0

theorem spells_toList_compact (v : Value) :
    Spells Printed (.value (Json.valueTree v)) v.compact.toList := by
  rw [Value.compact, String.toList_ofList]
  exact Json.spells_compact v

/-- What is written is read as it was written, where it does not nest too deeply. -/
theorem decodeText_eq {α : Type} {decode : Json.Decoder α} {v : Value} {a : α}
    (hv : Recovers decode v a) {text : String}
    (ht : Spells Printed (.value (Json.valueTree v)) text.toList) :
    Json.decodeText decode text = within (v.nesting ≤ 127) a :=
  (Json.decodeText_of_spells decode ht).trans (hv Json.nestingDepth)

def Dict.Storable (d : Dict Value) : Prop := ∀ e ∈ d.entries, e.2.Storable

theorem Dict.Storable.recovers {d : Dict Value} (h : d.Storable) :
    Recovers (Json.decodeDict Json.decodeValue) (.ofDict d) d := by
  have hdict := recovers_dict (w := id) fun e he => recovers_value (h e he)
  rwa [Dict.map_id] at hdict

/-! Saved graphs -/

namespace SubscriberRecord

theorem recovers {r : SubscriberRecord} (h : IsWord r.block) : Recovers schema.decode r.toValue r :=
  recovers_record (.cons rfl rfl (decode_make (recovers_nat h) _)
    (.cons rfl rfl (decode_make (recovers_string r.input) _) (.nil _))) rfl

end SubscriberRecord

namespace BlockRecord

structure Storable (r : BlockRecord) : Prop where
  id : IsWord r.id
  values : r.values.Storable
  subscribers : ∀ e ∈ r.subscribers.entries, ∀ s ∈ e.2, IsWord s.block
  metadata : r.metadata.Storable

theorem Storable.recovers {r : BlockRecord} (h : r.Storable) :
    Recovers schema.decode r.toValue r := by
  have hsubscribers :=
    recovers_dict (w := fun l => .array (l.map SubscriberRecord.toValue)) fun e he =>
      recovers_list fun s hs => SubscriberRecord.recovers (h.subscribers e he s hs)
  exact recovers_record (.cons rfl rfl (decode_make (recovers_nat h.id) _)
    (.cons rfl rfl (decode_make (recovers_string r.typeName) _)
    (.cons rfl rfl (decode_make h.values.recovers _)
    (.cons rfl rfl (decode_make hsubscribers _)
    (.cons rfl rfl (decode_make h.metadata.recovers _) (.nil _)))))) rfl

end BlockRecord

theorem RunSettings.recovers {s : RunSettings} (h : ∀ n ∈ s.maxRounds, IsWord n) :
    Recovers schema.decode s.toValue s :=
  recovers_record (.cons rfl rfl (decode_make (recovers_nat? h) _)
    (.cons rfl rfl (decode_make (recovers_bool s.traceValues) _) (.nil _))) rfl

namespace Document

structure Storable (d : Document) : Prop where
  blocks : ∀ r ∈ d.blocks, r.Storable
  metadata : d.metadata.Storable
  vars : d.vars.Storable
  maxRounds : ∀ n ∈ d.settings.maxRounds, IsWord n

theorem ofText_text (d : Document) :
    ofText d.text = schema.decode Json.nestingDepth (Json.valueTree d.toValue) :=
  Json.decodeText_of_spells schema.decode (spells_toList_pretty d.toValue)

theorem Storable.recovers {d : Document} (h : d.Storable) : Recovers schema.decode d.toValue d := by
  have hblocks := recovers_list fun r hr => (h.blocks r hr).recovers
  exact recovers_record (.cons rfl rfl (decode_make (recovers_string d.version) _)
    (.cons rfl rfl (decode_make hblocks _)
    (.cons rfl rfl (decode_make h.metadata.recovers _)
    (.cons rfl rfl (decode_make h.vars.recovers _)
    (.cons rfl rfl (decode_make (RunSettings.recovers h.maxRounds) _) (.nil _)))))) rfl

end Document

/-! Block definitions -/

theorem Port.recovers (p : Port) : Recovers schema.decode p.toValue p := by
  have hdirection : Recovers PortDirection.decode (.string p.direction.name) p.direction :=
    recovers_variant (by cases p.direction <;> rfl)
  exact recovers_record (.cons rfl rfl (decode_make (recovers_string p.name) _)
    (.cons rfl rfl (decode_make hdirection _) (.nil _))) rfl

theorem PortLayout.recovers (l : PortLayout) : Recovers schema.decode l.toValue l :=
  recovers_record (.cons rfl rfl (decode_make (recovers_list fun p _ => p.recovers) _)
    (.cons rfl rfl (decode_make (recovers_list fun p _ => p.recovers) _) (.nil _))) rfl

theorem Parameter.recovers {p : Parameter} (h : p.initial.Storable) :
    Recovers schema.decode p.toValue p := by
  have hkind : Recovers ParameterKind.decode (.string p.kind.name) p.kind :=
    recovers_variant (by cases p.kind <;> rfl)
  exact recovers_record (.cons rfl rfl (decode_make hkind _)
    (.cons rfl rfl (decode_make (recovers_value h) _)
    (.cons rfl rfl (decode_make (recovers_string p.description) _) (.nil _)))) rfl

namespace BlockDefinition

def Storable (d : BlockDefinition) : Prop := ∀ e ∈ d.parameters.entries, e.2.initial.Storable

theorem Storable.recovers {d : BlockDefinition} (h : d.Storable) :
    Recovers schema.decode d.toValue d := by
  have hcategory : Recovers BlockCategory.decode (.string d.category.name) d.category :=
    recovers_variant (by cases d.category <;> rfl)
  have hparameters := recovers_dict fun e he => Parameter.recovers (h e he)
  exact recovers_record (.cons rfl rfl (decode_make (recovers_string d.name) _)
    (.cons rfl rfl (decode_make (recovers_string d.description) _)
    (.cons rfl rfl (decode_make hcategory _)
    (.cons rfl rfl (decode_make hparameters _)
    (.cons rfl rfl (decode_make d.ports.recovers _) (.nil _)))))) rfl

end BlockDefinition

/-! Reading back -/

/-- Texts of saved graphs and of block definitions are read as what they were written for, unless
they nest too deeply: these are refused. -/
theorem texts_restored :
    (∀ d : Document, d.Storable → Document.ofText d.text =
      if d.toValue.nesting ≤ 127 then .ok d else .error (.violation .nestingLimit)) ∧
    ∀ d : BlockDefinition, d.Storable → BlockDefinition.ofText d.toValue.compact =
      if d.toValue.nesting ≤ 127 then .ok d else .error (.violation .nestingLimit) :=
  ⟨fun _ hd => decodeText_eq hd.recovers (spells_toList_pretty _),
    fun _ hd => decodeText_eq hd.recovers (spells_toList_compact _)⟩

/-- An array in an array, and so on. -/
def Value.nested : Nat → Value
  | 0 => .null
  | k + 1 => .array [nested k]

theorem Value.storable_nested (k : Nat) : (nested k).Storable := by
  induction k with
  | zero => exact .null
  | succ k ih => exact .array (by simpa [nested] using ih)

def half : Binary64 := ⟨false, unitsPerOne / 2, by decide +kernel⟩

def extremes : Value :=
  .array [.number (.int (-9223372036854775808) (by decide)),
    .number (.int 18446744073709551615 (by decide)), .number (.float half)]

theorem storable_extremes : extremes.Storable := by
  have hhalf : half.ReadsBack := by
    unfold Binary64.ReadsBack
    decide +kernel
  refine .array fun v hv => ?_
  simp only [List.mem_cons, List.not_mem_nil, or_false] at hv
  rcases hv with rfl | rfl | rfl
  · exact .int _ _
  · exact .int _ _
  · exact .float hhalf

def extremeDocument (v : Value) : Document where
  version := "1.0.0"
  blocks := [⟨18446744073709551615, "Data\n\x01", Dict.empty.insert "" extremes,
    Dict.empty.insert "Out" [⟨0, "In"⟩], .empty⟩]
  metadata := Dict.empty.insert "v" v
  vars := .empty
  settings := ⟨some 18446744073709551615, true⟩

theorem storable_extremeDocument {v : Value} (hv : v.Storable) : (extremeDocument v).Storable where
  blocks r hr := by
    obtain rfl := List.mem_singleton.mp hr
    refine ⟨by decide, fun e he => ?_, fun e he s hs => ?_, nofun⟩
    · obtain rfl := List.mem_singleton.mp he
      exact storable_extremes
    · obtain rfl := List.mem_singleton.mp he
      obtain rfl := List.mem_singleton.mp hs
      decide
  metadata e he := by
    obtain rfl := List.mem_singleton.mp he
    exact hv
  vars := nofun
  maxRounds n hn := by
    cases hn
    decide

def extremeDefinition : BlockDefinition where
  name := "Data"
  description := ""
  category := .sources
  parameters := Dict.empty.insert "Value" ⟨.any, extremes, ""⟩
  ports := .standard

/-- A document at the limit is restored, one beyond it refused. -/
theorem texts_restored_at_limit :
    Document.ofText (extremeDocument (.nested 125)).text = .ok (extremeDocument (.nested 125)) ∧
    Document.ofText (extremeDocument (.nested 126)).text = .error (.violation .nestingLimit) ∧
    BlockDefinition.ofText extremeDefinition.toValue.compact = .ok extremeDefinition := by
  have hstorable := fun k => storable_extremeDocument (Value.storable_nested k)
  have hdefinition : extremeDefinition.Storable := by
    intro e he
    obtain rfl := List.mem_singleton.mp he
    exact storable_extremes
  have hdeep := texts_restored.1 _ (hstorable 125)
  have hdeeper := texts_restored.1 _ (hstorable 126)
  have hread := texts_restored.2 _ hdefinition
  rw [if_pos (by decide +kernel)] at hdeep hread
  rw [if_neg (by decide +kernel)] at hdeeper
  exact ⟨hdeep, hdeeper, hread⟩

/-! Texts that are cut -/

section

open Json (Notices valueTree notices_record notices_field notices_nat notices_nat? notices_string
  notices_bool notices_values notices_listOf notices_dictOf)

theorem SubscriberRecord.notices (r : SubscriberRecord) (depth : Nat) :
    Notices (schema.decode depth) (valueTree r.toValue) :=
  notices_record (.cons rfl (notices_field fun k => notices_nat k _)
    (.cons rfl (notices_field fun k => notices_string k _) .nil)) depth

theorem BlockRecord.notices (r : BlockRecord) (depth : Nat) :
    Notices (schema.decode depth) (valueTree r.toValue) :=
  notices_record (.cons rfl (notices_field fun k => notices_nat k _)
    (.cons rfl (notices_field fun k => notices_string k _)
    (.cons rfl (notices_field (notices_values r.values))
    (.cons rfl
      (notices_field (notices_dictOf (notices_listOf SubscriberRecord.notices) r.subscribers))
    (.cons rfl (notices_field (notices_values r.metadata)) .nil))))) depth

theorem RunSettings.notices (s : RunSettings) (depth : Nat) :
    Notices (schema.decode depth) (valueTree s.toValue) :=
  notices_record (.cons rfl (notices_field fun k => notices_nat? k _)
    (.cons rfl (notices_field fun k => notices_bool k _) .nil)) depth

theorem Document.notices (d : Document) (depth : Nat) :
    Notices (schema.decode depth) (valueTree d.toValue) :=
  notices_record (.cons rfl (notices_field fun k => notices_string k _)
    (.cons rfl (notices_field (notices_listOf BlockRecord.notices d.blocks))
    (.cons rfl (notices_field (notices_values d.metadata))
    (.cons rfl (notices_field (notices_values d.vars))
    (.cons rfl (notices_field d.settings.notices) .nil))))) depth

/-- Where the text of a saved graph can be read, it is noticed of each proper beginning that the
text ends too early. -/
theorem Document.cut_noticed {d e : Document} (he : ofText d.text = .ok e) {p rest : String}
    (ht : d.text = p ++ rest) (hr : rest ≠ "") :
    ∃ err, ofText p = .error err ∧ err.category = .textEnds := by
  have hspells : Spells Printed (.value (valueTree d.toValue)) d.text.toList :=
    spells_toList_pretty d.toValue
  have hrest : rest.toList ≠ [] := fun hnil => hr (String.toList_eq_nil_iff.mp hnil)
  have hread := (Json.decodeText_of_spells schema.decode hspells).symm.trans he
  rw [ht, String.toList_append] at hspells
  obtain ⟨t', hc, hp⟩ := hspells.readChars_cut Json.scans_of_printed hrest
  obtain ⟨err, herr⟩ := Json.exists_error_of_cut hc schema Json.nestingDepth
  have hp' : Json.read p = ⟨t', false⟩ := hp
  have htext : ofText p = .error err := by
    rw [ofText, Json.decodeText, hp']
    dsimp only
    rw [herr]
  exact ⟨err, htext, d.notices Json.nestingDepth t' e hread hc err herr⟩

def limitedDocument : Document := ⟨Document.currentVersion, [], .empty, .empty, ⟨some 12, true⟩⟩

/-- The text of the document up to the first digit of its limit. -/
def limitedText : String :=
  "\x7b\n  \"version\": \"1.0.0\",\n  \"blocks\": [],\n  \"meta\": \x7b\x7d,\n" ++
    "  \"variables\": \x7b\x7d,\n  \"settings\": \x7b\n    \"max_rounds\": 1"

theorem Document.cut_noticed_in_number : ofText limitedDocument.text = .ok limitedDocument ∧
    ∃ err, ofText limitedText = .error err ∧ err.category = .textEnds := by
  have he : ofText limitedDocument.text = .ok limitedDocument := by decide +kernel
  have ht : limitedDocument.text =
      limitedText ++ "2,\n    \"trace_values\": true\n  \x7d\n\x7d" := by
    decide +kernel
  exact ⟨he, Document.cut_noticed he ht (by decide)⟩

end

end Patchbay
