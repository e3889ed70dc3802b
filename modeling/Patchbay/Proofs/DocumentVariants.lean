import Patchbay.Proofs.Floats
import Patchbay.Proofs.RecordVariants

/-! Texts of one document. However a document is spelled, it is read as it is from its own text. -/

namespace Patchbay

open Json (Field Tolerates tolerates_unchanged tolerates_string tolerates_data recovers_list
  recovers_dict recovers_bool recovers_nat? toOption_eq_some)
open Json.Field (meets_plain meets_standard)

/-! Texts with blanks around them -/

namespace Json

theorem foldl_blanks {s : State} (hs : ∀ c, isBlank c = true → step s c = s) {cs : List Char}
    (hb : Blank cs) : cs.foldl step s = s :=
  (passes_blanks (C := fun _ => True) hb hs trivial).foldl_eq

theorem Writes.read_eq {t : Tree} {text : String} (h : Writes t text) : read text = ⟨t, false⟩ := by
  obtain ⟨before, cs, after, hbefore, hcs, hafter, htext⟩ := h
  obtain ⟨s, hh, hpasses⟩ := hcs.passes fun _ _ hn => hn
  rw [read, htext, readChars, List.foldl_append, List.foldl_append,
    foldl_blanks (awaits_value []).blank hbefore, hpasses.foldl_eq]
  cases after with
  | nil => exact hh.left
  | cons c cs =>
    have hc : isBlank c = true := hafter c List.mem_cons_self
    have hfirst : step s c = .complete t := by
      rw [hh.next c (endsNumber_of_isBlank hc)]
      exact stepOutside_deliver_blank t [] hc
    have hcomplete : ∀ c, isBlank c = true → step (.complete t) c = .complete t := by
      intro c hc
      simp [step, stepOutside, hc]
    rw [List.foldl_cons, hfirst,
      foldl_blanks hcomplete fun x hx => hafter x (List.mem_cons_of_mem _ hx)]
    rfl

theorem Writes.decodeText_eq {α : Type} {t : Tree} {text : String} (h : Writes t text)
    (decode : Decoder α) : decodeText decode text = decode nestingDepth t := by
  rw [decodeText, h.read_eq]
  cases decode nestingDepth t <;> rfl

theorem writes_of_spells {t : Tree} {text : String} (h : Spells Printed (.value t) text.toList) :
    Writes t text :=
  ⟨[], text.toList, [], .nil, h.mono scans_of_printed, .nil, by simp⟩

end Json

theorem Document.SpelledBy.refl (d : Document) : d.SpelledBy d.text :=
  ⟨_, .refl, Json.writes_of_spells (spells_toList_pretty d.toValue)⟩

/-! Fields and their forms -/

theorem Json.recovers_empty {α : Type} {decode : Json.Decoder α} :
    Json.Recovers (Json.decodeDict decode) (.object []) .empty :=
  recovers_dict (w := fun _ => .null) (d := .empty) fun _ h => absurd h List.not_mem_nil

theorem SubscriberRecord.meets : schema.Meets 0 forms where
  fields := .cons (meets_plain tolerates_unchanged) (.cons (meets_plain tolerates_string) .nil)
  distinct := by decide
  apart := by simp [schema]
  unseen := by simp [schema, Field.make]

theorem BlockRecord.meets : schema.Meets 2 forms where
  fields := by
    have hdata := tolerates_data.dict (m := 2) (Nat.zero_le _)
    have hsubscribers := ((SubscriberRecord.meets.tolerates (m := 0) (Nat.zero_le _)).list (m := 0)
      (Nat.zero_le _)).dict (m := 2) (Nat.zero_le _)
    exact .cons (meets_plain tolerates_unchanged)
      (.cons (meets_plain tolerates_string)
      (.cons (meets_standard hdata Json.recovers_empty (by decide) fun d hd => by simp [schema, hd])
      (.cons (meets_standard hsubscribers Json.recovers_empty (by decide) fun d hd => by
        simp [schema, hd])
      (.cons (meets_standard hdata Json.recovers_empty (by decide) fun d hd => by
        simp [schema, hd]) .nil))))
  distinct := by decide
  apart := by simp [schema]
  unseen := by simp [schema, Field.make]

theorem RunSettings.meets : schema.Meets 0 forms where
  fields :=
    .cons (meets_standard tolerates_unchanged (recovers_nat? (o := none) nofun) (by decide)
      fun d hd => by simp [schema, hd])
    (.cons (meets_standard tolerates_unchanged (recovers_bool false) (by decide) fun d hd => by
      simp [schema, hd]) .nil)
  distinct := by decide
  apart := by simp [schema]
  unseen := by simp [schema, Field.make]

theorem Document.meets : schema.Meets 4 forms where
  fields := by
    have hdata := tolerates_data.dict (m := 4) (Nat.zero_le _)
    have hblocks := (BlockRecord.meets.tolerates (m := 3) (by decide)).list (m := 4) (by decide)
    have hsettings := RunSettings.meets.tolerates (m := 4) (Nat.zero_le _)
    have hempty : Json.Recovers (Json.decodeList BlockRecord.schema.decode) (.array []) [] :=
      recovers_list (w := fun _ => .null) (l := []) nofun
    exact .cons (meets_plain tolerates_string)
      (.cons (meets_standard hblocks hempty (by decide) fun d hd => by simp [schema, hd])
      (.cons (meets_standard hdata Json.recovers_empty (by decide) fun d hd => by simp [schema, hd])
      (.cons (meets_standard hdata Json.recovers_empty (by decide) fun d hd => by simp [schema, hd])
      (.cons (meets_standard hsettings (RunSettings.recovers (s := .standard) nofun) (by decide)
        fun d hd => by simp [schema, hd]) .nil))))
  distinct := by decide
  apart := by simp [schema]
  unseen := by simp [schema, Field.make]

theorem Document.SpelledBy.toOption_ofText {d : Document} {text : String} (h : d.SpelledBy text) :
    (Document.ofText text).toOption = (Document.ofText d.text).toOption := by
  obtain ⟨t, hchanges, hwrites⟩ := h
  have htolerates := (Document.meets.tolerates (m := 5) (by decide)).many
  have hread : Document.ofText text = schema.decode Json.nestingDepth t :=
    hwrites.decodeText_eq schema.decode
  rw [hread, ofText_text]
  exact htolerates _ t hchanges Json.nestingDepth (by decide)

/-- However a document is spelled, it is read as from its own text, and restored just if its floats
read back on their own. -/
theorem Document.spellings_read {d : Document} (hd : d.WellFormed) (hn : d.toValue.nesting ≤ 127)
    {text : String} (ht : d.SpelledBy text) :
    (∀ e, ofText text = .ok e ↔ ofText d.text = .ok e) ∧
      (ofText text = .ok d ↔ ∀ x ∈ d.toValue.floats, x.ReadsBack) := by
  have hsame : ∀ e, ofText text = .ok e ↔ ofText d.text = .ok e := fun e => by
    rw [← toOption_eq_some, ht.toOption_ofText, toOption_eq_some]
  refine ⟨hsame, ?_⟩
  rw [hsame, ofText_text]
  refine ⟨d.vouches Json.nestingDepth, fun hx => ?_⟩
  rw [(hd.storable hx).recovers Json.nestingDepth]
  exact Json.within_true hn d

def patchedDocument : Document where
  version := "1.0.0"
  blocks := [⟨0, "Data", Dict.empty.insert "Data" (.number (.float half)),
    Dict.empty.insert "Data" [⟨0, "In"⟩], .empty⟩]
  metadata := .empty
  vars := .empty
  settings := .standard

theorem patchedDocument_wellFormed : patchedDocument.WellFormed where
  blocks r hr := by
    obtain rfl := List.mem_singleton.mp hr
    refine ⟨by decide, fun e he => ?_, fun e he s hs => ?_, nofun⟩
    · obtain rfl := List.mem_singleton.mp he
      exact .number _
    · obtain rfl := List.mem_singleton.mp he
      obtain rfl := List.mem_singleton.mp hs
      decide
  metadata := nofun
  vars := nofun
  maxRounds := nofun

/-- The patched document in another order, without metadata, with a member that is no field, and
with its settings and the subscriber as arrays. -/
def patchedText : String :=
  " \x7b\"note\":[],\"settings\":[null,false],\"version\":\"1.0.0\"," ++
    "\"blocks\":[\x7b\"type\":\"Data\",\"values\":\x7b\"Data\":0.5\x7d," ++
    "\"subscribers\":\x7b\"Data\":[[0,\"In\"]]\x7d,\"id\":0\x7d]," ++
    "\"variables\":\x7b\x7d\x7d\n"

section

open Json (RecordChange Change DistinctKeys valueTree memberTrees text_ofString)
open Relation (ReflTransGen)

/-- What is written of the patched record, but for its number and its metadata. -/
def patchedFields (subscriber : Value) : List (String × Value) :=
  [("type", .string "Data"), ("values", .object [("Data", .number (.float half))]),
    ("subscribers", .object [("Data", .array [subscriber])])]

/-- The value of which the patched text is one. -/
def patchedVariant : Value :=
  .object [
    ("note", .array []), ("settings", .array [.null, .bool false]), ("version", .string "1.0.0"),
    ("blocks",
      .array [.object (patchedFields (.array [.ofNat 0, .string "In"]) ++ [("id", .ofNat 0)])]),
    ("variables", .object [])]

theorem patchedRecord_changes : ReflTransGen (RecordChange BlockRecord.forms)
    (valueTree (.object (("id", .ofNat 0) ::
      patchedFields (.object [("block", .ofNat 0), ("input", .string "In")]) ++
        [("meta", .object [])])))
    (valueTree
      (.object (patchedFields (.array [.ofNat 0, .string "In"]) ++ [("id", .ofNat 0)]))) := by
  let fields := patchedFields (.array [.ofNat 0, .string "In"])
  let subscriber := memberTrees [("block", .ofNat 0), ("input", .string "In")]
  have hsubscriber : RecordChange SubscriberRecord.forms (.object subscriber none)
      (valueTree (.array [.ofNat 0, .string "In"])) :=
    @RecordChange.listing _ subscriber (by simp [subscriber, memberTrees, SubscriberRecord.forms])
  have hlisting := @RecordChange.field BlockRecord.forms
    (memberTrees (("id", .ofNat 0) :: (patchedFields .null).take 2))
    (memberTrees [("meta", .object [])])
    (.ofString "subscribers") _ _ _ (.tail _ (.tail _ (.tail _ (.head _)))) (text_ofString _)
    (@Change.member _ [] [] (.ofString "Data") _ _ (@Change.item _ [] [] _ _ hsubscriber))
  have homission := @RecordChange.omission BlockRecord.forms
    (memberTrees (("id", .ofNat 0) :: fields)) [] (.ofString "meta") _ (.object [])
    (.tail _ (.tail _ (.tail _ (.tail _ (.head _))))) rfl (text_ofString _)
    (by simp [fields, patchedFields, memberTrees])
  have hreorder := @RecordChange.reorder BlockRecord.forms _ _
    (by simp [DistinctKeys, fields, patchedFields, memberTrees])
    (@List.perm_append_comm _ (memberTrees [("id", .ofNat 0)]) (memberTrees fields))
  exact ((ReflTransGen.refl.tail hlisting).tail homission).tail hreorder

theorem patchedDocument_spelledBy : patchedDocument.SpelledBy patchedText := by
  let member (name : String) (v : Value) : Json.Quoted × Json.Tree := (.ofString name, valueTree v)
  let version := member "version" (.string "1.0.0")
  let blocks := member "blocks"
    (.array [.object (patchedFields (.array [.ofNat 0, .string "In"]) ++ [("id", .ofNat 0)])])
  let metadata := member "meta" (.object [])
  let vars := member "variables" (.object [])
  let settings := member "settings" (.array [.null, .bool false])
  let note := member "note" (.array [])
  let file (record : Json.Tree) : Json.Tree :=
    .object [version, (.ofString "blocks", .array [record] none), metadata, vars,
      member "settings" RunSettings.standard.toValue] none
  have hrecord := patchedRecord_changes.lift (p := RecordChange Document.forms) file
    fun t t' h => @RecordChange.field _ [version] [metadata, vars, _] (.ofString "blocks") _ _ _
      (.tail _ (.head _)) (text_ofString _) (@Change.item _ [] [] _ _ h)
  have hlisting : RecordChange RunSettings.forms (valueTree RunSettings.standard.toValue)
      settings.2 :=
    @RecordChange.listing _ (memberTrees [("max_rounds", .null), ("trace_values", .bool false)])
      (by simp [memberTrees, RunSettings.forms])
  have hsettings := @RecordChange.field Document.forms [version, blocks, metadata, vars] []
    (.ofString "settings") _ _ _ (.tail _ (.tail _ (.tail _ (.tail _ (.head _)))))
    (text_ofString _) hlisting
  have homission := @RecordChange.omission Document.forms [version, blocks] [vars, settings]
    (.ofString "meta") _ (.object []) (.tail _ (.tail _ (.head _))) rfl (text_ofString _)
    (by simp [version, blocks, vars, settings, member])
  have hextra := @RecordChange.extra Document.forms [] [version, blocks, vars, settings]
    note.1 note.2 "note" _ (text_ofString _) (by simp [Document.forms]) (.emptyArray .nil)
  have hreorder := @RecordChange.reorder Document.forms [note, version, blocks, vars, settings]
    [note, settings, version, blocks, vars]
    (by simp [DistinctKeys, note, version, blocks, vars, settings, member])
    (.cons note (@List.perm_append_comm _ [version, blocks, vars] [settings]))
  have htext : patchedText =
      String.ofList ([' '] ++ (Json.compactChars patchedVariant ++ ['\n'])) := by
    decide +kernel
  have hwrites : Json.Writes (valueTree patchedVariant) patchedText :=
    ⟨[' '], Json.compactChars patchedVariant, ['\n'], List.forall_mem_singleton.mpr rfl,
      (Json.spells_compact _).mono Json.scans_of_printed, List.forall_mem_singleton.mpr rfl,
      by rw [htext, String.toList_ofList]⟩
  exact ⟨_, (((hrecord.tail hsettings).tail homission).tail hextra).tail hreorder, hwrites⟩

/-- A document restored from a text with another order, an unknown member and arrays for records. -/
theorem Document.spellings_read_patched :
    patchedDocument.WellFormed ∧ patchedDocument.toValue.nesting ≤ 127 ∧
    patchedDocument.SpelledBy patchedText ∧ ofText patchedText = .ok patchedDocument := by
  have hx : ∀ x ∈ patchedDocument.toValue.floats, x.ReadsBack := by
    intro x hx
    obtain rfl : x = half := List.mem_singleton.mp hx
    unfold Binary64.ReadsBack
    decide +kernel
  have hnesting : patchedDocument.toValue.nesting ≤ 127 := by decide
  have hread :=
    Document.spellings_read patchedDocument_wellFormed hnesting patchedDocument_spelledBy
  exact ⟨patchedDocument_wellFormed, hnesting, patchedDocument_spelledBy, hread.2.mpr hx⟩

end

/-- The sum of 22.46 and 89.99 as a float. -/
def priceSum : Binary64 :=
  ⟨false, 7912965282778316 * (unitsPerOne / 70368744177664), by decide +kernel⟩

/-- The float next to it, of which the text is 112.45. -/
def priceSumRead : Binary64 :=
  ⟨false, 7912965282778317 * (unitsPerOne / 70368744177664), by decide +kernel⟩

def pricedDocument (sum : Binary64) : Document :=
  { Document.empty with vars := Dict.empty.insert "sum" (.number (.float sum)) }

/-- A document that is not restored from its own text, as the float it holds is read as another. -/
theorem Document.spelling_misread : (pricedDocument priceSum).WellFormed ∧
    (pricedDocument priceSum).toValue.nesting ≤ 127 ∧
    (pricedDocument priceSum).SpelledBy (pricedDocument priceSum).text ∧
    ofText (pricedDocument priceSum).text = .ok (pricedDocument priceSumRead) ∧
    pricedDocument priceSumRead ≠ pricedDocument priceSum := by
  have hwell : (pricedDocument priceSum).WellFormed := by
    refine ⟨nofun, nofun, fun e he => ?_, nofun⟩
    obtain rfl := List.mem_singleton.mp he
    exact .number _
  have hread : ofText (pricedDocument priceSum).text = .ok (pricedDocument priceSumRead) := by
    rw [ofText_text]
    decide +kernel
  exact ⟨hwell, by decide, .refl _, hread, by decide +kernel⟩

end Patchbay
