import Patchbay.Proofs.SavedTexts

/-! Floats in saved graphs. All that a document holds comes back from its text but floats, and these
come back exactly if each on its own does. -/

namespace Patchbay

namespace Value

mutual

def floats : Value → List Binary64
  | .number (.float x) => [x]
  | .null | .bool _ | .number (.int _ _) | .string _ => []
  | .array items => itemFloats items
  | .object members => memberFloats members

def itemFloats : List Value → List Binary64
  | [] => []
  | v :: rest => v.floats ++ itemFloats rest

def memberFloats : List (String × Value) → List Binary64
  | [] => []
  | (_, v) :: rest => v.floats ++ memberFloats rest

end

@[simp] theorem mem_itemFloats {x : Binary64} {items : List Value} :
    x ∈ itemFloats items ↔ ∃ v ∈ items, x ∈ v.floats := by
  induction items with
  | nil => simp [itemFloats]
  | cons v rest ih => simp [itemFloats, ih]

@[simp] theorem mem_memberFloats {x : Binary64} {members : List (String × Value)} :
    x ∈ memberFloats members ↔ ∃ m ∈ members, x ∈ m.2.floats := by
  induction members with
  | nil => simp [memberFloats]
  | cons m rest ih => simp [memberFloats, ih]

theorem forall_mem_floats_object {members : List (String × Value)} {P : Binary64 → Prop} :
    (∀ x ∈ (object members).floats, P x) ↔ ∀ m ∈ members, ∀ x ∈ m.2.floats, P x := by
  simp only [floats, mem_memberFloats]
  constructor
  · intro h m hm x hx
    exact h x ⟨m, hm, hx⟩
  · rintro h x ⟨m, hm, hx⟩
    exact h m hm x hx

@[simp] theorem floats_ofNat (n : Nat) : (ofNat n).floats = [] := by
  unfold ofNat Number.ofNat?
  split <;> rfl

/-- Values in which every object is a dictionary. -/
inductive Keyed : Value → Prop
  | null : Keyed .null
  | bool (b : Bool) : Keyed (.bool b)
  | number (n : Number) : Keyed (.number n)
  | string (s : String) : Keyed (.string s)
  | array {items : List Value} : (∀ v ∈ items, Keyed v) → Keyed (.array items)
  | ofDict {d : Dict Value} : (∀ e ∈ d.entries, Keyed e.2) → Keyed (.ofDict d)

theorem Keyed.storable {v : Value} (hv : v.Keyed) (hx : ∀ x ∈ v.floats, x.ReadsBack) :
    v.Storable := by
  induction hv with
  | null => exact .null
  | bool b => exact .bool b
  | number n =>
    cases n with
    | int i h => exact .int i h
    | float x => exact .float (hx x List.mem_cons_self)
  | string s => exact .string s
  | array _ ih =>
    exact .array fun v hv => ih v hv fun x hxv => hx x (mem_itemFloats.mpr ⟨v, hv, hxv⟩)
  | ofDict _ ih =>
    exact .ofDict fun e he => ih e he fun x hxe => hx x (mem_memberFloats.mpr ⟨e, he, hxe⟩)

end Value

/-! Documents as they are in memory -/

/-- Whether every object in the values bound is a dictionary. -/
def Dict.Keyed (d : Dict Value) : Prop := ∀ e ∈ d.entries, e.2.Keyed

structure BlockRecord.WellFormed (r : BlockRecord) : Prop where
  id : IsWord r.id
  values : r.values.Keyed
  subscribers : ∀ e ∈ r.subscribers.entries, ∀ s ∈ e.2, IsWord s.block
  metadata : r.metadata.Keyed

/-- Whether numbers of records and the limit are machine words, and objects are dictionaries. -/
structure Document.WellFormed (d : Document) : Prop where
  blocks : ∀ r ∈ d.blocks, r.WellFormed
  metadata : d.metadata.Keyed
  vars : d.vars.Keyed
  maxRounds : ∀ n ∈ d.settings.maxRounds, IsWord n

theorem Dict.Keyed.storable {d : Dict Value} (hd : d.Keyed)
    (hx : ∀ x ∈ (Value.ofDict d).floats, x.ReadsBack) : d.Storable :=
  fun e he => (hd e he).storable fun x hxe => hx x (Value.mem_memberFloats.mpr ⟨e, he, hxe⟩)

theorem BlockRecord.WellFormed.storable {r : BlockRecord} (hr : r.WellFormed)
    (hx : ∀ x ∈ r.toValue.floats, x.ReadsBack) : r.Storable where
  id := hr.id
  values := hr.values.storable fun x h => hx x (by simp [toValue, Value.floats, h])
  subscribers := hr.subscribers
  metadata := hr.metadata.storable fun x h => hx x (by simp [toValue, Value.floats, h])

theorem Document.WellFormed.storable {d : Document} (hd : d.WellFormed)
    (hx : ∀ x ∈ d.toValue.floats, x.ReadsBack) : d.Storable where
  blocks r hr := (hd.blocks r hr).storable fun x h => hx x (by
    simp only [toValue, Value.floats, Value.mem_memberFloats]
    exact ⟨_, .tail _ (.head _), Value.mem_itemFloats.mpr ⟨_, List.mem_map_of_mem hr, h⟩⟩)
  metadata := hd.metadata.storable fun x h => hx x (by simp [toValue, Value.floats, h])
  vars := hd.vars.storable fun x h => hx x (by simp [toValue, Value.floats, h])
  maxRounds := hd.maxRounds

/-! What is restored holds floats that read back -/

namespace Json

section

variable {α : Type} {decode : Decoder α} {w : α → Value}

/-- Whether each float of a value that is read as `a` reads back on its own. -/
def Vouches (decode : Decoder α) (v : Value) (a : α) : Prop :=
  ∀ k, decode k (valueTree v) = .ok a → ∀ x ∈ v.floats, x.ReadsBack

theorem readsBack_of_decodeNumeral {x : Binary64}
    (h : decodeNumeral (Number.float x).numeral = .ok (.float x)) : x.ReadsBack := by
  have htext : Value.ofText x.text = decodeValue nestingDepth (.number (Number.float x).numeral) :=
    decodeText_of_spells decodeValue (.number ⟨.float x, rfl, rfl⟩)
  rw [Binary64.ReadsBack, htext, decodeValue, h]
  rfl

theorem decodeItems_map_eq_ok {k : Nat} {l : List α}
    (h : decodeItems decode k (itemTrees (l.map w)) = .ok l) :
    ∀ a ∈ l, decode k (valueTree (w a)) = .ok a := by
  induction l with
  | nil => exact nofun
  | cons a rest ih =>
    obtain ⟨b, hb, hrest⟩ := exists_of_bind_eq_ok h
    obtain ⟨bs, hbs, heq⟩ := exists_of_bind_eq_ok hrest
    cases heq
    exact List.forall_mem_cons.mpr ⟨hb, ih hbs⟩

theorem find?_of_decodeBindings {k : Nat} {l : List (String × α)}
    (hl : l.Pairwise fun a b => a.1 < b.1) {d d' : Dict α}
    (h : decodeBindings decode k (memberTrees (l.map fun e => (e.1, w e.2))) d = .ok d') :
    (∀ e ∈ l, ∃ a, decode k (valueTree (w e.2)) = .ok a ∧ d'.find? e.1 = some a) ∧
      ∀ key, (∀ e ∈ l, e.1 ≠ key) → d'.find? key = d.find? key := by
  induction l generalizing d with
  | nil =>
    cases h
    exact ⟨nofun, fun _ _ => rfl⟩
  | cons e rest ih =>
    have hrest := List.pairwise_cons.mp hl
    obtain ⟨name, hname, h⟩ := exists_of_bind_eq_ok h
    obtain ⟨a, ha, h⟩ := exists_of_bind_eq_ok h
    obtain rfl : e.1 = name := by simpa using hname
    obtain ⟨hfind, hkeep⟩ := ih hrest.2 h
    -- Names ascend, so no later member takes the place of this one.
    have hne : ∀ e' ∈ rest, e'.1 ≠ e.1 := fun e' he' heq =>
      String.lt_irrefl _ (heq ▸ hrest.1 e' he')
    refine ⟨List.forall_mem_cons.mpr ⟨⟨a, ha, ?_⟩, hfind⟩, fun key hkey => ?_⟩
    · rw [hkeep e.1 hne, Dict.find?_insert, if_pos rfl]
    · rw [hkeep key fun e' he' => hkey e' (List.mem_cons_of_mem _ he'), Dict.find?_insert,
        if_neg (hkey e List.mem_cons_self).symm]

theorem decodeBindings_map_eq_ok {k : Nat} {d : Dict α}
    (h : decodeBindings decode k (memberTrees (d.map w).entries) .empty = .ok d) :
    ∀ e ∈ d.entries, decode k (valueTree (w e.2)) = .ok e.2 := by
  intro e he
  obtain ⟨a, ha, hfind⟩ := (find?_of_decodeBindings d.sorted h).1 e he
  rw [Dict.mem_entries_iff.mp he] at hfind
  cases hfind
  exact ha

theorem vouches_list {l : List α} (h : ∀ a ∈ l, Vouches decode (w a) a) :
    Vouches (decodeList decode) (.array (l.map w)) l := by
  intro k hl x hx
  obtain ⟨j, -, hl⟩ := exists_of_bind_eq_ok hl
  obtain ⟨as, has, heq⟩ := exists_of_bind_eq_ok hl
  cases heq
  obtain ⟨v, hv, hxv⟩ := Value.mem_itemFloats.mp hx
  obtain ⟨a, ha, rfl⟩ := List.mem_map.mp hv
  exact h a ha j (decodeItems_map_eq_ok has a ha) x hxv

theorem vouches_dict {d : Dict α} (h : ∀ e ∈ d.entries, Vouches decode (w e.2) e.2) :
    Vouches (decodeDict decode) (.ofDict (d.map w)) d := by
  intro k hd x hx
  obtain ⟨j, -, hd⟩ := exists_of_bind_eq_ok hd
  obtain ⟨d', hd', heq⟩ := exists_of_bind_eq_ok hd
  cases heq
  obtain ⟨m, hm, hxm⟩ := Value.mem_memberFloats.mp hx
  obtain ⟨e, he, rfl⟩ := List.mem_map.mp hm
  exact h e he j (decodeBindings_map_eq_ok hd' e he) x hxm

end

theorem vouches_value (v : Value) : Vouches decodeValue v v := by
  induction v using Value.ind with
  | null | bool | string => exact fun _ _ _ hx => absurd hx List.not_mem_nil
  | number n =>
    intro k h x hx
    cases n with
    | int i hi => exact absurd hx List.not_mem_nil
    | float y =>
      have hxy : x = y := List.mem_singleton.mp hx
      obtain ⟨z, hz, heq⟩ := exists_of_map_eq_ok h
      injection heq with heq
      rw [heq] at hz
      rw [hxy]
      exact readsBack_of_decodeNumeral hz
  | array items ih =>
    intro k h
    rw [valueTree, decodeValue_array] at h
    obtain ⟨vs, hvs, heq⟩ := exists_of_map_eq_ok h
    cases heq
    have hlist := vouches_list (w := id) ih k
    rw [List.map_id] at hlist
    exact hlist hvs
  | object members ih =>
    intro k h
    rw [valueTree, decodeValue_object] at h
    obtain ⟨d, hd, heq⟩ := exists_of_map_eq_ok h
    cases heq
    have hdict := vouches_dict (w := id) ih k
    rw [Dict.map_id] at hdict
    exact hdict hd

theorem vouches_data (d : Dict Value) : Vouches (decodeDict decodeValue) (.ofDict d) d := by
  have hdict := vouches_dict (w := id) (d := d) fun e _ => vouches_value e.2
  rwa [Dict.map_id] at hdict

theorem exists_of_decodeFields {σ α β : Type} {schema : Schema σ α} {name : String}
    {required : Bool} {get : σ → Option β} {set : σ → β → σ} {decode : Decoder β} {k : Nat}
    {v : Value} {rest : List (String × Value)} {s s' : σ}
    (hfind : schema.fields.find? (·.name = name) = some (Field.make name required get set decode))
    (h : schema.decodeFields k (memberTrees ((name, v) :: rest)) s = .ok s') :
    ∃ b, decode k (valueTree v) = .ok b ∧
      schema.decodeFields k (memberTrees rest) (set s b) = .ok s' := by
  rw [memberTrees, Schema.decodeFields, text_ofString] at h
  simp only [bind, Except.bind, hfind] at h
  split at h
  · cases h
  · obtain ⟨s₁, hs₁, hrest⟩ := exists_of_bind_eq_ok h
    obtain ⟨b, hb, rfl⟩ := exists_of_map_eq_ok hs₁
    exact ⟨b, hb, hrest⟩

end Json

open Json (Vouches vouches_list vouches_data exists_of_decodeFields exists_of_bind_eq_ok)

theorem SubscriberRecord.floats_listings (d : Dict (List SubscriberRecord)) :
    (Value.ofDict (d.map fun l => .array (l.map toValue))).floats = [] := by
  refine List.eq_nil_iff_forall_not_mem.mpr fun x hx => ?_
  obtain ⟨m, hm, hxm⟩ := Value.mem_memberFloats.mp hx
  obtain ⟨e, -, rfl⟩ := List.mem_map.mp hm
  obtain ⟨v, hv, hxv⟩ := Value.mem_itemFloats.mp hxm
  obtain ⟨s, -, rfl⟩ := List.mem_map.mp hv
  simp [toValue, Value.floats] at hxv

theorem RunSettings.floats_toValue (s : RunSettings) : s.toValue.floats = [] := by
  have hrounds : (s.maxRounds.elim .null Value.ofNat).floats = [] := by
    cases s.maxRounds with
    | none => rfl
    | some n => rw [Option.elim_some, Value.floats_ofNat]
  simp only [toValue, Value.floats, Value.memberFloats, hrounds, List.append_nil]

theorem BlockRecord.vouches (r : BlockRecord) : Vouches schema.decode r.toValue r := by
  intro k h
  obtain ⟨j, -, h⟩ := exists_of_bind_eq_ok h
  obtain ⟨s, hs, hfinish⟩ := exists_of_bind_eq_ok h
  obtain ⟨id, -, hs⟩ := exists_of_decodeFields rfl hs
  obtain ⟨typeName, -, hs⟩ := exists_of_decodeFields rfl hs
  obtain ⟨values, hvalues, hs⟩ := exists_of_decodeFields rfl hs
  obtain ⟨subscribers, -, hs⟩ := exists_of_decodeFields rfl hs
  obtain ⟨metadata, hmetadata, hs⟩ := exists_of_decodeFields rfl hs
  obtain rfl : r = ⟨id, typeName, values, subscribers, metadata⟩ := by
    cases hs
    cases hfinish
    rfl
  refine Value.forall_mem_floats_object.mpr ?_
  simp only [List.forall_mem_cons, List.not_mem_nil, false_implies, implies_true, and_true]
  refine ⟨?_, ?_, vouches_data values j hvalues, ?_, vouches_data metadata j hmetadata⟩
  · simp
  · simp [Value.floats]
  · simp [SubscriberRecord.floats_listings]

theorem Document.vouches (d : Document) : Vouches schema.decode d.toValue d := by
  intro k h
  obtain ⟨j, -, h⟩ := exists_of_bind_eq_ok h
  obtain ⟨s, hs, hfinish⟩ := exists_of_bind_eq_ok h
  obtain ⟨version, -, hs⟩ := exists_of_decodeFields rfl hs
  obtain ⟨blocks, hblocks, hs⟩ := exists_of_decodeFields rfl hs
  obtain ⟨metadata, hmetadata, hs⟩ := exists_of_decodeFields rfl hs
  obtain ⟨vars, hvars, hs⟩ := exists_of_decodeFields rfl hs
  obtain ⟨settings, -, hs⟩ := exists_of_decodeFields rfl hs
  obtain rfl : d = ⟨version, blocks, metadata, vars, settings⟩ := by
    cases hs
    cases hfinish
    rfl
  refine Value.forall_mem_floats_object.mpr ?_
  simp only [List.forall_mem_cons, List.not_mem_nil, false_implies, implies_true, and_true]
  refine ⟨?_, vouches_list (fun r _ => r.vouches) j hblocks, vouches_data metadata j hmetadata,
    vouches_data vars j hvars, ?_⟩
  · simp [Value.floats]
  · simp [RunSettings.floats_toValue]

end Patchbay
