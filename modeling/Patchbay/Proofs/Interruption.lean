import Patchbay.Json.Report
import Patchbay.Proofs.Fidelity
import Patchbay.Proofs.Magnitudes

/-! Texts that were cut. Of what a cut leaves of a tree that it reads, a decoder says that the text
ends or nothing at all, never that something else were wrong with it. -/

namespace Patchbay.Json

section

variable {α β : Type}

/-- Whether there is nothing to object to but that the text ends. -/
def Bears (r : Except ReadError α) : Prop := ∀ e, r = .error e → e.category = .textEnds

theorem bears_ok (a : α) : Bears (.ok a) := fun _ h => by cases h

theorem bears_violation {v : Violation} (hv : v.isEnd = true) :
    Bears (.error (.violation v) : Except ReadError α) := by
  rintro e ⟨⟩
  simp [ReadError.category, hv]

theorem exists_of_bind_eq_ok {x : Except ReadError α} {f : α → Except ReadError β} {b : β}
    (h : (x >>= f) = .ok b) : ∃ a, x = .ok a ∧ f a = .ok b := by
  cases x with
  | error e => cases h
  | ok a => exact ⟨a, rfl, h⟩

theorem exists_of_map_eq_ok {x : Except ReadError α} {f : α → β} {b : β} (h : x.map f = .ok b) :
    ∃ a, x = .ok a ∧ f a = b := by
  cases x with
  | error e => cases h
  | ok a =>
    cases h
    exact ⟨a, rfl, rfl⟩

theorem Bears.bind {x : Except ReadError α} {f : α → Except ReadError β} (hx : Bears x)
    (hf : ∀ a, x = .ok a → Bears (f a)) : Bears (x >>= f) := by
  cases x with
  | error e =>
    rintro _ ⟨⟩
    exact hx e rfl
  | ok a => exact hf a rfl

theorem Bears.map {x : Except ReadError α} (hx : Bears x) (f : α → β) : Bears (x.map f) := by
  cases x with
  | error e =>
    rintro _ ⟨⟩
    exact hx e rfl
  | ok a => exact bears_ok (f a)

/-- Whether a decoder that reads a tree bears with all that a cut may leave of it. -/
def Notices (decode : Tree → Except ReadError α) (t : Tree) : Prop :=
  ∀ t' a, decode t = .ok a → Cut Printed (.value t) (.value t') → Bears (decode t')

theorem Notices.map {decode : Tree → Except ReadError α} {t : Tree} (h : Notices decode t)
    (f : α → β) : Notices (fun t => (decode t).map f) t := by
  intro t' b hb hc
  obtain ⟨a, ha, -⟩ := exists_of_map_eq_ok hb
  exact (h t' a ha hc).map f

/-! Single values -/

theorem refuse_ne_ok {wanted : String} {t : Tree} {a : α} : refuse wanted t ≠ .ok a := by
  unfold refuse
  split <;> nofun

theorem quotedChars_cut {ps rest : List Piece} {cs : List Char}
    (h : quotedChars none (ps ++ rest) = .ok cs) :
    quotedChars (some .stringEnds) ps = .error (.violation .stringEnds) := by
  fun_induction quotedChars (some .stringEnds) ps generalizing cs with
  | case1 hf => cases hf
  | case2 f hf =>
    cases hf
    rfl
  | case3 c ps ih =>
    obtain ⟨ds, hds, -⟩ := exists_of_map_eq_ok h
    rw [ih hds]
    rfl
  | case5 code hlow hhigh low ps hpair ih =>
    simp only [List.cons_append, quotedChars, hlow, hhigh, hpair, if_true, Bool.false_eq_true,
      if_false] at h
    obtain ⟨ds, hds, -⟩ := exists_of_map_eq_ok h
    rw [ih hds]
    rfl
  | case8 => rfl
  | case9 code ps hlow hhigh ih =>
    unfold quotedChars at h
    simp only [List.cons_append, hlow, hhigh, Bool.false_eq_true, if_false] at h
    obtain ⟨ds, hds, -⟩ := exists_of_map_eq_ok h
    rw [ih hds]
    rfl
  | case4 code ps hlow =>
    unfold quotedChars at h
    simp [hlow] at h
  | case6 code hlow hhigh low ps hpair => simp [quotedChars, hlow, hhigh, hpair] at h
  | case7 code hlow hhigh c ps => simp [quotedChars, hlow, hhigh] at h

theorem text_cut {ps rest : List Piece} {s : String} (h : Quoted.text ⟨ps ++ rest, none⟩ = .ok s) :
    Quoted.text ⟨ps, some .stringEnds⟩ = .error (.violation .stringEnds) := by
  obtain ⟨cs, hcs, -⟩ := exists_of_map_eq_ok h
  rw [Quoted.text, quotedChars_cut hcs]
  rfl

theorem notices_string (depth : Nat) (t : Tree) : Notices (decodeString depth) t := by
  intro t' s hs hc
  cases hc with
  | nothing hf => exact bears_violation hf
  | string =>
    rw [decodeString, text_cut hs]
    exact bears_violation rfl
  | number | array | object =>
    simp only [decodeString] at hs
    exact (refuse_ne_ok hs).elim

theorem notices_bool (depth : Nat) (t : Tree) : Notices (decodeBool depth) t := by
  intro t' b hb hc
  cases hc with
  | nothing hf => exact bears_violation hf
  | number | string | array | object =>
    simp only [decodeBool] at hb
    exact (refuse_ne_ok hb).elim

theorem decodeNumeral_eq_ok {n : Numeral} {x : Number} :
    decodeNumeral n = .ok x ↔ Number.ofNumeral? n = some x := by
  unfold decodeNumeral
  split <;> simp [*]

theorem decodeNat_eq_ok {depth k : Nat} {n : Numeral} (h : decodeNat depth (.number n) = .ok k) :
    ∃ (i : Int) (hi : IsWord i), 0 ≤ i ∧ Number.ofNumeral? n = some (.int i hi) := by
  obtain ⟨x, hx, hk⟩ := exists_of_bind_eq_ok h
  cases x with
  | int i hi =>
    by_cases hpos : 0 ≤ i
    · exact ⟨i, hi, hpos, decodeNumeral_eq_ok.mp hx⟩
    · simp [hpos, throw, throwThe, MonadExceptOf.throw] at hk
  | float x => simp [throw, throwThe, MonadExceptOf.throw] at hk

theorem notices_nat (depth : Nat) (t : Tree) : Notices (decodeNat depth) t := by
  intro t' k hk hc
  cases hc with
  | nothing hf => exact bears_violation hf
  | @number n n' cs rest hprinted hr hn =>
    obtain ⟨x, rfl, hx⟩ := hprinted
    obtain ⟨i, hi, hpos, hread⟩ := decodeNat_eq_ok hk
    obtain ⟨j, hj, hpos', hcut⟩ := Number.ofNumeral?_cut_of_nonneg hpos hread hx.symm hn hr
    have hok : decodeNat depth (.number n') = .ok j.toNat := by
      rw [decodeNat, decodeNumeral_eq_ok.mpr hcut]
      simp [hpos', bind, Except.bind, pure, Except.pure]
    rw [hok]
    exact bears_ok _
  | string | array | object =>
    simp only [decodeNat] at hk
    exact (refuse_ne_ok hk).elim

theorem notices_nat? (depth : Nat) (t : Tree) : Notices (decodeNat? depth) t := by
  intro t' o ho hc
  have hmap := ((notices_nat depth t).map some) t'
  cases hc with
  | nothing hf => exact bears_violation hf
  | number hprinted hr hn => exact hmap o ho (.number hprinted hr hn)
  | string => exact hmap o ho .string
  | array hf hc => exact hmap o ho (.array hf hc)
  | object hf hc => exact hmap o ho (.object hf hc)

/-! Lists and dictionaries -/

theorem bears_items {decode : Decoder α} {depth : Nat} {ts ts' : List Tree} {as : List α}
    (h : ∀ t ∈ ts, Notices (decode depth) t) (hok : decodeItems decode depth ts = .ok as)
    (hc : Cut Printed (.items ts) (.items ts')) : Bears (decodeItems decode depth ts') := by
  induction ts generalizing ts' as with
  | nil =>
    cases hc
    exact bears_ok _
  | cons t ts ih =>
    obtain ⟨a, ha, hrest⟩ := exists_of_bind_eq_ok hok
    obtain ⟨bs, hbs, -⟩ := exists_of_bind_eq_ok hrest
    cases hc with
    | noItems => exact bears_ok _
    | @laterItem _ _ ts' hc =>
      have hts := ih (fun x hx => h x (List.mem_cons_of_mem _ hx)) hbs hc
      rw [decodeItems, ha]
      exact hts.bind fun _ _ => bears_ok _
    | @item _ t' _ hc =>
      have ht := h t List.mem_cons_self t' a ha hc
      exact ht.bind fun _ _ => bears_ok _

theorem notices_list {decode : Decoder α} {ts : List Tree}
    (h : ∀ t ∈ ts, ∀ depth, Notices (decode depth) t) (depth : Nat) :
    Notices (decodeList decode depth) (.array ts none) := by
  intro t' as has hc
  obtain ⟨depth', hdepth, hitems⟩ := exists_of_bind_eq_ok has
  obtain ⟨bs, hbs, -⟩ := exists_of_bind_eq_ok hitems
  cases hc with
  | nothing hf => exact bears_violation hf
  | @array _ ts' f hf hc =>
    have hts := bears_items (fun t ht => h t ht depth') hbs hc
    rw [decodeList, hdepth]
    exact hts.bind fun _ _ => (bears_violation hf).bind fun _ _ => bears_ok _

theorem bears_bindings {decode : Decoder α} {depth : Nat} {ms ms' : List (Quoted × Tree)}
    {d e : Dict α} (h : ∀ m ∈ ms, Notices (decode depth) m.2)
    (hok : decodeBindings decode depth ms d = .ok e)
    (hc : Cut Printed (.members ms) (.members ms')) :
    Bears (decodeBindings decode depth ms' d) := by
  induction ms generalizing ms' d with
  | nil =>
    cases hc
    exact bears_ok _
  | cons m ms ih =>
    obtain ⟨key, t⟩ := m
    obtain ⟨name, hname, hvalue⟩ := exists_of_bind_eq_ok hok
    obtain ⟨a, ha, hrest⟩ := exists_of_bind_eq_ok hvalue
    cases hc with
    | noMembers => exact bears_ok _
    | @laterMember _ _ ms' hc =>
      have hms := ih (fun x hx => h x (List.mem_cons_of_mem _ hx)) hrest hc
      have hlater : decodeBindings decode depth ((key, t) :: ms') d =
          decodeBindings decode depth ms' (d.insert name a) := by
        rw [decodeBindings, hname, ha]
        rfl
      rwa [hlater]
    | key =>
      rw [decodeBindings, text_cut hname]
      exact bears_violation rfl
    | @member _ _ t' _ hc =>
      have ht := h _ List.mem_cons_self t' a ha hc
      rw [decodeBindings, hname]
      exact ht.bind fun _ _ => bears_ok _

theorem notices_dict {decode : Decoder α} {ms : List (Quoted × Tree)}
    (h : ∀ m ∈ ms, ∀ depth, Notices (decode depth) m.2) (depth : Nat) :
    Notices (decodeDict decode depth) (.object ms none) := by
  intro t' d hd hc
  obtain ⟨depth', hdepth, hbindings⟩ := exists_of_bind_eq_ok hd
  obtain ⟨e, he, -⟩ := exists_of_bind_eq_ok hbindings
  cases hc with
  | nothing hf => exact bears_violation hf
  | @object _ ms' f hf hc =>
    have hms := bears_bindings (fun m hm => h m hm depth') he hc
    rw [decodeDict, hdepth]
    exact hms.bind fun _ _ => (bears_violation hf).bind fun _ _ => bears_ok _

theorem forall_itemTrees {P : Tree → Prop} {items : List Value} (h : ∀ v ∈ items, P (valueTree v)) :
    ∀ t ∈ itemTrees items, P t := by
  rw [itemTrees_eq_map]
  exact List.forall_mem_map.mpr h

theorem forall_memberTrees {P : Quoted × Tree → Prop} {members : List (String × Value)}
    (h : ∀ m ∈ members, P (.ofString m.1, valueTree m.2)) : ∀ m ∈ memberTrees members, P m := by
  rw [memberTrees_eq_map]
  exact List.forall_mem_map.mpr h

theorem notices_listOf {decode : Decoder α} {w : α → Value}
    (h : ∀ a depth, Notices (decode depth) (valueTree (w a))) (l : List α) (depth : Nat) :
    Notices (decodeList decode depth) (valueTree (.array (l.map w))) :=
  notices_list (forall_itemTrees (List.forall_mem_map.mpr fun a _ => h a)) depth

theorem notices_dictOf {decode : Decoder α} {w : α → Value}
    (h : ∀ a depth, Notices (decode depth) (valueTree (w a))) (d : Dict α) (depth : Nat) :
    Notices (decodeDict decode depth) (valueTree (.ofDict (d.map w))) :=
  notices_dict (forall_memberTrees (List.forall_mem_map.mpr fun e _ => h e.2)) depth

/-! Values -/

theorem notices_value_number (depth : Nat) (n : Numeral) :
    Notices (decodeValue depth) (.number n) := by
  intro t' v hv hc
  cases hc with
  | nothing hf => exact bears_violation hf
  | number hprinted hr hn =>
    obtain ⟨x, -, hx⟩ := hprinted
    obtain ⟨y, hy⟩ := Number.exists_ofNumeral?_cut hx.symm hn hr
    rw [decodeValue, decodeNumeral_eq_ok.mpr hy]
    exact bears_ok _

theorem notices_value_string (depth : Nat) (q : Quoted) :
    Notices (decodeValue depth) (.string q) := by
  intro t' v hv hc
  obtain ⟨s, hs, -⟩ := exists_of_map_eq_ok hv
  cases hc with
  | nothing hf => exact bears_violation hf
  | string =>
    rw [decodeValue, text_cut hs]
    exact bears_violation rfl

theorem notices_value_array {ts : List Tree} (h : ∀ t ∈ ts, ∀ depth, Notices (decodeValue depth) t)
    (depth : Nat) : Notices (decodeValue depth) (.array ts none) := by
  intro t' v hv hc
  rw [decodeValue_array] at hv
  have hlist := (notices_list h depth).map Value.array t' v hv hc
  cases hc with
  | nothing hf => exact bears_violation hf
  | array hf hc =>
    rw [decodeValue_array]
    exact hlist

theorem notices_value_object {ms : List (Quoted × Tree)}
    (h : ∀ m ∈ ms, ∀ depth, Notices (decodeValue depth) m.2) (depth : Nat) :
    Notices (decodeValue depth) (.object ms none) := by
  intro t' v hv hc
  rw [decodeValue_object] at hv
  have hdict := (notices_dict h depth).map Value.ofDict t' v hv hc
  cases hc with
  | nothing hf => exact bears_violation hf
  | object hf hc =>
    rw [decodeValue_object]
    exact hdict

theorem notices_value (v : Value) : ∀ depth, Notices (decodeValue depth) (valueTree v) := by
  induction v using Value.ind with
  | null | bool b =>
    intro depth t' a ha hc
    cases hc with
    | nothing hf => exact bears_violation hf
  | number x => exact fun depth => notices_value_number depth x.numeral
  | string s => exact fun depth => notices_value_string depth (.ofString s)
  | array items ih => exact notices_value_array (forall_itemTrees ih)
  | object members ih => exact notices_value_object (forall_memberTrees ih)

theorem notices_values (d : Dict Value) (depth : Nat) :
    Notices (decodeDict decodeValue depth) (valueTree (.ofDict d)) :=
  notices_dict (forall_memberTrees fun m _ => notices_value m.2) depth

/-! Records -/

section

variable {σ : Type} {schema : Schema σ α}

theorem notices_field {decode : Decoder β} {t : Tree} {name : String} {required : Bool}
    {get : σ → Option β} {set : σ → β → σ} (h : ∀ depth, Notices (decode depth) t) (s : σ)
    (depth : Nat) : Notices ((Field.make name required get set decode).decode s depth) t :=
  (h depth).map (set s)

/-- Whether each member is a field that notices where it is cut. -/
def Schema.Knows (schema : Schema σ α) (ms : List (Quoted × Tree)) : Prop :=
  ∀ m ∈ ms, ∃ name field, m.1.text = .ok name ∧ schema.fields.find? (·.name = name) = some field ∧
    ∀ s depth, Notices (field.decode s depth) m.2

theorem Schema.Knows.nil : schema.Knows (memberTrees []) := List.forall_mem_nil _

theorem Schema.Knows.cons {name : String} {v : Value} {rest : List (String × Value)}
    {field : Field σ} (hfield : schema.fields.find? (·.name = name) = some field)
    (hv : ∀ s depth, Notices (field.decode s depth) (valueTree v))
    (h : schema.Knows (memberTrees rest)) : schema.Knows (memberTrees ((name, v) :: rest)) :=
  List.forall_mem_cons.mpr ⟨⟨name, field, text_ofString name, hfield, hv⟩, h⟩

theorem decodeFields_cons {depth : Nat} {key : Quoted} {t : Tree} {ms : List (Quoted × Tree)}
    {s : σ} {name : String} {field : Field σ} (hname : key.text = .ok name)
    (hfield : schema.fields.find? (·.name = name) = some field) (hseen : field.seen s = false) :
    schema.decodeFields depth ((key, t) :: ms) s =
      (field.decode s depth t >>= schema.decodeFields depth ms) := by
  rw [Schema.decodeFields, hname]
  simp only [bind, Except.bind, hfield, hseen]
  rfl

theorem seen_of_decodeFields_eq_ok {depth : Nat} {key : Quoted} {t : Tree}
    {ms : List (Quoted × Tree)} {s s' : σ} {name : String} {field : Field σ}
    (hname : key.text = .ok name) (hfield : schema.fields.find? (·.name = name) = some field)
    (hok : schema.decodeFields depth ((key, t) :: ms) s = .ok s') : field.seen s = false := by
  cases hseen : field.seen s with
  | false => rfl
  | true =>
    rw [Schema.decodeFields, hname] at hok
    simp only [bind, Except.bind, hfield, hseen] at hok
    cases hok

theorem bears_fields {depth : Nat} {ms ms' : List (Quoted × Tree)} {s s' : σ}
    (h : schema.Knows ms) (hok : schema.decodeFields depth ms s = .ok s')
    (hc : Cut Printed (.members ms) (.members ms')) : Bears (schema.decodeFields depth ms' s) := by
  induction ms generalizing ms' s with
  | nil =>
    cases hc
    exact bears_ok _
  | cons m ms ih =>
    obtain ⟨key, t⟩ := m
    obtain ⟨name, field, hname, hfield, hnotices⟩ := h _ List.mem_cons_self
    have hseen := seen_of_decodeFields_eq_ok hname hfield hok
    rw [decodeFields_cons hname hfield hseen] at hok
    obtain ⟨s₁, hs₁, hrest⟩ := exists_of_bind_eq_ok hok
    cases hc with
    | noMembers => exact bears_ok _
    | laterMember hc =>
      have hms := ih (fun x hx => h x (List.mem_cons_of_mem _ hx)) hrest hc
      rw [decodeFields_cons hname hfield hseen, hs₁]
      exact hms
    | key =>
      rw [Schema.decodeFields, text_cut hname]
      exact bears_violation rfl
    | @member _ _ t' _ hc =>
      have ht := hnotices s depth t' s₁ hs₁ hc
      rw [decodeFields_cons hname hfield hseen]
      exact ht.bind fun _ _ => bears_ok _

theorem notices_record {ms : List (Quoted × Tree)} (h : schema.Knows ms) (depth : Nat) :
    Notices (schema.decode depth) (.object ms none) := by
  intro t' a ha hc
  obtain ⟨depth', hdepth, hfields⟩ := exists_of_bind_eq_ok ha
  obtain ⟨s, hs, -⟩ := exists_of_bind_eq_ok hfields
  cases hc with
  | nothing hf => exact bears_violation hf
  | @object _ ms' f hf hc =>
    have hms := bears_fields h hs hc
    rw [Schema.decode, hdepth]
    exact hms.bind fun _ _ => (bears_violation hf).bind fun _ hu => by cases hu

/-- An object that was left open is no record. -/
theorem exists_error_of_cut {ms : List (Quoted × Tree)} {t' : Tree}
    (hc : Cut Printed (.value (.object ms none)) (.value t')) (schema : Schema σ α) (depth : Nat) :
    ∃ e, schema.decode depth t' = .error e := by
  cases hd : schema.decode depth t' with
  | error e => exact ⟨e, rfl⟩
  | ok a =>
    cases hc with
    | nothing hf => cases hd
    | object hf hc =>
      obtain ⟨depth', -, hfields⟩ := exists_of_bind_eq_ok hd
      obtain ⟨s, -, hend⟩ := exists_of_bind_eq_ok hfields
      obtain ⟨u, hu, -⟩ := exists_of_bind_eq_ok hend
      cases hu

end

end

end Patchbay.Json
