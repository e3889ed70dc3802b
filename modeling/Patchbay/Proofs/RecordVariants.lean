import Mathlib.Data.List.Forall2
import Mathlib.Data.List.Nodup
import Mathlib.Data.List.Pairwise
import Patchbay.Proofs.Tolerance

/-! Changes that records do not notice. A record is known by what its fields hold: fields are read
into parts of a draft that do not touch each other, a default does not change what becomes of the
draft, and all else is read past. -/

namespace Patchbay.Json

open Relation (ReflTransGen)

variable {α β γ σ : Type} {n m k : Nat} {schema : Schema σ α} {forms : List FieldForm}

def Phrase.skip : Phrase → Except ReadError Unit
  | .value t => Json.skip t
  | .items ts => skipItems ts
  | .members ms => skipMembers ms

/-- Whatever a text holds can be read past. -/
theorem Spells.skip_eq {S : Numeral → List Char → Prop} {φ : Phrase} {cs : List Char}
    (h : Spells S φ cs) : φ.skip = .ok () := by
  induction h with
  | null | bool | number | string | emptyArray | emptyObject => rfl
  | array _ ih | object _ ih | lastItem _ _ _ ih | lastMember _ _ _ _ _ _ ih =>
    simp only [Phrase.skip] at ih
    simp only [Phrase.skip, Json.skip, skipItems, skipMembers, ih]
    rfl
  | item _ _ _ _ ih ihrest | member _ _ _ _ _ _ _ ih ihrest =>
    simp only [Phrase.skip] at ih ihrest
    simp only [Phrase.skip, skipItems, skipMembers, ih, ihrest]
    rfl

/-! Fields -/

namespace Field

variable {f g : Field σ} {s s' : σ}

/-- Reads a field that has not been read before. -/
def take? (f : Field σ) (s : σ) (k : Nat) (t : Tree) : Option σ :=
  if f.seen s then none else (f.decode s k t).toOption

/-- Whether two fields do not touch each other's part of the draft. -/
structure Apart (f g : Field σ) : Prop where
  seen_left : ∀ s k t s', f.decode s k t = .ok s' → g.seen s' = g.seen s
  seen_right : ∀ s k t s', g.decode s k t = .ok s' → f.seen s' = f.seen s
  diamond : ∀ s k t t', ((f.decode s k t).toOption.bind fun s => (g.decode s k t').toOption) =
    (g.decode s k t').toOption.bind fun s => (f.decode s k t).toOption

instance : Std.Symm (@Apart σ) where
  symm _ _ h := ⟨h.seen_right, h.seen_left, fun s k t t' => (h.diamond s k t' t).symm⟩

@[simp] theorem apart_make {name name' : String} {required required' : Bool} {get : σ → Option β}
    {get' : σ → Option γ} {set : σ → β → σ} {set' : σ → γ → σ} {decode : Decoder β}
    {decode' : Decoder γ} (hset : ∀ s a b, set' (set s a) b = set (set' s b) a)
    (hget : ∀ s a, get' (set s a) = get' s) (hget' : ∀ s b, get (set' s b) = get s) :
    (make name required get set decode).Apart (make name' required' get' set' decode') where
  seen_left s k t s' h := by
    obtain ⟨a, -, rfl⟩ := exists_of_map_eq_ok h
    exact congrArg Option.isSome (hget s a)
  seen_right s k t s' h := by
    obtain ⟨b, -, rfl⟩ := exists_of_map_eq_ok h
    exact congrArg Option.isSome (hget' s b)
  diamond s k t t' := by
    simp only [make, toOption_map, Option.bind_map]
    cases decode k t with
    | error e => cases decode' k t' <;> rfl
    | ok a =>
      cases decode' k t' with
      | error e => rfl
      | ok b => exact congrArg some (hset s a b)

theorem seen_of_take? (h : f.Apart g) {t : Tree} (hs : f.take? s k t = some s') :
    g.seen s' = g.seen s := by
  unfold take? at hs
  split at hs
  · cases hs
  · cases hd : f.decode s k t with
    | error e => simp [hd, Except.toOption] at hs
    | ok s'' =>
      obtain rfl : s'' = s' := by simpa [hd, Except.toOption] using hs
      exact h.seen_left s k t s'' hd

theorem Apart.take?_bind (h : f.Apart g) (s : σ) (k : Nat) (t t' : Tree) :
    ((f.take? s k t).bind fun s => g.take? s k t') =
      if f.seen s || g.seen s then none
      else (f.decode s k t).toOption.bind fun s => (g.decode s k t').toOption := by
  by_cases hf : f.seen s
  · simp [take?, hf]
  · cases hd : f.decode s k t with
    | error e => simp [take?, hf, hd, Except.toOption]
    | ok s' =>
      have hseen := h.seen_left s k t s' hd
      simp [take?, hf, hd, Except.toOption, hseen]

theorem Apart.take?_comm (h : f.Apart g) (s : σ) (k : Nat) (t t' : Tree) :
    ((f.take? s k t).bind fun s => g.take? s k t') =
      (g.take? s k t').bind fun s => f.take? s k t := by
  rw [h.take?_bind, (symm h).take?_bind, h.diamond, Bool.or_comm]

/-- Whether a field bears the changes of its form, and a default read into an empty part of the
draft makes no difference. -/
structure Meets (schema : Schema σ α) (n : Nat) (f : Field σ) (form : FieldForm) : Prop where
  name : f.name = form.name
  tolerates : ∀ s, Tolerates n form.change (f.decode s)
  standard : ∀ v, form.standard = some v → ∀ s k, n ≤ k → f.seen s = false →
    ∃ s', f.decode s k (valueTree v) = .ok s' ∧ schema.finish s' = schema.finish s

section

variable {name : String} {required : Bool} {get : σ → Option β} {set : σ → β → σ}
  {decode : Decoder β} {R : Tree → Tree → Prop}

theorem meets_plain (h : Tolerates n R decode) :
    Meets schema n (make name required get set decode) ⟨name, none, R⟩ :=
  ⟨rfl, fun s => h.map (set s), nofun⟩

theorem meets_standard (h : Tolerates n R decode) {v : Value} {b : β} (hv : Recovers decode v b)
    (hn : v.nesting ≤ n - 1)
    (hfinish : ∀ s, get s = none → schema.finish (set s b) = schema.finish s) :
    Meets schema n (make name required get set decode) ⟨name, some v, R⟩ := by
  refine ⟨rfl, fun s => h.map (set s), ?_⟩
  rintro _ ⟨⟩ s k hk hs
  have hread : (make name required get set decode).decode s k (valueTree v) = .ok (set s b) := by
    rw [decode_make hv, within_true (by omega)]
  exact ⟨set s b, hread, hfinish s (by simpa [make] using hs)⟩

end

end Field

/-! Records -/

namespace Schema

def addMember? (schema : Schema σ α) (k : Nat) (s : σ) (m : Quoted × Tree) : Option σ := do
  let name ← m.1.text.toOption
  match schema.fields.find? (·.name = name) with
  | none => (skip m.2).toOption.map fun _ => s
  | some f => f.take? s k m.2

/-- What the members of an object come to. -/
def ofMembers? (schema : Schema σ α) (k : Nat) (ms : List (Quoted × Tree)) : Option α :=
  (ms.foldlM (schema.addMember? k) schema.start).bind fun s => (schema.finish s).toOption

theorem toOption_decodeFields (ms : List (Quoted × Tree)) (s : σ) :
    (schema.decodeFields k ms s).toOption = ms.foldlM (schema.addMember? k) s := by
  induction ms generalizing s with
  | nil => rfl
  | cons m ms ih =>
    obtain ⟨key, t⟩ := m
    simp only [List.foldlM_cons, ← ih, decodeFields, addMember?]
    cases key.text with
    | error e => rfl
    | ok name =>
      simp only [bind, Except.bind, Except.toOption, Option.bind]
      cases schema.fields.find? (·.name = name) with
      | none => cases skip t <;> rfl
      | some f =>
        by_cases hs : f.seen s
        · simp [hs, Field.take?, throw, throwThe, MonadExceptOf.throw]
        · cases hd : f.decode s k t <;> simp [hs, hd, Field.take?, Except.toOption]

theorem toOption_members (ms : List (Quoted × Tree)) :
    (do let s ← schema.decodeFields k ms schema.start
        closed none
        schema.finish s : Except ReadError α).toOption = schema.ofMembers? k ms := by
  rw [toOption_bind, toOption_decodeFields]
  rfl

/-- Whether the forms are those of the fields, in the order of declaration. -/
structure Meets (schema : Schema σ α) (n : Nat) (forms : List FieldForm) : Prop where
  fields : List.Forall₂ (Field.Meets schema n) schema.fields forms
  distinct : (schema.fields.map (·.name)).Nodup
  apart : schema.fields.Pairwise Field.Apart
  unseen : ∀ f ∈ schema.fields, f.seen schema.start = false

namespace Meets

variable {f : Field σ} {s s' : σ}

theorem names_eq (h : schema.Meets n forms) : schema.fields.map (·.name) = forms.map (·.name) := by
  have hnames : List.Forall₂ Eq (schema.fields.map (·.name)) (forms.map (·.name)) := by
    rw [List.forall₂_map_left_iff, List.forall₂_map_right_iff]
    exact h.fields.imp fun _ _ hf => hf.name
  rwa [List.forall₂_eq_eq_eq] at hnames

theorem find?_eq (h : schema.Meets n forms) (hf : f ∈ schema.fields) :
    schema.fields.find? (·.name = f.name) = some f := by
  have hinj := List.inj_on_of_nodup_map h.distinct
  cases hg : schema.fields.find? (·.name = f.name) with
  | none => simpa using List.find?_eq_none.mp hg f hf
  | some g =>
    have hname : g.name = f.name := by simpa using List.find?_some hg
    rw [hinj (List.mem_of_find?_eq_some hg) hf hname]

theorem exists_field (h : schema.Meets n forms) {form : FieldForm} (hform : form ∈ forms) :
    ∃ f ∈ schema.fields, f.Meets schema n form := by
  obtain ⟨i, hi, rfl⟩ := List.getElem_of_mem hform
  have hlength := h.fields.length_eq
  exact ⟨_, List.getElem_mem (hlength ▸ hi), h.fields.get (hlength ▸ hi) hi⟩

theorem find?_eq_none (h : schema.Meets n forms) {name : String}
    (hname : ∀ form ∈ forms, form.name ≠ name) : schema.fields.find? (·.name = name) = none := by
  refine List.find?_eq_none.mpr fun f hf => ?_
  have hmem : f.name ∈ forms.map (·.name) := h.names_eq ▸ List.mem_map_of_mem hf
  obtain ⟨form, hform, heq⟩ := List.mem_map.mp hmem
  simpa [← heq] using hname form hform

theorem apart_of_ne (h : schema.Meets n forms) {g : Field σ} (hf : f ∈ schema.fields)
    (hg : g ∈ schema.fields) (hne : f.name ≠ g.name) : f.Apart g :=
  h.apart.forall hf hg fun heq => hne (congrArg Field.name heq)

theorem addMember?_field (h : schema.Meets n forms) (hf : f ∈ schema.fields) {key : Quoted}
    (hkey : key.text = .ok f.name) (t : Tree) : schema.addMember? k s (key, t) = f.take? s k t := by
  simp [addMember?, hkey, Except.toOption, h.find?_eq hf]

theorem addMember?_extra (h : schema.Meets n forms) {key : Quoted} {name : String}
    (hkey : key.text = .ok name) (hname : ∀ form ∈ forms, form.name ≠ name) (t : Tree) :
    schema.addMember? k s (key, t) = (skip t).toOption.map fun _ => s := by
  simp [addMember?, hkey, Except.toOption, h.find?_eq_none hname]

/-- A member is a field, or read past, or refused. -/
theorem addMember?_cases (h : schema.Meets n forms) (k : Nat) (m : Quoted × Tree) :
    (∃ f ∈ schema.fields, m.1.text = .ok f.name ∧ ∀ s, schema.addMember? k s m = f.take? s k m.2) ∨
    (∀ s, schema.addMember? k s m = some s) ∨ ∀ s, schema.addMember? k s m = none := by
  obtain ⟨key, t⟩ := m
  cases hkey : key.text with
  | error e => exact .inr (.inr fun s => by simp [addMember?, hkey, Except.toOption])
  | ok name =>
    cases hfind : schema.fields.find? (·.name = name) with
    | some f =>
      have hf := List.mem_of_find?_eq_some hfind
      have hname : f.name = name := by simpa using List.find?_some hfind
      subst hname
      exact .inl ⟨f, hf, rfl, fun s => h.addMember?_field hf hkey t⟩
    | none =>
      cases hskip : skip t with
      | error e =>
        exact .inr (.inr fun s => by simp [addMember?, hkey, hfind, hskip, Except.toOption])
      | ok u =>
        exact .inr (.inl fun s => by simp [addMember?, hkey, hfind, hskip, Except.toOption])

theorem addMember?_comm (h : schema.Meets n forms) {m m' : Quoted × Tree}
    (hne : m.1.text ≠ m'.1.text) (s : σ) :
    (schema.addMember? k s m).bind (schema.addMember? k · m') =
      (schema.addMember? k s m').bind (schema.addMember? k · m) := by
  obtain ⟨f, hf, hname, hm⟩ | hm | hm := h.addMember?_cases k m
  · obtain ⟨g, hg, hname', hm'⟩ | hm' | hm' := h.addMember?_cases k m'
    · have hapart := h.apart_of_ne hf hg fun heq => hne (by rw [hname, hname', heq])
      simp only [hm, hm', hapart.take?_comm]
    · simp [hm']
    · simp [hm']
  · simp [hm]
  · simp [hm]

theorem seen_of_addMember? (h : schema.Meets n forms) (hf : f ∈ schema.fields) {m : Quoted × Tree}
    (hne : m.1.text ≠ .ok f.name) (hs : schema.addMember? k s m = some s') :
    f.seen s' = f.seen s := by
  obtain ⟨g, hg, hname, hm⟩ | hm | hm := h.addMember?_cases k m
  · have hapart := h.apart_of_ne hg hf fun heq => hne (by rw [hname, heq])
    exact Field.seen_of_take? hapart ((hm s).symm.trans hs)
  · cases (hm s).symm.trans hs
    rfl
  · cases (hm s).symm.trans hs

theorem seen_of_members (h : schema.Meets n forms) (hf : f ∈ schema.fields)
    {ms : List (Quoted × Tree)} (hne : ∀ m ∈ ms, m.1.text ≠ .ok f.name)
    (hs : ms.foldlM (schema.addMember? k) s = some s') : f.seen s' = f.seen s := by
  induction ms generalizing s with
  | nil =>
    cases hs
    rfl
  | cons m ms ih =>
    obtain ⟨s₁, hm, hrest⟩ := Option.bind_eq_some_iff.mp hs
    rw [ih (fun x hx => hne x (List.mem_cons_of_mem _ hx)) hrest,
      h.seen_of_addMember? hf (hne m List.mem_cons_self) hm]

/-! One change -/

theorem ofMembers?_field (h : schema.Meets n forms) (hk : n ≤ k)
    {before after : List (Quoted × Tree)} {key : Quoted} {form : FieldForm} {t t' : Tree}
    (hform : form ∈ forms) (hkey : key.text = .ok form.name) (hc : form.change t t') :
    schema.ofMembers? k (before ++ (key, t') :: after) =
      schema.ofMembers? k (before ++ (key, t) :: after) := by
  obtain ⟨f, hf, hmeets⟩ := h.exists_field hform
  have hstep : ∀ s, schema.addMember? k s (key, t') = schema.addMember? k s (key, t) := by
    intro s
    have hname : key.text = .ok f.name := by rw [hkey, hmeets.name]
    rw [h.addMember?_field hf hname, h.addMember?_field hf hname, Field.take?, Field.take?,
      hmeets.tolerates s t t' hc k hk]
  simp only [ofMembers?, List.foldlM_append, List.foldlM_cons, hstep]

theorem ofMembers?_extra (h : schema.Meets n forms) {before after : List (Quoted × Tree)}
    {key : Quoted} {name : String} {t : Tree} (hkey : key.text = .ok name)
    (hname : ∀ form ∈ forms, form.name ≠ name) (ht : skip t = .ok ()) :
    schema.ofMembers? k (before ++ (key, t) :: after) = schema.ofMembers? k (before ++ after) := by
  have hstep : ∀ s, schema.addMember? k s (key, t) = some s := by
    intro s
    rw [h.addMember?_extra hkey hname, ht]
    rfl
  simp [ofMembers?, List.foldlM_append, hstep]

/-- The default is read after all other members, where it makes no difference any more. -/
theorem ofMembers?_omission (h : schema.Meets n forms) (hk : n ≤ k)
    {before after : List (Quoted × Tree)} {key : Quoted} {form : FieldForm} {v : Value}
    (hform : form ∈ forms) (hv : form.standard = some v) (hkey : key.text = .ok form.name)
    (hne : ∀ m ∈ before ++ after, m.1.text ≠ .ok form.name) :
    schema.ofMembers? k (before ++ after) =
      schema.ofMembers? k (before ++ (key, valueTree v) :: after) := by
  obtain ⟨f, hf, hmeets⟩ := h.exists_field hform
  have hname : key.text = .ok f.name := by rw [hkey, hmeets.name]
  have hlast : (before ++ (key, valueTree v) :: after).foldlM (schema.addMember? k) schema.start =
      ((before ++ after).foldlM (schema.addMember? k) schema.start).bind
        (schema.addMember? k · (key, valueTree v)) := by
    have hmove := foldlM_move (f := schema.addMember? k) (x := (key, valueTree v)) (l := after)
      fun m hm s => h.addMember?_comm (by
        rw [hkey]
        exact (hne m (List.mem_append_right _ hm)).symm) s
    simp only [List.foldlM_append, hmove, bind, Option.bind_assoc]
  rw [ofMembers?, ofMembers?, hlast]
  cases hs : (before ++ after).foldlM (schema.addMember? k) schema.start with
  | none => rfl
  | some s =>
    have hseen : f.seen s = false := by
      rw [h.seen_of_members hf (hmeets.name ▸ hne) hs, h.unseen f hf]
    obtain ⟨s', hs', hfinish⟩ := hmeets.standard v hv s k hk hseen
    simp [h.addMember?_field hf hname, Field.take?, hseen, hs', Except.toOption, hfinish]

/-- The array form has the fields one after the other. -/
theorem toOption_decodeSlots (h : schema.Meets n forms) {fs : List (Field σ)}
    (hfs : fs <:+ schema.fields) {ms : List (Quoted × Tree)}
    (hkeys : ms.map (·.1.text) = fs.map (.ok ·.name)) {s : σ} (hs : ∀ f ∈ fs, f.seen s = false) :
    (schema.decodeSlots k none fs (ms.map (·.2)) s).toOption =
      ms.foldlM (schema.addMember? k) s := by
  induction fs generalizing ms s with
  | nil =>
    obtain rfl := List.map_eq_nil_iff.mp hkeys
    rfl
  | cons f fs ih =>
    obtain ⟨m, ms, rfl, hkey, hkeys⟩ := List.map_eq_cons_iff.mp hkeys
    have hmem : ∀ g ∈ f :: fs, g ∈ schema.fields := fun g hg => hfs.subset hg
    have hstep : schema.addMember? k s m = (f.decode s k m.2).toOption := by
      rw [h.addMember?_field (hmem f List.mem_cons_self) hkey, Field.take?, hs f List.mem_cons_self]
      rfl
    rw [List.map_cons, decodeSlots, toOption_bind, List.foldlM_cons, hstep]
    cases hd : f.decode s k m.2 with
    | error e => rfl
    | ok s' =>
      have hapart := List.pairwise_cons.mp (h.apart.sublist hfs.sublist)
      refine ih ((List.suffix_cons f fs).trans hfs) hkeys fun g hg => ?_
      rw [(hapart.1 g hg).seen_left s k m.2 s' hd, hs g (List.mem_cons_of_mem _ hg)]

theorem tolerates (h : schema.Meets n forms) (hm : n ≤ m - 1) :
    Tolerates m (RecordChange forms) schema.decode := by
  intro t t' hc k hk
  cases hc with
  | field hform hkey hc =>
    refine toOption_descend_bind hm hk fun j hj => ?_
    rw [toOption_members, toOption_members, h.ofMembers?_field hj hform hkey hc]
  | key hkey =>
    refine toOption_descend_bind hm hk fun j _ => ?_
    simp only [toOption_members, ofMembers?, List.foldlM_append, List.foldlM_cons, addMember?, hkey]
  | reorder hd hp =>
    refine toOption_descend_bind hm hk fun j _ => ?_
    have hfold := foldlM_perm hp (hd.imp fun hne => h.addMember?_comm (k := j) hne)
    simp only [toOption_members, ofMembers?, hfold]
  | extra hkey hname ht =>
    refine toOption_descend_bind hm hk fun j _ => ?_
    rw [toOption_members, toOption_members, h.ofMembers?_extra hkey hname ht.skip_eq]
  | omission hform hv hkey hne =>
    refine toOption_descend_bind hm hk fun j hj => ?_
    rw [toOption_members, toOption_members, h.ofMembers?_omission hj hform hv hkey hne]
  | @listing ms hkeys =>
    refine toOption_descend_bind hm hk fun j _ => ?_
    have hnames : ms.map (·.1.text) = schema.fields.map (.ok ·.name) := by
      have hok := congrArg (List.map (.ok : String → Except ReadError String)) h.names_eq
      simpa [hkeys, Function.comp_def] using hok.symm
    rw [toOption_members, toOption_bind, h.toOption_decodeSlots List.suffix_rfl hnames h.unseen]
    rfl

end Meets

end Schema

end Patchbay.Json
