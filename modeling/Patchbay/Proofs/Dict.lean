import Patchbay.Dict
import Mathlib.Tactic.Common

/-! Bindings of a dictionary, as its list of entries shows them. -/

namespace Patchbay.Dict

variable {α : Type}

theorem mem_of_lookupIn {key : String} {a : α} {l : List (String × α)}
    (h : lookupIn key l = some a) : (key, a) ∈ l := by
  induction l with
  | nil => cases h
  | cons x rest ih =>
    obtain ⟨k, b⟩ := x
    simp only [lookupIn] at h
    split at h
    · next hk =>
      cases h
      exact hk ▸ List.mem_cons_self
    · exact List.mem_cons_of_mem _ (ih h)

theorem lookupIn_of_mem {key : String} {a : α} {l : List (String × α)}
    (hs : l.Pairwise fun a b => a.1 < b.1) (h : (key, a) ∈ l) : lookupIn key l = some a := by
  induction l with
  | nil => cases h
  | cons x rest ih =>
    obtain ⟨k, b⟩ := x
    have hx := List.pairwise_cons.mp hs
    simp only [lookupIn]
    rcases List.mem_cons.mp h with h | h
    · cases h
      simp
    · have hne : key ≠ k := fun heq => String.lt_irrefl _ (heq ▸ hx.1 _ h)
      rw [if_neg hne]
      exact ih hx.2 h

theorem mem_entries_iff {d : Dict α} {key : String} {a : α} :
    (key, a) ∈ d.entries ↔ d.find? key = some a :=
  ⟨lookupIn_of_mem d.sorted, mem_of_lookupIn⟩

theorem mem_flatten_values {d : Dict (List α)} {a : α} :
    a ∈ d.values.flatten ↔ ∃ key, a ∈ d.list key := by
  simp only [values, List.mem_flatten, List.mem_map]
  constructor
  · rintro ⟨_, ⟨⟨key, l⟩, hm, rfl⟩, ha⟩
    exact ⟨key, by simpa [list, mem_entries_iff.mp hm] using ha⟩
  · rintro ⟨key, ha⟩
    cases hf : d.find? key with
    | none => simp [list, hf] at ha
    | some l => exact ⟨l, ⟨(key, l), mem_entries_iff.mpr hf, rfl⟩, by simpa [list, hf] using ha⟩

theorem contains_insert (d : Dict α) (key k : String) (a : α) :
    (d.insert key a).contains k = (decide (k = key) || d.contains k) := by
  simp only [contains, find?_insert]
  by_cases h : k = key <;> simp [h]

theorem map_id (d : Dict α) : d.map id = d := ext (by simp [map])

theorem lookupIn_map {β : Type} (f : α → β) (key : String) (l : List (String × α)) :
    lookupIn key (l.map fun e => (e.1, f e.2)) = (lookupIn key l).map f := by
  induction l with
  | nil => rfl
  | cons x rest ih =>
    obtain ⟨k, a⟩ := x
    simp only [List.map_cons, lookupIn]
    split
    · rfl
    · exact ih

theorem find?_map {β : Type} (f : α → β) (d : Dict α) (key : String) :
    (d.map f).find? key = (d.find? key).map f :=
  lookupIn_map f key d.entries

theorem contains_map {β : Type} (f : α → β) (d : Dict α) (key : String) :
    (d.map f).contains key = d.contains key := by
  rw [contains, contains, find?_map, Option.isSome_map]

theorem lookupIn_eq_none {key : String} {l : List (String × α)} (h : ∀ x ∈ l, key < x.1) :
    lookupIn key l = none := by
  refine Option.eq_none_iff_forall_not_mem.mpr fun a ha => ?_
  exact String.lt_irrefl _ (h _ (mem_of_lookupIn ha))

/-- A dictionary is known by its bindings. -/
theorem ext_find? {d e : Dict α} (h : ∀ key, d.find? key = e.find? key) : d = e := by
  have hnodup : ∀ d : Dict α, d.entries.Nodup := by
    intro d
    refine d.sorted.imp fun {a b} hlt heq => ?_
    rw [heq] at hlt
    exact String.lt_irrefl _ hlt
  have hmem : ∀ x, x ∈ d.entries ↔ x ∈ e.entries := by
    rintro ⟨key, a⟩
    rw [mem_entries_iff, mem_entries_iff, h key]
  have hperm : d.entries.Perm e.entries :=
    (List.perm_ext_iff_of_nodup (hnodup d) (hnodup e)).mpr hmem
  refine ext (hperm.eq_of_pairwise (fun a b _ _ hab hba => ?_) d.sorted e.sorted)
  exact absurd (String.lt_trans hab hba) (String.lt_irrefl _)

/-- Binds in addition, or again, what a second dictionary binds. -/
def overlay (d e : Dict α) : Dict α := e.entries.foldl (fun d x => d.insert x.1 x.2) d

theorem find?_overlay (d e : Dict α) (key : String) :
    (d.overlay e).find? key = (e.find? key).or (d.find? key) := by
  have hfold : ∀ (l : List (String × α)) (d : Dict α), l.Pairwise (fun a b => a.1 < b.1) →
      (l.foldl (fun d x => d.insert x.1 x.2) d).find? key =
        (lookupIn key l).or (d.find? key) := by
    intro l
    induction l with
    | nil => intro d _; rfl
    | cons x rest ih =>
      intro d hs
      have hx := List.pairwise_cons.mp hs
      rw [List.foldl_cons, ih _ hx.2, find?_insert]
      simp only [lookupIn]
      by_cases hk : key = x.1
      · have hnone : lookupIn key rest = none := lookupIn_eq_none (hk ▸ hx.1)
        simp [hk ▸ hnone, hk]
      · simp [hk]
  exact hfold e.entries d e.sorted

theorem contains_overlay (d e : Dict α) (key : String) :
    (d.overlay e).contains key = (e.contains key || d.contains key) := by
  simp only [contains, find?_overlay]
  cases e.find? key <;> rfl

theorem overlay_of_contains {d e : Dict α} (h : ∀ key, d.contains key → e.contains key) :
    d.overlay e = e := by
  refine ext_find? fun key => ?_
  have hkey := h key
  rw [find?_overlay]
  simp only [contains] at hkey
  cases he : e.find? key with
  | some a => rfl
  | none =>
    cases hd : d.find? key with
    | none => rfl
    | some a => simp [hd, he] at hkey

/-- The elements of all lists, each with its key. -/
def spread (d : Dict (List α)) : List (String × α) := d.entries.flatMap fun x => x.2.map (x.1, ·)

theorem filter_spread (d : Dict (List α)) (key : String) :
    d.spread.filter (·.1 = key) = (d.list key).map (key, ·) := by
  have hlookup : ∀ l : List (String × List α), l.Pairwise (fun a b => a.1 < b.1) →
      (l.flatMap fun x => x.2.map (x.1, ·)).filter (·.1 = key) =
        ((lookupIn key l).getD []).map (key, ·) := by
    intro l
    induction l with
    | nil => exact fun _ => rfl
    | cons x rest ih =>
      obtain ⟨k, as⟩ := x
      intro hs
      have hx := List.pairwise_cons.mp hs
      have hrest := ih hx.2
      rw [List.flatMap_cons, List.filter_append, hrest]
      simp only [lookupIn, List.filter_map]
      by_cases hk : key = k
      · have hnone : lookupIn key rest = none := lookupIn_eq_none (hk ▸ hx.1)
        have hall : as.filter (fun _ => true) = as := List.filter_eq_self.mpr fun _ _ => rfl
        subst hk
        simp [hnone, hall, Function.comp_def]
      · simp [hk, Ne.symm hk, Function.comp_def]
  exact hlookup d.entries d.sorted

theorem mem_spread {d : Dict (List α)} {key : String} {a : α} :
    (key, a) ∈ d.spread ↔ a ∈ d.list key := by
  have hiff : (key, a) ∈ d.spread ↔ (key, a) ∈ d.spread.filter (·.1 = key) := by
    simp [List.mem_filter]
  rw [hiff, filter_spread]
  simp

end Patchbay.Dict
