import Patchbay.Edge
import Mathlib.Data.List.Nodup
import Mathlib.Tactic.Common

/-! An arena numbers its edges in the order of adding, so its entries alone determine both of its
maps, and the subscriptions of a block are a selection of the entries. -/

namespace Patchbay.Arena

/-- The numbers by edge are the entries turned round. -/
structure Sound (a : Arena) : Prop where
  rising : a.entries.Pairwise fun x y => x.1.number < y.1.number
  bounded : ∀ x ∈ a.entries, x.1.number ≤ a.lastNumber
  distinct : (a.entries.map Prod.snd).Nodup
  turned : a.numbers = a.entries.map Prod.swap

/-- The subscriptions whose edges satisfy `p`, by number. -/
def select (a : Arena) (p : Edge → Bool) : List SubscriptionId :=
  (a.entries.filter fun x => p x.2).map Prod.fst

def leaving (a : Arena) (id : BlockId) (output : String) : List SubscriptionId :=
  a.select fun e => e.publisher = id ∧ e.output = output

def entering (a : Arena) (id : BlockId) (input : String) : List SubscriptionId :=
  a.select fun e => e.subscriber = id ∧ e.input = input

variable {a : Arena} {id : SubscriptionId} {e : Edge}

theorem Sound.empty : Arena.empty.Sound :=
  ⟨.nil, fun _ h => absurd h List.not_mem_nil, List.nodup_nil, rfl⟩

theorem Sound.nodup_fst (h : a.Sound) : (a.entries.map Prod.fst).Nodup := by
  refine List.pairwise_map.mpr (h.rising.imp ?_)
  intro x y hlt heq
  rw [heq] at hlt
  omega

theorem lookup_eq_some_iff {κ ν : Type} [DecidableEq κ] {l : List (κ × ν)}
    (hn : (l.map Prod.fst).Nodup) {k : κ} {v : ν} :
    (l.find? (·.1 = k)).map Prod.snd = some v ↔ (k, v) ∈ l := by
  constructor
  · intro hg
    obtain ⟨⟨j, w⟩, hf, rfl⟩ := Option.map_eq_some_iff.mp hg
    have hj : j = k := by simpa using List.find?_some hf
    exact hj ▸ List.mem_of_find?_eq_some hf
  · intro hm
    cases hf : l.find? (·.1 = k) with
    | none =>
      have hne := List.find?_eq_none.mp hf (k, v) hm
      simp at hne
    | some x =>
      have hx : x.1 = k := by simpa using List.find?_some hf
      have he := List.inj_on_of_nodup_map hn (List.mem_of_find?_eq_some hf) hm hx
      simp [he]

theorem Sound.get?_eq_some_iff (h : a.Sound) : a.get? id = some e ↔ (id, e) ∈ a.entries :=
  lookup_eq_some_iff h.nodup_fst

theorem Sound.find?_eq_some_iff (h : a.Sound) : a.find? e = some id ↔ (id, e) ∈ a.entries := by
  have hn : (a.numbers.map Prod.fst).Nodup := by
    rw [h.turned, List.map_map]
    exact h.distinct
  refine (lookup_eq_some_iff hn).trans ?_
  rw [h.turned, List.mem_map]
  constructor
  · rintro ⟨x, hx, he⟩
    rwa [← Prod.swap_swap x, he] at hx
  · exact fun hm => ⟨(id, e), hm, rfl⟩

theorem Sound.edge_unique (h : a.Sound) {e' : Edge} (he : (id, e) ∈ a.entries)
    (he' : (id, e') ∈ a.entries) : e = e' :=
  congrArg Prod.snd (List.inj_on_of_nodup_map h.nodup_fst he he' rfl)

theorem Sound.add (h : a.Sound) (hn : a.find? e = none) : (a.add e).Sound where
  rising := by
    refine List.pairwise_append.mpr ⟨h.rising, List.pairwise_singleton _ _, ?_⟩
    intro x hx y hy
    rw [List.mem_singleton.mp hy]
    exact Nat.lt_succ_of_le (h.bounded x hx)
  bounded := by
    intro x hx
    rcases List.mem_append.mp hx with hx | hx
    · exact Nat.le_succ_of_le (h.bounded x hx)
    · rw [List.mem_singleton.mp hx]
      exact Nat.le_refl _
  distinct := by
    have hnot : e ∉ a.entries.map Prod.snd := by
      intro hm
      obtain ⟨⟨j, _⟩, hj, rfl⟩ := List.mem_map.mp hm
      rw [h.find?_eq_some_iff.mpr hj] at hn
      cases hn
    simp only [Arena.add, List.map_append, List.map_cons, List.map_nil]
    exact List.nodup_append.mpr ⟨h.distinct, List.nodup_singleton _, fun x hx y hy hxy =>
      hnot (by rwa [← List.mem_singleton.mp hy, ← hxy])⟩
  turned := by
    simp only [Arena.add, List.map_append, h.turned]
    rfl

theorem Sound.erase (h : a.Sound) (hg : a.get? id = some e) : (a.erase id e).Sound where
  rising := h.rising.filter _
  bounded x hx := h.bounded x (List.mem_of_mem_filter hx)
  distinct := h.distinct.sublist (List.filter_sublist.map _)
  turned := by
    have hm := h.get?_eq_some_iff.mp hg
    simp only [Arena.erase, h.turned, List.filter_map]
    congr 1
    apply List.filter_congr
    intro x hx
    -- Ids and edges are both unique among the entries, so either one tells the entry.
    have hiff : x.2 = e ↔ x.1 = id :=
      ⟨fun hxe => congrArg Prod.fst (List.inj_on_of_nodup_map h.distinct hx hm hxe),
        fun hxi => congrArg Prod.snd (List.inj_on_of_nodup_map h.nodup_fst hx hm hxi)⟩
    simp [hiff]

theorem mem_select {p : Edge → Bool} :
    id ∈ a.select p ↔ ∃ e, (id, e) ∈ a.entries ∧ p e = true := by
  simp only [select, List.mem_map, List.mem_filter]
  constructor
  · rintro ⟨⟨j, e⟩, ⟨hm, hp⟩, rfl⟩
    exact ⟨e, hm, hp⟩
  · rintro ⟨e, hm, hp⟩
    exact ⟨(id, e), ⟨hm, hp⟩, rfl⟩

theorem Sound.mem_select_iff (h : a.Sound) (hm : (id, e) ∈ a.entries) {p : Edge → Bool} :
    id ∈ a.select p ↔ p e = true := by
  rw [mem_select]
  constructor
  · rintro ⟨e', hm', hp⟩
    rwa [h.edge_unique hm hm']
  · exact fun hp => ⟨e, hm, hp⟩

theorem Sound.select_rising (h : a.Sound) (p : Edge → Bool) :
    (a.select p).Pairwise fun x y => x.number < y.number :=
  List.pairwise_map.mpr (h.rising.filter _)

theorem select_add (p : Edge → Bool) :
    (a.add e).select p = a.select p ++ if p e then [a.nextId] else [] := by
  by_cases h : p e = true <;> simp [select, Arena.add, List.filter_append, h]

theorem select_erase (p : Edge → Bool) :
    (a.erase id e).select p = (a.select p).filter (· ≠ id) := by
  simp only [select, Arena.erase, List.filter_map, List.filter_filter]
  congr 1
  apply List.filter_congr
  intro x _
  simp [Bool.and_comm]

/-- The number of an edge stands in the selections that the edge satisfies and in no others. -/
theorem Sound.select_erase_edge (h : a.Sound) (hg : a.get? id = some e) (p : Edge → Bool) :
    (a.erase id e).select p =
      if p e = true then (a.select p).filter (· ≠ id) else a.select p := by
  rw [select_erase]
  split
  · rfl
  · next hp =>
    refine List.filter_eq_self.mpr fun j hj => ?_
    have hm := h.get?_eq_some_iff.mp hg
    have hne : j ≠ id := fun heq => hp ((h.mem_select_iff hm).mp (heq ▸ hj))
    simpa using hne

theorem leaving_add (b : BlockId) (o : String) : (a.add e).leaving b o =
    a.leaving b o ++ if e.publisher = b ∧ e.output = o then [a.nextId] else [] := by
  simp [leaving, select_add]

theorem entering_add (b : BlockId) (i : String) : (a.add e).entering b i =
    a.entering b i ++ if e.subscriber = b ∧ e.input = i then [a.nextId] else [] := by
  simp [entering, select_add]

theorem Sound.leaving_erase (h : a.Sound) (hg : a.get? id = some e) (b : BlockId) (o : String) :
    (a.erase id e).leaving b o = if e.publisher = b ∧ e.output = o
      then (a.leaving b o).filter (· ≠ id) else a.leaving b o := by
  simp [leaving, h.select_erase_edge hg]

theorem Sound.entering_erase (h : a.Sound) (hg : a.get? id = some e) (b : BlockId) (i : String) :
    (a.erase id e).entering b i = if e.subscriber = b ∧ e.input = i
      then (a.entering b i).filter (· ≠ id) else a.entering b i := by
  simp [entering, h.select_erase_edge hg]

end Patchbay.Arena
