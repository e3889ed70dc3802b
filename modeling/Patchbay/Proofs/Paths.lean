import Patchbay.Proofs.Delivery
import Mathlib.Data.List.Flatten
import Mathlib.Data.List.Perm.Subperm
import Mathlib.Logic.Relation

/-! Paths of subscriptions, and the search for them. The search follows each edge once and finds a
block exactly when a path of at least one edge leads to it. -/

namespace Patchbay.Graph

variable {α β : Type} {g : Graph β} {source target : BlockId}

def Feeds (g : Graph β) (source target : BlockId) : Prop :=
  ∃ s edge, g.arena.get? s = some edge ∧ edge.publisher = source ∧ edge.subscriber = target

/-- Whether a path of at least one edge leads from one block to another. -/
abbrev LeadsTo (g : Graph β) : BlockId → BlockId → Prop := Relation.TransGen g.Feeds

theorem feeds_congr {g : Graph α} {h : Graph β} (hl : h.layout = g.layout) : h.Feeds = g.Feeds := by
  funext source target
  simp only [Feeds, arena_congr hl]

theorem leadsTo_congr {g : Graph α} {h : Graph β} (hl : h.layout = g.layout) :
    h.LeadsTo = g.LeadsTo := by
  simp only [LeadsTo, feeds_congr hl]

theorem Wired.mem_departures_iff (hw : g.Wired) {id : BlockId} {s : SubscriptionId} :
    s ∈ g.departures id ↔ ∃ edge, g.arena.get? s = some edge ∧ edge.publisher = id := by
  cases he : g.slot? id with
  | none =>
    constructor
    · intro hm
      simp [departures, node, he] at hm
    · rintro ⟨edge, hs, rfl⟩
      obtain ⟨e, he', -⟩ := hw.exists_publisher hs
      rw [he] at he'
      cases he'
  | some e =>
    simp only [departures, node, he, List.mem_flatMap, hw.subscribers_list he]
    constructor
    · rintro ⟨output, -, hm⟩
      obtain ⟨edge, hs, hp⟩ := Arena.mem_select.mp hm
      exact ⟨edge, hw.arena.get?_eq_some_iff.mpr hs, (of_decide_eq_true hp).1⟩
    · rintro ⟨edge, hs, rfl⟩
      obtain ⟨e', he', ho⟩ := hw.exists_publisher hs
      rw [he] at he'
      cases he'
      refine ⟨edge.output, ho, Arena.mem_select.mpr ⟨edge, ?_, by simp⟩⟩
      exact hw.arena.get?_eq_some_iff.mp hs

theorem Wired.nodup_departures (hw : g.Wired) (id : BlockId) : (g.departures id).Nodup := by
  cases he : g.slot? id with
  | none => simp [departures, node, he]
  | some e =>
    simp only [departures, node, he]
    have hports := (hw.ports id _ (wiring_of_slot? he)).2
    refine List.nodup_flatMap.mpr ⟨fun output _ => ?_, hports.imp fun {o o'} hne => ?_⟩
    · rw [hw.subscribers_list he]
      exact (hw.arena.select_rising _).imp fun hlt heq => by rw [heq] at hlt; omega
    · intro s hs hs'
      rw [hw.subscribers_list he] at hs hs'
      obtain ⟨edge, hm, hp⟩ := Arena.mem_select.mp hs
      have hp' := (hw.arena.mem_select_iff hm).mp hs'
      exact hne ((of_decide_eq_true hp).2.symm.trans (of_decide_eq_true hp').2)

/-! One step of the search -/

def fresh (g : Graph β) (visited : List SubscriptionId) (id : BlockId) : List SubscriptionId :=
  (g.departures id).filter (!visited.contains ·)

def found (g : Graph β) (visited : List SubscriptionId) (id : BlockId) : List BlockId :=
  ((g.fresh visited id).filterMap g.arena.get?).map Edge.subscriber

theorem search_cons (g : Graph β) (target id : BlockId) (steps : Nat) (stack : List BlockId)
    (visited : List SubscriptionId) : g.search target (steps + 1) (id :: stack) visited =
      if (g.found visited id).contains target then true
      else g.search target steps ((g.found visited id).reverse ++ stack)
        (g.fresh visited id ++ visited) :=
  rfl

theorem mem_fresh {visited : List SubscriptionId} {id : BlockId} {s : SubscriptionId} :
    s ∈ g.fresh visited id ↔ s ∈ g.departures id ∧ s ∉ visited := by
  simp [fresh]

theorem mem_found {visited : List SubscriptionId} {id x : BlockId} :
    x ∈ g.found visited id ↔
      ∃ s ∈ g.fresh visited id, ∃ edge, g.arena.get? s = some edge ∧ edge.subscriber = x := by
  simp only [found, List.mem_map, List.mem_filterMap]
  constructor
  · rintro ⟨edge, ⟨s, hs, hget⟩, rfl⟩
    exact ⟨s, hs, edge, hget, rfl⟩
  · rintro ⟨s, hs, edge, hget, rfl⟩
    exact ⟨edge, ⟨s, hs, hget⟩, rfl⟩

/-! The search finds nothing but paths -/

theorem Wired.leadsTo_of_search (hw : g.Wired) {steps : Nat} {stack : List BlockId}
    {visited : List SubscriptionId} (hs : g.search target steps stack visited = true) :
    ∃ x ∈ stack, g.LeadsTo x target := by
  induction steps generalizing stack visited with
  | zero => simp [search] at hs
  | succ steps ih =>
    cases stack with
    | nil => simp [search] at hs
    | cons id stack =>
      have hfeeds : ∀ x ∈ g.found visited id, g.Feeds id x := by
        intro x hx
        obtain ⟨s, hs, edge, hget, rfl⟩ := mem_found.mp hx
        obtain ⟨edge', hget', hp⟩ := hw.mem_departures_iff.mp (mem_fresh.mp hs).1
        cases hget.symm.trans hget'
        exact ⟨s, edge, hget, hp, rfl⟩
      rw [search_cons] at hs
      split at hs
      · next hc =>
        exact ⟨id, List.mem_cons_self, .single (hfeeds target (List.contains_iff_mem.mp hc))⟩
      · obtain ⟨x, hx, hpath⟩ := ih hs
        rcases List.mem_append.mp hx with hx | hx
        · exact ⟨id, List.mem_cons_self, .head (hfeeds x (List.mem_reverse.mp hx)) hpath⟩
        · exact ⟨x, List.mem_cons_of_mem _ hx, hpath⟩

/-! The search finds every path -/

def unvisited (g : Graph β) (visited : List SubscriptionId) : List SubscriptionId :=
  (g.arena.entries.map Prod.fst).filter (!visited.contains ·)

theorem mem_unvisited {visited : List SubscriptionId} {s : SubscriptionId} :
    s ∈ g.unvisited visited ↔ s ∈ g.arena.entries.map Prod.fst ∧ s ∉ visited := by
  simp only [unvisited, List.mem_filter, Bool.not_eq_true', List.contains_eq_mem,
    decide_eq_false_iff_not]

theorem Wired.length_unvisited (hw : g.Wired) (visited : List SubscriptionId) (id : BlockId) :
    (g.fresh visited id).length + (g.unvisited (g.fresh visited id ++ visited)).length ≤
      (g.unvisited visited).length := by
  have hn : (g.fresh visited id ++ g.unvisited (g.fresh visited id ++ visited)).Nodup := by
    refine List.nodup_append.mpr ⟨(hw.nodup_departures id).filter _,
      hw.arena.nodup_fst.filter _, fun s hs t ht hst => ?_⟩
    exact (mem_unvisited.mp ht).2 (List.mem_append_left _ (hst ▸ hs))
  rw [← List.length_append]
  refine (List.subperm_of_subset hn fun s hs => ?_).length_le
  rcases List.mem_append.mp hs with hs | hs
  · obtain ⟨hm, hv⟩ := mem_fresh.mp hs
    obtain ⟨edge, hget, -⟩ := hw.mem_departures_iff.mp hm
    have hentry := hw.arena.get?_eq_some_iff.mp hget
    exact mem_unvisited.mpr ⟨List.mem_map.mpr ⟨(s, edge), hentry, rfl⟩, hv⟩
  · obtain ⟨hm, hv⟩ := mem_unvisited.mp hs
    exact mem_unvisited.mpr ⟨hm, fun h => hv (List.mem_append_right _ h)⟩

/-- What holds between two steps of the search: the edges that leave an expanded block are visited,
and where a visited edge ends there is no target but a block that is expanded or waits on the
stack. -/
structure Searched (g : Graph β) (target : BlockId) (expanded : BlockId → Prop)
    (stack : List BlockId) (visited : List SubscriptionId) : Prop where
  departed : ∀ x, expanded x → ∀ s ∈ g.departures x, s ∈ visited
  arrived : ∀ s ∈ visited, ∀ edge, g.arena.get? s = some edge →
    edge.subscriber ≠ target ∧ (expanded edge.subscriber ∨ edge.subscriber ∈ stack)

theorem Searched.step {expanded : BlockId → Prop} {id : BlockId} {stack : List BlockId}
    {visited : List SubscriptionId} (hi : g.Searched target expanded (id :: stack) visited)
    (hc : target ∉ g.found visited id) :
    g.Searched target (fun x => expanded x ∨ x = id) ((g.found visited id).reverse ++ stack)
      (g.fresh visited id ++ visited) where
  departed x hx s hs := by
    rcases hx with hx | rfl
    · exact List.mem_append_right _ (hi.departed x hx s hs)
    · by_cases hv : s ∈ visited
      · exact List.mem_append_right _ hv
      · exact List.mem_append_left _ (mem_fresh.mpr ⟨hs, hv⟩)
  arrived s hs edge hget := by
    rcases List.mem_append.mp hs with hs | hs
    · have hm : edge.subscriber ∈ g.found visited id := mem_found.mpr ⟨s, hs, edge, hget, rfl⟩
      exact ⟨fun heq => hc (heq ▸ hm), Or.inr (List.mem_append_left _ (List.mem_reverse.mpr hm))⟩
    · obtain ⟨hne, hexp | hm⟩ := hi.arrived s hs edge hget
      · exact ⟨hne, Or.inl (Or.inl hexp)⟩
      · rcases List.mem_cons.mp hm with heq | hm
        · exact ⟨hne, Or.inl (Or.inr heq)⟩
        · exact ⟨hne, Or.inr (List.mem_append_right _ hm)⟩

/-- Blocks from which no edge leads out, nor to the target. -/
def Closed (g : Graph β) (target : BlockId) (p : BlockId → Prop) : Prop :=
  ∀ x y, p x → g.Feeds x y → y ≠ target ∧ p y

theorem Closed.not_leadsTo {p : BlockId → Prop} (hc : g.Closed target p) (hp : p source) :
    ¬g.LeadsTo source target := by
  have hkeep : ∀ y, g.LeadsTo source y → y ≠ target ∧ p y := by
    intro y hy
    induction hy with
    | single hf => exact hc source _ hp hf
    | tail _ hf ih => exact hc _ _ ih.2 hf
  exact fun hpath => (hkeep target hpath).1 rfl

theorem Searched.closed (hw : g.Wired) {expanded : BlockId → Prop} {visited : List SubscriptionId}
    (hi : g.Searched target expanded [] visited) : g.Closed target expanded := by
  rintro x y hx ⟨s, edge, hget, hp, rfl⟩
  have hv := hi.departed x hx s (hw.mem_departures_iff.mpr ⟨edge, hget, hp⟩)
  obtain ⟨hne, hexp⟩ := hi.arrived s hv edge hget
  exact ⟨hne, hexp.resolve_right List.not_mem_nil⟩

/-- A search that fails has expanded its stack to a closed set of blocks. -/
theorem Wired.exists_closed_of_search (hw : g.Wired) {steps : Nat} {stack : List BlockId}
    {visited : List SubscriptionId} {expanded : BlockId → Prop}
    (hi : g.Searched target expanded stack visited)
    (hlen : stack.length + (g.unvisited visited).length ≤ steps)
    (hs : g.search target steps stack visited = false) :
    ∃ p, g.Closed target p ∧ (∀ x, expanded x → p x) ∧ ∀ x ∈ stack, p x := by
  induction steps generalizing stack visited expanded with
  | zero =>
    obtain rfl : stack = [] := List.length_eq_zero_iff.mp (by omega)
    exact ⟨expanded, hi.closed hw, fun _ hx => hx, fun _ hx => absurd hx List.not_mem_nil⟩
  | succ steps ih =>
    cases stack with
    | nil => exact ⟨expanded, hi.closed hw, fun _ hx => hx, fun _ hx => absurd hx List.not_mem_nil⟩
    | cons id stack =>
      rw [search_cons] at hs
      split at hs
      · cases hs
      · next hc =>
        -- A step takes one block from the stack and puts at most one there for each edge it visits.
        have hfresh := hw.length_unvisited visited id
        have hfound : (g.found visited id).length ≤ (g.fresh visited id).length := by
          rw [found, List.length_map]
          exact List.length_filterMap_le _ _
        have hnot : target ∉ g.found visited id := fun hm => hc (List.contains_iff_mem.mpr hm)
        obtain ⟨p, hp, hexp, hstack⟩ := ih (hi.step hnot)
          (by simp only [List.length_append, List.length_reverse, List.length_cons] at *; omega) hs
        refine ⟨p, hp, fun x hx => hexp x (Or.inl hx), fun x hx => ?_⟩
        rcases List.mem_cons.mp hx with rfl | hx
        · exact hexp x (Or.inr rfl)
        · exact hstack x (List.mem_append_right _ hx)

theorem Wired.reaches_iff (hw : g.Wired) :
    g.reaches source target = true ↔ g.LeadsTo source target := by
  constructor
  · intro hs
    obtain ⟨x, hx, hpath⟩ := hw.leadsTo_of_search hs
    rwa [← List.mem_singleton.mp hx]
  · intro hpath
    by_contra hs
    have hlen : [source].length + (g.unvisited []).length ≤ g.arena.size + 1 := by
      simp [unvisited, Arena.size, Nat.add_comm]
    have hstart : g.Searched target (fun _ => False) [source] [] :=
      ⟨fun _ hx => hx.elim, fun _ hx => absurd hx List.not_mem_nil⟩
    obtain ⟨p, hp, -, hstack⟩ := hw.exists_closed_of_search hstart hlen (Bool.eq_false_iff.mpr hs)
    exact hp.not_leadsTo (hstack source List.mem_cons_self) hpath

theorem Wired.mem_incoming_iff (hw : g.Wired) {id : BlockId} :
    id ∈ g.incoming target ↔ id ∈ g.processing ∧ id ≠ target ∧ g.LeadsTo id target := by
  simp only [incoming, List.mem_filter, Bool.and_eq_true, decide_eq_true_eq, hw.reaches_iff]

/-! Lengths of paths -/

/-- Whether a path with this number of edges ends in a block. -/
inductive PathTo (g : Graph β) : Nat → BlockId → Prop
  | nil (id : BlockId) : PathTo g 0 id
  | snoc {n : Nat} {source target : BlockId} :
    PathTo g n source → g.Feeds source target → PathTo g (n + 1) target

theorem PathTo.of_succ {n : Nat} (hp : g.PathTo (n + 1) target) : g.PathTo n target := by
  induction n generalizing target with
  | zero => exact .nil target
  | succ n ih =>
    cases hp with
    | snoc hp hf => exact .snoc (ih hp) hf

theorem PathTo.leadsTo {n : Nat} (hp : g.PathTo n source) (hl : g.LeadsTo source target) :
    g.PathTo (n + 1) target := by
  induction hl with
  | single hf => exact .snoc hp hf
  | tail _ hf ih => exact (PathTo.snoc ih hf).of_succ

def Acyclic (g : Graph β) : Prop := ∀ id, ¬g.LeadsTo id id

/-- Subscriptions that only go to blocks added later make no cycle. -/
theorem Wired.acyclic_of_rising (hw : g.Wired)
    (hr : ∀ x ∈ g.arena.entries, x.2.publisher.index < x.2.subscriber.index) : g.Acyclic := by
  have hlt : ∀ x y, g.LeadsTo x y → x.index < y.index := by
    intro x y hpath
    induction hpath with
    | single hf =>
      obtain ⟨s, edge, hs, rfl, rfl⟩ := hf
      exact hr _ (hw.arena.get?_eq_some_iff.mp hs)
    | tail _ hf ih =>
      obtain ⟨s, edge, hs, rfl, rfl⟩ := hf
      exact Nat.lt_trans ih (hr _ (hw.arena.get?_eq_some_iff.mp hs))
  exact fun id hpath => Nat.lt_irrefl _ (hlt id id hpath)

/-- Without cycles the blocks of a path are all different. -/
theorem PathTo.exists_nodup (hw : g.Wired) (ha : g.Acyclic) {n : Nat} (hp : g.PathTo n target)
    (hl : (g.slot? target).isSome) : ∃ l : List BlockId, l.length = n + 1 ∧ l.Nodup ∧
      ∀ x ∈ l, (g.slot? x).isSome ∧ Relation.ReflTransGen g.Feeds x target := by
  induction hp with
  | nil id =>
    refine ⟨[id], rfl, List.nodup_singleton id, fun x hx => ?_⟩
    rw [List.mem_singleton.mp hx]
    exact ⟨hl, .refl⟩
  | @snoc n source target _ hf ih =>
    have hsource : (g.slot? source).isSome := by
      obtain ⟨s, edge, hs, rfl, -⟩ := hf
      exact hw.live_publisher hs
    obtain ⟨l, hlen, hn, hreach⟩ := ih hsource
    refine ⟨target :: l, by simp [hlen], List.nodup_cons.mpr ⟨fun hm => ?_, hn⟩, fun x hx => ?_⟩
    · exact ha target (Relation.TransGen.tail' (hreach target hm).2 hf)
    · rcases List.mem_cons.mp hx with rfl | hx
      · exact ⟨hl, .refl⟩
      · exact ⟨(hreach x hx).1, (hreach x hx).2.tail hf⟩

theorem PathTo.lt_size (hw : g.Wired) (ha : g.Acyclic) {n : Nat} (hp : g.PathTo n target)
    (hl : (g.slot? target).isSome) : n < g.size := by
  obtain ⟨l, hlen, hn, hreach⟩ := hp.exists_nodup hw ha hl
  have hsub : l ⊆ g.order := fun x hx => (hw.mem_order_iff x).mpr (hreach x hx).1
  have hle := (List.subperm_of_subset hn hsub).length_le
  rw [hlen] at hle
  exact hle

end Patchbay.Graph
