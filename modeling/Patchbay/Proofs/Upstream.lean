import Patchbay.Blocks.Builtin
import Patchbay.Proofs.Interior
import Patchbay.Proofs.Paths

/-! Which blocks of a round can still feed a block. The search for a path comes to an end in every
state of a run, also where the wiring has cycles and parallel edges, so the bound on its steps is
never met. -/

namespace Patchbay.Graph

variable {β : Type} {g k : Graph β} {target : BlockId}

/-- The search without a bound: from a stack and the subscriptions followed so far it gives an
answer after a number of steps. -/
inductive Explores (g : Graph β) (target : BlockId) :
    Nat → List BlockId → List SubscriptionId → Bool → Prop
  | exhausted {visited : List SubscriptionId} : Explores g target 0 [] visited false
  | found {id : BlockId} {stack : List BlockId} {visited : List SubscriptionId} :
    target ∈ g.found visited id → Explores g target 1 (id :: stack) visited true
  | step {n : Nat} {id : BlockId} {stack : List BlockId} {visited : List SubscriptionId}
    {answer : Bool} :
    target ∉ g.found visited id →
    Explores g target n ((g.found visited id).reverse ++ stack) (g.fresh visited id ++ visited)
      answer →
    Explores g target (n + 1) (id :: stack) visited answer

theorem Explores.unique {n m : Nat} {stack : List BlockId} {visited : List SubscriptionId}
    {answer answer' : Bool} (he : g.Explores target n stack visited answer)
    (he' : g.Explores target m stack visited answer') : n = m ∧ answer = answer' := by
  induction he generalizing m with
  | exhausted =>
    cases he'
    exact ⟨rfl, rfl⟩
  | found hm =>
    cases he' with
    | found => exact ⟨rfl, rfl⟩
    | step hn => exact absurd hm hn
  | step hn _ ih =>
    cases he' with
    | found hm => exact absurd hm hn
    | step _ he' =>
      obtain ⟨rfl, rfl⟩ := ih he'
      exact ⟨rfl, rfl⟩

/-- Each step takes a block from the stack and puts one there for a subscription not followed
before, so there are no more steps than blocks on the stack and subscriptions left. -/
theorem Wired.exists_explores (hw : g.Wired) (target : BlockId) {steps : Nat}
    {stack : List BlockId} {visited : List SubscriptionId}
    (hlen : stack.length + (g.unvisited visited).length ≤ steps) :
    ∃ n ≤ steps, g.Explores target n stack visited (g.search target steps stack visited) := by
  induction steps generalizing stack visited with
  | zero =>
    obtain rfl : stack = [] := List.length_eq_zero_iff.mp (by omega)
    exact ⟨0, Nat.le_refl _, .exhausted⟩
  | succ steps ih =>
    cases stack with
    | nil => exact ⟨0, Nat.zero_le _, .exhausted⟩
    | cons id stack =>
      rw [search_cons]
      by_cases hm : target ∈ g.found visited id
      · rw [if_pos (List.contains_iff_mem.mpr hm)]
        exact ⟨1, by omega, .found hm⟩
      · have hfresh := hw.length_unvisited visited id
        have hfound : (g.found visited id).length ≤ (g.fresh visited id).length := by
          rw [found, List.length_map]
          exact List.length_filterMap_le _ _
        rw [if_neg (fun hc => hm (List.contains_iff_mem.mp hc))]
        have hrest : ((g.found visited id).reverse ++ stack).length +
            (g.unvisited (g.fresh visited id ++ visited)).length ≤ steps := by
          simp only [List.length_append, List.length_reverse, List.length_cons] at *
          omega
        obtain ⟨n, hle, he⟩ := ih hrest
        exact ⟨n + 1, by omega, .step hm he⟩

open Classical in
theorem Wired.incoming_eq (hw : k.Wired) (target : BlockId) : k.incoming target =
    k.processing.filter fun id => id ≠ target ∧ k.LeadsTo id target := by
  refine List.filter_congr fun id _ => ?_
  rw [Bool.eq_iff_iff]
  simp [hw.reaches_iff]

variable [Behaviour β]

open Classical in
/-- In every state of a run the search comes to an end within the steps that it is given, with its
only answer, and finds the blocks of a round, whichever they are, from which a path of subscriptions
leads to the target, in the order of the round. -/
theorem Reachable.incoming_exact (hr : g.Reachable) (ho : g.Occurs k) (target : BlockId) :
    (∀ source, ∃ n ≤ k.arena.size + 1, ∀ m answer,
      k.Explores target m [source] [] answer ↔ m = n ∧ answer = k.reaches source target) ∧
    ∀ round : List BlockId, ({ k with processing := round } : Graph β).incoming target =
      round.filter fun id => id ≠ target ∧ k.LeadsTo id target := by
  have hw : k.Wired := hr.ready.wired_occurs ho
  refine ⟨fun source => ?_, fun round => ?_⟩
  · have hlen : [source].length + (k.unvisited []).length ≤ k.arena.size + 1 := by
      simp [unvisited, Arena.size, Nat.add_comm]
    obtain ⟨n, hle, he⟩ := hw.exists_explores target hlen
    refine ⟨n, hle, fun m answer => ⟨fun he' => he'.unique he, ?_⟩⟩
    rintro ⟨rfl, rfl⟩
    exact he
  · have hround : ({ k with processing := round } : Graph β).Wired := hw.of_layout rfl
    exact hround.incoming_eq target

/-- A source feeds a block that forwards to both inputs of a comparison, and the comparison feeds
that block back. -/
def doubledLoop : List (Operation Builtin) :=
  [.add (.source (.bool true)), .add .forward, .add .compare,
    .subscribe ⟨1⟩ defaultInput ⟨0⟩ Builtin.dataName,
    .subscribe ⟨2⟩ Builtin.valuesInput ⟨1⟩ defaultOutput,
    .subscribe ⟨2⟩ Builtin.compareInput ⟨1⟩ defaultOutput,
    .subscribe ⟨1⟩ defaultInput ⟨2⟩ Builtin.equalOutput]

open Classical in
theorem incoming_exact_in_doubledLoop : ∃ g k : Graph Builtin,
    performAll 1 doubledLoop (.new .standard) = some g ∧ g.Occurs k ∧ k.processing = [⟨1⟩] ∧
    (∀ source, ∃ n ≤ 5, ∀ m answer,
      k.Explores ⟨1⟩ m [source] [] answer ↔ m = n ∧ answer = k.reaches source ⟨1⟩) ∧
    ([⟨2⟩, ⟨0⟩, ⟨1⟩].filter fun id => id ≠ ⟨1⟩ ∧ k.LeadsTo id ⟨1⟩) = [⟨2⟩, ⟨0⟩] ∧
    ([⟨0⟩, ⟨1⟩, ⟨2⟩].filter fun id => id ≠ ⟨0⟩ ∧ k.LeadsTo id ⟨0⟩) = [] := by
  have hdec : (performAll 1 doubledLoop (.new .standard)).any (fun g =>
      (g.course 9 3).any fun μ => μ.graph.processing = [⟨1⟩] ∧ μ.graph.arena.size = 4 ∧
        ({ μ.graph with processing := [⟨2⟩, ⟨0⟩, ⟨1⟩] } : Graph Builtin).incoming ⟨1⟩ =
          [⟨2⟩, ⟨0⟩] ∧
        ({ μ.graph with processing := [⟨0⟩, ⟨1⟩, ⟨2⟩] } : Graph Builtin).incoming ⟨0⟩ =
          []) = true := by decide +kernel
  obtain ⟨g, hg, hp⟩ := (Option.any_eq_true _ _).mp hdec
  obtain ⟨μ, hμ, hq⟩ := (Option.any_eq_true _ _).mp hp
  obtain ⟨hround, hsize, hloop, hsource⟩ := of_decide_eq_true hq
  have hr : g.Reachable := Reachable.performAll (.new _) hg
  have ho : g.Occurs μ.graph := .between (visits_of_course hμ)
  obtain ⟨hends, hsecond⟩ := Reachable.incoming_exact hr ho ⟨1⟩
  obtain ⟨-, hfirst⟩ := Reachable.incoming_exact hr ho ⟨0⟩
  rw [hsize] at hends
  exact ⟨g, μ.graph, hg, ho, hround, hends, (hsecond _).symm.trans hloop,
    (hfirst _).symm.trans hsource⟩

end Patchbay.Graph
