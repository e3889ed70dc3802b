import Patchbay.Proofs.Effects

/-! The course of a run, one invocation at a time. A run answers exactly when its course comes to an
end, and the amount of fuel does not matter for the answer. -/

namespace Patchbay

namespace Graph

variable {β : Type} [Behaviour β] {g h : Graph β} {id : BlockId}

/-! More fuel keeps an answer -/

theorem takeTurns_mono {fuel fuel' : Nat} {b : β} {waiting : Bool}
    {t : β × Except GraphError Unit × Bool × Graph β} (hle : fuel ≤ fuel')
    (ht : takeTurns id fuel b waiting g = some t) : takeTurns id fuel' b waiting g = some t := by
  induction fuel generalizing b waiting g fuel' with
  | zero => cases ht
  | succ fuel ih =>
    obtain ⟨n, rfl⟩ : ∃ n, fuel' = n + 1 := ⟨fuel' - 1, by omega⟩
    unfold takeTurns at ht ⊢
    cases hturn : (Behaviour.process id b).run id waiting g with
    | again b₁ waiting₁ g₁ =>
      simp only [hturn] at ht ⊢
      exact ih (by omega) ht
    | finished b₁ result waiting₁ g₁ =>
      simp only [hturn] at ht ⊢
      exact ht

theorem invoke_mono {fuel fuel' : Nat} {reply : Reply β Bool} (hle : fuel ≤ fuel')
    (hi : g.invoke fuel id = some reply) : g.invoke fuel' id = some reply := by
  cases hb : g.behaviour? id with
  | none => rwa [invoke_eq_unknown hb] at hi ⊢
  | some b =>
    rw [invoke_eq hb] at hi ⊢
    obtain ⟨t, ht, rfl⟩ := Option.map_eq_some_iff.mp hi
    rw [takeTurns_mono hle ht]
    rfl

theorem invoke_unique {fuel fuel' : Nat} {reply reply' : Reply β Bool}
    (hi : g.invoke fuel id = some reply) (hi' : g.invoke fuel' id = some reply') :
    reply = reply' := by
  have hmax := invoke_mono (Nat.le_max_left fuel fuel') hi
  rw [invoke_mono (Nat.le_max_right fuel fuel') hi'] at hmax
  exact (Option.some.inj hmax).symm

theorem runRound_mono {fuel fuel' : Nat} {ids : List BlockId} {reply : Reply β Nat}
    (hle : fuel ≤ fuel') (hr : runRound fuel ids g = some reply) :
    runRound fuel' ids g = some reply := by
  induction ids generalizing g reply with
  | nil => exact hr
  | cons id rest ih =>
    unfold runRound at hr ⊢
    cases hi : g.invoke fuel id with
    | none => simp [hi] at hr
    | some answer =>
      rw [invoke_mono hle hi]
      rw [hi] at hr
      cases answer with
      | error err k => exact hr
      | ok waiting k =>
        simp only [endTurn_invoke hi] at hr ⊢
        cases hrest : runRound fuel rest (k.settle id waiting) with
        | none => simp [hrest] at hr
        | some answer =>
          rw [ih hrest]
          rwa [hrest] at hr

theorem runRounds_mono {fuel fuel' rounds rounds' : Nat} {report : RunReport}
    {answer : RunReport × Reply β Unit} (hle : fuel ≤ fuel') (hle' : rounds ≤ rounds')
    (hr : runRounds fuel rounds report g = some answer) :
    runRounds fuel' rounds' report g = some answer := by
  induction rounds generalizing rounds' report g with
  | zero => cases hr
  | succ rounds ih =>
    obtain ⟨n, rfl⟩ : ∃ n, rounds' = n + 1 := ⟨rounds' - 1, by omega⟩
    unfold runRounds at hr ⊢
    split at hr
    · next hq => rwa [if_pos hq]
    · next hq =>
      rw [if_neg hq]
      split at hr
      · next hl => rwa [if_pos hl]
      · next hl =>
        rw [if_neg hl]
        dsimp only at hr ⊢
        split at hr
        · cases hr
        · next hround =>
          rw [runRound_mono hle hround]
          exact hr
        · next hround =>
          rw [runRound_mono hle hround]
          exact ih (by omega) hr

def closeRun (report : RunReport) : Reply β Unit → Reply β RunReport
  | .ok () g => .ok report ({ g with processing := [] }.notify (.runFinished report))
  | .error e g => .error e ({ g with processing := [] }.abortRun report e)

theorem run_eq (g : Graph β) (fuel : Nat) :
    g.run fuel = (runRounds fuel fuel ⟨0, 0⟩ g.startRun).map fun x => closeRun x.1 x.2 := by
  unfold run
  split <;> rename_i hr <;> rw [hr] <;> rfl

def limited (g : Graph β) (report : RunReport) : Bool :=
  g.settings.maxRounds.any (· ≤ report.rounds)

end Graph

/-- A point of a run between two invocations. -/
structure Moment (β : Type) where
  graph : Graph β
  report : RunReport
  /-- The blocks of the round in progress that are still to be invoked. -/
  pending : List BlockId

namespace Moment

variable {β : Type} [Behaviour β] {μ ν : Moment β}

inductive Step : Moment β → Moment β → Prop
  | start {g : Graph β} {report : RunReport} :
    g.receivers ≠ [] → g.limited report = false →
    Step ⟨g, report, []⟩
      ⟨g.startRound (report.rounds + 1), { report with rounds := report.rounds + 1 }, g.receivers⟩
  | invoke {g h : Graph β} {report : RunReport} {id : BlockId} {rest : List BlockId} {fuel : Nat}
    {waiting : Bool} :
    g.invoke fuel id = some (.ok waiting h) →
    Step ⟨g, report, id :: rest⟩
      ⟨h.settle id waiting, { report with processed := report.processed + 1 }, rest⟩

inductive Ends : Moment β → Reply β Unit → Prop
  | quiet {g : Graph β} {report : RunReport} :
    g.receivers = [] → Ends ⟨g, report, []⟩ (.ok () g)
  | limit {g : Graph β} {report : RunReport} :
    g.receivers ≠ [] → g.limited report = true →
    Ends ⟨g, report, []⟩ (.error (.notConverged report.rounds) g)
  | failure {g h : Graph β} {report : RunReport} {id : BlockId} {rest : List BlockId} {fuel : Nat}
    {err : GraphError} :
    g.invoke fuel id = some (.error err h) → Ends ⟨g, report, id :: rest⟩ (.error err h)

theorem Step.unique {ν' : Moment β} (hs : μ.Step ν) (hs' : μ.Step ν') : ν = ν' := by
  cases hs with
  | start =>
    cases hs'
    rfl
  | invoke hi =>
    cases hs' with
    | invoke hi' =>
      cases Graph.invoke_unique hi hi'
      rfl

theorem Ends.not_step {r : Reply β Unit} (he : μ.Ends r) : ¬μ.Step ν := by
  intro hs
  cases he with
  | quiet hr =>
    cases hs with
    | start hne => exact hne hr
  | limit _ hl =>
    cases hs with
    | start _ hl' => simp [hl] at hl'
  | failure hi =>
    cases hs with
    | invoke hi' => cases Graph.invoke_unique hi hi'

/-- `Step`, computed with an amount of fuel. -/
def next? (fuel : Nat) : Moment β → Option (Moment β)
  | ⟨g, report, []⟩ =>
    if g.receivers = [] ∨ g.limited report = true then none
    else some
      ⟨g.startRound (report.rounds + 1), { report with rounds := report.rounds + 1 }, g.receivers⟩
  | ⟨g, report, id :: rest⟩ =>
    match g.invoke fuel id with
    | some (.ok waiting h) =>
      some ⟨h.settle id waiting, { report with processed := report.processed + 1 }, rest⟩
    | _ => none

theorem step_of_next? {fuel : Nat} (hn : μ.next? fuel = some ν) : μ.Step ν := by
  obtain ⟨g, report, _ | ⟨id, rest⟩⟩ := μ
  · simp only [next?] at hn
    split at hn
    · cases hn
    · next h =>
      cases hn
      obtain ⟨hr, hl⟩ := not_or.mp h
      exact .start hr (Bool.eq_false_iff.mpr hl)
  · simp only [next?] at hn
    split at hn
    · next hi =>
      cases hn
      exact .invoke hi
    · cases hn

theorem Step.exists_next? (hs : μ.Step ν) : ∃ fuel, μ.next? fuel = some ν := by
  cases hs with
  | @start g report hr hl => exact ⟨0, by simp [next?, hr, hl]⟩
  | @invoke g h report id rest fuel waiting hi => exact ⟨fuel, by simp [next?, hi]⟩

/-- A run goes on, ends, or invokes a block that takes turns for ever. -/
theorem step_or_ends (μ : Moment β) : (∃ ν, μ.Step ν) ∨ (∃ r, μ.Ends r) ∨
    ∃ id rest, μ.pending = id :: rest ∧ ∀ fuel, μ.graph.invoke fuel id = none := by
  obtain ⟨g, report, _ | ⟨id, rest⟩⟩ := μ
  · by_cases hr : g.receivers = []
    · exact Or.inr (Or.inl ⟨_, .quiet hr⟩)
    · cases hl : g.limited report with
      | true => exact Or.inr (Or.inl ⟨_, .limit hr hl⟩)
      | false => exact Or.inl ⟨_, .start hr hl⟩
  · by_cases hn : ∀ fuel, g.invoke fuel id = none
    · exact Or.inr (Or.inr ⟨id, rest, rfl, hn⟩)
    · obtain ⟨fuel, hf⟩ := not_forall.mp hn
      obtain ⟨reply, hi⟩ := Option.ne_none_iff_exists'.mp hf
      cases reply with
      | ok waiting h => exact Or.inl ⟨_, .invoke hi⟩
      | error err h => exact Or.inr (Or.inl ⟨_, .failure hi⟩)

/-! Runs and their courses -/

def resume (μ : Moment β) (fuel rounds : Nat) : Option (Reply β RunReport) :=
  match Graph.runRound fuel μ.pending μ.graph with
  | none => none
  | some (.error e g) => some (Graph.closeRun μ.report (.error e g))
  | some (.ok count g) =>
    (Graph.runRounds fuel rounds { μ.report with processed := μ.report.processed + count } g).map
      fun x => Graph.closeRun x.1 x.2

theorem resume_mono {fuel fuel' rounds rounds' : Nat} {reply : Reply β RunReport}
    (hle : fuel ≤ fuel') (hle' : rounds ≤ rounds') (hr : μ.resume fuel rounds = some reply) :
    μ.resume fuel' rounds' = some reply := by
  unfold resume at hr ⊢
  split at hr
  · cases hr
  · next hround => rwa [Graph.runRound_mono hle hround]
  · next hround =>
    obtain ⟨x, hx, rfl⟩ := Option.map_eq_some_iff.mp hr
    rw [Graph.runRound_mono hle hround]
    simp [Graph.runRounds_mono hle hle' hx]

theorem resume_nil (g : Graph β) (report : RunReport) (fuel rounds : Nat) :
    (Moment.mk g report []).resume fuel rounds =
      (Graph.runRounds fuel rounds report g).map fun x => Graph.closeRun x.1 x.2 := rfl

theorem resume_start {g : Graph β} {report : RunReport} (hne : g.receivers ≠ [])
    (hl : g.limited report = false) (fuel rounds : Nat) :
    (Moment.mk g report []).resume fuel (rounds + 1) =
      (Moment.mk (g.startRound (report.rounds + 1))
        { report with rounds := report.rounds + 1 } g.receivers).resume fuel rounds := by
  have hq : g.receivers.isEmpty = false := by simpa using hne
  unfold Graph.limited at hl
  rw [resume_nil]
  unfold Graph.runRounds resume
  simp only [hq, hl, Bool.false_eq_true, if_false]
  have hp : (g.startRound (report.rounds + 1)).processing = g.receivers := rfl
  rw [hp]
  cases Graph.runRound fuel g.receivers (g.startRound (report.rounds + 1)) with
  | none => rfl
  | some answer => cases answer <;> rfl

theorem resume_invoke {g h : Graph β} {report : RunReport} {id : BlockId} {rest : List BlockId}
    {fuel : Nat} {waiting : Bool} (hi : g.invoke fuel id = some (.ok waiting h)) (rounds : Nat) :
    (Moment.mk g report (id :: rest)).resume fuel rounds =
      (Moment.mk (h.settle id waiting) { report with processed := report.processed + 1 }
        rest).resume fuel rounds := by
  unfold resume
  simp only [Graph.runRound, hi, Graph.endTurn_invoke hi]
  cases Graph.runRound fuel rest (h.settle id waiting) with
  | none => rfl
  | some answer =>
    cases answer with
    | error err k => rfl
    | ok count k => simp [Nat.add_assoc, Nat.add_comm 1]

theorem Step.resume (hs : μ.Step ν) {reply : Reply β RunReport}
    (hr : ∃ fuel rounds, ν.resume fuel rounds = some reply) :
    ∃ fuel rounds, μ.resume fuel rounds = some reply := by
  obtain ⟨fuel, rounds, hr⟩ := hr
  cases hs with
  | start hne hl => exact ⟨fuel, rounds + 1, (resume_start hne hl fuel rounds).trans hr⟩
  | invoke hi =>
    rename_i fuel' waiting
    refine ⟨max fuel fuel', rounds, ?_⟩
    rw [resume_invoke (Graph.invoke_mono (Nat.le_max_right _ _) hi)]
    exact resume_mono (Nat.le_max_left _ _) (Nat.le_refl _) hr

theorem Ends.resume {r : Reply β Unit} (he : μ.Ends r) :
    ∃ fuel rounds, μ.resume fuel rounds = some (Graph.closeRun μ.report r) := by
  cases he with
  | quiet hr => exact ⟨0, 1, by simp [resume_nil, Graph.runRounds, hr]⟩
  | limit hr hl =>
    unfold Graph.limited at hl
    exact ⟨0, 1, by simp [resume_nil, Graph.runRounds, hr, hl]⟩
  | failure hi =>
    rename_i fuel err
    exact ⟨fuel, 0, by simp [Moment.resume, Graph.runRound, hi]⟩

theorem resume_of_course {r : Reply β Unit} (hc : Relation.ReflTransGen Step μ ν)
    (he : ν.Ends r) : ∃ fuel rounds, μ.resume fuel rounds =
      some (Graph.closeRun ν.report r) := by
  induction hc using Relation.ReflTransGen.head_induction_on with
  | refl => exact he.resume
  | head hs _ ih => exact hs.resume ih

theorem resume_pending {fuel rounds : Nat} {reply : Reply β RunReport}
    (hr : μ.resume fuel rounds = some reply) : ∃ ν, Relation.ReflTransGen Step μ ν ∧
      ((∃ r, ν.Ends r ∧ reply = Graph.closeRun ν.report r) ∨
        ν.pending = [] ∧ ν.resume fuel rounds = some reply) := by
  obtain ⟨g, report, pending⟩ := μ
  induction pending generalizing g report with
  | nil => exact ⟨_, .refl, Or.inr ⟨rfl, hr⟩⟩
  | cons id rest ih =>
    cases hi : g.invoke fuel id with
    | none => simp [Moment.resume, Graph.runRound, hi] at hr
    | some answer =>
      cases answer with
      | error err h =>
        simp only [Moment.resume, Graph.runRound, hi, Option.some.injEq] at hr
        exact ⟨_, .refl, Or.inl ⟨_, .failure hi, hr.symm⟩⟩
      | ok waiting h =>
        rw [resume_invoke hi] at hr
        obtain ⟨ν, hν, hend⟩ := ih _ _ hr
        exact ⟨ν, .head (.invoke hi) hν, hend⟩

theorem exists_end_of_resume {fuel rounds : Nat} {reply : Reply β RunReport}
    (hr : μ.resume fuel rounds = some reply) : ∃ ν r, Relation.ReflTransGen Step μ ν ∧
      ν.Ends r ∧ reply = Graph.closeRun ν.report r := by
  induction rounds generalizing μ with
  | zero =>
    obtain ⟨ν, hν, ⟨r, he, hreply⟩ | ⟨hp, hν'⟩⟩ := resume_pending hr
    · exact ⟨ν, r, hν, he, hreply⟩
    · obtain ⟨g, report, pending⟩ := ν
      cases hp
      cases hν'
  | succ rounds ih =>
    obtain ⟨ν, hν, ⟨r, he, hreply⟩ | ⟨hp, hν'⟩⟩ := resume_pending hr
    · exact ⟨ν, r, hν, he, hreply⟩
    · rcases step_or_ends ν with ⟨ξ, hs⟩ | ⟨r, he⟩ | ⟨id, rest, hcons, -⟩
      · obtain ⟨g, report, pending⟩ := ν
        cases hp
        cases hs with
        | start hne hl =>
          rw [resume_start hne hl] at hν'
          obtain ⟨ο, r, hο, he, hreply⟩ := ih hν'
          exact ⟨ο, r, hν.trans (.head (.start hne hl) hο), he, hreply⟩
      · obtain ⟨fuel', rounds', hend⟩ := he.resume
        have hmax := resume_mono (Nat.le_max_left fuel fuel')
          (Nat.le_max_left (rounds + 1) rounds') hν'
        rw [resume_mono (Nat.le_max_right fuel fuel') (Nat.le_max_right (rounds + 1) rounds') hend]
          at hmax
        exact ⟨ν, r, hν, he, (Option.some.inj hmax).symm⟩
      · rw [hp] at hcons
        cases hcons

end Moment

namespace Graph

variable {β : Type} [Behaviour β] {g : Graph β}

/-- The moments of a run, whether or not the run comes to an end. -/
def Visits (g : Graph β) : Moment β → Prop :=
  Relation.ReflTransGen Moment.Step ⟨g.startRun, ⟨0, 0⟩, []⟩

/-- A turn within an invocation, after which the block takes another one. -/
def Turning (id : BlockId) (x y : β × Bool × Graph β) : Prop :=
  (Behaviour.process id x.1).run id x.2.1 x.2.2 = .again y.1 y.2.1 y.2.2

/-- The graphs that a run passes through: those between two invocations, and those between two turns
of an invocation, whether or not it comes to an end. -/
inductive Passes (g : Graph β) : Graph β → Prop
  | between {μ : Moment β} : g.Visits μ → Passes g μ.graph
  | within {μ : Moment β} {id : BlockId} {rest : List BlockId} {b : β} {x : β × Bool × Graph β} :
    g.Visits μ → μ.pending = id :: rest → μ.graph.behaviour? id = some b →
    Relation.ReflTransGen (Turning id) (b, false, μ.graph.setBehaviour id none) x →
    Passes g x.2.2

def course (g : Graph β) (fuel : Nat) : Nat → Option (Moment β)
  | 0 => some ⟨g.startRun, ⟨0, 0⟩, []⟩
  | n + 1 => (g.course fuel n).bind (·.next? fuel)

theorem visits_of_course {fuel n : Nat} {μ : Moment β} (hc : g.course fuel n = some μ) :
    g.Visits μ := by
  induction n generalizing μ with
  | zero =>
    cases hc
    exact .refl
  | succ n ih =>
    obtain ⟨ν, hν, hs⟩ := Option.bind_eq_some_iff.mp hc
    exact (ih hν).tail (Moment.step_of_next? hs)

/-- A run answers what the last moment of its course makes of it. -/
theorem run_eq_some_iff {reply : Reply β RunReport} : (∃ fuel, g.run fuel = some reply) ↔
    ∃ μ r, g.Visits μ ∧ μ.Ends r ∧ reply = closeRun μ.report r := by
  constructor
  · rintro ⟨fuel, hr⟩
    rw [run_eq, ← Moment.resume_nil] at hr
    exact Moment.exists_end_of_resume hr
  · rintro ⟨μ, r, hv, he, rfl⟩
    obtain ⟨fuel, rounds, hres⟩ := Moment.resume_of_course hv he
    refine ⟨max fuel rounds, ?_⟩
    rw [run_eq, ← Moment.resume_nil]
    exact Moment.resume_mono (Nat.le_max_left _ _) (Nat.le_max_right _ _) hres

/-- A run has one course: of two moments one comes after the other. -/
theorem Visits.total {μ ν : Moment β} (hμ : g.Visits μ) (hν : g.Visits ν) :
    Relation.ReflTransGen Moment.Step μ ν ∨ Relation.ReflTransGen Moment.Step ν μ :=
  Relation.ReflTransGen.total_of_right_unique (fun _ _ _ h h' => h.unique h') hμ hν

theorem Visits.before_end {μ ν : Moment β} {r : Reply β Unit} (hμ : g.Visits μ)
    (hν : g.Visits ν) (he : ν.Ends r) : Relation.ReflTransGen Moment.Step μ ν := by
  rcases hμ.total hν with h | h
  · exact h
  · obtain rfl : ν = μ := (Relation.ReflTransGen.cases_head h).resolve_right
      fun ⟨ξ, hs, _⟩ => he.not_step hs
    exact .refl

theorem run_eq_none_of_visits {μ : Moment β} {id : BlockId} {rest : List BlockId}
    (hv : g.Visits μ) (hp : μ.pending = id :: rest) (hn : ∀ fuel, μ.graph.invoke fuel id = none)
    (fuel : Nat) : g.run fuel = none := by
  have hstuck : ∀ ν, ¬μ.Step ν := by
    rintro ν hs
    cases hs with
    | start => cases hp
    | @invoke g h report id' rest' fuel waiting hi =>
      cases hp
      rw [hn fuel] at hi
      cases hi
  refine Option.eq_none_iff_forall_not_mem.mpr fun reply hr => ?_
  obtain ⟨ν, r, hν, he, -⟩ := run_eq_some_iff.mp ⟨fuel, hr⟩
  obtain rfl : μ = ν := (Relation.ReflTransGen.cases_head (hv.before_end hν he)).resolve_right
    fun ⟨ξ, hs, _⟩ => hstuck ξ hs
  cases he with
  | quiet | limit => cases hp
  | @failure k h report id' rest' fuel err hi =>
    cases hp
    rw [hn fuel] at hi
    cases hi

theorem exists_run_of_bounded {bound : Nat} (hb : ∀ μ, g.Visits μ → μ.report.rounds ≤ bound)
    (hi : ∀ μ id rest, g.Visits μ → μ.pending = id :: rest →
      ∃ fuel reply, μ.graph.invoke fuel id = some reply) :
    ∃ fuel reply, g.run fuel = some reply := by
  have hend : ∀ left (μ : Moment β), g.Visits μ → bound - μ.report.rounds = left →
      ∃ ν r, g.Visits ν ∧ ν.Ends r := by
    intro left
    induction left using Nat.strongRecOn with
    | _ left ih =>
      intro μ hv hleft
      obtain ⟨k, report, pending⟩ := μ
      induction pending generalizing k report with
      | nil =>
        rcases Moment.step_or_ends ⟨k, report, []⟩ with ⟨ν, hs⟩ | ⟨r, he⟩ | ⟨_, _, hcons, -⟩
        · have hv' : g.Visits ν := hv.tail hs
          have hle := hb ν hv'
          cases hs
          refine ih (bound - (report.rounds + 1)) ?_ _ hv' rfl
          dsimp only at hle hleft
          omega
        · exact ⟨_, r, hv, he⟩
        · cases hcons
      | cons id rest ihp =>
        rcases Moment.step_or_ends ⟨k, report, id :: rest⟩ with ⟨ν, hs⟩ | ⟨r, he⟩ |
          ⟨_, _, hcons, hn⟩
        · have hv' : g.Visits ν := hv.tail hs
          cases hs
          exact ihp _ _ hv' hleft
        · exact ⟨_, r, hv, he⟩
        · cases hcons
          obtain ⟨fuel, reply, hr⟩ := hi _ _ _ hv rfl
          rw [hn fuel] at hr
          cases hr
  obtain ⟨ν, r, hv, he⟩ := hend _ _ .refl rfl
  obtain ⟨fuel, hr⟩ := run_eq_some_iff.mpr ⟨ν, r, hv, he, rfl⟩
  exact ⟨fuel, _, hr⟩

theorem Visits.rounds_le {μ : Moment β} {m : Nat} (hv : g.Visits μ)
    (hm : ∀ ν, g.Visits ν → ν.graph.settings.maxRounds = some m) : μ.report.rounds ≤ m := by
  induction hv with
  | refl => exact Nat.zero_le _
  | tail hv' hs ih =>
    cases hs with
    | @start k report _ hl =>
      have hset : k.settings.maxRounds = some m := hm _ hv'
      simp only [limited, hset, Option.any_some, decide_eq_false_iff_not] at hl
      exact Nat.lt_of_not_le hl
    | invoke => exact ih

end Graph

end Patchbay
