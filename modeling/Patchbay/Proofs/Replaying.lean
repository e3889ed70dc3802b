import Patchbay.Proofs.Lockstep

/-! Runs of mirrored graphs. Every step of one run is a step of the other, so each ends if the other
does, and what is seen of a run up to some point is seen of the other, also where neither ends. -/

namespace Patchbay

namespace Mirror

variable {β : Type} [Behaviour β] [HostsBuiltins β] {m : Mirror} {g h : Graph β} {id : BlockId}

/-! Rounds -/

theorem Shows.settle (hs : m.Shows g h) (hl : g.contains id) (waiting : Bool) :
    m.Shows (g.settle id waiting) (h.settle (m.image id) waiting) := by
  cases waiting with
  | true => exact hs.queue hl
  | false =>
    refine hs.step (Graph.layout_settle g id false) (Graph.layout_settle h _ false)
      (hs.sound.clearBlock id) ?_ ?_ hs.processing hs.receivers hs.saw
    · intro j hj port
      by_cases hid : j = id
      · subst hid
        rw [Graph.buffer_settle_done, Graph.buffer_settle_done]
      · rw [Graph.buffer_settle_of_ne g hid,
          Graph.buffer_settle_of_ne h (hs.image_ne hl hj hid), hs.buffer j hj]
    · intro j hj
      rw [Graph.behaviour?_settle, Graph.behaviour?_settle]
      exact hs.behaviour j hj

theorem Shows.startRound (hs : m.Shows g h) (round : Nat) :
    m.Shows (g.startRound round) (h.startRound round) := by
  have hsaw : m.Saw (g.startRound round) (h.startRound round) := by
    refine hs.saw.cons (x := .told (.roundStarted round g.receivers)) rfl ?_
    simp [Graph.sights, Graph.startRound, Graph.notify, Graph.record, Occurrence.sight?,
      Sight.rename, Activity.rename, hs.receivers]
  exact hs.step rfl rfl (hs.sound.startRound round) hs.buffer hs.behaviour hs.receivers rfl hsaw

/-! Moments -/

section

variable {α γ : Type} {R : α → γ → Prop} {x : Option α} {y : Option γ} (hr : Option.Rel R x y)

include hr

theorem exists_right {a : α} (hx : x = some a) : ∃ c, y = some c ∧ R a c := by
  cases hr with
  | none => cases hx
  | some hac =>
    cases hx
    exact ⟨_, rfl, hac⟩

theorem exists_left {c : γ} (hy : y = some c) : ∃ a, x = some a ∧ R a c := by
  cases hr with
  | none => cases hy
  | some hac =>
    cases hy
    exact ⟨_, rfl, hac⟩

end

/-- Whether one point of a run is another one renamed. -/
structure ShowsMoment (m : Mirror) (μ ν : Moment β) : Prop where
  shows : m.Shows μ.graph ν.graph
  report : ν.report = μ.report
  pending : ν.pending = μ.pending.map m.image
  live : ∀ id ∈ μ.pending, μ.graph.contains id

theorem Shows.receivers_eq_nil_iff (hs : m.Shows g h) : h.receivers = [] ↔ g.receivers = [] := by
  rw [hs.receivers, List.map_eq_nil_iff]

theorem Shows.limited_eq (hs : m.Shows g h) (report : RunReport) :
    h.limited report = g.limited report := by
  rw [Graph.limited, Graph.limited, hs.image.maxRounds]

theorem ShowsMoment.next? {μ ν : Moment β} (hm : m.ShowsMoment μ ν) (fuel : Nat) :
    Option.Rel m.ShowsMoment (μ.next? fuel) (ν.next? fuel) := by
  obtain ⟨g, report, pending⟩ := μ
  obtain ⟨h, report', pending'⟩ := ν
  obtain ⟨hs, hreport, hpending, hlive⟩ := hm
  dsimp only at hs hreport hpending hlive
  subst hreport hpending
  cases pending with
  | nil =>
    simp only [List.map_nil, Moment.next?, hs.receivers_eq_nil_iff, hs.limited_eq]
    split
    · exact .none
    · exact .some ⟨hs.startRound _, rfl, hs.receivers, hs.sound.live_receivers⟩
  | cons id rest =>
    have hl : g.contains id := hlive id List.mem_cons_self
    have hinvoke := hs.invoke hl fuel
    simp only [List.map_cons, Moment.next?]
    generalize hx : g.invoke fuel id = x at hinvoke
    generalize h.invoke fuel (m.image id) = y at hinvoke
    cases hinvoke with
    | none => exact .none
    | some hreply =>
      cases hreply with
      | error e hk => exact .none
      | @ok k k' waiting hk =>
        have hlayout : k.layout = g.layout := hs.wired.layout_invoke hx
        have hlk : k.contains id := (Graph.contains_congr hlayout id).trans hl
        refine .some ⟨hk.settle hlk waiting, rfl, rfl, fun j hj => ?_⟩
        dsimp only
        rw [Graph.contains_congr ((Graph.layout_settle k id waiting).trans hlayout)]
        exact hlive j (List.mem_cons_of_mem _ hj)

theorem ShowsMoment.step {μ ν : Moment β} (hm : m.ShowsMoment μ ν) :
    (∀ μ', μ.Step μ' → ∃ ν', ν.Step ν' ∧ m.ShowsMoment μ' ν') ∧
      ∀ ν', ν.Step ν' → ∃ μ', μ.Step μ' ∧ m.ShowsMoment μ' ν' := by
  constructor
  · intro μ' hs
    obtain ⟨fuel, hn⟩ := hs.exists_next?
    obtain ⟨ν', hn', hm'⟩ := exists_right (hm.next? fuel) hn
    exact ⟨ν', Moment.step_of_next? hn', hm'⟩
  · intro ν' hs
    obtain ⟨fuel, hn⟩ := hs.exists_next?
    obtain ⟨μ', hn', hm'⟩ := exists_left (hm.next? fuel) hn
    exact ⟨μ', Moment.step_of_next? hn', hm'⟩

theorem ShowsMoment.ends {μ ν : Moment β} (hm : m.ShowsMoment μ ν) :
    (∀ r, μ.Ends r → ∃ r', ν.Ends r' ∧ m.Replies r r') ∧
      ∀ r', ν.Ends r' → ∃ r, μ.Ends r ∧ m.Replies r r' := by
  obtain ⟨g, report, pending⟩ := μ
  obtain ⟨h, report', pending'⟩ := ν
  obtain ⟨hs, hreport, hpending, hlive⟩ := hm
  dsimp only at hs hreport hpending hlive
  subst hreport hpending
  have hquiet := hs.receivers_eq_nil_iff
  have hlimit := hs.limited_eq report'
  constructor
  · intro r he
    cases he with
    | quiet hr => exact ⟨_, .quiet (hquiet.mpr hr), .ok () hs⟩
    | limit hr hl =>
      exact ⟨_, .limit (fun hr' => hr (hquiet.mp hr')) (hlimit.trans hl), .error _ hs⟩
    | @failure _ k _ id rest fuel err hi =>
      have hinvoke := hs.invoke (hlive id List.mem_cons_self) fuel
      obtain ⟨r', hi', hreply⟩ := exists_right hinvoke hi
      cases hreply with
      | error e hk => exact ⟨_, .failure hi', .error err hk⟩
  · intro r' he
    -- What is pending in the image is a map, so it has the shape of what is pending in the
    -- original.
    generalize hp : pending.map m.image = l at he
    cases he with
    | quiet hr =>
      obtain rfl := List.map_eq_nil_iff.mp hp
      exact ⟨_, .quiet (hquiet.mp hr), .ok () hs⟩
    | limit hr hl =>
      obtain rfl := List.map_eq_nil_iff.mp hp
      exact ⟨_, .limit (fun hr' => hr (hquiet.mpr hr')) (hlimit.symm.trans hl), .error _ hs⟩
    | @failure _ k _ _ _ fuel err hi =>
      obtain ⟨id, rest, rfl, rfl, rfl⟩ := List.map_eq_cons_iff.mp hp
      have hinvoke := hs.invoke (hlive id List.mem_cons_self) fuel
      obtain ⟨r, hi', hreply⟩ := exists_left hinvoke hi
      cases hreply with
      | error e hk => exact ⟨_, .failure hi', .error e hk⟩

/-! Runs -/

theorem Replies.closeRun {r r' : Reply β Unit} (hr : m.Replies r r') (report : RunReport) :
    m.Replies (Graph.closeRun report r) (Graph.closeRun report r') := by
  cases hr with
  | @ok g h u hs =>
    have hend : m.Shows { g with processing := [] } { h with processing := [] } :=
      hs.step rfl rfl hs.sound.endRound hs.buffer hs.behaviour rfl hs.receivers hs.saw
    exact .ok report (hend.notify (.runFinished report))
  | @error g h e hs =>
    refine .error e (hs.step ?_ ?_ ?_ ?_ ?_ rfl rfl hs.saw)
    · exact Graph.layout_clearBuffers _
    · exact Graph.layout_clearBuffers _
    · exact hs.sound.endRound.dropReceivers.clearBuffers.record _
    · intro id hl port
      exact (Graph.buffer_clearBuffers _ _ port).trans (Graph.buffer_clearBuffers _ _ port).symm
    · intro id hl
      have hb := hs.behaviour id hl
      rw [← Graph.behaviour?_clearBuffers g, ← Graph.behaviour?_clearBuffers h] at hb
      exact hb

/-- A run forgets what is buffered and queued, so it only needs the blocks of the two graphs to be
of the same types. -/
theorem shows_startRun {f : BlockId → BlockId} (hi : Graph.Image f g h) (hsound : g.Sound)
    (hb : ∀ id, g.contains id → Option.Rel Kin (g.behaviour? id) (h.behaviour? (f id)))
    (hp : h.processing = g.processing.map f) :
    Mirror.Shows ⟨f, g.sights, h.sights⟩ g.startRun h.startRun where
  image := hi.congr (Graph.layout_startRun g) (Graph.layout_startRun h)
  sound := hsound.startRun
  buffer id _ port :=
    (Graph.buffer_clearBuffers _ _ port).trans (Graph.buffer_clearBuffers _ _ port).symm
  behaviour id hl := by
    have hb' := hb id (Graph.contains_congr (Graph.layout_startRun g) id ▸ hl)
    rw [← Graph.behaviour?_clearBuffers g, ← Graph.behaviour?_clearBuffers h] at hb'
    exact hb'
  processing := hp
  receivers := hi.roots
  saw := ⟨[], rfl, rfl⟩

/-! Courses -/

theorem exists_steps {α γ : Type} {R : α → α → Prop} {S : γ → γ → Prop} {P : α → γ → Prop}
    (hstep : ∀ a c, P a c → ∀ a', R a a' → ∃ c', S c c' ∧ P a' c') {a a' : α} {c : γ}
    (hp : P a c) (hr : Relation.ReflTransGen R a a') :
    ∃ c', Relation.ReflTransGen S c c' ∧ P a' c' := by
  induction hr with
  | refl => exact ⟨c, .refl, hp⟩
  | tail _ hr ih =>
    obtain ⟨c', hc, hp'⟩ := ih
    obtain ⟨c'', hs, hp''⟩ := hstep _ c' hp' _ hr
    exact ⟨c'', hc.tail hs, hp''⟩

/-- Whether one point of an invocation, between two turns, is another one renamed. -/
structure ShowsTurn (m : Mirror) (id : BlockId) (x y : β × Bool × Graph β) : Prop where
  kin : Kin x.1 y.1
  waiting : y.2.1 = x.2.1
  shows : m.Shows x.2.2 y.2.2
  live : x.2.2.contains id

theorem ShowsMoment.first_turn {μ ν : Moment β} (hm : m.ShowsMoment μ ν) {rest : List BlockId}
    (hp : μ.pending = id :: rest) :
    Option.Rel (fun c c' => m.ShowsTurn id (c, false, μ.graph.setBehaviour id none)
      (c', false, ν.graph.setBehaviour (m.image id) none))
      (μ.graph.behaviour? id) (ν.graph.behaviour? (m.image id)) := by
  have hl : μ.graph.contains id := hm.live id (hp ▸ List.mem_cons_self)
  have hl' := Graph.contains_congr (Graph.layout_setBehaviour μ.graph id none) id
  have hb := hm.shows.behaviour id hl
  generalize μ.graph.behaviour? id = o at hb
  generalize ν.graph.behaviour? (m.image id) = o' at hb
  cases hb with
  | none => exact .none
  | some hk => exact .some ⟨hk, rfl, hm.shows.setBehaviour hl .none, hl'.trans hl⟩

theorem ShowsTurn.step {x y : β × Bool × Graph β} (ht : m.ShowsTurn id x y) :
    (∀ x', Graph.Turning id x x' → ∃ y', Graph.Turning (m.image id) y y' ∧
        m.ShowsTurn id x' y') ∧
      ∀ y', Graph.Turning (m.image id) y y' → ∃ x', Graph.Turning id x x' ∧
        m.ShowsTurn id x' y' := by
  obtain ⟨c, waiting, g⟩ := x
  obtain ⟨c', waiting', h⟩ := y
  obtain ⟨hk, hwaiting, hs, hl⟩ := ht
  dsimp only at hk hwaiting hs hl
  subst hwaiting
  have hturn := (alike_process hk).run hs hl waiting'
  have hcalls : Graph.Calls id g ((Behaviour.process id c).run id waiting' g).graph :=
    Graph.calls_run _ waiting' hs.wired
  have hlayout := (hcalls.effects hs.wired).layout_eq
  generalize hx : (Behaviour.process id c).run id waiting' g = t at hturn hlayout
  generalize hy : (Behaviour.process (m.image id) c').run (m.image id) waiting' h = t' at hturn
  constructor
  · rintro ⟨d, w, k⟩ hgo
    obtain rfl : t = .again d w k := hx.symm.trans hgo
    cases hturn with
    | again w hk' hs' =>
      exact ⟨(_, w, _), hy, hk', rfl, hs', (Graph.contains_congr hlayout id).trans hl⟩
  · rintro ⟨d, w, k⟩ hgo
    obtain rfl : t' = .again d w k := hy.symm.trans hgo
    cases hturn with
    | again w hk' hs' =>
      exact ⟨(_, w, _), hx, hk', rfl, hs', (Graph.contains_congr hlayout id).trans hl⟩

end Mirror

namespace Graph

variable {β : Type} {g h k k' : Graph β} {f : BlockId → BlockId}

/-- Whether what has been seen of a run of `g` up to `k` was seen of one of `h` up to `k'`, with the
blocks renamed. -/
def SeenAs (f : BlockId → BlockId) (g h k k' : Graph β) : Prop :=
  ∃ l, k.sights = l ++ g.sights ∧ k'.sights = l.map (Sight.rename f) ++ h.sights

/-- Whether two answers are the same report or error, after the same has been seen, with the blocks
renamed. -/
structure Answers (f : BlockId → BlockId) (g h : Graph β) (r r' : Reply β RunReport) : Prop where
  result : r'.result = r.result.mapError (GraphError.rename f)
  seen : SeenAs f g h r.graph r'.graph

variable [Behaviour β]

/-- Whether runs of `h` are those of `g` with the blocks renamed: each answers if the other does,
and what is seen of one at some point is seen of the other, also in a run that never answers. -/
structure Replays (f : BlockId → BlockId) (g h : Graph β) : Prop where
  answers : ∀ fuel r, g.run fuel = some r →
    ∃ fuel' r', h.run fuel' = some r' ∧ Answers f g h r r'
  answered : ∀ fuel' r', h.run fuel' = some r' →
    ∃ fuel r, g.run fuel = some r ∧ Answers f g h r r'
  passes : ∀ k, g.Passes k → ∃ k', h.Passes k' ∧ SeenAs f g h k k'
  passed : ∀ k', h.Passes k' → ∃ k, g.Passes k ∧ SeenAs f g h k k'

variable [HostsBuiltins β]

section

variable (hi : Image f g h) (hsound : g.Sound)
  (hb : ∀ id, g.contains id → Option.Rel Mirror.Kin (g.behaviour? id) (h.behaviour? (f id)))
  (hp : h.processing = g.processing.map f)

include hi hsound hb hp

theorem Image.shows_start : Mirror.ShowsMoment ⟨f, g.sights, h.sights⟩
    ⟨g.startRun, ⟨0, 0⟩, []⟩ ⟨h.startRun, ⟨0, 0⟩, []⟩ where
  shows := Mirror.shows_startRun hi hsound hb hp
  report := rfl
  pending := rfl
  live _ hm := absurd hm List.not_mem_nil

theorem Image.visits {μ : Moment β} (hv : g.Visits μ) :
    ∃ ν, h.Visits ν ∧ Mirror.ShowsMoment ⟨f, g.sights, h.sights⟩ μ ν :=
  Mirror.exists_steps (fun _ _ hm => hm.step.1) (hi.shows_start hsound hb hp) hv

theorem Image.visited {ν : Moment β} (hv : h.Visits ν) :
    ∃ μ, g.Visits μ ∧ Mirror.ShowsMoment ⟨f, g.sights, h.sights⟩ μ ν :=
  Mirror.exists_steps (P := fun ν μ => Mirror.ShowsMoment ⟨f, g.sights, h.sights⟩ μ ν)
    (fun _ _ hm => hm.step.2) (hi.shows_start hsound hb hp) hv

theorem Image.replays : Replays f g h where
  answers fuel r hr := by
    obtain ⟨μ, r, hμ, he, rfl⟩ := run_eq_some_iff.mp ⟨fuel, hr⟩
    obtain ⟨ν, hν, hm⟩ := hi.visits hsound hb hp hμ
    obtain ⟨r', he', hreplies⟩ := hm.ends.1 r he
    have hclosed := hreplies.closeRun μ.report
    obtain ⟨fuel', hr'⟩ := run_eq_some_iff.mpr ⟨ν, r', hν, he', rfl⟩
    exact ⟨fuel', _, hm.report ▸ hr', hclosed.result, hclosed.shows.saw⟩
  answered fuel' r' hr' := by
    obtain ⟨ν, r', hν, he', rfl⟩ := run_eq_some_iff.mp ⟨fuel', hr'⟩
    obtain ⟨μ, hμ, hm⟩ := hi.visited hsound hb hp hν
    obtain ⟨r, he, hreplies⟩ := hm.ends.2 r' he'
    have hclosed := hreplies.closeRun ν.report
    obtain ⟨fuel, hr⟩ := run_eq_some_iff.mpr ⟨μ, r, hμ, he, rfl⟩
    exact ⟨fuel, _, hm.report ▸ hr, hclosed.result, hclosed.shows.saw⟩
  passes k hk := by
    cases hk with
    | between hμ =>
      obtain ⟨ν, hν, hm⟩ := hi.visits hsound hb hp hμ
      exact ⟨_, .between hν, hm.shows.saw⟩
    | @within μ id rest b x hμ hpend hbe hturns =>
      obtain ⟨ν, hν, hm⟩ := hi.visits hsound hb hp hμ
      have hpend' : ν.pending = f id :: rest.map f := by rw [hm.pending, hpend, List.map_cons]
      obtain ⟨b', hbe', ht⟩ := Mirror.exists_right (hm.first_turn hpend) hbe
      obtain ⟨y, hturns', ht'⟩ := Mirror.exists_steps (fun _ _ ht => ht.step.1) ht hturns
      exact ⟨_, .within hν hpend' hbe' hturns', ht'.shows.saw⟩
  passed k' hk' := by
    cases hk' with
    | between hν =>
      obtain ⟨μ, hμ, hm⟩ := hi.visited hsound hb hp hν
      exact ⟨_, .between hμ, hm.shows.saw⟩
    | @within ν id' rest' b' y hν hpend' hbe' hturns' =>
      obtain ⟨μ, hμ, hm⟩ := hi.visited hsound hb hp hν
      have hmap : μ.pending.map f = id' :: rest' := hm.pending.symm.trans hpend'
      obtain ⟨id, rest, hpend, rfl, -⟩ := List.map_eq_cons_iff.mp hmap
      obtain ⟨b, hbe, ht⟩ := Mirror.exists_left (hm.first_turn hpend) hbe'
      obtain ⟨x, hturns, ht'⟩ := Mirror.exists_steps
        (P := fun y x => Mirror.ShowsTurn ⟨f, g.sights, h.sights⟩ id x y)
        (fun _ _ ht => ht.step.2) ht hturns'
      exact ⟨_, .within hμ hpend hbe hturns, ht'.shows.saw⟩

end

end Graph

end Patchbay
