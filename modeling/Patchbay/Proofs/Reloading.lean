import Patchbay.Proofs.Rebuilding
import Patchbay.Proofs.Replaying

/-! Running a graph that was saved and rebuilt. Subscriptions have other numbers there and may enter
an input in another order, but the scheduler depends on neither, so the run is the same with each
block at its place. -/

namespace Patchbay

theorem Builtin.kin_prototype (screen : Screen) (b : Builtin) : b.Kin (b.prototype screen) := by
  cases b with
  | forward => exact .forward
  | source initial => exact .source initial .null
  | sum => exact .sum
  | alert own => exact .alert own screen
  | compare => exact .compare

namespace Graph

open HostsBuiltins (block)

variable {β : Type} {g h : Graph β}

variable [Behaviour β] {registry : Registry β}

theorem Rebuilt.image (hr : Rebuilt registry g.toDocument h) (hw : g.Wired) (hw' : h.Wired)
    (hp : Provides registry g) : Image g.place g h where
  source := hw
  target := hw'
  order := hr.order_eq hw
  twin id e he := by
    obtain ⟨b, e', -, he', -, hid, -, hin, hout, hpar, -⟩ := hr.block_place hw hp he
    have hname : e.node.id = id := hw.named id e.node.wiring (wiring_of_slot? he)
    exact ⟨e', he', ⟨hname ▸ hid, hin, hout, hpar⟩⟩
  edges id hl output := by
    obtain ⟨e, he⟩ := Option.isSome_iff_exists.mp hl
    exact hr.edgesFrom_place hw he output
  maxRounds := congrArg RunSettings.maxRounds hr.settings

variable [HostsBuiltins β] [KeepsBuiltins β]

theorem Reachable.kin_rebuilt (hg : g.Reachable) (hb : g.MadeOfBuiltins) {screen : Screen}
    (hr : Rebuilt (Registry.builtins block screen) g.toDocument h) {id : BlockId}
    (hl : g.contains id) :
    Option.Rel Mirror.Kin (g.behaviour? id) (h.behaviour? (g.place id)) := by
  have hp := hg.provides_builtins hb screen
  obtain ⟨e, he⟩ := Option.isSome_iff_exists.mp hl
  obtain ⟨b, hbe⟩ := hb id hl
  obtain ⟨c, e', hc, he', hce, -⟩ := hr.block_place hg.ready.wired hp he
  have hfits := hg.fitted id e b he ((behaviour?_of_slot? he).symm.trans hbe)
  have hname : e.node.typeName = b.typeName := hfits.typeName
  have hcreated : c = block (b.prototype screen) := by
    rw [hname, Registry.create_builtins] at hc
    exact (Except.ok.inj hc).symm
  rw [hbe, behaviour?_of_slot? he', hce, hcreated]
  exact .some ⟨b, b.prototype screen, rfl, rfl, b.kin_prototype screen⟩

/-- A graph of built-in blocks that was saved and rebuilt runs as the one that was saved, each block
at its place, with any observers. -/
theorem Reachable.run_reloaded (hr : g.Reachable) (hb : g.MadeOfBuiltins) (screen : Screen) :
    ∃ h, ofDocument (Registry.builtins block screen) g.toDocument = .ok () h ∧
      ∀ observers, Replays g.place g { h with observers := observers } := by
  have hp := hr.provides_builtins hb screen
  have hg := hr.ready
  obtain ⟨h, hload, hrebuilt⟩ := ofDocument_eq_ok (hg.wired.accepted hp)
  have hh := (Reachable.loaded hload).ready
  have himage := hrebuilt.image hg.wired hh.wired hp
  refine ⟨h, hload, fun observers => ?_⟩
  have hi : Image g.place g { h with observers := observers } :=
    { himage with target := hh.wired.congr rfl rfl fun _ => rfl }
  have hkin : ∀ id, g.contains id → Option.Rel Mirror.Kin (g.behaviour? id)
      (h.behaviour? (g.place id)) := fun id hl => hr.kin_rebuilt hb hrebuilt hl
  have hproc : h.processing = g.processing.map g.place := by
    rw [hh.processing, hg.processing, List.map_nil]
  exact hi.replays hg.toSound hkin hproc

/-- The comparison is subscribed to the later source first, so after saving its subscriptions come
in another order, and a block between the two is removed. -/
def crossedSources : List (Operation Builtin) :=
  [.add (.source (.bool true)), .add .forward, .add (.source (.bool false)), .add .compare,
    .add (.alert .log), .subscribe ⟨3⟩ Builtin.valuesInput ⟨2⟩ Builtin.dataName,
    .subscribe ⟨3⟩ Builtin.compareInput ⟨2⟩ Builtin.dataName,
    .subscribe ⟨3⟩ Builtin.valuesInput ⟨0⟩ Builtin.dataName,
    .subscribe ⟨4⟩ Builtin.messageInput ⟨3⟩ Builtin.equalOutput, .remove ⟨1⟩]

theorem run_reloaded_of_crossedSources : ∃ (g h : Graph Builtin) (r : Reply Builtin RunReport),
    performAll 1 crossedSources (.new .standard) = some g ∧ g.Reachable ∧ g.MadeOfBuiltins ∧
    ofDocument (Registry.builtins block .console) g.toDocument = .ok () h ∧
    g.run 9 = some r ∧ r.result = .ok ⟨3, 4⟩ ∧
    ∀ observers, ∃ fuel r', ({ h with observers := observers } : Graph Builtin).run fuel = some r' ∧
      r'.result = .ok ⟨3, 4⟩ := by
  have hdec : (performAll 1 crossedSources (.new .standard : Graph Builtin)).any (fun g =>
      (g.run 9).any fun r => r.result = .ok ⟨3, 4⟩) = true := by decide +kernel
  obtain ⟨g, hg, hany⟩ := (Option.any_eq_true _ _).mp hdec
  obtain ⟨r, hrun, heq⟩ := (Option.any_eq_true _ _).mp hany
  have hresult : r.result = .ok ⟨3, 4⟩ := of_decide_eq_true heq
  have hr : g.Reachable := Reachable.performAll (.new _) hg
  have hb := hr.ready.complete.madeOfBuiltins
  obtain ⟨h, hload, hreplays⟩ := Reachable.run_reloaded hr hb .console
  refine ⟨g, h, r, hg, hr, hb, hload, hrun, hresult, fun observers => ?_⟩
  obtain ⟨fuel, r', hrun', hanswers⟩ := (hreplays observers).answers 9 r hrun
  refine ⟨fuel, r', hrun', ?_⟩
  rw [hanswers.result, hresult]
  rfl

end Graph

end Patchbay
