import Patchbay.Proofs.Fitting
import Patchbay.Proofs.Tallies

/-! Calls that emit nothing, and comparisons that wait for one another. A call that emits nothing
reaches no other block; a built-in block that waits after such a call is a comparison that found no
pair, and it waits again whenever it is invoked in the same surroundings. -/

namespace Patchbay

open HostsBuiltins (block)

namespace Graph

variable {β : Type} {g h k : Graph β} {id j : BlockId}

/-! Where nothing is emitted -/

/-- Whether no block emits a value between two graphs. -/
def Mute (g h : Graph β) : Prop :=
  ∃ news, h.history = news ++ g.history ∧ ∀ id, emissions id news = 0

theorem Mute.of_history_eq (hh : h.history = g.history) : Mute g h := ⟨[], hh, fun _ => rfl⟩

theorem Mute.trans (hgh : Mute g h) (hhk : Mute h k) : Mute g k := by
  obtain ⟨news, hh, he⟩ := hgh
  obtain ⟨more, hk, he'⟩ := hhk
  exact ⟨more ++ news, by rw [hk, hh, List.append_assoc], fun id => by
    rw [emissions_append, he', he]⟩

theorem Mute.split (hm : Mute g k) (hgh : g.history <:+ h.history)
    (hhk : h.history <:+ k.history) : Mute g h ∧ Mute h k := by
  obtain ⟨news, hk, he⟩ := hm
  obtain ⟨a, ha⟩ := hgh
  obtain ⟨b, hb⟩ := hhk
  obtain rfl : b ++ a = news := by
    rw [← hb, ← ha, ← List.append_assoc] at hk
    exact List.append_cancel_right hk
  simp only [emissions_append, Nat.add_eq_zero_iff] at he
  exact ⟨⟨a, ha.symm, fun id => (he id).2⟩, ⟨b, hb.symm, fun id => (he id).1⟩⟩

theorem history_suffix_broadcast (g : Graph β) (id : BlockId) (port : String) (v : Value) :
    (g.notify (.emitted id port v)).history <:+ (g.broadcast id port v).history := by
  rw [broadcast, history_foldl_accept]
  exact List.suffix_append _ _

theorem not_mute_broadcast (g : Graph β) (id : BlockId) (port : String) (v : Value) :
    ¬Mute g (g.broadcast id port v) := by
  intro hm
  obtain ⟨⟨news, hn, he⟩, -⟩ :=
    hm.split (List.suffix_cons _ _) (history_suffix_broadcast g id port v)
  have hnews : news = [.observed g.observers (.emitted id port v)] :=
    (List.append_cancel_right (hn.symm.trans (List.singleton_append).symm))
  have hid := he id
  simp [hnews, emissions, Occurrence.isEmission] at hid

/-- What no call changes unless it emits. -/
structure Still (id : BlockId) (g h : Graph β) : Prop where
  receivers : h.receivers = g.receivers
  buffers : ∀ j, j ≠ id → ∀ port, h.buffer j port = g.buffer j port

theorem Still.trans (hgh : Still id g h) (hhk : Still id h k) : Still id g k :=
  ⟨hhk.receivers.trans hgh.receivers,
    fun j hj port => (hhk.buffers j hj port).trans (hgh.buffers j hj port)⟩

theorem still_setBehaviour (g : Graph β) (id : BlockId) (b : Option β) :
    Still id g (g.setBehaviour id b) :=
  ⟨rfl, fun j _ port => buffer_setBehaviour g id j b port⟩

theorem Call.still (hc : Call id g h) (hm : Mute g h) : Still id g h := by
  cases hc with
  | take => exact ⟨rfl, fun j hj port => buffer_updateNode_of_ne g hj _ port⟩
  | emit => exact absurd hm (not_mute_broadcast _ _ _ _)
  | assign | display | say => exact ⟨rfl, fun _ _ _ => rfl⟩

theorem Calls.still (hw : g.Wired) (hc : Calls id g h) (hm : Mute g h) : Still id g h := by
  induction hc with
  | refl => exact ⟨rfl, fun _ _ _ => rfl⟩
  | tail hcalls hcall ih =>
    have heff := Calls.effects hcalls hw
    obtain ⟨hm₁, hm₂⟩ := hm.split heff.history_suffix
      (hcall.effects (hw.of_layout heff.layout_eq)).history_suffix
    exact (ih hm₁).trans (hcall.still hm₂)

variable [Behaviour β]

theorem Wired.still_invoke (hw : g.Wired) {fuel : Nat} {reply : Reply β Bool}
    (hi : g.invoke fuel id = some reply) (hm : Mute g reply.graph) : Still id g reply.graph := by
  rcases hw.invoke_calls hi with ⟨-, rfl⟩ | ⟨b', k, -, hcalls, heq⟩
  · exact ⟨rfl, fun _ _ _ => rfl⟩
  · rw [heq] at hm ⊢
    have hm' : Mute (g.setBehaviour id none) k := hm
    exact ((still_setBehaviour g id none).trans
      (hcalls.still (hw.setBehaviour id none) hm')).trans (still_setBehaviour k id _)

/-! Comparisons that are stuck -/

variable [HostsBuiltins β]

/-- A comparison with values on one input only, to which another block of a list leads. -/
structure Stuck (g : Graph β) (blocks : List BlockId) (id : BlockId) : Prop where
  comparison : g.behaviour? id = some (block .compare)
  unpaired : g.buffer id Builtin.valuesInput = [] ∨ g.buffer id Builtin.compareInput = []
  unmatched : g.buffer id Builtin.valuesInput ≠ [] ∨ g.buffer id Builtin.compareInput ≠ []
  upstream : ∃ k ∈ blocks, k ≠ id ∧ g.LeadsTo k id

theorem Stuck.congr {blocks : List BlockId} (hs : g.Stuck blocks id) (hl : h.layout = g.layout)
    (hb : h.behaviour? id = g.behaviour? id) (hbuf : ∀ port, h.buffer id port = g.buffer id port) :
    h.Stuck blocks id where
  comparison := hb.trans hs.comparison
  unpaired := by simpa only [hbuf] using hs.unpaired
  unmatched := by simpa only [hbuf] using hs.unmatched
  upstream := by simpa only [leadsTo_congr hl] using hs.upstream

theorem Wired.takeTurns_compare_of_mute (hw : g.Wired) {fuel : Nat} {waiting waiting' : Bool}
    {b : β} (ht : takeTurns id fuel (block .compare) waiting g = some (b, .ok (), waiting', h))
    (hm : Mute g h) : h = g := by
  cases fuel with
  | zero => cases ht
  | succ fuel =>
    rw [takeTurns_compare] at ht
    rcases hw.compare_cases id (block .compare) waiting with ⟨err, k, -, hrun⟩ |
      ⟨e, v, vs, o, os, -, -, -, -, -, -, hrun⟩ | ⟨-, hrun⟩
    · rw [hrun] at ht
      cases ht
    · -- Whoever finds a pair emits.
      rw [hrun] at ht
      have hpaired := hw.of_layout (layout_paired g id (Builtin.route v o) v)
      have hm' : Mute (g.drawn id) h := hm
      have hsuffix := (effects_takeTurns hpaired ht).history_suffix
      have hemit := history_suffix_broadcast (g.drawn id) id (Builtin.route v o) v
      exact absurd (hm'.split ((List.suffix_cons _ _).trans hemit) hsuffix).1
        (not_mute_broadcast _ _ _ _)
    · rw [hrun] at ht
      cases ht
      rfl

/-- A built-in block that waits without having emitted is a stuck comparison, and it changed
nothing. -/
theorem Wired.stuck_of_mute (hw : g.Wired) {b : Builtin} {fuel : Nat}
    (hb : g.behaviour? id = some (block b)) (hi : g.invoke fuel id = some (.ok true h))
    (hm : Mute g h) :
    g.Stuck g.processing id ∧ ∀ j port, h.buffer j port = g.buffer j port := by
  have hw' : (g.setBehaviour id none).Wired := hw.setBehaviour id none
  have hling := hw.lingers_of_invoke hb hi
  have hl : h.layout = g.layout := hw.layout_invoke hi
  have hp : h.processing = g.processing := hw.processing_invoke hi
  obtain ⟨b', k, ht, hk⟩ := (invoke_eq_ok_iff hb).mp hi
  obtain ⟨rfl, -⟩ := (hw'.takeTurns_builtin_ends ht).2.2 rfl rfl
  obtain rfl : k = g.setBehaviour id none := hw'.takeTurns_compare_of_mute ht (by rwa [hk] at hm)
  have hbuf : ∀ j port, h.buffer j port = g.buffer j port := fun j port => by
    rw [hk, buffer_setBehaviour, buffer_setBehaviour]
  obtain ⟨hunmatched, hup⟩ := (hw.of_layout hl).lingers_iff.mp hling
  refine ⟨⟨hb, ?_, ?_, ?_⟩, hbuf⟩
  · simpa only [hbuf] using (hw.invoke_compare_ok hb hi).1
  · simpa only [hbuf] using hunmatched
  · rw [leadsTo_congr hl] at hup
    exact hp ▸ hup

theorem Fitted.compare_inputs [KeepsBuiltins β] (hf : g.Fitted) {e : Entry β}
    (he : g.slot? id = some e) (hb : e.behaviour = some (block .compare)) :
    Builtin.valuesInput ∈ e.node.inputs ∧ Builtin.compareInput ∈ e.node.inputs := by
  rw [(hf id e .compare he hb).inputs]
  decide +kernel

/-- A stuck comparison of the round waits, and changes nothing. -/
theorem Stuck.invoke [KeepsBuiltins β] (hs : g.Stuck g.processing id) (hw : g.Wired)
    (hf : g.Fitted) : ∃ h, g.invoke 1 id = some (.ok true h) ∧ h.receivers = g.receivers ∧
      h.history = g.history ∧ ∀ j port, h.buffer j port = g.buffer j port := by
  obtain ⟨e, he, hbe⟩ := Option.bind_eq_some_iff.mp hs.comparison
  obtain ⟨hv, hc⟩ := hf.compare_inputs he hbe
  have he' : (g.setBehaviour id none).slot? id = some { e with behaviour := none } := by
    rw [slot?_setBehaviour, if_pos rfl, he]
    rfl
  have hrest := compare_rest (block .compare : β) false he' hv hc
    (by simpa only [buffer_setBehaviour] using hs.unpaired)
  have hling : (g.setBehaviour id none).lingers id = true := by
    rw [hw.lingers_setBehaviour]
    exact hw.lingers_iff.mpr ⟨hs.unmatched, hs.upstream⟩
  refine ⟨(g.setBehaviour id none).setBehaviour id (some (block .compare)), ?_, rfl, rfl,
    fun j port => by rw [buffer_setBehaviour, buffer_setBehaviour]⟩
  rw [invoke_eq_ok_iff hs.comparison]
  refine ⟨block .compare, g.setBehaviour id none, ?_, rfl⟩
  rw [takeTurns_compare, hrest, hling]
  rfl

/-- Whether all that is queued are comparisons that are stuck on one another. -/
structure Deadlocked (g : Graph β) : Prop where
  queued : g.receivers ≠ []
  stuck : ∀ id ∈ g.receivers, g.Stuck g.receivers id

/-- Where each member of a list has another one before it, two of them are before each other. -/
theorem exists_mutual {α : Type} {R : α → α → Prop} (htrans : ∀ x y z, R x y → R y z → R x z)
    {l : List α} (hne : l ≠ []) (hbefore : ∀ x ∈ l, ∃ y ∈ l, y ≠ x ∧ R y x) :
    ∃ x ∈ l, ∃ y ∈ l, x ≠ y ∧ R x y ∧ R y x := by
  induction l with
  | nil => exact absurd rfl hne
  | cons x rest ih =>
    have hmem : ∀ y, y ≠ x → y ∈ x :: rest → y ∈ rest := fun y hy hm =>
      (List.mem_cons.mp hm).resolve_left hy
    obtain ⟨w, hw, hwx, hr⟩ := hbefore x List.mem_cons_self
    by_cases hback : R x w
    · exact ⟨x, List.mem_cons_self, w, hw, hwx.symm, hback, hr⟩
    · -- Whoever has `x` before it has `w` before it as well, so `x` is not needed.
      have hwrest := hmem w hwx hw
      have hbefore' : ∀ z ∈ rest, ∃ y ∈ rest, y ≠ z ∧ R y z := by
        intro z hz
        obtain ⟨y, hy, hyz, hyr⟩ := hbefore z (List.mem_cons_of_mem _ hz)
        by_cases hyx : y = x
        · subst hyx
          have hwz : w ≠ z := fun heq => hback (heq ▸ hyr)
          exact ⟨w, hwrest, hwz, htrans w y z hr hyr⟩
        · exact ⟨y, hmem y hyx hy, hyz, hyr⟩
      obtain ⟨c, hc, d, hd, hmutual⟩ := ih (List.ne_nil_of_mem hwrest) hbefore'
      exact ⟨c, List.mem_cons_of_mem _ hc, d, List.mem_cons_of_mem _ hd, hmutual⟩

/-- A deadlock takes two comparisons that lead to each other. -/
theorem Deadlocked.exists_mutual (hd : g.Deadlocked) : ∃ c d, c ≠ d ∧
    g.behaviour? c = some (block .compare) ∧ g.behaviour? d = some (block .compare) ∧
    g.LeadsTo c d ∧ g.LeadsTo d c := by
  obtain ⟨c, hc, d, hd', hne, hmutual⟩ := Graph.exists_mutual (R := g.LeadsTo)
    (fun _ _ _ => Relation.TransGen.trans) hd.queued fun id hm => (hd.stuck id hm).upstream
  exact ⟨c, d, hne, (hd.stuck c hc).comparison, (hd.stuck d hd').comparison, hmutual⟩

/-- Two queued comparisons that feed each other, with values on one input only, are a deadlock. -/
theorem deadlocked_of_mutual {c d : BlockId} (hq : g.receivers = [c, d]) (hne : c ≠ d)
    (hcmp : ∀ id ∈ g.receivers, g.behaviour? id = some (block .compare))
    (hfull : ∀ id ∈ g.receivers, g.buffer id Builtin.valuesInput ≠ [])
    (hempty : ∀ id ∈ g.receivers, g.buffer id Builtin.compareInput = [])
    (hcd : g.LeadsTo c d) (hdc : g.LeadsTo d c) : g.Deadlocked where
  queued := by simp [hq]
  stuck id hm := by
    refine ⟨hcmp id hm, .inr (hempty id hm), .inl (hfull id hm), ?_⟩
    rw [hq] at hm ⊢
    rcases List.mem_cons.mp hm with rfl | hm
    · exact ⟨d, by simp, hne.symm, hdc⟩
    · rw [List.mem_singleton.mp hm]
      exact ⟨c, by simp, hne, hcd⟩

end Graph

end Patchbay
