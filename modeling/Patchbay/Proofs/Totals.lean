import Patchbay.Proofs.Emissions
import Patchbay.Proofs.Integers
import Mathlib.Algebra.Order.BigOperators.Group.List
import Mathlib.Algebra.Ring.Int.Defs

/-! What one invocation of a sum does. It adds up all that waits on its input, from the newest value
to the oldest, and emits the total at most once. Signed integers have the same total in any order as
long as neither the positive nor the negative ones alone leave the signed word. -/

namespace Patchbay

namespace Value

/-- The values of a list added up from left to right. -/
def sum? : List Value → Option Value
  | [] => none
  | v :: vs => vs.foldlM add? v

theorem exists_unsummable {total : Value} {vs : List Value} (hn : vs.foldlM add? total = none) :
    ∃ taken v rest subtotal, vs = taken ++ v :: rest ∧ taken.foldlM add? total = some subtotal ∧
      subtotal.add? v = none := by
  induction vs generalizing total with
  | nil => cases hn
  | cons v vs ih =>
    cases hadd : total.add? v with
    | none => exact ⟨[], v, vs, total, rfl, rfl, hadd⟩
    | some next =>
      have hrest : vs.foldlM add? next = none := by simpa [hadd] using hn
      obtain ⟨taken, u, rest, subtotal, rfl, htaken, hu⟩ := ih hrest
      exact ⟨v :: taken, u, rest, subtotal, rfl, by simpa [hadd] using htaken, hu⟩

theorem exists_unsummable_of_sum? {vs : List Value} (hne : vs ≠ []) (hn : sum? vs = none) :
    ∃ taken v rest total, vs = taken ++ v :: rest ∧ sum? taken = some total ∧
      total.add? v = none := by
  obtain ⟨u, vs, rfl⟩ := List.exists_cons_of_ne_nil hne
  obtain ⟨taken, v, rest, total, rfl, htaken, hadd⟩ := exists_unsummable hn
  exact ⟨u :: taken, v, rest, total, rfl, htaken, hadd⟩

/-! Signed integers -/

def signed? : Value → Option Int
  | number n => n.signed?
  | _ => none

theorem signed?_eq_some_iff {v : Value} {i : Int} :
    v.signed? = some i ↔ ∃ h : IsSigned i, v = number (.int i h.isWord) := by
  cases v <;> simp [signed?, Number.signed?_eq_some_iff]

/-- Whether a total stays a signed word when any of these integers are added to it. -/
def Absorbs (total : Int) (ints : List Int) : Prop :=
  signedMin ≤ total + (ints.filter (· < 0)).sum ∧ total + (ints.filter (0 ≤ ·)).sum < signedLimit

variable {total i : Int} {ints : List Int}

theorem Absorbs.isSigned (h : Absorbs total ints) : IsSigned total := by
  have hneg : (ints.filter (· < 0)).sum ≤ (ints.filter (· < 0)).length • (0 : Int) :=
    List.sum_le_card_nsmul _ _ fun x hx => Int.le_of_lt (by simpa using (List.mem_filter.mp hx).2)
  have hpos : 0 ≤ (ints.filter (0 ≤ ·)).sum :=
    List.sum_nonneg fun x hx => by simpa using (List.mem_filter.mp hx).2
  rw [nsmul_zero] at hneg
  unfold Absorbs at h
  exact ⟨by omega, by omega⟩

theorem Absorbs.add (h : Absorbs total (i :: ints)) : Absorbs (total + i) ints := by
  unfold Absorbs at *
  by_cases hi : i < 0
  · rw [List.filter_cons_of_pos (by simpa using hi), List.filter_cons_of_neg (by simpa using hi),
      List.sum_cons] at h
    omega
  · rw [List.filter_cons_of_neg (by simpa using hi), List.filter_cons_of_pos (by simpa using hi),
      List.sum_cons] at h
    omega

theorem Absorbs.perm {others : List Int} (h : Absorbs total ints) (hp : ints.Perm others) :
    Absorbs total others := by
  unfold Absorbs at *
  rwa [(hp.filter _).sum_eq, (hp.filter _).sum_eq] at h

theorem Absorbs.foldlM_add? (h : Absorbs total ints) {vs : List Value}
    (hv : vs.map signed? = ints.map some) : ∃ hsum : IsSigned (total + ints.sum),
      vs.foldlM add? (number (.int total h.isSigned.isWord)) =
        some (number (.int (total + ints.sum) hsum.isWord)) := by
  induction ints generalizing total vs with
  | nil =>
    obtain rfl : vs = [] := List.map_eq_nil_iff.mp hv
    simpa using h.isSigned
  | cons i ints ih =>
    obtain ⟨v, vs, rfl, hi, htail⟩ := List.map_eq_cons_iff.mp hv
    obtain ⟨hsigned, rfl⟩ := signed?_eq_some_iff.mp hi
    have hadd : (number (.int total h.isSigned.isWord)).add? (number (.int i hsigned.isWord)) =
        some (number (.int (total + i) h.add.isSigned.isWord)) := by
      rw [add?, Number.add?_of_isSigned ⟨h.isSigned, hsigned⟩ h.add.isSigned]
      rfl
    obtain ⟨hsum, hfold⟩ := ih h.add htail
    simp only [List.sum_cons, ← Int.add_assoc]
    exact ⟨hsum, by simpa [hadd] using hfold⟩

theorem exists_ints_of_signed {vs : List Value} (h : ∀ v ∈ vs, ∃ i, v.signed? = some i) :
    ∃ ints : List Int, vs.map signed? = ints.map some := by
  induction vs with
  | nil => exact ⟨[], rfl⟩
  | cons v vs ih =>
    obtain ⟨i, hi⟩ := h v List.mem_cons_self
    obtain ⟨ints, hints⟩ := ih fun u hu => h u (List.mem_cons_of_mem _ hu)
    exact ⟨i :: ints, by rw [List.map_cons, hi, hints, List.map_cons]⟩

/-- The integers add up to the same total in any order. -/
theorem sum?_signed {vs : List Value} (hne : ints ≠ []) (hp : (vs.map signed?).Perm (ints.map some))
    (h : Absorbs 0 ints) :
    ∃ hsum : IsSigned ints.sum, sum? vs = some (number (.int ints.sum hsum.isWord)) := by
  obtain ⟨ordered, hordered⟩ : ∃ ordered : List Int, vs.map signed? = ordered.map some := by
    apply exists_ints_of_signed
    intro v hv
    obtain ⟨i, -, hi⟩ := List.mem_map.mp (hp.mem_iff.mp (List.mem_map_of_mem hv))
    exact ⟨i, hi.symm⟩
  rw [hordered] at hp
  have hperm : ints.Perm ordered := by simpa using (hp.filterMap id).symm
  have habsorbs : Absorbs 0 ordered := h.perm hperm
  cases ordered with
  | nil => exact absurd hperm.eq_nil hne
  | cons i ordered =>
    obtain ⟨v, vs, rfl, hi, htail⟩ := List.map_eq_cons_iff.mp hordered
    obtain ⟨hsigned, rfl⟩ := signed?_eq_some_iff.mp hi
    have hrest : Absorbs i ordered := by simpa using habsorbs.add
    obtain ⟨hsum, hfold⟩ := hrest.foldlM_add? htail
    have htotal : ints.sum = i + ordered.sum := by rw [hperm.sum_eq, List.sum_cons]
    simp only [htotal]
    exact ⟨hsum, hfold⟩

end Value

namespace Graph

open HostsBuiltins (block)

variable {β : Type} {g k : Graph β} {id c : BlockId}

/-- The graph after a sum has drawn so many values. -/
def drained (id : BlockId) : Nat → Graph β → Graph β
  | 0, g => g
  | n + 1, g => drained id n (g.updateNode id (·.discard Builtin.valuesInput))

theorem layout_discard (g : Graph β) (id : BlockId) (port : String) :
    (g.updateNode id (·.discard port)).layout = g.layout :=
  layout_updateNode g id fun _ => rfl

theorem layout_drained (id : BlockId) (n : Nat) (g : Graph β) :
    (drained id n g).layout = g.layout := by
  induction n generalizing g with
  | zero => rfl
  | succ n ih => exact (ih _).trans (layout_discard g id _)

theorem drained_succ (id : BlockId) (n : Nat) (g : Graph β) :
    drained id (n + 1) g = drained id 1 (drained id n g) := by
  induction n generalizing g with
  | zero => rfl
  | succ n ih => exact ih _

theorem history_drained (id : BlockId) (n : Nat) (g : Graph β) :
    (drained id n g).history = g.history := by
  induction n generalizing g with
  | zero => rfl
  | succ n ih => exact ih _

theorem vars_drained (id : BlockId) (n : Nat) (g : Graph β) :
    (drained id n g).vars = g.vars := by
  induction n generalizing g with
  | zero => rfl
  | succ n ih => exact ih _

theorem buffer_drained (id : BlockId) (n : Nat) {g : Graph β} {e : Entry β}
    (he : g.slot? id = some e) (port : String) : (drained id n g).buffer id port =
      if port = Builtin.valuesInput then (g.buffer id port).drop n else g.buffer id port := by
  induction n generalizing g e with
  | zero => simp [drained]
  | succ n ih =>
    have he' : (g.updateNode id (·.discard Builtin.valuesInput)).slot? id =
        some { e with node := e.node.discard Builtin.valuesInput } := by
      simp [slot?_updateNode, he]
    rw [drained, ih he', buffer_discard he]
    split
    · rw [List.drop_tail]
    · rfl

/-! The program -/

theorem FitsAt.sum_ports (hf : g.FitsAt id Builtin.sum.definition) : ∃ e, g.slot? id = some e ∧
    Builtin.valuesInput ∈ e.node.inputs ∧ Builtin.resultOutput ∈ e.node.outputs := by
  obtain ⟨e, he, hn⟩ := hf
  exact ⟨e, he, hn.mem_inputs Builtin.values_mem_sum_inputs,
    hn.mem_outputs Builtin.result_mem_sum_outputs⟩

section

variable (b : β) (waiting : Bool) {total subtotal v : Value} {taken rest vs : List Value}
  (hf : g.FitsAt id Builtin.sum.definition)

include hf

theorem FitsAt.popValue (hbuf : g.buffer id Builtin.valuesInput = vs) :
    g.popValue id Builtin.valuesInput = .ok vs.head? (drained id 1 g) := by
  obtain ⟨e, he, hv, -⟩ := hf.sum_ports
  exact hbuf ▸ popValue_eq_ok he hv

theorem FitsAt.buffer_drained (n : Nat) (hbuf : g.buffer id Builtin.valuesInput = vs) :
    (drained id n g).buffer id Builtin.valuesInput = vs.drop n := by
  obtain ⟨e, he, -⟩ := hf
  rw [Graph.buffer_drained id n he, if_pos rfl, hbuf]

theorem run_sumRest (hbuf : g.buffer id Builtin.valuesInput = taken ++ rest)
    (hfold : taken.foldlM Value.add? total = some subtotal) (n : Nat) :
    (Builtin.sumRest b id (taken.length + n) total).run id waiting g =
      (Builtin.sumRest b id n subtotal).run id waiting (drained id taken.length g) := by
  -- The program counts what it has left to draw, so `n` stays apart from what is drawn here.
  induction taken generalizing g total with
  | nil =>
    cases hfold
    simp [drained]
  | cons v taken ih =>
    obtain ⟨next, hadd, hrest⟩ : ∃ next, total.add? v = some next ∧
        taken.foldlM Value.add? next = some subtotal := by
      simpa [Option.bind_eq_some_iff] using hfold
    have hpop : g.popValue id Builtin.valuesInput = .ok (some v) (drained id 1 g) :=
      hf.popValue hbuf
    have hbuf' : (drained id 1 g).buffer id Builtin.valuesInput = taken ++ rest :=
      hf.buffer_drained 1 hbuf
    have hcount : (v :: taken).length + n = taken.length + n + 1 := by
      rw [List.length_cons]
      omega
    rw [hcount, Builtin.sumRest, Program.run]
    simp only [hpop, Reply.result, Reply.graph, hadd]
    exact ih (hf.of_layout (layout_drained id 1 g)) hbuf' hrest

theorem run_sumProgram_nil (hbuf : g.buffer id Builtin.valuesInput = []) :
    (Builtin.sumProgram b id).run id waiting g = .finished b (.ok ()) waiting (drained id 1 g) := by
  have hpop : g.popValue id Builtin.valuesInput = .ok none (drained id 1 g) := hf.popValue hbuf
  simp [Builtin.sumProgram, Builtin.done, Program.run, hpop, Reply.result, Reply.graph]

theorem run_sumProgram_cons (hbuf : g.buffer id Builtin.valuesInput = v :: vs) :
    (Builtin.sumProgram b id).run id waiting g =
      (Builtin.sumRest b id vs.length v).run id waiting (drained id 1 g) := by
  have hpop : g.popValue id Builtin.valuesInput = .ok (some v) (drained id 1 g) := hf.popValue hbuf
  obtain ⟨e, he, -⟩ := hf.of_layout (layout_drained id 1 g)
  have hlist : e.node.buffers.list Builtin.valuesInput = vs :=
    (buffer_of_slot? he _).symm.trans (hf.buffer_drained 1 hbuf)
  simp [Builtin.sumProgram, Program.run, hpop, Reply.result, Reply.graph, View.node, node, he,
    hlist]

/-- The values that can be added up are drawn first, whatever comes after them. -/
theorem run_sumProgram (hbuf : g.buffer id Builtin.valuesInput = taken ++ rest)
    (hsum : Value.sum? taken = some total) : (Builtin.sumProgram b id).run id waiting g =
      (Builtin.sumRest b id rest.length total).run id waiting (drained id taken.length g) := by
  cases taken with
  | nil => cases hsum
  | cons v taken =>
    have hbuf' : (drained id 1 g).buffer id Builtin.valuesInput = taken ++ rest :=
      hf.buffer_drained 1 hbuf
    rw [List.cons_append] at hbuf
    rw [run_sumProgram_cons b waiting hf hbuf, List.length_append]
    exact run_sumRest b waiting (hf.of_layout (layout_drained id 1 g)) hbuf' hsum rest.length

theorem Wired.run_sumProgram_total (hw : g.Wired)
    (hsum : Value.sum? (g.buffer id Builtin.valuesInput) = some total) :
    (Builtin.sumProgram b id).run id waiting g = .finished b (.ok ()) waiting
      ((drained id (g.buffer id Builtin.valuesInput).length g).broadcast id Builtin.resultOutput
        total) := by
  have hl := layout_drained id (g.buffer id Builtin.valuesInput).length g
  obtain ⟨e, he, -, ho⟩ := (hf.of_layout hl).sum_ports
  rw [run_sumProgram b waiting hf (List.append_nil _).symm hsum, List.length_nil, Builtin.sumRest]
  simp [Program.run, (hw.of_layout hl).output_eq he ho, Reply.result, Reply.graph]

theorem run_sumProgram_refused (hbuf : g.buffer id Builtin.valuesInput = taken ++ v :: rest)
    (hsum : Value.sum? taken = some total) (hadd : total.add? v = none) :
    (Builtin.sumProgram b id).run id waiting g = .finished b
      (.error (.unsuitableValue id ("cannot add " ++ total.compact ++ " and " ++ v.compact)))
      waiting (drained id (taken.length + 1) g) := by
  have hpop : (drained id taken.length g).popValue id Builtin.valuesInput =
      .ok (some v) (drained id (taken.length + 1) g) := by
    have hleft := hf.buffer_drained taken.length hbuf
    rw [List.drop_left] at hleft
    rw [drained_succ]
    exact (hf.of_layout (layout_drained id taken.length g)).popValue hleft
  rw [run_sumProgram b waiting hf hbuf hsum, List.length_cons, Builtin.sumRest, Program.run]
  simp only [hpop, Reply.result, Reply.graph, hadd]
  rfl

end

/-! The invocation -/

variable [Behaviour β] [HostsBuiltins β] [KeepsBuiltins β]

section

variable (ha : k.Attainable) (hb : k.behaviour? c = some (block .sum)) {fuel : Nat}
  (hfuel : 0 < fuel)

include hb

omit [KeepsBuiltins β] in
include hfuel in
theorem invoke_sum {result : Except GraphError Unit} {waiting : Bool} {l : Graph β}
    (hrun : (Builtin.sumProgram (block .sum : β) c).run c false (k.setBehaviour c none) =
      .finished (block .sum) result waiting l) :
    k.invoke fuel c = some (conclude c (block .sum, result, waiting, l)) := by
  obtain ⟨fuel, rfl⟩ : ∃ m, fuel = m + 1 := ⟨fuel - 1, by omega⟩
  have hprocess : (Builtin.sum.process block c : Program β) =
      Builtin.sumProgram (block .sum) c := rfl
  rw [invoke_eq hb, takeTurns, HostsBuiltins.process_block, hprocess, hrun]
  rfl

include ha

theorem Attainable.buffer_drained (n : Nat) (port : String) :
    (drained c n (k.setBehaviour c none)).buffer c port =
      if port = Builtin.valuesInput then (k.buffer c port).drop n else k.buffer c port := by
  obtain ⟨e, he, -⟩ := (ha.ready_out hb).2
  rw [Graph.buffer_drained c n he, buffer_setBehaviour]

include hfuel

theorem Attainable.addition_nil (hbuf : k.buffer c Builtin.valuesInput = []) :
    ∃ h, k.invoke fuel c = some (.ok false h) ∧ Emits c [] k h ∧
      ∀ port, h.buffer c port = k.buffer c port := by
  obtain ⟨-, hf⟩ := ha.ready_out hb
  have hrun :=
    run_sumProgram_nil (block .sum) false hf ((buffer_setBehaviour k c c none _).trans hbuf)
  have hi := invoke_sum hb hfuel hrun
  refine ⟨_, hi, ha.sound.emits_invoke hb hi rfl rfl, fun port => ?_⟩
  rw [buffer_setBehaviour, ha.buffer_drained hb]
  split
  · next heq => rw [heq, hbuf, List.drop_nil]
  · rfl

theorem Attainable.addition_total {total : Value}
    (hsum : Value.sum? (k.buffer c Builtin.valuesInput) = some total) :
    ∃ h, k.invoke fuel c = some (.ok false h) ∧ Emits c [(Builtin.resultOutput, total)] k h ∧
      ∀ port, h.buffer c port =
        (if k.hasEdge ⟨c, Builtin.resultOutput, c, port⟩ then [total] else []) ++
          if port = Builtin.valuesInput then [] else k.buffer c port := by
  obtain ⟨hw, hf⟩ := ha.ready_out hb
  have hbuf := buffer_setBehaviour k c c none Builtin.valuesInput
  have hrun := hw.run_sumProgram_total (block .sum) false hf (hbuf.symm ▸ hsum)
  have hi := invoke_sum hb hfuel hrun
  let l := drained c ((k.setBehaviour c none).buffer c Builtin.valuesInput).length
    (k.setBehaviour c none)
  have hl : l.layout = k.layout := (layout_drained c _ _).trans (layout_setBehaviour k c none)
  refine ⟨_, hi, ha.sound.emits_invoke hb hi ?_ ?_, fun port => ?_⟩
  · have hh := history_broadcast l c Builtin.resultOutput total
    rwa [tidings_congr hl, history_drained] at hh
  · exact (vars_broadcast l c Builtin.resultOutput total).trans (vars_drained c _ _)
  · rw [buffer_setBehaviour, (ha.sound.wired.of_layout hl).buffer_broadcast, hasEdge_congr hl,
      ha.buffer_drained hb, hbuf]
    by_cases hport : port = Builtin.valuesInput
    · rw [if_pos hport, if_pos hport, hport, List.drop_length]
    · rw [if_neg hport, if_neg hport]

theorem Attainable.addition_refused {taken rest : List Value} {v total : Value}
    (hbuf : k.buffer c Builtin.valuesInput = taken ++ v :: rest)
    (hsum : Value.sum? taken = some total) (hadd : total.add? v = none) :
    ∃ h, k.invoke fuel c = some (.error (.unsuitableValue c
        ("cannot add " ++ total.compact ++ " and " ++ v.compact)) h) ∧ Emits c [] k h ∧
      ∀ port, h.buffer c port = if port = Builtin.valuesInput then rest else k.buffer c port := by
  obtain ⟨-, hf⟩ := ha.ready_out hb
  have hrun := run_sumProgram_refused (block .sum) false hf
    ((buffer_setBehaviour k c c none _).trans hbuf) hsum hadd
  have hi := invoke_sum hb hfuel hrun
  refine ⟨_, hi, ha.sound.emits_invoke hb hi (history_drained c _ _) (vars_drained c _ _),
    fun port => ?_⟩
  rw [buffer_setBehaviour, ha.buffer_drained hb]
  split
  · next heq =>
    rw [heq, hbuf]
    simp
  · rfl

end

/-- One invocation of a sum, whatever waits on its input, with its values given from the newest to
the oldest. -/
theorem Attainable.addition (ha : k.Attainable) (hb : k.behaviour? c = some (block .sum))
    {fuel : Nat} (hfuel : 0 < fuel) :
    let vs := k.buffer c Builtin.valuesInput
    (vs = [] → ∃ h, k.invoke fuel c = some (.ok false h) ∧ Emits c [] k h ∧
      ∀ port, h.buffer c port = k.buffer c port) ∧
    (∀ total, Value.sum? vs = some total → ∃ h, k.invoke fuel c = some (.ok false h) ∧
      Emits c [(Builtin.resultOutput, total)] k h ∧ ∀ port, h.buffer c port =
        (if k.hasEdge ⟨c, Builtin.resultOutput, c, port⟩ then [total] else []) ++
          if port = Builtin.valuesInput then [] else k.buffer c port) ∧
    (vs ≠ [] → Value.sum? vs = none → ∃ taken v rest total h, vs = taken ++ v :: rest ∧
      Value.sum? taken = some total ∧ total.add? v = none ∧
      k.invoke fuel c = some (.error (.unsuitableValue c
        ("cannot add " ++ total.compact ++ " and " ++ v.compact)) h) ∧ Emits c [] k h ∧
      ∀ port, h.buffer c port = if port = Builtin.valuesInput then rest else k.buffer c port) ∧
    (∀ ints : List Int, ints ≠ [] → (vs.map Value.signed?).Perm (ints.map some) →
      (ints.filter (0 ≤ ·)).sum < signedLimit → signedMin ≤ (ints.filter (· < 0)).sum →
      ∃ hsum : IsSigned ints.sum, ∃ h, k.invoke fuel c = some (.ok false h) ∧
        Emits c [(Builtin.resultOutput, .number (.int ints.sum hsum.isWord))] k h) := by
  intro vs
  refine ⟨ha.addition_nil hb hfuel, fun total => ha.addition_total hb hfuel, fun hne hn => ?_,
    fun ints hne hp hhigh hlow => ?_⟩
  · obtain ⟨taken, v, rest, total, hvs, hsum, hadd⟩ := Value.exists_unsummable_of_sum? hne hn
    obtain ⟨h, hi, hemits, hleft⟩ := ha.addition_refused hb hfuel hvs hsum hadd
    exact ⟨taken, v, rest, total, h, hvs, hsum, hadd, hi, hemits, hleft⟩
  · have habsorbs : Value.Absorbs 0 ints := by simpa [Value.Absorbs] using ⟨hlow, hhigh⟩
    obtain ⟨hword, hsum⟩ := Value.sum?_signed hne hp habsorbs
    obtain ⟨h, hi, hemits, -⟩ := ha.addition_total hb hfuel hsum
    exact ⟨hword, h, hi, hemits⟩

/-- A sum on whose input these values were put, one after the other. -/
def stackedSum (vs : List Value) : List (Operation Builtin) :=
  .add .sum :: vs.map (.pushValue ⟨0⟩ Builtin.valuesInput)

def largest : Value := .number (.int 9223372036854775807 (by decide))

def minusThree : Value := .number (.int (-3) (by decide))

/-- The integers are listed in another order than they were put there, and nothing adds to a
null. -/
theorem addition_of_stackedSum : ∃ g h k l : Graph Builtin,
    performAll 1 (stackedSum [largest, minusThree]) (.new .standard) = some g ∧
    g.invoke 1 ⟨0⟩ = some (.ok false h) ∧
    (∃ total, Emits ⟨0⟩ [(Builtin.resultOutput, total)] g h ∧
      total.signed? = some 9223372036854775804) ∧
    performAll 1 (stackedSum [largest, .null, minusThree]) (.new .standard) = some k ∧
    (∃ text, k.invoke 1 ⟨0⟩ = some (.error (.unsuitableValue ⟨0⟩ text) l)) ∧ Emits ⟨0⟩ [] k l := by
  have hdec : (performAll 1 (stackedSum [largest, minusThree]) (.new .standard)).any (fun g =>
      g.behaviour? ⟨0⟩ = some .sum ∧
        g.buffer ⟨0⟩ Builtin.valuesInput = [minusThree, largest]) = true := by decide +kernel
  have hdec' : (performAll 1 (stackedSum [largest, .null, minusThree]) (.new .standard)).any
      (fun k =>
      k.behaviour? ⟨0⟩ = some .sum ∧ k.buffer ⟨0⟩ Builtin.valuesInput ≠ [] ∧
        Value.sum? (k.buffer ⟨0⟩ Builtin.valuesInput) = none) = true := by decide +kernel
  obtain ⟨g, hg, hp⟩ := (Option.any_eq_true _ _).mp hdec
  obtain ⟨k, hk, hq⟩ := (Option.any_eq_true _ _).mp hdec'
  obtain ⟨hb, hbuf⟩ := of_decide_eq_true hp
  obtain ⟨hb', hne, hnone⟩ := of_decide_eq_true hq
  have ha : g.Attainable := .reached (Reachable.performAll (.new _) hg)
  have ha' : k.Attainable := .reached (Reachable.performAll (.new _) hk)
  obtain ⟨-, -, -, hints⟩ := Attainable.addition ha hb Nat.one_pos
  obtain ⟨-, -, hrefused, -⟩ := Attainable.addition ha' hb' Nat.one_pos
  rw [hbuf] at hints
  obtain ⟨hsum, h, hi, hemits⟩ := hints [9223372036854775807, -3] (by decide) (.swap _ _ _)
    (by decide) (by decide)
  obtain ⟨-, v, -, total, l, -, -, -, hi', hsilent, -⟩ := hrefused hne hnone
  exact ⟨g, h, k, l, hg, hi, ⟨_, hemits, rfl⟩, hk, ⟨_, hi'⟩, hsilent⟩

end Graph

end Patchbay
