import Patchbay.Proofs.Acceptance
import Patchbay.Proofs.Arguments
import Patchbay.Proofs.Printing
import Patchbay.Proofs.Reloading
import Patchbay.Proofs.SavedTexts
import Patchbay.Proofs.Tags

/-! Runs from the command line. A loaded graph has its alerts on the console and has shown nothing
before it runs, so the output is what the run prints; what is logged of it, and how much, makes no
difference. -/

namespace Patchbay

/-! Loading -/

namespace Graph

variable {β : Type} {g : Graph β}

theorem prints_subscribe (g : Graph β) (edge : Edge) : Prints g []
    (g.subscribe edge.subscriber edge.input edge.publisher edge.output).graph := by
  rcases graph_subscribe_cases g edge with heq | ⟨-, -, heq⟩
  · rw [heq]
    exact .refl g
  · rw [heq]
    have hseen := prints_record (g.connect edge) (.logged (.subscribed edge))
    exact ⟨hseen.vars, hseen.printed⟩

theorem Prints.printed_nil {h : Graph β} (hp : Prints g [] h) (hg : g.printed = []) :
    h.printed = [] := by
  simpa [hg] using hp.printed

theorem keptByLoading_printed [Behaviour β] :
    KeptByLoading (fun g : Graph β => g.printed = []) where
  add _ _ hg := hg
  setParameter g id _ _ hg := (prints_editNode g id _).printed_nil hg
  annotateBlock _ _ _ hg := hg
  subscribe g subscriber input publisher output hg :=
    (prints_subscribe g ⟨publisher, output, subscriber, input⟩).printed_nil hg
  finish g metadata vars notice hg := by
    have hseen := prints_record ({ g with metadata := metadata, vars := vars } : Graph β)
      (.logged notice)
    exact hseen.printed_nil hg

end Graph

namespace Command

variable {contents : Except FileFault String} {g : Graph Builtin}

theorem console_of_create {name : String} {screen : Screen}
    (hc : registry.create name = .ok (.alert screen)) : screen = .console := by
  have hname : Behaviour.typeName (Builtin.alert .console) = "Alert" := rfl
  by_cases ha : name = "Alert"
  · simp [registry, Registry.registerType, hname, ha] at hc
    exact hc.symm
  · -- The built-in alerts, which are on another screen, were registered under the name taken over.
    have hlog : Behaviour.typeName (id (Builtin.alert .log)) = "Alert" := rfl
    simp only [registry, Registry.builtins, Registry.registerType, List.foldl,
      Registry.create_register, Registry.create_empty, hname, hlog, ha, if_false] at hc
    split_ifs at hc <;> cases hc

/-- Whether a file holds the text of a document from which the built-in blocks, with alerts on the
console, are rebuilt as `g`. -/
def Loads (contents : Except FileFault String) (g : Graph Builtin) : Prop :=
  ∃ text d, contents = .ok text ∧ Document.ofText text = .ok d ∧
    Graph.ofDocument ((Registry.builtins id .log).registerType (.alert .console)) d = .ok () g

theorem load_eq_ok_iff : load contents = .ok g ↔ Loads contents g := by
  constructor
  · intro hl
    unfold load at hl
    split at hl
    · cases hl
    · next text =>
      split at hl
      · cases hl
      · next d hd =>
        split at hl
        · cases hl
        · next hg =>
          cases hl
          exact ⟨text, d, rfl, hd, hg⟩
  · rintro ⟨text, d, rfl, hd, hg⟩
    have hregistry : Graph.ofDocument registry d = .ok () g := hg
    simp only [load, hd, hregistry]

theorem Loads.ready (hl : Loads contents g) : g.Ready := by
  obtain ⟨text, d, -, -, hd⟩ := hl
  exact (Graph.Reachable.loaded hd).ready

theorem Loads.printed_eq (hl : Loads contents g) : g.printed = [] := by
  obtain ⟨text, d, -, -, hd⟩ := hl
  have hp : (Graph.ofDocument registry d).graph.printed = [] :=
    Graph.keptByLoading_printed.ofDocument (P := fun g => g.printed = []) rfl
  have hregistry : Graph.ofDocument registry d = .ok () g := hd
  rwa [hregistry] at hp

theorem Loads.consoled (hl : Loads contents g) : g.Consoled := by
  have hready := hl.ready
  obtain ⟨text, d, -, -, hd⟩ := hl
  have hr := Graph.rebuilt_of_ofDocument hd
  intro id screen hb
  obtain ⟨e, he, hbe⟩ := Option.bind_eq_some_iff.mp hb
  have hm : id ∈ g.order := (hready.wired.mem_order_iff id).mpr (by simp [he])
  rw [hr.order] at hm
  obtain ⟨i, hi, rfl⟩ := List.mem_map.mp hm
  have hlt : i < d.blocks.length := List.mem_range.mp hi
  obtain ⟨b, e', hcreate, he', hb', -⟩ := hr.block i _ (List.getElem?_eq_getElem hlt)
  obtain rfl : e = e' := Option.some.inj (he.symm.trans he')
  obtain rfl : b = .alert screen := Option.some.inj (hb'.symm.trans hbe)
  exact console_of_create hcreate

/-- The graph as a command runs it: limited as the command says or else as before, and logged with
the values if either of them asks for that. -/
def started (g : Graph Builtin) (maxRounds : Option Nat) (traceValues : Bool) : Graph Builtin :=
  { g with
    settings := ⟨maxRounds.or g.settings.maxRounds, g.settings.traceValues || traceValues⟩
    observers := g.observers ++ [.logger (g.settings.traceValues || traceValues)] }

theorem prepare_eq (g : Graph Builtin) (maxRounds : Option Nat) (traceValues : Bool) :
    prepare g maxRounds traceValues = started g maxRounds traceValues := rfl

theorem ready_started (hg : g.Ready) (maxRounds : Option Nat) (traceValues : Bool) :
    (started g maxRounds traceValues).Ready := hg.of_slots rfl rfl rfl rfl rfl

end Command

/-! Observers -/

@[simp] theorem GraphError.rename_id (e : GraphError) : e.rename (fun b => b) = e := by
  cases e <;> rfl

theorem Builtin.Kin.refl (b : Builtin) : b.Kin b := by
  cases b with
  | forward => exact .forward
  | source initial => exact .source initial initial
  | sum => exact .sum
  | alert screen => exact .alert screen screen
  | compare => exact .compare

namespace Mirror

variable {m : Mirror} {μ ν : Moment Builtin}

theorem ShowsMoment.course {β : Type} [Behaviour β] [HostsBuiltins β] {μ ν : Moment β}
    (hm : m.ShowsMoment μ ν) {l : List (Moment β)} {reply : Reply β RunReport}
    (hc : μ.Course l reply) : ∃ l' reply', ν.Course l' reply' ∧
      List.Forall₂ m.ShowsMoment l l' ∧ m.Replies reply reply' := by
  induction hc generalizing ν with
  | @ends μ r he =>
    obtain ⟨r', he', hr⟩ := hm.ends.1 r he
    have hclose : m.Replies (Graph.closeRun μ.report r) (Graph.closeRun ν.report r') := by
      rw [hm.report]
      exact hr.closeRun μ.report
    exact ⟨_, _, .ends he', .cons hm .nil, hclose⟩
  | step hs _ ih =>
    obtain ⟨ν', hs', hm'⟩ := hm.step.1 _ hs
    obtain ⟨l', reply', hc', hall, hr⟩ := ih hm'
    exact ⟨_, _, .step hs' hc', .cons hm hall, hr⟩

theorem ShowsMoment.message?_eq (hm : m.ShowsMoment μ ν) : ν.message? = μ.message? := by
  obtain ⟨g, report, pending⟩ := μ
  obtain ⟨h, report', pending'⟩ := ν
  obtain ⟨hs, hreport, hpending, hlive⟩ := hm
  dsimp only at hs hpending hlive
  subst hpending
  cases pending with
  | nil => rfl
  | cons id rest =>
    have hl : g.contains id := hlive id List.mem_cons_self
    have hbuffer := hs.buffer id hl Builtin.messageInput
    have hb := hs.behaviour id hl
    simp only [Moment.message?, List.map_cons, hbuffer]
    generalize g.behaviour? id = o at hb
    generalize h.behaviour? (m.image id) = o' at hb
    cases hb with
    | none => rfl
    | some hk =>
      obtain ⟨b, b', rfl, rfl, hkin⟩ := hk
      cases hkin <;> rfl

theorem messages_eq {l l' : List (Moment Builtin)} (hall : List.Forall₂ m.ShowsMoment l l') :
    l'.filterMap Moment.message? = l.filterMap Moment.message? := by
  induction hall with
  | nil => rfl
  | cons hm _ ih =>
    rw [filterMap_cons_toList, filterMap_cons_toList, hm.message?_eq, ih]

end Mirror

namespace Graph

/-- Runs of graphs that differ in nothing that matters to a run go the same way. -/
theorem Ready.course_congr {g h : Graph Builtin} (hg : g.Ready) (hslots : h.slots = g.slots)
    (horder : h.order = g.order) (harena : h.arena = g.arena) (hproc : h.processing = g.processing)
    (hmax : h.settings.maxRounds = g.settings.maxRounds) {l : List (Moment Builtin)}
    {reply : Reply Builtin RunReport} (hc : g.Course l reply) : ∃ l' reply', h.Course l' reply' ∧
      reply'.result = reply.result ∧
      l'.filterMap Moment.message? = l.filterMap Moment.message? := by
  have hslot : ∀ id, h.slot? id = g.slot? id := fun id => by simp only [slot?, hslots]
  have hi : Image (fun b => b) g h :=
    { source := hg.wired
      target := hg.wired.congr harena horder fun id => by simp only [wiring, hslot]
      order := by rw [horder, List.map_id']
      twin := fun id e he => ⟨e, (hslot id).trans he, rfl, rfl, rfl, rfl⟩
      edges := fun id _ output => by
        have hrename : Edge.rename (fun b => b) = fun edge => edge := rfl
        rw [harena, hrename, List.map_id']
      maxRounds := hmax }
  have hkin : ∀ id, g.contains id → Option.Rel Mirror.Kin (g.behaviour? id) (h.behaviour? id) := by
    intro id _
    have hb : h.behaviour? id = g.behaviour? id := by simp only [behaviour?, hslot]
    rw [hb]
    cases g.behaviour? id with
    | none => exact .none
    | some b => exact .some ⟨b, b, rfl, rfl, .refl b⟩
  have hp : h.processing = g.processing.map fun b => b := by rw [hproc, List.map_id']
  obtain ⟨l', reply', hc', hall, hr⟩ := (hi.shows_start hg.toSound hkin hp).course hc
  refine ⟨l', reply', hc', ?_, Mirror.messages_eq hall⟩
  rw [hr.result]
  cases reply.result <;> simp [Except.mapError]

end Graph

namespace Command

variable {file : String} {contents : Except FileFault String} {maxRounds : Option Nat}
  {traceValues : Bool} {fuel : Nat} {exit : Exit} {g : Graph Builtin}

/-- The line that shows a message: a string as it is, any other value as compact text. -/
def line : Value → String
  | .string s => s ++ "\n"
  | v => v.compact ++ "\n"

theorem messageLine_eq (v : Value) : messageLine v = line v := by
  cases v <;> rfl

theorem consoleOutput_eq (g : Graph Builtin) :
    consoleOutput g.history = String.join (g.printed.map line) := by
  have hlines : ∀ l : List Occurrence, consoleOutput l.reverse =
      String.join ((l.filterMap Occurrence.printed?).map line) := by
    intro l
    induction l with
    | nil => rfl
    | cons o rest ih =>
      rw [filterMap_cons_toList, List.map_append, String.join_append, ← ih]
      cases o with
      | shown screen message =>
        cases screen <;> simp [consoleOutput, Occurrence.printed?, messageLine_eq]
      | observed | logged | said => simp [consoleOutput, Occurrence.printed?]
  have houtput := hlines g.history.reverse
  rwa [List.reverse_reverse, List.filterMap_reverse] at houtput

/-- How a command exits that ran a graph to this result and showed these messages. -/
def exitOf (file : String) (result : Except GraphError RunReport) (messages : List Value) : Exit :=
  match result with
  | .error e =>
    ⟨1, String.join (messages.map line), failureText ("run of " ++ file ++ " failed") [e.message]⟩
  | .ok _ => ⟨0, String.join (messages.map line), ""⟩

section

variable (hl : Loads contents g) {l : List (Moment Builtin)} {reply : Reply Builtin RunReport}
  (hc : (started g maxRounds traceValues).Course l reply)

include hl hc

theorem Loads.course_prints : reply.graph.vars = .empty ∧
    consoleOutput reply.graph.history = String.join ((l.filterMap Moment.message?).map line) := by
  have hready := ready_started hl.ready maxRounds traceValues
  have hconsoled : (started g maxRounds traceValues).Consoled := fun id screen hb =>
    hl.consoled id screen hb
  have hnone : (started g maxRounds traceValues).printed = [] := hl.printed_eq
  obtain ⟨hvars, hprinted⟩ := hready.course_prints hconsoled hc
  rw [hnone, List.nil_append] at hprinted
  exact ⟨hvars, by rw [consoleOutput_eq, hprinted]⟩

theorem Loads.runFile_eq (hr : (started g maxRounds traceValues).run fuel = some reply) :
    runFile file contents maxRounds traceValues fuel =
      some (exitOf file reply.result (l.filterMap Moment.message?)) := by
  obtain ⟨hvars, hout⟩ := hl.course_prints hc
  have hload := load_eq_ok_iff.mpr hl
  cases reply with
  | error e k =>
    rw [Reply.graph_error] at hout
    simp only [runFile, hload, prepare_eq, hr, hout]
    rfl
  | ok report k =>
    rw [Reply.graph_ok] at hvars hout
    have htext : variablesText k = "" := by
      rw [variablesText, hvars]
      rfl
    simp only [runFile, hload, prepare_eq, hr, htext, hout, String.append_empty]
    rfl

end

theorem Loads.exists_course (hl : Loads contents g)
    (hr : runFile file contents maxRounds traceValues fuel = some exit) : ∃ l reply,
      (started g maxRounds traceValues).run fuel = some reply ∧
      (started g maxRounds traceValues).Course l reply ∧
      exit = exitOf file reply.result (l.filterMap Moment.message?) := by
  cases hrun : (started g maxRounds traceValues).run fuel with
  | none => simp [runFile, load_eq_ok_iff.mpr hl, prepare_eq, hrun] at hr
  | some reply =>
    obtain ⟨l, hc⟩ := Graph.run_eq_some_iff_course.mp ⟨fuel, hrun⟩
    rw [hl.runFile_eq hc hrun] at hr
    exact ⟨l, reply, rfl, hc, (Option.some.inj hr).symm⟩

theorem runFile_eq_of_error {e : LoadError} (hl : load contents = .error e) :
    runFile file contents maxRounds traceValues fuel =
      some ⟨1, "", failureText ("failed to load " ++ file) e.messages⟩ := by
  simp [runFile, hl]

theorem exists_runFile_of_traceValues
    (hr : runFile file contents maxRounds traceValues fuel = some exit) (traceValues' : Bool) :
    ∃ fuel', runFile file contents maxRounds traceValues' fuel' = some exit := by
  cases hload : load contents with
  | error e =>
    rw [runFile_eq_of_error hload] at hr
    exact ⟨fuel, (runFile_eq_of_error hload).trans hr⟩
  | ok g =>
    have hl := load_eq_ok_iff.mp hload
    obtain ⟨l, reply, -, hc, rfl⟩ := hl.exists_course hr
    have hready := ready_started hl.ready maxRounds traceValues
    obtain ⟨l', reply', hc', hresult, hmessages⟩ := hready.course_congr
      (h := started g maxRounds traceValues') rfl rfl rfl rfl rfl hc
    obtain ⟨fuel', hrun⟩ := Graph.run_eq_some_iff_course.mpr ⟨l', hc'⟩
    refine ⟨fuel', ?_⟩
    rw [hl.runFile_eq hc' hrun, hresult, hmessages]

theorem code_exitOf (file : String) (result : Except GraphError RunReport) (messages : List Value) :
    (exitOf file result messages).code = 0 ↔ ∃ report, result = .ok report := by
  cases result <;> simp [exitOf]

theorem output_exitOf (file : String) (result : Except GraphError RunReport)
    (messages : List Value) :
    (exitOf file result messages).output = String.join (messages.map line) := by
  cases result <;> rfl

/-- The exit and the output of a run from the command line do not depend on how much is logged of
it. The exit is a success if the file loads and the run succeeds. Nothing is printed where loading
fails; of a run, exactly the newest message of each alert that is invoked with one, each on a line,
in the order of the invocations up to the one it failed at, and never any variables. -/
theorem run_prints
    (hr : (Command.run file maxRounds traceValues).execute contents fuel = some exit) :
    (∀ traceValues', ∃ fuel',
      (Command.run file maxRounds traceValues').execute contents fuel' = some exit) ∧
    (∀ flags, (∀ flag ∈ flags, Verbose flag) →
      (∀ args, parse (flags ++ args) = parse args) ∧
      (file ≠ "" → file.toList.head? ≠ some '-' → (∀ n ∈ maxRounds, n < 18446744073709551616) →
        parse (flags ++ runArguments file maxRounds traceValues) =
          some (.run file maxRounds traceValues))) ∧
    (exit.code = 0 ↔ ∃ g report h, Loads contents g ∧
      (started g maxRounds traceValues).run fuel = some (.ok report h)) ∧
    ((∀ g, ¬Loads contents g) → exit.output = "") ∧
    ∀ g, Loads contents g → ∃ course reply,
      (started g maxRounds traceValues).run fuel = some reply ∧
      (started g maxRounds traceValues).Course course reply ∧
      reply.graph.vars = .empty ∧
      exit.output = String.join ((course.filterMap Moment.message?).map line) := by
  have hrunFile : runFile file contents maxRounds traceValues fuel = some exit := hr
  refine ⟨exists_runFile_of_traceValues hrunFile, fun flags hv =>
    ⟨parse_verbose_append hv, fun hfile hdash hmax => ?_⟩, ?_⟩
  · rw [parse_verbose_append hv, parse_runArguments hfile hdash hmax]
  cases hload : load contents with
  | error e =>
    have hnone : ∀ g, ¬Loads contents g := fun g hl => by
      rw [load_eq_ok_iff.mpr hl] at hload
      cases hload
    rw [runFile_eq_of_error hload] at hrunFile
    obtain rfl := Option.some.inj hrunFile
    exact ⟨by simp [hnone], fun _ => rfl, fun g hl => absurd hl (hnone g)⟩
  | ok g =>
    have hl := load_eq_ok_iff.mp hload
    have hsole : ∀ g', Loads contents g' → g' = g := fun g' hl' =>
      Except.ok.inj ((load_eq_ok_iff.mpr hl').symm.trans hload)
    obtain ⟨l, reply, hrun, hc, rfl⟩ := hl.exists_course hrunFile
    refine ⟨?_, fun hno => absurd hl (hno g), ?_⟩
    · rw [code_exitOf]
      constructor
      · rintro ⟨report, hok⟩
        exact ⟨g, report, reply.graph, hl, by rw [hrun, ← Reply.eq_ok hok]⟩
      · rintro ⟨g', report, h, hl', hrun'⟩
        obtain rfl := hsole g' hl'
        rw [hrun] at hrun'
        cases hrun'
        exact ⟨report, rfl⟩
    · intro g' hl'
      obtain rfl := hsole g' hl'
      exact ⟨l, reply, hrun, hc, (hl.course_prints hc).1, output_exitOf _ _ _⟩

/-- One source feeds an alert at once, another one through a block, and once more through a second
block. The document has a variable, and settings of its own. -/
def echoes : Document where
  version := "1.0.0"
  blocks := [
    ((BlockRecord.new 0 "Data").setValue "Data" (.string "hello")).addSubscriber "Data"
      ⟨4, "Message"⟩,
    ((BlockRecord.new 1 "Data").setValue "Data" (.array [.ofNat 1, .null])).addSubscriber "Data"
      ⟨2, "In"⟩,
    ((BlockRecord.new 2 "Block").addSubscriber "Out" ⟨4, "Message"⟩).addSubscriber "Out" ⟨3, "In"⟩,
    (BlockRecord.new 3 "Block").addSubscriber "Out" ⟨4, "Message"⟩,
    BlockRecord.new 4 "Alert"]
  metadata := .empty
  vars := Dict.empty.insert "x" .null
  settings := ⟨some 100, true⟩

theorem loads_echoes : Loads (.ok echoes.text) (Graph.ofDocument registry echoes).graph := by
  have hread : Document.ofText echoes.text = .ok echoes := by
    rw [Document.ofText_text]
    decide +kernel
  have hresult : (Graph.ofDocument registry echoes).result.toOption = some () := by decide +kernel
  exact ⟨echoes.text, echoes, rfl, hread, Reply.eq_ok_of_toOption hresult⟩

/-- What is left of a run of `echoes` that is limited to three rounds. -/
def echoesExit : Exit where
  code := 1
  output := "hello\n[1,null]\n"
  errors :=
    "Error: run of echoes.json failed\n\nCaused by:\n    run did not converge after 3 rounds\n"

/-- A run that the limit of the command line cuts short, when a string and an array have been
shown. -/
theorem run_prints_echoes : ∃ g course reply,
    (Command.run "echoes.json" (some 3) false).execute (.ok echoes.text) 9 = some echoesExit ∧
    (∃ fuel, (Command.run "echoes.json" (some 3) true).execute (.ok echoes.text) fuel =
      some echoesExit) ∧
    Verbose "-vv" ∧ parse ["-vv", "run", "echoes.json", "--max-rounds", "3"] =
      some (.run "echoes.json" (some 3) false) ∧
    Loads (.ok echoes.text) g ∧ (started g (some 3) false).settings = ⟨some 3, true⟩ ∧
    (started g (some 3) false).run 9 = some reply ∧
    (started g (some 3) false).Course course reply ∧
    String.join ((course.filterMap Moment.message?).map line) = "hello\n[1,null]\n" := by
  have hl := loads_echoes
  have hexit : (Command.run "echoes.json" (some 3) false).execute (.ok echoes.text) 9 =
      some echoesExit := by
    rw [execute, runFile, load_eq_ok_iff.mpr hl]
    decide +kernel
  have hverbose : Verbose "-vv" := Or.inr ⟨1, rfl⟩
  obtain ⟨htrace, hflags, -, -, hprints⟩ := run_prints hexit
  obtain ⟨course, reply, hrun, hc, -, hout⟩ := hprints _ hl
  have hparse := (hflags ["-vv"] (by simpa using hverbose)).2 (by decide) (by decide) (by simp)
  exact ⟨_, course, reply, hexit, htrace true, hverbose, hparse, hl, by decide +kernel, hrun, hc,
    hout.symm⟩

end Command

end Patchbay
