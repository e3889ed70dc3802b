import Patchbay.CommandLine
import Patchbay.Proofs.Numerals

/-! Arguments of runs. The file of a run and its options are taken as they are given; arguments
before them that ask for more to be logged make no difference. -/

namespace Patchbay.Command

variable {file : String} {maxRounds : Option Nat} {traceValues : Bool}

/-- An argument that asks for more to be logged. -/
def Verbose (text : String) : Prop :=
  text = "--verbose" ∨ ∃ n, text = String.ofList ('-' :: 'v' :: List.replicate n 'v')

theorem parseLetters_replicate (n : Nat) : parseLetters (List.replicate n 'v') = .verbose := by
  induction n with
  | zero => rfl
  | succ n ih => exact ih

theorem parse_verbose {text : String} (hv : Verbose text) (args : List String) :
    parse (text :: args) = parse args := by
  rcases hv with rfl | ⟨n, htext⟩
  · rfl
  · have hletters : text.toList = '-' :: 'v' :: List.replicate n 'v' := by
      rw [htext, String.toList_ofList]
    have hl : parseLetters ('v' :: List.replicate n 'v') = .verbose := parseLetters_replicate n
    have hother : ∀ s : String, s.toList[1]? ≠ some 'v' → text ≠ s := by
      rintro s hs rfl
      simp [hletters] at hs
    rw [parse.eq_def]
    simp [hother "run" (by decide), hother "types" (by decide), hother "--version" (by decide),
      hother "--verbose" (by decide), hletters, hl]

theorem parse_verbose_append {flags : List String} (hv : ∀ flag ∈ flags, Verbose flag)
    (args : List String) : parse (flags ++ args) = parse args := by
  induction flags with
  | nil => rfl
  | cons flag rest ih =>
    have hrest := ih fun text ht => hv text (List.mem_cons_of_mem _ ht)
    exact (parse_verbose (hv flag List.mem_cons_self) _).trans hrest

/-! Files and options -/

theorem count?_repr {n : Nat} (hn : n < 18446744073709551616) :
    count? n.repr = some n := by
  have htext : n.repr.toList = Nat.toDigits 10 n := by simp
  have hall : (Nat.toDigits 10 n).all Char.isDigit = true := List.all_eq_true.mpr isDigit_toDigits
  have hempty : (Nat.toDigits 10 n).isEmpty = false := by simp [Nat.toDigits_ne_nil]
  have hvalue : (Nat.toDigits 10 n).foldl (fun n c => n * 10 + Json.digitValue c) 0 = n := by
    have hdigits := Nat.ofDigitChars_ten_toDigits (n := n)
    rw [Nat.ofDigitChars] at hdigits
    simpa only [Json.digitValue, Nat.mul_comm] using hdigits
  unfold count?
  rw [htext]
  split
  · next rest hplus =>
    have hdigit := isDigit_toDigits (n := n) '+' (hplus ▸ List.mem_cons_self)
    exact absurd hdigit (by decide)
  · simp only [hempty, hall, hvalue]
    exact if_pos hn

theorem parseRun_file (hfile : file ≠ "") (hdash : file.toList.head? ≠ some '-')
    (rest : List String) :
    parseRun (file :: rest) ⟨none, none, false, false⟩ =
      parseRun rest ⟨some file, none, false, false⟩ := by
  have hother : ∀ s : String, s.toList.head? = some '-' → file ≠ s :=
    fun s hs heq => hdash (heq ▸ hs)
  have hoption : isOption file = false := by simp [isOption, hdash]
  have hvalue : maxRoundsValue? file = none := by
    have htake : file.toList.take maxRoundsOption.length ≠ maxRoundsOption := by
      intro heq
      have hhead := congrArg List.head? heq
      rw [List.head?_take, if_neg (by decide)] at hhead
      exact hdash (hhead.trans (by decide))
    simp only [maxRoundsValue?, htake, if_false]
  have hempty : file.isEmpty = false := by simpa using hfile
  rw [parseRun.eq_def]
  simp [hother "--" (by decide), hother "--trace-values" (by decide),
    hother "--max-rounds" (by decide), hvalue, hoption, RunArguments.setFile, hempty]

theorem parseRun_traceValues (file? : Option String) (maxRounds : Option Nat) :
    parseRun (if traceValues then ["--trace-values"] else []) ⟨file?, maxRounds, false, false⟩ =
      some ⟨file?, maxRounds, traceValues, false⟩ := by
  cases traceValues with
  | false => rfl
  | true => simp [parseRun, RunArguments.setTraceValues]

theorem parseRun_maxRounds {n : Nat} (hn : n < 18446744073709551616) (file? : Option String)
    (rest : List String) :
    parseRun ("--max-rounds" :: n.repr :: rest) ⟨file?, none, false, false⟩ =
      parseRun rest ⟨file?, some n, false, false⟩ := by
  rw [parseRun.eq_def]
  simp [RunArguments.setMaxRounds, count?_repr hn]

/-- How a run is asked for, the options after the file. -/
def runArguments (file : String) (maxRounds : Option Nat) (traceValues : Bool) : List String :=
  ["run", file] ++ (maxRounds.elim [] fun n => ["--max-rounds", n.repr]) ++
    if traceValues then ["--trace-values"] else []

theorem parse_runArguments (hfile : file ≠ "") (hdash : file.toList.head? ≠ some '-')
    (hmax : ∀ n ∈ maxRounds, n < 18446744073709551616) :
    parse (runArguments file maxRounds traceValues) = some (.run file maxRounds traceValues) := by
  cases maxRounds with
  | none =>
    have hrun : parseRun (file :: if traceValues then ["--trace-values"] else [])
        ⟨none, none, false, false⟩ = some ⟨some file, none, traceValues, false⟩ := by
      rw [parseRun_file hfile hdash, parseRun_traceValues]
    simp [runArguments, parse, hrun]
  | some n =>
    have hrun : parseRun (file :: "--max-rounds" :: n.repr ::
        if traceValues then ["--trace-values"] else []) ⟨none, none, false, false⟩ =
          some ⟨some file, some n, traceValues, false⟩ := by
      rw [parseRun_file hfile hdash, parseRun_maxRounds (hmax n rfl),
        parseRun_traceValues]
    simp [runArguments, parse, hrun]

end Patchbay.Command
