import Patchbay.Graph.Basic

/-! A graph in one line, for messages. -/

namespace Patchbay

def debugBlocks (ids : List BlockId) : String :=
  "[" ++ ", ".intercalate (ids.map BlockId.debugText) ++ "]"

def RunSettings.debugText (s : RunSettings) : String :=
  let maxRounds := match s.maxRounds with
    | some n => "Some(" ++ toString n ++ ")"
    | none => "None"
  "RunSettings \x7b max_rounds: " ++ maxRounds ++ ", trace_values: " ++
    (if s.traceValues then "true" else "false") ++ " \x7d"

def Graph.debugText {β : Type} (g : Graph β) : String :=
  "Blox \x7b blocks: " ++ debugBlocks g.order ++ ", subscriptions: " ++ toString g.arena.size ++
    ", processing: " ++ debugBlocks g.processing ++ ", receivers: " ++ debugBlocks g.receivers ++
    ", settings: " ++ g.settings.debugText ++ ", .. \x7d"

end Patchbay
