import WordMachine.Machine.Event
import WordMachine.Text.Palette

/-! Traces: events as lines of text. Every trace shows instructions, calls,
returns, halts and refused writes; a verbose one shows writes, comparisons and
decisions too. -/
namespace WordMachine

inductive Verbosity where
  | default | verbose
  deriving DecidableEq, Repr

namespace Event

/-- Lines about an instruction are indented past its address. -/
def indentation : String := "        "

def detail (p : Palette) (verbosity : Verbosity) (text : String) : Option String :=
  match verbosity with
  | .default => none
  | .verbose => some (indentation ++ p.dim ++ text ++ p.reset)

/-- The line of an event, if a trace of this verbosity shows it. -/
def line? (p : Palette) (verbosity : Verbosity) : Event → Option String
  | instruction pc i => some (p.dim ++ Hex.word pc ++ p.reset ++ "  " ++ i.text)
  | registerWrite r w => detail p verbosity (r.name ++ " = " ++ Hex.word w)
  | memoryWrite address w => detail p verbosity ("[" ++ Hex.word address ++ "] = " ++ Hex.word w)
  | refusedWrite address w =>
    some (indentation ++ p.alarm ++ "illegal write of " ++ Hex.word w ++ " to " ++
      Hex.word address ++ " in the program segment, halted" ++ p.reset)
  | comparison left right flags =>
    detail p verbosity
      ("compare " ++ Hex.word left ++ " with " ++ Hex.word right ++ ": " ++ flags.text)
  | jump target taken =>
    detail p verbosity
      ("branch to " ++ Hex.word target ++ if taken then " taken" else " not taken")
  | call target returnAddress =>
    some (indentation ++ p.label ++ "call " ++ Hex.word target ++ p.reset ++ " (returns to " ++
      Hex.word returnAddress ++ ")")
  | ret returnAddress =>
    some (indentation ++ p.label ++ "return to " ++ Hex.word returnAddress ++ p.reset)
  | halt pc => some (p.literal ++ "halted at " ++ Hex.word pc ++ p.reset)

end Event

/-- The lines of events in the order they happened. -/
def traceLines (p : Palette) (verbosity : Verbosity) (events : List Event) : List String :=
  events.filterMap (Event.line? p verbosity)

end WordMachine
