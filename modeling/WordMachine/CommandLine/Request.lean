import WordMachine.CommandLine.Option
import WordMachine.CommandLine.Path
import WordMachine.Machine.Layout
import WordMachine.Machine.Trace

/-! Requests: what the arguments ask for. The first names the command; the rest
are read by the options of that command. -/
namespace WordMachine.CommandLine

inductive ColorChoice where
  | auto | always | never
  deriving DecidableEq, Repr

namespace ColorChoice

def ofText : String → ColorChoice
  | "always" => always
  | "never" => never
  | _ => auto

/-- Without a choice, only a terminal gets colours. -/
def coloured (terminal : Bool) : ColorChoice → Bool
  | auto => terminal
  | always => true
  | never => false

end ColorChoice

structure AsmRequest where
  source : String
  output : String
  deriving DecidableEq, Repr

structure RunRequest where
  input : String
  steps : Option Nat
  trace : Bool
  /-- How often more detail was asked for, at most 255. -/
  verboseCount : Nat
  json : Bool
  config : Config
  color : ColorChoice
  deriving DecidableEq, Repr

def RunRequest.verbosity (r : RunRequest) : Verbosity :=
  if r.verboseCount = 0 then .default else .verbose

structure DisRequest where
  input : String
  implicitStart : Bool
  addresses : Bool
  color : ColorChoice
  deriving DecidableEq, Repr

inductive Request where
  | asm (request : AsmRequest)
  | run (request : RunRequest)
  | dis (request : DisRequest)
  deriving DecidableEq, Repr

namespace OptionSpec

def output : OptionSpec := ⟨"output", some 'o', .path⟩

def steps : OptionSpec := ⟨"steps", none, .number⟩

def trace : OptionSpec := ⟨"trace", none, .flag⟩

def verbose : OptionSpec := ⟨"", some 'v', .count⟩

def json : OptionSpec := ⟨"json", none, .flag⟩

def stackSize : OptionSpec := ⟨"stack-size", none, .number⟩

def memorySize : OptionSpec := ⟨"memory-size", none, .number⟩

def writableProgram : OptionSpec := ⟨"writable-program", none, .flag⟩

def implicitStart : OptionSpec := ⟨"implicit-start", none, .flag⟩

def addresses : OptionSpec := ⟨"addresses", none, .flag⟩

def color : OptionSpec := ⟨"color", none, .choice ["auto", "always", "never"]⟩

end OptionSpec

namespace Reading

def numberOf? (r : Reading) (o : OptionSpec) : Option Nat := (r.value? o).bind number?

def colorChoice (r : Reading) : ColorChoice := ColorChoice.ofText ((r.value? .color).getD "auto")

end Reading

namespace Request

/-- Without an output, the image is named after the source. -/
def ofAsm (arguments : List String) : Except UsageError Request := do
  let r ← Reading.readAll [.output] arguments
  let output := (r.value? .output).getD (Path.withExtension r.path Path.imageExtension)
  return .asm ⟨r.path, output⟩

/-- More detail implies a trace. -/
def ofRun (arguments : List String) : Except UsageError Request := do
  let r ← Reading.readAll
    [.steps, .trace, .verbose, .json, .stackSize, .memorySize, .writableProgram, .color] arguments
  let d : Config := {}
  let verboseCount := min 255 (r.countOf .verbose)
  return .run
    { input := r.path
      steps := r.numberOf? .steps
      trace := r.has .trace || verboseCount != 0
      verboseCount
      json := r.has .json
      config :=
        { stackSize := (r.numberOf? .stackSize).getD d.stackSize
          memorySize := (r.numberOf? .memorySize).getD d.memorySize
          readonlyProgram := !r.has .writableProgram }
      color := r.colorChoice }

def ofDis (arguments : List String) : Except UsageError Request := do
  let r ← Reading.readAll [.implicitStart, .addresses, .color] arguments
  return .dis ⟨r.path, r.has .implicitStart, r.has .addresses, r.colorChoice⟩

def commandNames : List String := ["asm", "run", "dis", "help"]

/-- Help on a command: the command has to exist, and none has commands of its own. -/
def help : List String → UsageError
  | [] => .help
  | [name] => if name ∈ commandNames then .help else .invalidSubcommand
  | _ => .invalidSubcommand

/-- Reads an argument in front of the command that is no command. -/
def notCommand (text : String) : UsageError :=
  match text.toList with
  | '-' :: '-' :: rest =>
    if String.ofList (rest.takeWhile (· != '=')) = "help" then
      if '=' ∈ rest then .tooManyValues else .help
    else .unknownArgument
  | '-' :: 'h' :: _ => .help
  | '-' :: _ :: _ => .unknownArgument
  | _ => .invalidSubcommand

def ofArguments : List String → Except UsageError Request
  | [] => .error .missingCommand
  | "asm" :: rest => ofAsm rest
  | "run" :: rest => ofRun rest
  | "dis" :: rest => ofDis rest
  | "help" :: rest => .error (help rest)
  | ["--"] => .error .missingCommand
  | "--" :: name :: _ =>
    .error (if name ∈ commandNames then .unknownArgument else .invalidSubcommand)
  | text :: _ => .error (notCommand text)

end Request

end WordMachine.CommandLine
