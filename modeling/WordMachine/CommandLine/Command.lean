import WordMachine.Assembly.Basic
import WordMachine.CommandLine.Request
import WordMachine.Listing.Text
import WordMachine.Machine.Report
import WordMachine.Machine.Run

/-! Commands: what each request prints, writes and exits with, given what was
read from its file. Running is in three parts, the machine to start with, the
steps it takes, which need not come to an end, and the report on where it came
to rest. -/
namespace WordMachine.CommandLine

structure Outcome where
  exit : Nat
  stdout : String
  stderr : String
  /-- A file to be written, with its bytes. -/
  file : Option (String × List UInt8)
  deriving DecidableEq, Repr

/-- What was read from a file, or why it could not be read. -/
abbrev Content := Except String (List UInt8)

inductive InputError where
  | unreadable (path reason : String)
  | assembly (error : AssemblyError)
  | load (error : LoadError)
  | listing (error : ListingError)
  | unwritable (path reason : String)
  deriving DecidableEq, Repr

def InputError.message : InputError → String
  | unreadable path reason => "failed to read " ++ path ++ ": " ++ reason
  | assembly error => error.message
  | load error => error.message
  | listing error => error.message
  | unwritable path reason => "failed to write " ++ path ++ ": " ++ reason

namespace Outcome

def success (stdout : String) : Outcome := ⟨0, stdout, "", none⟩

def failure (e : InputError) : Outcome := ⟨1, "", "error: " ++ e.message ++ "\n", none⟩

end Outcome

/-- The text of a source file. -/
def sourceText (path : String) : Content → Except InputError String
  | .error reason => .error (.unreadable path reason)
  | .ok bytes =>
    match String.fromUTF8? (ByteArray.mk bytes.toArray) with
    | some text => .ok text
    | none => .error (.unreadable path "stream did not contain valid UTF-8")

/-- The image in a file; a source is assembled first. -/
def loadImage (path : String) (content : Content) : Except InputError Image := do
  let bytes ←
    if Path.isSource path then do
      let text ← sourceText path content
      (assemble text).mapError .assembly
    else content.mapError (.unreadable path)
  (Image.ofBytes bytes).mapError fun e => .load (.image e)

def AsmRequest.perform (r : AsmRequest) (content : Content) : Outcome :=
  match sourceText r.source content with
  | .error e => .failure e
  | .ok text =>
    match assemble text with
    | .error e => .failure (.assembly e)
    | .ok bytes => ⟨0, "", "", some (r.output, bytes)⟩

/-- The outcome when the image could not be written. -/
def AsmRequest.unwritten (r : AsmRequest) (reason : String) : Outcome :=
  .failure (.unwritable r.output reason)

def DisRequest.perform (r : DisRequest) (terminal : Bool) (content : Content) : Outcome :=
  match loadImage r.input content with
  | .error e => .failure e
  | .ok image =>
    match Listing.ofImage image with
    | .error e => .failure (.listing e)
    | .ok l =>
      let palette := Palette.ofChoice (r.color.coloured terminal)
      .success (l.text ⟨r.implicitStart, r.addresses, palette⟩)

/-- The machine to run, or the outcome when there is none. -/
def RunRequest.machine (r : RunRequest) (content : Content) : Except Outcome Machine :=
  match loadImage r.input content with
  | .error e => .error (.failure e)
  | .ok image => (Machine.ofImage image r.config).mapError fun e => .failure (.load e)

/-- Keeps events, the last one first, if a trace was asked for. -/
def RunRequest.observer (r : RunRequest) : Observer (List Event) :=
  fun event events => if r.trace then event :: events else events

/-- Runs the machine as far as was asked for. -/
def RunRequest.execute (r : RunRequest) (s : Session (List Event)) :
    Option (EStateM.Result Fault (Session (List Event)) Unit) :=
  match r.steps with
  | some limit => some (EStateM.run (do let _ ← Exec.run r.observer limit) s)
  | none => Exec.runToHalt r.observer s

/-- The trace and the state of a machine that has come to rest; a fault makes
the exit code 2. -/
def RunRequest.report (r : RunRequest) (terminal : Bool) (s : Session (List Event))
    (fault? : Option Fault) : Outcome :=
  let palette := Palette.ofChoice (r.color.coloured terminal)
  let trace := traceLines palette r.verbosity s.record.reverse
  let state := if r.json then s.machine.json fault? ++ "\n" else s.machine.summary palette
  let stdout := String.join (trace.map (· ++ "\n")) ++ state
  match fault? with
  | none => .success stdout
  | some fault => ⟨2, stdout, "runtime error: " ++ fault.message ++ "\n", none⟩

def usage : String :=
  "usage: asm SOURCE [-o FILE]\n" ++
  "       run INPUT [--steps N] [--trace] [-v] [--json] [--stack-size BYTES]\n" ++
  "           [--memory-size BYTES] [--writable-program] [--color WHEN]\n" ++
  "       dis INPUT [--implicit-start] [--addresses] [--color WHEN]\n"

/-- Asking for help is no failure. -/
def UsageError.outcome : UsageError → Outcome
  | help => .success usage
  | _ => ⟨2, "", usage, none⟩

end WordMachine.CommandLine
