import WordMachine.CommandLine.Command

/-! The program: reads arguments and one file, performs the request, and writes
what comes of it. -/
namespace WordMachine.CommandLine

def reason (e : IO.Error) : String :=
  match e with
  | .noFileOrDirectory _ code detail => detail ++ " (os error " ++ code.toNat.repr ++ ")"
  | .permissionDenied _ code detail => detail ++ " (os error " ++ code.toNat.repr ++ ")"
  | .inappropriateType _ code detail => detail ++ " (os error " ++ code.toNat.repr ++ ")"
  | e => e.toString

def readContent (path : String) : IO Content := do
  try
    let file ← IO.FS.Handle.mk path .read
    return .ok (← file.readBinToEnd).data.toList
  catch e => return .error (reason e)

def finish (o : Outcome) : IO UInt32 := do
  IO.print o.stdout
  IO.eprint o.stderr
  return UInt32.ofNat o.exit

def performAsm (r : AsmRequest) : IO UInt32 := do
  let o := r.perform (← readContent r.source)
  match o.file with
  | none => finish o
  | some (path, bytes) =>
    try
      IO.FS.writeBinFile path (ByteArray.mk bytes.toArray)
      finish o
    catch e => finish (r.unwritten (reason e))

def performRun (terminal : Bool) (r : RunRequest) : IO UInt32 := do
  match r.machine (← readContent r.input) with
  | .error o => finish o
  | .ok m =>
    match r.execute ⟨m, []⟩ with
    | some (.ok _ s) => finish (r.report terminal s none)
    | some (.error fault s) => finish (r.report terminal s (some fault))
    | none => return 0

/-- Performs what the arguments ask for and gives the exit code. -/
def perform (arguments : List String) : IO UInt32 := do
  let terminal := (← (← IO.getStdout).isTty) && (← (← IO.getStderr).isTty)
  match Request.ofArguments arguments with
  | .error e => finish e.outcome
  | .ok (.asm r) => performAsm r
  | .ok (.run r) => performRun terminal r
  | .ok (.dis r) => finish (r.perform terminal (← readContent r.input))

end WordMachine.CommandLine

def main (arguments : List String) : IO UInt32 := WordMachine.CommandLine.perform arguments
