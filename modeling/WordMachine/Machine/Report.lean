import WordMachine.Machine.Basic
import WordMachine.Text.Palette

/-! Reports on the state of a machine: a summary to read, an object in JSON, and
a description of its parts. None of the texts in the object needs an escape. -/
namespace WordMachine.Machine

/-- A text filled up with blanks on the right. -/
def padRight (width : Nat) (text : String) : String :=
  text ++ String.ofList (List.replicate (width - text.length) ' ')

def summaryCell (p : Palette) (m : Machine) (r : Register) : String :=
  p.dim ++ padRight 5 r.name ++ p.reset ++ " " ++ Hex.word (m.get r)

/-- Registers are shown four to a row. -/
def summaryRows : List (List Register) :=
  [[.r1, .r2, .r3, .r4], [.r5, .r6, .r7, .r8], [.pc, .sp, .sb, .flags]]

def summaryLines (p : Palette) (m : Machine) : List String :=
  [p.literal ++ (if m.isHalted then "halted" else "stopped") ++ p.reset ++ " after " ++
      m.count.repr ++ " instructions at " ++ Hex.word m.pc] ++
    summaryRows.map (fun row => "  ".intercalate (row.map (summaryCell p m))) ++
    [p.dim ++ "flags" ++ p.reset ++ " " ++ m.flags.text]

def summary (p : Palette) (m : Machine) : String :=
  String.join ((summaryLines p m).map (· ++ "\n"))

def quoted (text : String) : String := "\"" ++ text ++ "\""

def jsonRegister (m : Machine) (r : Register) : String :=
  "    \x7b\n      \"name\": " ++ quoted r.name ++ ",\n      \"value\": " ++
    (m.get r).toNat.repr ++ "\n    \x7d"

def jsonFlags (names : List String) : String :=
  if names.isEmpty then "[]"
  else "[\n" ++ ",\n".intercalate (names.map fun name => "    " ++ quoted name) ++ "\n  ]"

/-- The state as an object over several lines; `error?` is the fault that ended
the run. -/
def json (m : Machine) (error? : Option Fault) : String :=
  "\x7b\n  \"halted\": " ++ (if m.isHalted then "true" else "false") ++
    ",\n  \"instructions\": " ++ m.count.repr ++
    ",\n  \"registers\": [\n" ++ ",\n".intercalate (Register.all.map (jsonRegister m)) ++
    "\n  ],\n  \"flags\": " ++ jsonFlags m.flags.names ++
    (match error? with
      | some fault => ",\n  \"error\": " ++ quoted fault.message
      | none => "") ++
    "\n\x7d"

def describeLayout (l : Layout) : String :=
  "MemoryLayout \x7b static_size: " ++ l.staticSize.repr ++ ", program_offset: " ++
    l.program.start.repr ++ ", program_size: " ++ l.programSize.repr ++ ", stack_offset: " ++
    l.stack.start.repr ++ ", stack_size: " ++ l.stackSize.repr ++ ", heap_offset: " ++
    l.heap.start.repr ++ ", heap_size: " ++ l.heap.size.repr ++ ", memory_size: " ++
    l.memorySize.repr ++ " \x7d"

/-- Registers, layout and progress in one line; memory is left out. -/
def describe (m : Machine) : String :=
  "VM \x7b registers: [" ++
    ", ".intercalate (Register.all.map fun r => "Word(" ++ Hex.word (m.get r) ++ ")") ++
    "], layout: " ++ describeLayout m.layout ++ ", state: " ++
    (match m.status with
      | .running => "Running"
      | .halted => "Halted") ++
    ", instruction_count: " ++ m.count.repr ++ ", .. \x7d"

end WordMachine.Machine
