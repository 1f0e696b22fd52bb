import WordMachine.Image.Basic

/-! The layout of memory. The program lies at address 0, its static data before
its code; the stack follows it and grows upward, and the heap is what is left.
A layout exists only if all of it fits. -/
namespace WordMachine

/-- Addresses from `start` up to, not including, `stop`. -/
structure Segment where
  start : Nat
  stop : Nat
  deriving DecidableEq, Repr

namespace Segment

def size (s : Segment) : Nat := s.stop - s.start

def contains (s : Segment) (address : Nat) : Bool := s.start ≤ address && address < s.stop

end Segment

structure Config where
  memorySize : Nat := 0x10000
  stackSize : Nat := 4096
  /-- A store into the program halts the machine. -/
  readonlyProgram : Bool := true
  /-- Static data is not executed. -/
  restrictExecution : Bool := true
  deriving DecidableEq, Repr

/-- As many bytes as sixteen bits can address. -/
def Config.maxMemory : Nat := 0x10000

inductive LoadError where
  | image (error : ImageError)
  | memoryTooSmall (memory program stack : Nat)
  | memoryTooLarge (memory : Nat)
  deriving DecidableEq, Repr

def LoadError.message : LoadError → String
  | image error => error.message
  | memoryTooSmall memory program stack =>
    "memory of " ++ memory.repr ++ " bytes cannot hold a " ++ program.repr ++
      "-byte program and a " ++ stack.repr ++ "-byte stack"
  | memoryTooLarge memory =>
    "memory size " ++ memory.repr ++ " exceeds the 16-bit address space"

structure Layout where
  staticSize : Nat
  programSize : Nat
  stackSize : Nat
  memorySize : Nat
  static_le : staticSize ≤ programSize
  fits : programSize + stackSize ≤ memorySize
  memory_le : memorySize ≤ Config.maxMemory
  deriving DecidableEq, Repr

namespace Layout

/-- The layout an image needs, or why it has none. Sizes are exact numbers here.
What a 64-bit sum that wraps around makes of a stack size near `2 ^ 64` is left
out: such a stack does not fit, like any other that is too large. -/
def ofImage (image : Image) (config : Config) : Except LoadError Layout :=
  if large : Config.maxMemory < config.memorySize then .error (.memoryTooLarge config.memorySize)
  else if fits : image.payload.length + config.stackSize ≤ config.memorySize then
    .ok ⟨image.codeOffset, image.payload.length, config.stackSize, config.memorySize,
      image.codeOffset_le, fits, Nat.not_lt.mp large⟩
  else .error (.memoryTooSmall config.memorySize image.payload.length config.stackSize)

def program (l : Layout) : Segment := ⟨0, l.programSize⟩

def stack (l : Layout) : Segment := ⟨l.programSize, l.programSize + l.stackSize⟩

def heap (l : Layout) : Segment := ⟨l.programSize + l.stackSize, l.memorySize⟩

/-- Where the program counter may point. -/
def executable (l : Layout) (restrict : Bool) : Segment :=
  ⟨if restrict then l.staticSize else 0, l.programSize⟩

/-- Some of `length` bytes from `address` on belong to the program. -/
def overlapsProgram (l : Layout) (address length : Nat) : Bool :=
  address < l.programSize && 0 < address + length

end Layout

end WordMachine
