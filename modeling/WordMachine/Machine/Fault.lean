import WordMachine.Instruction.Codec

/-! Faults: what stops a machine in the middle of a run. -/
namespace WordMachine

inductive Fault where
  | illegalOpcode (pc : Word) (byte : UInt8)
  | outOfBoundsExecution (pc : Word)
  | invalidRegister (pc : Word) (id : UInt8)
  | truncatedInstruction (pc : Word)
  | memoryOutOfBounds (address : Nat)
  | stackOverflow (sp : Word)
  | stackUnderflow (sp : Word)
  | divisionByZero (pc : Word)
  deriving DecidableEq, Repr, Inhabited

namespace Fault

def message : Fault → String
  | illegalOpcode pc byte => "illegal opcode 0x" ++ Hex.byte byte ++ " at " ++ Hex.word pc
  | outOfBoundsExecution pc =>
    "program counter " ++ Hex.word pc ++ " is outside the executable region"
  | invalidRegister pc id => "invalid register id " ++ id.toNat.repr ++ " at " ++ Hex.word pc
  | truncatedInstruction pc =>
    "instruction at " ++ Hex.word pc ++ " runs past the end of the program segment"
  | memoryOutOfBounds address =>
    "memory access at 0x" ++ Hex.address address ++ " is out of bounds"
  | stackOverflow sp => "stack overflow (stack pointer " ++ Hex.word sp ++ ")"
  | stackUnderflow sp => "stack underflow (stack pointer " ++ Hex.word sp ++ ")"
  | divisionByZero pc => "integer division by zero at " ++ Hex.word pc

/-- The fault of a machine that fails to decode at `pc`. -/
def ofDecode (pc : Word) : DecodeError → Fault
  | .illegalOpcode byte => illegalOpcode pc byte
  | .invalidRegister id => invalidRegister pc id
  | .truncated _ _ | .empty => truncatedInstruction pc

end Fault

end WordMachine
