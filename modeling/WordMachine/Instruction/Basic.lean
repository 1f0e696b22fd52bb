import WordMachine.Text.Hex
import WordMachine.Instruction.Register
import WordMachine.Instruction.Opcode

/-! Instructions: an operation with operands of its shape. The text of an
instruction is its mnemonic and its operands, in the order they are encoded. -/
namespace WordMachine

inductive Operands where
  | none
  | imm (value : Word)
  | reg (register : Register)
  | regImm (register : Register) (value : Word)
  | regReg (first second : Register)
  | regMem (register : Register) (address : Word)
  | memReg (address : Word) (register : Register)
  deriving DecidableEq, Repr

namespace Operands

def shape : Operands → Shape
  | none => .none
  | imm _ => .imm
  | reg _ => .reg
  | regImm .. => .regImm
  | regReg .. => .regReg
  | regMem .. => .regMem
  | memReg .. => .memReg

end Operands

structure Instruction where
  opcode : Opcode
  operands : Operands
  fits : operands.shape = opcode.shape
  deriving DecidableEq, Repr

namespace Instruction

/-- The instruction with these parts, if the operands have the operation's shape. -/
def ofParts? (opcode : Opcode) (operands : Operands) : Option Instruction :=
  if fits : operands.shape = opcode.shape then some ⟨opcode, operands, fits⟩ else none

def size (i : Instruction) : Nat := i.opcode.size

/-- The code address a jump or a call leads to. -/
def target? (i : Instruction) : Option Word :=
  match i.operands with
  | .imm address => if i.opcode.takesLabel then some address else none
  | _ => none

/-- The same jump or call to another address; other instructions stay as they are. -/
def withTarget (i : Instruction) (address : Word) : Instruction :=
  match i with
  | ⟨opcode, .imm value, fits⟩ =>
    if opcode.takesLabel then ⟨opcode, .imm address, fits⟩ else ⟨opcode, .imm value, fits⟩
  | other => other

def operandText : Operands → List String
  | .none => []
  | .imm value => [Hex.word value]
  | .reg register => [register.name]
  | .regImm register value => [register.name, Hex.word value]
  | .regReg first second => [first.name, second.name]
  | .regMem register address => [register.name, "$" ++ Hex.word address]
  | .memReg address register => ["$" ++ Hex.word address, register.name]

def text (i : Instruction) : String :=
  " ".intercalate (i.opcode.mnemonic :: operandText i.operands)

theorem ofParts?_eq_some_iff {opcode : Opcode} {operands : Operands} {i : Instruction} :
    ofParts? opcode operands = some i ↔ i.opcode = opcode ∧ i.operands = operands := by
  constructor
  · intro h
    unfold ofParts? at h
    split at h
    · cases h; exact ⟨rfl, rfl⟩
    · cases h
  · rintro ⟨rfl, rfl⟩
    simp [ofParts?, i.fits]

theorem target?_withTarget (i : Instruction) (address : Word) :
    (i.withTarget address).target? = i.target?.map fun _ => address := by
  obtain ⟨opcode, operands, fits⟩ := i
  cases operands with
  | imm value =>
    by_cases h : opcode.takesLabel <;> simp [withTarget, target?, h]
  | _ => rfl

end Instruction

end WordMachine
