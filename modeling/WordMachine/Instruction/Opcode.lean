import WordMachine.Text.Case
import WordMachine.Word.Arithmetic

/-! The table of operations. The top three bits of an opcode byte give the shape
of the operands, the other five count the operations of that shape. Assembly
source spells several operations alike and tells them apart by shape. -/
namespace WordMachine

/-- Operand layouts, in the order of their shape numbers. -/
inductive Shape where
  | none | imm | reg | regImm | regReg | regMem | memReg
  deriving DecidableEq, Repr

namespace Shape

def all : List Shape := [none, imm, reg, regImm, regReg, regMem, memReg]

def index : Shape → Nat
  | none => 0 | imm => 1 | reg => 2 | regImm => 3 | regReg => 4 | regMem => 5 | memReg => 6

/-- The shape in the top three bits of an opcode byte; the last pattern is unused. -/
def ofByte? (byte : UInt8) : Option Shape := all[byte.toNat / 32]?

/-- Bytes of an instruction of this shape, the opcode byte included. -/
def size : Shape → Nat
  | none => 1 | imm => 3 | reg => 2 | regImm => 4 | regReg => 3 | regMem => 4 | memReg => 4

def name : Shape → String
  | none => "NONE" | imm => "IMM" | reg => "REG" | regImm => "REG_IMM"
  | regReg => "REG_REG" | regMem => "REG_MEM" | memReg => "MEM_REG"

end Shape

/-- When a jump is taken, in terms of the last comparison. -/
inductive Condition where
  | always | equal | notEqual | greater | less | greaterOrEqual | lessOrEqual
  deriving DecidableEq, Repr

namespace Condition

def all : List Condition :=
  [always, equal, notEqual, greater, less, greaterOrEqual, lessOrEqual]

def index : Condition → Nat
  | always => 0 | equal => 1 | notEqual => 2 | greater => 3 | less => 4
  | greaterOrEqual => 5 | lessOrEqual => 6

def suffix : Condition → String
  | always => "" | equal => "_EQ" | notEqual => "_NEQ" | greater => "_GT" | less => "_LT"
  | greaterOrEqual => "_GEQ" | lessOrEqual => "_LEQ"

def titleSuffix : Condition → String
  | always => "" | equal => "Eq" | notEqual => "Neq" | greater => "Gt" | less => "Lt"
  | greaterOrEqual => "Geq" | lessOrEqual => "Leq"

end Condition

/-- Operations that combine two registers into the first. -/
inductive BinaryOp where
  | arith (view : NumericView) (op : ArithOp)
  | or | xor | and
  deriving DecidableEq, Repr

namespace BinaryOp

def all : List BinaryOp :=
  [.arith .unsigned .add, .arith .unsigned .sub, .arith .unsigned .mul, .arith .unsigned .div,
   .arith .signed .add, .arith .signed .sub, .arith .signed .mul, .arith .signed .div,
   .arith .half .add, .arith .half .sub, .arith .half .mul, .arith .half .div, or, xor, and]

def index : BinaryOp → Nat
  | .arith view op =>
    (match view with | .unsigned => 0 | .signed => 4 | .half => 8) +
      match op with | .add => 0 | .sub => 1 | .mul => 2 | .div => 3
  | or => 12 | xor => 13 | and => 14

def name : BinaryOp → String
  | .arith view op =>
    (match op with | .add => "ADD" | .sub => "SUB" | .mul => "MUL" | .div => "DIV") ++
      match view with | .unsigned => "" | .signed => "S" | .half => "F"
  | or => "OR" | xor => "XOR" | and => "AND"

def title : BinaryOp → String
  | .arith view op =>
    (match op with | .add => "Add" | .sub => "Sub" | .mul => "Mul" | .div => "Div") ++
      match view with | .unsigned => "" | .signed => "S" | .half => "F"
  | or => "Or" | xor => "Xor" | and => "And"

/-- Swapping the two operands does not change the result. -/
def commutative : BinaryOp → Bool
  | .arith _ .add | .arith _ .mul | or | xor | and => true
  | .arith _ .sub | .arith _ .div => false

/-- The result on two words; only a whole-number division by zero has none. -/
def eval : BinaryOp → Word → Word → Option Word
  | .arith view op, a, b => Word.arith op view a b
  | or, a, b => some (a ||| b)
  | xor, a, b => some (a ^^^ b)
  | and, a, b => some (a &&& b)

end BinaryOp

inductive Opcode where
  | noop | halt | ret | dup
  /-- Compares the two top words of the stack. -/
  | compareTop
  | jump (condition : Condition)
  | call
  | pushImm
  | push | pop | not
  | moveRegImm
  | moveRegReg | compareRegReg
  | binary (op : BinaryOp)
  | moveRegMem | compareRegMem
  | moveMemReg | compareMemReg
  deriving DecidableEq, Repr

namespace Opcode

/-- All operations in the order of their bytes. -/
def all : List Opcode :=
  [noop, halt, ret, dup, compareTop] ++ Condition.all.map jump ++ [call, pushImm] ++
    [push, pop, not, moveRegImm, moveRegReg, compareRegReg] ++ BinaryOp.all.map binary ++
    [moveRegMem, compareRegMem, moveMemReg, compareMemReg]

def shape : Opcode → Shape
  | noop | halt | ret | dup | compareTop => .none
  | jump _ | call | pushImm => .imm
  | push | pop | not => .reg
  | moveRegImm => .regImm
  | moveRegReg | compareRegReg | binary _ => .regReg
  | moveRegMem | compareRegMem => .regMem
  | moveMemReg | compareMemReg => .memReg

/-- Place of an operation among those of its shape. -/
def place : Opcode → Nat
  | noop => 0 | halt => 1 | ret => 2 | dup => 3 | compareTop => 4
  | jump condition => condition.index | call => 7 | pushImm => 8
  | push => 0 | pop => 1 | not => 2
  | moveRegImm => 0
  | moveRegReg => 0 | compareRegReg => 1 | binary op => 2 + op.index
  | moveRegMem => 0 | compareRegMem => 1
  | moveMemReg => 0 | compareMemReg => 1

def byte (op : Opcode) : UInt8 := UInt8.ofNat (op.shape.index * 32 + op.place)

def ofByte? (byte : UInt8) : Option Opcode := all.find? fun op => op.byte == byte

def size (op : Opcode) : Nat := op.shape.size

/-- A name no other operation has. -/
def name : Opcode → String
  | noop => "NOOP" | halt => "HALT" | ret => "RET" | dup => "DUP" | compareTop => "CMP"
  | jump condition => "JUMP" ++ condition.suffix | call => "CALL" | pushImm => "PUSH_IMM"
  | push => "PUSH" | pop => "POP" | not => "NOT"
  | moveRegImm => "MOV_REG_IMM"
  | moveRegReg => "MOV_REG_REG" | compareRegReg => "CMP_REG_REG" | binary op => op.name
  | moveRegMem => "MOV_REG_MEM" | compareRegMem => "CMP_REG_MEM"
  | moveMemReg => "MOV_MEM_REG" | compareMemReg => "CMP_MEM_REG"

/-- The spelling in messages about an instruction that is cut short. -/
def title : Opcode → String
  | noop => "Noop" | halt => "Halt" | ret => "Ret" | dup => "Dup" | compareTop => "Cmp"
  | jump condition => "Jump" ++ condition.titleSuffix | call => "Call" | pushImm => "PushImm"
  | push => "Push" | pop => "Pop" | not => "Not"
  | moveRegImm => "MovRegImm"
  | moveRegReg => "MovRegReg" | compareRegReg => "CmpRegReg" | binary op => op.title
  | moveRegMem => "MovRegMem" | compareRegMem => "CmpRegMem"
  | moveMemReg => "MovMemReg" | compareMemReg => "CmpMemReg"

/-- The spelling in assembly source. -/
def mnemonic : Opcode → String
  | pushImm => "PUSH"
  | moveRegImm | moveRegReg | moveRegMem | moveMemReg => "MOV"
  | compareRegReg | compareRegMem | compareMemReg => "CMP"
  | op => op.name

/-- The operation with a mnemonic, in either letter case, and a shape. -/
def lookup? (mnemonic : String) (shape : Shape) : Option Opcode :=
  all.find? fun op => op.shape == shape && Text.sameLetters op.mnemonic mnemonic

def isMnemonic (text : String) : Bool := all.any fun op => Text.sameLetters op.mnemonic text

/-- The immediate operand is a code address: jumps and calls. -/
def takesLabel : Opcode → Bool
  | jump _ | call => true
  | _ => false

/-- The operation sets the program counter itself. -/
def controlsFlow (op : Opcode) : Bool := op.takesLabel || op == ret

def binary? : Opcode → Option BinaryOp
  | binary op => some op
  | _ => Option.none

theorem mem_all (op : Opcode) : op ∈ all := by
  cases op with
  | jump c => cases c <;> decide
  | binary b => cases b with
    | arith v o => cases v <;> cases o <;> decide
    | _ => decide
  | _ => decide

theorem bytes_nodup : (all.map byte).Nodup := by decide +kernel

theorem byte_of_ofByte? {b : UInt8} {op : Opcode} (h : ofByte? b = some op) : op.byte = b := by
  simpa using List.find?_some h

@[simp] theorem ofByte?_byte (op : Opcode) : ofByte? op.byte = some op := by
  have here : ∀ o ∈ all, ofByte? o.byte = some o := by decide +kernel
  exact here op (mem_all op)

theorem shape_ofByte? (op : Opcode) : Shape.ofByte? op.byte = some op.shape := by
  have here : ∀ o ∈ all, Shape.ofByte? o.byte = some o.shape := by decide +kernel
  exact here op (mem_all op)

end Opcode

end WordMachine
