import WordMachine.Assembly.Error
import WordMachine.Assembly.Token
import WordMachine.Instruction.Codec

/-! Statements: a line of source compiled to chunks of code. A label operand is
compiled to a zero address with a relocation, to be filled in when the address
of the label is known. An operation on three registers is compiled to one or two
instructions on two. -/
namespace WordMachine

/-- Two bytes of a chunk to be replaced by the address of a label. -/
structure Relocation where
  label : String
  /-- Place of the low byte in the chunk. -/
  offset : Nat
  deriving DecidableEq, Repr

/-- The bytes of one instruction. -/
structure Chunk where
  bytes : List UInt8
  relocation : Option Relocation
  deriving DecidableEq, Repr

namespace Chunk

def ofInstruction (i : Instruction) : Chunk := ⟨i.encode, none⟩

/-- A jump or call to a label: its address follows the opcode byte. -/
def toLabel (i : Instruction) (label : String) : Chunk := ⟨i.encode, some ⟨label, 1⟩⟩

def size (c : Chunk) : Nat := c.bytes.length

end Chunk

inductive Operand where
  | imm (value : Word)
  | reg (register : Register)
  | mem (address : Word)
  | label (name : String)
  deriving DecidableEq, Repr

namespace Operand

def ofToken (t : Token) : Except SyntaxFault Operand :=
  match t.kind with
  | .immediate =>
    match Token.hexValue? t.text with
    | some value => .ok (.imm value)
    | none => .error (.unrecognizedToken t.text)
  | .memory =>
    match Token.hexValue? t.text with
    | some address => .ok (.mem address)
    | none => .error (.unrecognizedToken t.text)
  | .register =>
    match Register.ofName? t.text with
    | some register => .ok (.reg register)
    | none => .error (.unknownRegister t.text)
  | .ident => .ok (.label t.text)
  | .label => .error (.unexpectedLabel t.text)
  | .separator | .garbage => .error (.unrecognizedToken t.text)

/-- Operands of an instruction, and the label that stands for its address. -/
def arrange? : List Operand → Option (Operands × Option String)
  | [] => some (.none, none)
  | [.imm value] => some (.imm value, none)
  | [.label name] => some (.imm 0, some name)
  | [.reg r] => some (.reg r, none)
  | [.reg r, .imm value] => some (.regImm r value, none)
  | [.reg r, .reg s] => some (.regReg r s, none)
  | [.reg r, .mem address] => some (.regMem r address, none)
  | [.mem address, .reg r] => some (.memReg address r, none)
  | _ => none

end Operand

namespace Statement

theorem binary_fits (op : BinaryOp) (first second : Register) :
    (Operands.regReg first second).shape = (Opcode.binary op).shape := rfl

theorem move_fits (first second : Register) :
    (Operands.regReg first second).shape = Opcode.moveRegReg.shape := rfl

def apply (op : BinaryOp) (first second : Register) : Chunk :=
  .ofInstruction ⟨.binary op, .regReg first second, binary_fits op first second⟩

def move (first second : Register) : Chunk :=
  .ofInstruction ⟨.moveRegReg, .regReg first second, move_fits first second⟩

/-- The operation on `left` and `right` with its result in `dest`. -/
def onThree (op : BinaryOp) (dest left right : Register) : Except SyntaxFault (List Chunk) :=
  if dest = left then .ok [apply op dest right]
  else if dest = right then
    if op.commutative then .ok [apply op dest left] else .error (.aliasedOperand dest)
  else .ok [move dest left, apply op dest right]

/-- The instruction with this mnemonic and these operands; `invalid` is the fault
if there is none. A label may stand only for the address of a jump or a call. -/
def onOperands (mnemonic : String) (invalid : SyntaxFault) (operands : List Operand) :
    Except SyntaxFault (List Chunk) :=
  match operands with
  | [.reg dest, .reg left, .reg right] =>
    match (Opcode.lookup? mnemonic .regReg).bind Opcode.binary? with
    | some op => onThree op dest left right
    | none => .error invalid
  | _ =>
    match Operand.arrange? operands with
    | none => .error invalid
    | some (arranged, label?) =>
      match (Opcode.lookup? mnemonic arranged.shape).bind (Instruction.ofParts? · arranged) with
      | none => .error invalid
      | some i =>
        match label? with
        | none => .ok [.ofInstruction i]
        | some label =>
          if i.opcode.takesLabel then .ok [.toLabel i label] else .error invalid

def ofTokens (tokens : List Token) : Except SyntaxFault (List Chunk) :=
  match tokens.find? (·.kind == .garbage) with
  | some t => .error (.unrecognizedToken t.text)
  | none =>
    match tokens with
    | [] => .error (.expectedMnemonic "")
    | first :: rest =>
      if first.kind ≠ .ident then .error (.expectedMnemonic first.text)
      else if Opcode.isMnemonic first.text = false then .error (.unknownMnemonic first.text)
      else do
        let operands ← rest.mapM Operand.ofToken
        let invalid :=
          SyntaxFault.invalidOperands first.text (", ".intercalate (rest.map Token.text))
        onOperands first.text invalid operands

/-- The chunks of a line; the case of its letters does not matter. -/
def compile (text : String) : Except SyntaxFault (List Chunk) :=
  ofTokens (Token.lex (Text.upper text))

def compileLine (line : Line) : Except SyntaxError (List Chunk) :=
  (compile line.text).mapError (SyntaxError.mk line)

end Statement

end WordMachine
