import WordMachine.Instruction.Basic

/-! The encoding of instructions: the opcode byte, then the operands in order,
registers as one byte and words as two, the low one first. Decoding looks at the
front of the bytes only. The main statements are that decoding undoes encoding
whatever bytes follow, and that bytes which decode begin with the encoding. -/
namespace WordMachine

inductive DecodeError where
  | illegalOpcode (byte : UInt8)
  | invalidRegister (id : UInt8)
  | truncated (opcode : Opcode) (available : Nat)
  | empty
  deriving DecidableEq, Repr

namespace DecodeError

def message : DecodeError → String
  | illegalOpcode byte => "illegal opcode 0x" ++ Hex.byte byte
  | invalidRegister id => "invalid register id " ++ id.toNat.repr
  | truncated opcode available =>
    "truncated " ++ opcode.title ++ " instruction: need " ++ opcode.size.repr ++ " bytes, " ++
      available.repr ++ " available"
  | empty => "no bytes to decode"

end DecodeError

namespace Instruction

def encodeOperands : Operands → List UInt8
  | .none => []
  | .imm value => value.toBytes
  | .reg register => [register.id]
  | .regImm register value => register.id :: value.toBytes
  | .regReg first second => [first.id, second.id]
  | .regMem register address => register.id :: address.toBytes
  | .memReg address register => address.toBytes ++ [register.id]

def encode (i : Instruction) : List UInt8 := i.opcode.byte :: encodeOperands i.operands

def register (id : UInt8) : Except DecodeError Register :=
  match Register.ofId? id with
  | some r => .ok r
  | none => .error (.invalidRegister id)

/-- Operands of a shape at the front of the bytes that follow the opcode. -/
def decodeOperands (opcode : Opcode) :
    (shape : Shape) → List UInt8 → Except DecodeError { o : Operands // o.shape = shape }
  | .none, _ => .ok ⟨.none, rfl⟩
  | .imm, low :: high :: _ => .ok ⟨.imm (Word.ofBytes low high), rfl⟩
  | .reg, a :: _ => do
    let r ← register a
    return ⟨.reg r, rfl⟩
  | .regImm, a :: low :: high :: _ => do
    let r ← register a
    return ⟨.regImm r (Word.ofBytes low high), rfl⟩
  | .regReg, a :: b :: _ => do
    let r ← register a
    let s ← register b
    return ⟨.regReg r s, rfl⟩
  | .regMem, a :: low :: high :: _ => do
    let r ← register a
    return ⟨.regMem r (Word.ofBytes low high), rfl⟩
  | .memReg, low :: high :: a :: _ => do
    let r ← register a
    return ⟨.memReg (Word.ofBytes low high) r, rfl⟩
  | _, rest => .error (.truncated opcode (rest.length + 1))

/-- The instruction at the front of the bytes. Missing bytes are reported before
registers that do not exist, and registers in their order. -/
def decode : List UInt8 → Except DecodeError Instruction
  | [] => .error .empty
  | byte :: rest =>
    match Opcode.ofByte? byte with
    | none => .error (.illegalOpcode byte)
    | some opcode => do
      let ⟨operands, fits⟩ ← decodeOperands opcode opcode.shape rest
      return ⟨opcode, operands, fits⟩

/-- No instruction is longer than this. -/
def maxSize : Nat := 4

@[simp] theorem register_id (r : Register) : register r.id = .ok r := by simp [register]

theorem register_eq_ok {n : UInt8} {r : Register} (h : register n = .ok r) : r.id = n := by
  unfold register at h
  split at h
  · next hn => cases h; exact Register.id_of_ofId? hn
  · cases h

theorem length_encode (i : Instruction) : i.encode.length = i.size := by
  obtain ⟨opcode, operands, fits⟩ := i
  simp only [encode, size, Opcode.size, ← fits]
  cases operands <;> rfl

theorem size_pos (i : Instruction) : 0 < i.size := by
  rw [← length_encode]; exact Nat.succ_pos _

theorem size_le_maxSize (i : Instruction) : i.size ≤ maxSize := by
  simp only [size, Opcode.size]
  cases i.opcode.shape <;> decide

theorem decodeOperands_encode (opcode : Opcode) {shape : Shape} {o : Operands}
    (fits : o.shape = shape) (rest : List UInt8) :
    decodeOperands opcode shape (encodeOperands o ++ rest) = .ok ⟨o, fits⟩ := by
  subst fits
  cases o <;>
    simp [decodeOperands, encodeOperands, Operands.shape, Word.toBytes, bind, Except.bind, pure,
      Except.pure]

theorem encode_of_decodeOperands {opcode : Opcode} {shape : Shape} {bytes : List UInt8}
    {o : { o : Operands // o.shape = shape }} (h : decodeOperands opcode shape bytes = .ok o) :
    ∃ rest, bytes = encodeOperands o.val ++ rest := by
  unfold decodeOperands at h
  split at h
  · cases h; exact ⟨bytes, rfl⟩
  · next tail => cases h; exact ⟨tail, by simp [encodeOperands, Word.toBytes]⟩
  · next a tail =>
    cases ha : register a with
    | error e => simp [ha, bind, Except.bind] at h
    | ok r =>
      simp only [ha, bind, Except.bind, pure, Except.pure] at h
      cases h
      exact ⟨tail, by simp [encodeOperands, register_eq_ok ha]⟩
  · next a _ _ tail =>
    cases ha : register a with
    | error e => simp [ha, bind, Except.bind] at h
    | ok r =>
      simp only [ha, bind, Except.bind, pure, Except.pure] at h
      cases h
      exact ⟨tail, by simp [encodeOperands, Word.toBytes, register_eq_ok ha]⟩
  · next a b tail =>
    cases ha : register a with
    | error e => simp [ha, bind, Except.bind] at h
    | ok r =>
      cases hb : register b with
      | error e => simp [ha, hb, bind, Except.bind] at h
      | ok s =>
        simp only [ha, hb, bind, Except.bind, pure, Except.pure] at h
        cases h
        exact ⟨tail, by simp [encodeOperands, register_eq_ok ha, register_eq_ok hb]⟩
  · next a _ _ tail =>
    cases ha : register a with
    | error e => simp [ha, bind, Except.bind] at h
    | ok r =>
      simp only [ha, bind, Except.bind, pure, Except.pure] at h
      cases h
      exact ⟨tail, by simp [encodeOperands, Word.toBytes, register_eq_ok ha]⟩
  · next a tail =>
    cases ha : register a with
    | error e => simp [ha, bind, Except.bind] at h
    | ok r =>
      simp only [ha, bind, Except.bind, pure, Except.pure] at h
      cases h
      exact ⟨tail, by simp [encodeOperands, Word.toBytes, register_eq_ok ha]⟩
  · cases h

/-- Decoding undoes encoding, whatever bytes follow. -/
theorem decode_encode_append (i : Instruction) (rest : List UInt8) :
    decode (i.encode ++ rest) = .ok i := by
  obtain ⟨opcode, operands, fits⟩ := i
  simp only [encode, List.cons_append, decode, Opcode.ofByte?_byte,
    decodeOperands_encode _ fits rest]
  rfl

/-- Bytes that decode begin with the encoding of what they decode to. -/
theorem encode_append_of_decode {bytes : List UInt8} {i : Instruction}
    (h : decode bytes = .ok i) : ∃ rest, bytes = i.encode ++ rest := by
  cases bytes with
  | nil => cases h
  | cons byte tail =>
    simp only [decode] at h
    split at h
    · cases h
    · next opcode hop =>
      cases ho : decodeOperands opcode opcode.shape tail with
      | error e => simp [ho, bind, Except.bind] at h
      | ok o =>
        simp only [ho, bind, Except.bind, pure, Except.pure] at h
        cases h
        obtain ⟨rest, hr⟩ := encode_of_decodeOperands ho
        exact ⟨rest, by simp [encode, Opcode.byte_of_ofByte? hop, hr]⟩

end Instruction

end WordMachine
