import WordMachine.Proofs.Machine.Integrity

/-! Execution with nothing taken for granted. A step is written out once more on
raw parts: bytes read by index, operations with operands that need not suit them,
words whose sums need not be words. It breaks off wherever an index lies outside,
arithmetic leaves its range, a number is cut off or no case applies. Each part
does what its counterpart does if memory is as large as the layout says and there
is a program, and so breaks off nowhere. -/
namespace WordMachine

inductive Breach where
  /-- A sum or a difference leaves its range. -/
  | overflow
  /-- There is no byte at an index. -/
  | index (i : Nat)
  /-- Bytes are copied over another number of bytes. -/
  | length (target source : Nat)
  /-- A number does not fit a word. -/
  | narrowing (n : Nat)
  /-- No case handles the operation, or not with these operands. -/
  | dispatch (opcode : Opcode)
  deriving DecidableEq, Repr

/-- Why a checked computation has no result: an error it reports, or a breach. -/
inductive Break (ε : Type) where
  | error (e : ε)
  | breach (b : Breach)
  deriving DecidableEq, Repr

abbrev Checked (ε α : Type) := Except (Break ε) α

/-- The operations whose result is computed by a numeric view. -/
def Opcode.arith? : Opcode → Option (ArithOp × NumericView)
  | binary (.arith view op) => some (op, view)
  | _ => none

namespace Checked

variable {ε α β : Type}

/-- A computation that reports errors only. -/
def lift (x : Except ε α) : Checked ε α := x.mapError .error

def breach (b : Breach) : Checked ε α := .error (.breach b)

def narrow (n : Nat) : Checked ε Word :=
  if n < 0x10000 then .ok (UInt16.ofNat n) else breach (.narrowing n)

def add (a b : Word) : Checked ε Word :=
  if a.toNat + b.toNat < 0x10000 then .ok (a + b) else breach .overflow

def sub (a b : Word) : Checked ε Word := if b ≤ a then .ok (a - b) else breach .overflow

/-- Instructions are counted in 64 bits. -/
def maxCount : Nat := 0xFFFFFFFFFFFFFFFF

def tick (count : Nat) : Checked ε Nat :=
  if count < maxCount then .ok (count + 1) else breach .overflow

def byteAt (bytes : List UInt8) (i : Nat) : Checked ε UInt8 :=
  match bytes[i]? with
  | some b => .ok b
  | none => breach (.index i)

def wordAt (bytes : List UInt8) (i : Nat) : Checked ε Word := do
  let low ← byteAt bytes i
  let high ← byteAt bytes (i + 1)
  return Word.ofBytes low high

def registerAt (bytes : List UInt8) (i : Nat) : Checked DecodeError Register := do
  let id ← byteAt bytes i
  lift (Instruction.register id)

/-- Operands of a shape, each at its index in the bytes of the instruction. -/
def operands (bytes : List UInt8) : Shape → Checked DecodeError Operands
  | .none => return .none
  | .imm => do
    let w ← wordAt bytes 1
    return .imm w
  | .reg => do
    let r ← registerAt bytes 1
    return .reg r
  | .regImm => do
    let r ← registerAt bytes 1
    let w ← wordAt bytes 2
    return .regImm r w
  | .regReg => do
    let r ← registerAt bytes 1
    let s ← registerAt bytes 2
    return .regReg r s
  | .regMem => do
    let r ← registerAt bytes 1
    let w ← wordAt bytes 2
    return .regMem r w
  | .memReg => do
    let w ← wordAt bytes 1
    let r ← registerAt bytes 3
    return .memReg w r

def decode : List UInt8 → Checked DecodeError (Opcode × Operands)
  | [] => .error (.error .empty)
  | byte :: rest =>
    match Opcode.ofByte? byte with
    | none => .error (.error (.illegalOpcode byte))
    | some opcode =>
      if (byte :: rest).length < opcode.size then
        .error (.error (.truncated opcode (byte :: rest).length))
      else (operands (byte :: rest) opcode.shape).map (opcode, ·)

/-- An error of one kind reported as one of another, a breach left as it is. -/
def report {ε' : Type} (f : ε → ε') : Break ε → Break ε'
  | .error e => .error (f e)
  | .breach b => .breach b

/-- Decodes what is left of the executable region. -/
def fetch (m : Machine) (pc : Word) : Checked Fault (Opcode × Operands) :=
  let region := m.layout.executable m.config.restrictExecution
  if region.contains pc.toNat then do
    let window ← lift (m.memory.slice pc.toNat region.stop)
    (decode window).mapError (report (Fault.ofDecode pc))
  else .error (.error (.outOfBoundsExecution pc))

def readWord (m : Memory) (address : Nat) : Checked Fault Word := do
  let bytes ← lift (m.slice address (address + 2))
  wordAt bytes 0

/-- Whether a word can be copied into memory. -/
def writable (m : Memory) (address : Nat) (w : Word) : Checked Fault Unit := do
  let bytes ← lift (m.slice address (address + 2))
  if bytes.length = w.toBytes.length then return ()
  else breach (.length bytes.length w.toBytes.length)

def peek (m : Machine) (depth : Word) : Checked Fault Word :=
  if m.sp < depth then .error (.error (.stackUnderflow m.sp))
  else if m.layout.stackSize < m.sp.toNat then .error (.error (.stackOverflow m.sp))
  else do
    let below ← sub m.sp depth
    readWord m.memory (m.layout.stack.start + below.toNat)

/-- The address is cut to a word for the observer. -/
def push (m : Machine) (w : Word) : Checked Fault (List Change) :=
  if m.layout.stackSize < m.sp.toNat + 2 then .error (.error (.stackOverflow m.sp))
  else do
    let address := m.layout.stack.start + m.sp.toNat
    writable m.memory address w
    let _ ← narrow address
    let sp ← add m.sp 2
    return [.memory address w, .register .sp sp]

/-- The top of the stack and the stack pointer without it. -/
def pop (m : Machine) : Checked Fault (Word × Word) := do
  let w ← peek m 2
  let sp ← sub m.sp 2
  return (w, sp)

def loadPlace (m : Machine) : Place → Checked Fault Word
  | .register r => return m.get r
  | .memory address => readWord m.memory address.toNat

def load (m : Machine) : Source → Checked Fault Word
  | .value w => return w
  | .place p => loadPlace m p

def store (m : Machine) (w : Word) : Place → Checked Fault Effect
  | .register r => return ⟨.next, [.register r w]⟩
  | .memory address =>
    if m.memory.size < address.toNat + 2 then .error (.error (.memoryOutOfBounds address.toNat))
    else if m.config.readonlyProgram && m.layout.overlapsProgram address.toNat 2 then
      return ⟨.stop, [.refuse address w]⟩
    else do
      writable m.memory address.toNat w
      return ⟨.next, [.memory address.toNat w]⟩

def binary (pc : Word) (a b : Word) : Opcode → Checked Fault Word
  | .binary .or => return a ||| b
  | .binary .xor => return a ^^^ b
  | .binary .and => return a &&& b
  | opcode =>
    match opcode.arith? with
    | none => breach (.dispatch opcode)
    | some (op, view) =>
      match Word.arith op view a b with
      | none => .error (.error (.divisionByZero pc))
      | some w => return w

/-- Moves, comparisons and binary operations, of any two operands. -/
def pair (m : Machine) (pc : Word) (dest : Place) (source : Source) :
    Opcode → Checked Fault Effect
  | .moveRegImm | .moveRegReg | .moveRegMem | .moveMemReg => do
    let right ← load m source
    store m right dest
  | .compareRegReg | .compareRegMem | .compareMemReg => do
    let right ← load m source
    let left ← loadPlace m dest
    return m.compare left right
  | opcode => do
    let right ← load m source
    let left ← loadPlace m dest
    let w ← binary pc left right opcode
    store m w dest

def jump (m : Machine) (target : Word) : Opcode → Checked Fault Effect
  | .jump condition =>
    let taken := condition.holds m.flags
    return ⟨if taken then .jump target else .next, [.notice (.jump target taken)]⟩
  | opcode => breach (.dispatch opcode)

/-- The effect of an operation with operands, suited to each other or not. -/
def effect (m : Machine) (pc : Word) : Opcode → Operands → Checked Fault Effect
  | .noop, _ => return ⟨.next, []⟩
  | .halt, _ => return ⟨.stop, [.halt pc]⟩
  | .ret, _ =>
    return ⟨.jump (m.get Register.returnAddress),
      [.register .sb (m.get Register.savedBase), .register .sp (m.get Register.savedPointer),
        .notice (.ret (m.get Register.returnAddress))]⟩
  | .dup, _ => do
    let top ← peek m 2
    let changes ← push m top
    return ⟨.next, changes⟩
  | .compareTop, _ => do
    let left ← peek m 4
    let right ← peek m 2
    return m.compare left right
  | .call, .imm target =>
    return ⟨.jump target,
      [.register Register.savedBase (m.get .sb), .register Register.savedPointer m.sp,
        .register Register.returnAddress (pc + 3), .register .sb m.sp,
        .notice (.call target (pc + 3))]⟩
  | .pushImm, .imm w => do
    let changes ← push m w
    return ⟨.next, changes⟩
  | opcode, .imm target => jump m target opcode
  | .push, .reg r => do
    let changes ← push m (m.get r)
    return ⟨.next, changes⟩
  | .pop, .reg r => do
    let (w, sp) ← pop m
    return ⟨.next, [.register .sp sp, .register r w]⟩
  | .not, .reg r => return ⟨.next, [.register r (~~~m.get r)]⟩
  | opcode, .regImm r w => pair m pc (.register r) (.value w) opcode
  | opcode, .regReg r s => pair m pc (.register r) (.place (.register s)) opcode
  | opcode, .regMem r address => pair m pc (.register r) (.place (.memory address)) opcode
  | opcode, .memReg address r => pair m pc (.memory address) (.place (.register r)) opcode
  | opcode, _ => breach (.dispatch opcode)

def follow (m : Machine) (opcode : Opcode) : Flow → Checked Fault Machine
  | .next => do
    let size ← narrow opcode.size
    return m.set .pc (m.pc + size)
  | .jump target => return m.set .pc target
  | .stop => return m

def next (m : Machine) : Checked Fault Machine :=
  if m.isHalted then return m
  else do
    let (opcode, operands) ← fetch m m.pc
    let e ← effect m m.pc opcode operands
    let moved ← follow (m.applyAll e.changes) opcode e.flow
    let count ← tick moved.count
    return { moved with count }

/-- At most so many steps. -/
def run (m : Machine) : (limit : Nat) → Checked Fault Machine
  | 0 => return m
  | limit + 1 =>
    if m.isHalted then return m
    else do
      let n ← next m
      run n limit

@[simp] theorem lift_ok (a : α) : (lift (.ok a) : Checked ε α) = .ok a := rfl

@[simp] theorem ok_bind (a : α) (f : α → Checked ε β) : (Except.ok a >>= f) = f a := rfl

@[simp] theorem lift_error (e : ε) : (lift (.error e) : Checked ε α) = .error (.error e) := rfl

theorem two_of_le {l : List α} (h : 2 ≤ l.length) : ∃ a b rest, l = a :: b :: rest := by
  rcases l with _ | ⟨a, _ | ⟨b, rest⟩⟩
  · simp at h
  · simp at h
  · exact ⟨a, b, rest, rfl⟩

theorem three_of_le {l : List α} (h : 3 ≤ l.length) : ∃ a b c rest, l = a :: b :: c :: rest := by
  obtain ⟨a, b, _ | ⟨c, rest⟩, rfl⟩ := two_of_le (Nat.le_of_succ_le h)
  · simp at h
  · exact ⟨a, b, c, rest, rfl⟩

/-- From enough bytes the operands are decoded as before. -/
theorem operands_eq (opcode : Opcode) {shape : Shape} {byte : UInt8} {rest : List UInt8}
    (enough : shape.size ≤ (byte :: rest).length) :
    operands (byte :: rest) shape =
      lift ((Instruction.decodeOperands opcode shape rest).map Subtype.val) := by
  have enough : shape.size - 1 ≤ rest.length := Nat.sub_le_of_le_add enough
  cases shape with
  | none => rfl
  | imm =>
    obtain ⟨low, high, rest, rfl⟩ := two_of_le enough
    rfl
  | reg =>
    obtain ⟨a, rest, rfl⟩ := List.exists_cons_of_length_pos enough
    have read : registerAt (byte :: a :: rest) 1 = lift (Instruction.register a) := rfl
    simp only [operands, Instruction.decodeOperands, read]
    cases Instruction.register a <;> rfl
  | regImm =>
    obtain ⟨a, low, high, rest, rfl⟩ := three_of_le enough
    have read : registerAt (byte :: a :: low :: high :: rest) 1 =
        lift (Instruction.register a) := rfl
    simp only [operands, Instruction.decodeOperands, read]
    cases Instruction.register a <;> rfl
  | regReg =>
    obtain ⟨a, b, rest, rfl⟩ := two_of_le enough
    have first : registerAt (byte :: a :: b :: rest) 1 = lift (Instruction.register a) := rfl
    have second : registerAt (byte :: a :: b :: rest) 2 = lift (Instruction.register b) := rfl
    simp only [operands, Instruction.decodeOperands, first, second]
    cases Instruction.register a with
    | error e => rfl
    | ok r => cases Instruction.register b <;> rfl
  | regMem =>
    obtain ⟨a, low, high, rest, rfl⟩ := three_of_le enough
    have read : registerAt (byte :: a :: low :: high :: rest) 1 =
        lift (Instruction.register a) := rfl
    simp only [operands, Instruction.decodeOperands, read]
    cases Instruction.register a <;> rfl
  | memReg =>
    obtain ⟨low, high, a, rest, rfl⟩ := three_of_le enough
    have word : (wordAt (byte :: low :: high :: a :: rest) 1 : Checked DecodeError Word) =
        .ok (Word.ofBytes low high) := rfl
    have read : registerAt (byte :: low :: high :: a :: rest) 3 =
        lift (Instruction.register a) := rfl
    simp only [operands, Instruction.decodeOperands, word, read]
    cases Instruction.register a <;> rfl

theorem decodeOperands_short {opcode : Opcode} {shape : Shape} {byte : UInt8} {rest : List UInt8}
    (short : (byte :: rest).length < shape.size) :
    Instruction.decodeOperands opcode shape rest =
      .error (.truncated opcode (byte :: rest).length) := by
  have short : rest.length + 1 < shape.size := short
  unfold Instruction.decodeOperands
  split <;> first | rfl | (simp only [Shape.size, List.length_cons] at short; omega)

/-- The parts of an instruction. -/
def parts (i : Instruction) : Opcode × Operands := (i.opcode, i.operands)

theorem decode_eq (bytes : List UInt8) :
    decode bytes = lift ((Instruction.decode bytes).map parts) := by
  cases bytes with
  | nil => rfl
  | cons byte rest =>
    rw [decode, Instruction.decode]
    cases Opcode.ofByte? byte with
    | none => rfl
    | some opcode =>
      by_cases short : (byte :: rest).length < opcode.size
      · simp only [short, if_true, decodeOperands_short short]
        rfl
      · simp only [short, if_false, operands_eq opcode (Nat.not_lt.mp short)]
        cases Instruction.decodeOperands opcode opcode.shape rest <;> rfl

/-- More bytes than an instruction can have make no difference. -/
theorem decode_take (pc : Word) (bytes : List UInt8) :
    (Instruction.decode (bytes.take Instruction.maxSize)).mapError (Fault.ofDecode pc) =
      (Instruction.decode bytes).mapError (Fault.ofDecode pc) := by
  rcases bytes with _ | ⟨byte, rest⟩
  · rfl
  by_cases few : rest.length < 3
  · rw [List.take_of_length_le]
    exact Nat.succ_le_succ (Nat.le_of_lt few)
  · obtain ⟨a, b, c, rest, rfl⟩ := three_of_le (Nat.not_lt.mp few)
    have front : (byte :: a :: b :: c :: rest).take Instruction.maxSize = [byte, a, b, c] := rfl
    have same : ∀ opcode shape, Instruction.decodeOperands opcode shape [a, b, c] =
        Instruction.decodeOperands opcode shape (a :: b :: c :: rest) := by
      intro opcode shape
      cases shape <;> rfl
    simp only [front, Instruction.decode, same]

variable {m : Machine}

theorem fetch_eq (sized : m.memory.size = m.layout.memorySize) (pc : Word) :
    fetch m pc = lift ((m.fetch pc).map parts) := by
  simp only [fetch, Machine.fetch]
  cases inside : (m.layout.executable m.config.restrictExecution).contains pc.toNat with
  | false => rfl
  | true =>
    have fits := m.layout.fits
    have below := (Layout.contains_executable.mp inside).2
    have whole : m.memory.slice pc.toNat m.layout.programSize =
        .ok (m.memory.segment ⟨pc.toNat, m.layout.programSize⟩) :=
      if_pos (by omega)
    have front : m.memory.slice pc.toNat
        (min (pc.toNat + Instruction.maxSize) m.layout.programSize) =
        .ok ((m.memory.segment ⟨pc.toNat, m.layout.programSize⟩).take Instruction.maxSize) := by
      rw [Memory.slice, if_pos (by omega), Memory.segment_eq, Memory.segment_eq, List.take_take]
      congr 2
      dsimp only
      omega
    have decoded := decode_take pc (m.memory.segment ⟨pc.toNat, m.layout.programSize⟩)
    simp only [Layout.executable, whole, front, if_true, lift_ok, ok_bind, decoded, decode_eq]
    cases Instruction.decode (m.memory.segment ⟨pc.toNat, m.layout.programSize⟩) <;> rfl

theorem slice_word (memory : Memory) (address : Nat) :
    memory.slice address (address + 2) =
      if address + 1 < memory.bytes.size then .ok (memory.segment ⟨address, address + 2⟩)
      else .error (.memoryOutOfBounds address) := by
  by_cases inside : address + 1 < memory.bytes.size
  · rw [Memory.slice, if_pos ⟨Nat.le_add_right _ _, inside⟩, if_pos inside]
  · rw [Memory.slice, if_neg (fun bounds => inside bounds.2), if_neg inside]

theorem readWord_eq (memory : Memory) (address : Nat) :
    readWord memory address = lift (memory.readWord address) := by
  rw [readWord, slice_word, Memory.readWord]
  by_cases inside : address + 1 < memory.bytes.size
  · rw [if_pos inside, dif_pos inside,
      Memory.segment_word (Nat.lt_of_succ_lt inside) inside]
    rfl
  · rw [if_neg inside, dif_neg inside]
    rfl

/-- A word is copied wherever it can be written. -/
theorem writable_eq (memory : Memory) (address : Nat) (w : Word) :
    writable memory address w =
      if address + 1 < memory.bytes.size then .ok ()
      else .error (.error (.memoryOutOfBounds address)) := by
  rw [writable, slice_word]
  by_cases inside : address + 1 < memory.bytes.size
  · rw [if_pos inside, if_pos inside,
      Memory.segment_word (Nat.lt_of_succ_lt inside) inside]
    rfl
  · rw [if_neg inside, if_neg inside]
    rfl

theorem peek_eq (m : Machine) (depth : Word) : peek m depth = lift (m.peek depth) := by
  rw [peek, Machine.peek]
  by_cases under : m.sp < depth
  · rw [if_pos under, if_pos under, lift_error]
  · rw [if_neg under, if_neg under]
    by_cases above : m.layout.stackSize < m.sp.toNat
    · rw [if_pos above, if_pos above, lift_error]
    · have difference : (sub m.sp depth : Checked Fault Word) = .ok (m.sp - depth) :=
        if_pos (UInt16.not_lt.mp under)
      rw [if_neg above, if_neg above, difference]
      exact readWord_eq _ _

/-- The stack pointer stays a word, because a stack behind a program is smaller
than the address space. -/
theorem push_eq (sized : m.memory.size = m.layout.memorySize) (code : 0 < m.layout.programSize)
    (w : Word) : push m w = lift (m.push w) := by
  simp only [push, Machine.push, writable_eq]
  by_cases full : m.layout.stackSize < m.sp.toNat + 2
  · rw [if_pos full, if_pos full, lift_error]
  · rw [if_neg full, if_neg full]
    by_cases inside : m.layout.stack.start + m.sp.toNat + 1 < m.memory.bytes.size
    · have fits := m.layout.fits
      have range : m.layout.memorySize ≤ 0x10000 := m.layout.memory_le
      have address : m.layout.stack.start + m.sp.toNat < 0x10000 := by
        have size : m.memory.bytes.size = m.layout.memorySize := sized
        omega
      have sum : m.sp.toNat + (2 : Word).toNat < 0x10000 := by
        have two : (2 : Word).toNat = 2 := rfl
        omega
      have narrowed : (narrow (m.layout.stack.start + m.sp.toNat) : Checked Fault Word) =
          .ok (UInt16.ofNat (m.layout.stack.start + m.sp.toNat)) := if_pos address
      have moved : (add m.sp 2 : Checked Fault Word) = .ok (m.sp + 2) := if_pos sum
      rw [if_pos inside, if_pos inside, narrowed, moved]
      rfl
    · rw [if_neg inside, if_neg inside]
      rfl

theorem pop_eq (m : Machine) : pop m = lift ((m.peek 2).map fun w => (w, m.sp - 2)) := by
  rw [pop, peek_eq]
  cases peeked : m.peek 2 with
  | error fault => rfl
  | ok w =>
    have difference : (sub m.sp 2 : Checked Fault Word) = .ok (m.sp - 2) :=
      if_pos (Machine.peek_eq_ok.mp peeked).1
    simp only [lift_ok, difference]
    rfl

theorem load_eq (m : Machine) (address : Word) :
    loadPlace m (.memory address) = lift (m.load address) :=
  readWord_eq m.memory address.toNat

theorem store_eq (m : Machine) (w address : Word) :
    store m w (.memory address) = lift (m.store address w) := by
  simp only [store, Machine.store, writable_eq]
  by_cases outside : m.memory.size < address.toNat + 2
  · rw [if_pos outside, if_pos outside, lift_error]
  · rw [if_neg outside, if_neg outside]
    have inside : address.toNat + 1 < m.memory.bytes.size := Nat.not_lt.mp outside
    rw [if_pos inside]
    split <;> rfl

theorem binary_eq (pc a b : Word) (op : BinaryOp) :
    binary pc a b (.binary op) =
      match op.eval a b with
      | none => .error (.error (.divisionByZero pc))
      | some w => .ok w := by
  cases op with
  | arith view op =>
    simp only [binary, Opcode.arith?, BinaryOp.eval]
    cases Word.arith op view a b <;> rfl
  | or => rfl
  | xor => rfl
  | and => rfl

/-- Every operation with operands of its shape has a case. -/
theorem effect_eq (sized : m.memory.size = m.layout.memorySize) (code : 0 < m.layout.programSize)
    (pc : Word) (i : Instruction) :
    effect m pc i.opcode i.operands = lift (m.effect pc i) := by
  cases i using Instruction.byOpcode with
  | noop => rfl
  | halt => rfl
  | ret => rfl
  | dup =>
    simp only [effect, Machine.effect, peek_eq, push_eq sized code]
    cases m.peek 2 with
    | error fault => rfl
    | ok top =>
      simp only [lift_ok, ok_bind, Except.bind]
      cases m.push top <;> rfl
  | compareTop =>
    simp only [effect, Machine.effect, peek_eq]
    cases m.peek 4 with
    | error fault => rfl
    | ok left => cases m.peek 2 <;> rfl
  | jump condition target => rfl
  | call target => rfl
  | pushImm w =>
    simp only [effect, Machine.effect, push_eq sized code]
    cases m.push w <;> rfl
  | push r =>
    simp only [effect, Machine.effect, push_eq sized code]
    cases m.push (m.get r) <;> rfl
  | pop r =>
    simp only [effect, Machine.effect, pop_eq]
    cases m.peek 2 <;> rfl
  | not r => rfl
  | moveRegImm r w => rfl
  | moveRegReg r s => rfl
  | moveRegMem r address =>
    simp only [effect, Machine.effect, pair, load, load_eq]
    cases m.load address <;> rfl
  | moveMemReg address r => exact store_eq m (m.get r) address
  | compareRegReg r s => rfl
  | compareRegMem r address =>
    simp only [effect, Machine.effect, pair, load, load_eq]
    cases m.load address <;> rfl
  | compareMemReg address r =>
    simp only [effect, Machine.effect, pair, load_eq]
    cases m.load address <;> rfl
  | binary op r s =>
    have paired : pair m pc (.register r) (.place (.register s)) (.binary op) =
        (binary pc (m.get r) (m.get s) (.binary op)).bind fun w => .ok ⟨.next, [.register r w]⟩ := by
      cases op <;> rfl
    simp only [effect, Machine.effect, paired, binary_eq]
    cases op.eval (m.get r) (m.get s) <;> rfl

end Checked

end WordMachine
