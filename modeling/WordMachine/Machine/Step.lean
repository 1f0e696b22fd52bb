import WordMachine.Machine.Basic
import WordMachine.Machine.Event

/-! One step of a machine. An execution carries the machine together with a
record that an observer keeps of the events; what it did before a fault stays
done. The observer is a parameter and gives nothing back to the machine. -/
namespace WordMachine

/-- A machine and what its observer has recorded. -/
structure Session (σ : Type) where
  machine : Machine
  record : σ

/-- A computation on a machine that may end in a fault. -/
abbrev Exec (σ α : Type) := EStateM Fault (Session σ) α

/-- What an observer does with an event. -/
abbrev Observer (σ : Type) := Event → σ → σ

/-- Sees nothing. -/
def Observer.blind : Observer Unit := fun _ _ => ()

/-- Where the program counter goes after an instruction. -/
inductive Flow where
  | next
  | jump (target : Word)
  /-- The machine has halted on this instruction. -/
  | stop
  deriving DecidableEq, Repr

/-- Where an operand lives. -/
inductive Place where
  | register (r : Register)
  | memory (address : Word)
  deriving DecidableEq, Repr

/-- Where the right operand comes from. -/
inductive Source where
  | place (p : Place)
  | value (w : Word)
  deriving DecidableEq, Repr

/-- Decided by the flags of the last comparison. -/
def Condition.holds : Condition → Flags → Bool
  | .always, _ => true
  | .equal, f => f.equal
  | .notEqual, f => !f.equal
  | .greater, f => f.greater
  | .less, f => f.less
  | .greaterOrEqual, f => !f.less
  | .lessOrEqual, f => !f.greater

namespace Machine

/-- The instruction at an address, which must lie in the executable region and
end with the program. -/
def fetch (m : Machine) (pc : Word) : Except Fault Instruction :=
  let region := m.layout.executable m.config.restrictExecution
  if region.contains pc.toNat then
    match m.memory.slice pc.toNat (min (pc.toNat + Instruction.maxSize) region.stop) with
    | .error fault => .error fault
    | .ok window => (Instruction.decode window).mapError (Fault.ofDecode pc)
  else .error (.outOfBoundsExecution pc)

end Machine

namespace Exec

variable {σ : Type}

def machine : Exec σ Machine := do return (← get).machine

def update (change : Machine → Machine) : Exec σ Unit :=
  modify fun s => { s with machine := change s.machine }

def ofExcept {α : Type} : Except Fault α → Exec σ α
  | .ok a => pure a
  | .error fault => throw fault

variable (watch : Observer σ)

def emit (event : Event) : Exec σ Unit :=
  modify fun s => { s with record := watch event s.record }

def writeRegister (r : Register) (w : Word) : Exec σ Unit := do
  update fun m => m.set r w
  emit watch (.registerWrite r w)

/-- Replaces a word of the memory, or faults and leaves it as it is. -/
def storeWord (address : Nat) (w : Word) : Exec σ Unit := fun s =>
  if h : address + 1 < s.machine.memory.bytes.size then
    .ok () { s with
      machine := { s.machine with memory := s.machine.memory.setWord address w h } }
  else .error (.memoryOutOfBounds address) s

theorem storeWord_eq (address : Nat) (w : Word) (s : Session σ) :
    storeWord address w s =
      match s.machine.memory.writeWord address w with
      | .ok memory => .ok () { s with machine := { s.machine with memory } }
      | .error fault => .error fault s := by
  unfold storeWord Memory.writeWord
  split <;> rfl

/-- A store that touches a read-only program is dropped and halts the machine. -/
def writeMemory (address w : Word) : Exec σ Flow := do
  let m ← machine
  if m.memory.size < address.toNat + 2 then
    throw (.memoryOutOfBounds address.toNat)
  else if m.config.readonlyProgram && m.layout.overlapsProgram address.toNat 2 then do
    emit watch (.refusedWrite address w)
    update fun m => { m with status := .halted }
    return .stop
  else do
    storeWord address.toNat w
    emit watch (.memoryWrite address w)
    return .next

def push (w : Word) : Exec σ Unit := do
  let m ← machine
  if m.layout.stackSize < m.sp.toNat + 2 then
    throw (.stackOverflow m.sp)
  else do
    let address := m.layout.stack.start + m.sp.toNat
    let sp := m.sp + 2
    storeWord address w
    emit watch (.memoryWrite (UInt16.ofNat address) w)
    writeRegister watch .sp sp

/-- The word that begins `depth` bytes below the stack pointer. -/
def peek (depth : Word) : Exec σ Word := do
  let m ← machine
  if m.sp < depth then throw (.stackUnderflow m.sp)
  else if m.layout.stackSize < m.sp.toNat then throw (.stackOverflow m.sp)
  else ofExcept (m.memory.readWord (m.layout.stack.start + (m.sp - depth).toNat))

def pop : Exec σ Word := do
  let w ← peek 2
  let m ← machine
  writeRegister watch .sp (m.sp - 2)
  return w

def loadPlace : Place → Exec σ Word
  | .register r => do return (← machine).get r
  | .memory address => do ofExcept ((← machine).memory.readWord address.toNat)

def load : Source → Exec σ Word
  | .value w => return w
  | .place p => loadPlace p

def store (p : Place) (w : Word) : Exec σ Flow :=
  match p with
  | .register r => do
    writeRegister watch r w
    return .next
  | .memory address => writeMemory watch address w

def compare (left right : Word) : Exec σ Unit := do
  let flags := (← machine).flags.record (Ord.compare left right)
  update fun m => m.set .flags flags.bits
  emit watch (.comparison left right flags)

def move (dest : Place) (source : Source) : Exec σ Flow := do
  let w ← load source
  store watch dest w

/-- The right operand is read before the left one. -/
def comparePlaces (left right : Place) : Exec σ Flow := do
  let b ← loadPlace right
  let a ← loadPlace left
  compare watch a b
  return .next

def binary (pc : Word) (op : BinaryOp) (dest right : Register) : Exec σ Flow := do
  let b ← loadPlace (.register right)
  let a ← loadPlace (.register dest)
  match op.eval a b with
  | none => throw (.divisionByZero pc)
  | some w => store watch (.register dest) w

def jump (condition : Condition) (target : Word) : Exec σ Flow := do
  let taken := condition.holds (← machine).flags
  emit watch (.jump target taken)
  return if taken then .jump target else .next

/-- Saves the stack base, the stack pointer and the address after the call in
three registers, and opens a frame at the stack pointer. -/
def call (pc target : Word) : Exec σ Flow := do
  let m ← machine
  let returnAddress := pc + 3
  let sp := m.sp
  writeRegister watch Register.savedBase (m.get .sb)
  writeRegister watch Register.savedPointer sp
  writeRegister watch Register.returnAddress returnAddress
  writeRegister watch .sb sp
  emit watch (.call target returnAddress)
  return .jump target

/-- Takes back what the last call saved. -/
def ret : Exec σ Flow := do
  let m ← machine
  let returnAddress := m.get Register.returnAddress
  writeRegister watch .sb (m.get Register.savedBase)
  writeRegister watch .sp (m.get Register.savedPointer)
  emit watch (.ret returnAddress)
  return .jump returnAddress

def execute (pc : Word) : Instruction → Exec σ Flow
  | ⟨.noop, .none, _⟩ => return .next
  | ⟨.halt, .none, _⟩ => do
    update fun m => { m with status := .halted }
    emit watch (.halt pc)
    return .stop
  | ⟨.ret, .none, _⟩ => ret watch
  | ⟨.dup, .none, _⟩ => do
    let top ← peek 2
    push watch top
    return .next
  | ⟨.compareTop, .none, _⟩ => do
    let left ← peek 4
    let right ← peek 2
    compare watch left right
    return .next
  | ⟨.jump condition, .imm target, _⟩ => jump watch condition target
  | ⟨.call, .imm target, _⟩ => call watch pc target
  | ⟨.pushImm, .imm w, _⟩ => do
    push watch w
    return .next
  | ⟨.push, .reg r, _⟩ => do
    push watch ((← machine).get r)
    return .next
  | ⟨.pop, .reg r, _⟩ => do
    let w ← pop watch
    writeRegister watch r w
    return .next
  | ⟨.not, .reg r, _⟩ => do
    writeRegister watch r (~~~(← machine).get r)
    return .next
  | ⟨.moveRegImm, .regImm r w, _⟩ => move watch (.register r) (.value w)
  | ⟨.moveRegReg, .regReg r s, _⟩ => move watch (.register r) (.place (.register s))
  | ⟨.moveRegMem, .regMem r address, _⟩ => move watch (.register r) (.place (.memory address))
  | ⟨.moveMemReg, .memReg address r, _⟩ => move watch (.memory address) (.place (.register r))
  | ⟨.compareRegReg, .regReg r s, _⟩ => comparePlaces watch (.register r) (.register s)
  | ⟨.compareRegMem, .regMem r address, _⟩ => comparePlaces watch (.register r) (.memory address)
  | ⟨.compareMemReg, .memReg address r, _⟩ => comparePlaces watch (.memory address) (.register r)
  | ⟨.binary op, .regReg r s, _⟩ => binary watch pc op r s

/-- The size of an instruction is added to the program counter as the
instruction leaves it, so a write to that register is a jump past its target. -/
def advance (i : Instruction) : Flow → Exec σ Unit
  | .next => update fun m => m.set .pc (m.pc + UInt16.ofNat i.size)
  | .jump target => update fun m => m.set .pc target
  | .stop => return ()

/-- Executes one instruction. A halted machine does nothing. -/
def step : Exec σ Status := do
  let m ← machine
  if m.isHalted then return .halted
  else do
    let i ← ofExcept (m.fetch m.pc)
    emit watch (.instruction m.pc i)
    let flow ← execute watch m.pc i
    advance i flow
    update fun m => { m with count := m.count + 1 }
    return (← machine).status

end Exec

end WordMachine
