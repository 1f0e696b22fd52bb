import WordMachine.Instruction.Flags
import WordMachine.Machine.Memory

/-! Machines: registers, memory, the layout and settings fixed when the machine
was built, and how far it has come. -/
namespace WordMachine

inductive Status where
  | running | halted
  deriving DecidableEq, Repr

structure Machine where
  registers : RegisterFile
  memory : Memory
  layout : Layout
  config : Config
  header : Header
  status : Status
  /-- Instructions executed, the halting one included. -/
  count : Nat
  deriving DecidableEq

namespace Machine

/-- A machine about to execute the first instruction of an image. -/
def ofImage (image : Image) (config : Config) : Except LoadError Machine :=
  match Layout.ofImage image config with
  | .error e => .error e
  | .ok layout =>
    .ok
      { registers := RegisterFile.zero.set .pc (UInt16.ofNat layout.staticSize)
        memory := Memory.load image layout
        layout
        config
        header := image.header
        status := .running
        count := 0 }

/-- A machine with the default settings from the bytes of an image. -/
def ofBytes (bytes : List UInt8) : Except LoadError Machine :=
  match Image.ofBytes bytes with
  | .error e => .error (.image e)
  | .ok image => ofImage image {}

def get (m : Machine) (r : Register) : Word := m.registers.get r

def set (m : Machine) (r : Register) (w : Word) : Machine :=
  { m with registers := m.registers.set r w }

def pc (m : Machine) : Word := m.get .pc

/-- Bytes in use on the stack. -/
def sp (m : Machine) : Word := m.get .sp

def flags (m : Machine) : Flags := ⟨m.get .flags⟩

def isHalted (m : Machine) : Bool := m.status == .halted

def program (m : Machine) : List UInt8 := m.memory.segment m.layout.program

def stack (m : Machine) : List UInt8 := m.memory.segment m.layout.stack

def heap (m : Machine) : List UInt8 := m.memory.segment m.layout.heap

end Machine

end WordMachine
