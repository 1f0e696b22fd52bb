import WordMachine.Machine.Fault
import WordMachine.Machine.Layout

/-! Memory: a fixed number of bytes. Every access outside of them is a fault
that names the address of the access; words are stored low byte first. -/
namespace WordMachine

structure Memory where
  bytes : Array UInt8
  deriving DecidableEq

namespace Memory

def size (m : Memory) : Nat := m.bytes.size

/-- The program at address 0, and zeros up to the end. -/
def load (image : Image) (layout : Layout) : Memory :=
  ⟨(image.payload ++ List.replicate (layout.memorySize - layout.programSize) 0).toArray⟩

/-- The bytes of a segment. -/
def segment (m : Memory) (s : Segment) : List UInt8 := (m.bytes.extract s.start s.stop).toList

def slice (m : Memory) (start stop : Nat) : Except Fault (List UInt8) :=
  if start ≤ stop ∧ stop ≤ m.size then .ok (m.segment ⟨start, stop⟩)
  else .error (.memoryOutOfBounds start)

def readByte (m : Memory) (address : Nat) : Except Fault UInt8 :=
  match m.bytes[address]? with
  | some b => .ok b
  | none => .error (.memoryOutOfBounds address)

def readWord (m : Memory) (address : Nat) : Except Fault Word :=
  if h : address + 1 < m.bytes.size then
    .ok (Word.ofBytes m.bytes[address] m.bytes[address + 1])
  else .error (.memoryOutOfBounds address)

def writeByte (m : Memory) (address : Nat) (b : UInt8) : Except Fault Memory :=
  if h : address < m.bytes.size then .ok ⟨m.bytes.set address b⟩
  else .error (.memoryOutOfBounds address)

/-- The memory with both bytes of a word replaced. -/
def setWord (m : Memory) (address : Nat) (w : Word) (h : address + 1 < m.bytes.size) : Memory :=
  ⟨(m.bytes.set address w.lowByte).set (address + 1) w.highByte (by simpa using h)⟩

def writeWord (m : Memory) (address : Nat) (w : Word) : Except Fault Memory :=
  if h : address + 1 < m.bytes.size then .ok (m.setWord address w h)
  else .error (.memoryOutOfBounds address)

theorem size_load (image : Image) (config : Config) (layout : Layout)
    (h : Layout.ofImage image config = .ok layout) :
    (load image layout).size = layout.memorySize := by
  have fits := layout.fits
  have hp : layout.programSize = image.payload.length := by
    unfold Layout.ofImage at h
    split at h
    · cases h
    · split at h
      · cases h; rfl
      · cases h
  simp only [load, size, List.size_toArray, List.length_append, List.length_replicate, ← hp]
  omega

theorem size_writeWord {m n : Memory} {address : Nat} {w : Word}
    (h : m.writeWord address w = .ok n) : n.size = m.size := by
  unfold writeWord at h
  split at h
  · cases h; simp [size, setWord]
  · cases h

/-- Reading back a word that was written. -/
theorem readWord_writeWord {m n : Memory} {address : Nat} {w : Word}
    (h : m.writeWord address w = .ok n) : n.readWord address = .ok w := by
  unfold writeWord at h
  split at h
  · next hs =>
    cases h
    simp [readWord, setWord, hs, Array.getElem_set]
  · cases h

end Memory

end WordMachine
