import WordMachine.Word
import WordMachine.Text.Case

/-! The twelve registers: eight for general use, then the program counter, the
stack pointer, the stack base and the flags. A register file holds one word for
each of them. -/
namespace WordMachine

inductive Register where
  | r1 | r2 | r3 | r4 | r5 | r6 | r7 | r8
  | pc | sp | sb | flags
  deriving DecidableEq, Repr

namespace Register

def all : List Register := [r1, r2, r3, r4, r5, r6, r7, r8, pc, sp, sb, flags]

/-- Place of a register in the file, and its number in encoded instructions. -/
def index : Register → Fin 12
  | r1 => 0 | r2 => 1 | r3 => 2 | r4 => 3 | r5 => 4 | r6 => 5 | r7 => 6 | r8 => 7
  | pc => 8 | sp => 9 | sb => 10 | flags => 11

def id (r : Register) : UInt8 := UInt8.ofNat r.index

def ofId? (id : UInt8) : Option Register := all[id.toNat]?

/-- Holds the caller's stack base during a call. -/
def savedBase : Register := r6

/-- Holds the caller's stack pointer during a call. -/
def savedPointer : Register := r7

/-- Holds the address after the `CALL`. -/
def returnAddress : Register := r8

def name : Register → String
  | r1 => "$REG1" | r2 => "$REG2" | r3 => "$REG3" | r4 => "$REG4"
  | r5 => "$REG5" | r6 => "$REG6" | r7 => "$REG7" | r8 => "$REG8"
  | pc => "$RPC" | sp => "$RSP" | sb => "$RBP" | flags => "$RFL"

/-- The register with a name, in either letter case. -/
def ofName? (text : String) : Option Register :=
  all.find? fun r => Text.sameLetters r.name text

@[simp] theorem ofId?_id (r : Register) : ofId? r.id = some r := by cases r <;> rfl

theorem id_of_ofId? {n : UInt8} {r : Register} (h : ofId? n = some r) : r.id = n := by
  obtain ⟨hn, rfl⟩ := List.getElem?_eq_some_iff.mp h
  have places : ∀ k : Fin 12, (all[k]).id.toNat = k := by decide
  exact UInt8.toNat_inj.mp (places ⟨n.toNat, hn⟩)

theorem index_injective {r s : Register} (h : r.index = s.index) : r = s := by
  cases r <;> cases s <;> first | rfl | exact absurd h (by decide)

end Register

structure RegisterFile where
  values : Vector Word 12
  deriving DecidableEq, Repr

namespace RegisterFile

def zero : RegisterFile := ⟨Vector.replicate 12 0⟩

def get (f : RegisterFile) (r : Register) : Word := f.values[r.index]

def set (f : RegisterFile) (r : Register) (w : Word) : RegisterFile :=
  ⟨f.values.set r.index w⟩

@[simp] theorem get_set_self (f : RegisterFile) (r : Register) (w : Word) :
    (f.set r w).get r = w := by simp [get, set]

theorem get_set_ne (f : RegisterFile) {r s : Register} (w : Word) (h : s ≠ r) :
    (f.set r w).get s = f.get s := by
  have hi : (r.index : Nat) ≠ s.index := fun e => h (Register.index_injective (Fin.ext e)).symm
  simp [get, set, Vector.getElem_set_ne, hi]

theorem get_set (f : RegisterFile) (r s : Register) (w : Word) :
    (f.set r w).get s = if s = r then w else f.get s := by
  by_cases h : s = r
  · subst h; simp
  · simp [h, get_set_ne f w h]

/-- Two files with the same word in every register are equal. -/
theorem ext {f g : RegisterFile} (h : ∀ r, f.get r = g.get r) : f = g := by
  obtain ⟨f⟩ := f
  obtain ⟨g⟩ := g
  congr 1
  apply Vector.ext
  intro i hi
  have places : ∀ k : Fin 12, (Register.all[k]).index = k := by decide
  have hr := h Register.all[i]
  simpa [get, show (Register.all[i]).index = ⟨i, hi⟩ from places ⟨i, hi⟩] using hr

end RegisterFile

end WordMachine
