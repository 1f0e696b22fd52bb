/-! Machine words: sixteen bits, stored low byte first. A word does not record
whether it is meant as a number, a signed number or a half float; each operation
picks its own reading. -/
namespace WordMachine

abbrev Word := UInt16

namespace Word

def lowByte (w : Word) : UInt8 := UInt8.ofNat w.toNat

def highByte (w : Word) : UInt8 := UInt8.ofNat (w.toNat / 256)

def ofBytes (low high : UInt8) : Word := UInt16.ofNat (low.toNat + 256 * high.toNat)

def toBytes (w : Word) : List UInt8 := [w.lowByte, w.highByte]

/-- Bit `n` of a word, counted from the least significant one. -/
def bit (w : Word) (n : Nat) : Bool := w.toNat >>> n % 2 == 1

theorem toNat_ofBytes (low high : UInt8) :
    (ofBytes low high).toNat = low.toNat + 256 * high.toNat := by
  have hl := low.toNat_lt
  have hh := high.toNat_lt
  simp only [ofBytes, UInt16.toNat_ofNat']
  omega

@[simp] theorem ofBytes_lowByte_highByte (w : Word) : ofBytes w.lowByte w.highByte = w := by
  apply UInt16.toNat_inj.mp
  have h := w.toNat_lt
  rw [toNat_ofBytes]
  simp only [lowByte, highByte, UInt8.toNat_ofNat']
  omega

@[simp] theorem lowByte_ofBytes (low high : UInt8) : (ofBytes low high).lowByte = low := by
  apply UInt8.toNat_inj.mp
  have hl := low.toNat_lt
  simp only [lowByte, UInt8.toNat_ofNat', toNat_ofBytes]
  omega

@[simp] theorem highByte_ofBytes (low high : UInt8) : (ofBytes low high).highByte = high := by
  apply UInt8.toNat_inj.mp
  have hl := low.toNat_lt
  have hh := high.toNat_lt
  simp only [highByte, UInt8.toNat_ofNat', toNat_ofBytes]
  omega

@[simp] theorem length_toBytes (w : Word) : w.toBytes.length = 2 := rfl

end Word

end WordMachine
