import WordMachine.Word

/-! The header of a program image: thirteen bytes holding a magic number, a
format version, a byte order, option bits and the size of the static segment,
all stored low byte first. -/
namespace WordMachine

structure Header where
  magic : UInt32
  version : Word
  endianness : UInt8
  options : UInt32
  staticSize : Word
  deriving DecidableEq, Repr

namespace Header

/-- Stored as the bytes BE EF CA FE. -/
def imageMagic : UInt32 := 0xFECAEFBE

def imageVersion : Word := 1

/-- The byte order mark of images stored low byte first. -/
def littleEndian : UInt8 := 0

def size : Nat := 13

def wideBytes (n : UInt32) : List UInt8 :=
  [UInt8.ofNat n.toNat, UInt8.ofNat (n.toNat / 0x100), UInt8.ofNat (n.toNat / 0x10000),
    UInt8.ofNat (n.toNat / 0x1000000)]

def ofWideBytes (a b c d : UInt8) : UInt32 :=
  UInt32.ofNat (a.toNat + 0x100 * b.toNat + 0x10000 * c.toNat + 0x1000000 * d.toNat)

/-- The header of a sound image with these options and this static size. -/
def sound (options : UInt32) (staticSize : Word) : Header :=
  ⟨imageMagic, imageVersion, littleEndian, options, staticSize⟩

/-- The bytes begin with the magic number. -/
def detected (bytes : List UInt8) : Bool := bytes.take 4 == wideBytes imageMagic

/-- The header in the first thirteen bytes, sound or not. -/
def ofBytes? : List UInt8 → Option Header
  | m₀ :: m₁ :: m₂ :: m₃ :: v₀ :: v₁ :: e :: o₀ :: o₁ :: o₂ :: o₃ :: s₀ :: s₁ :: _ =>
    some ⟨ofWideBytes m₀ m₁ m₂ m₃, Word.ofBytes v₀ v₁, e, ofWideBytes o₀ o₁ o₂ o₃,
      Word.ofBytes s₀ s₁⟩
  | _ => none

def toBytes (h : Header) : List UInt8 :=
  wideBytes h.magic ++ h.version.toBytes ++ [h.endianness] ++ wideBytes h.options ++
    h.staticSize.toBytes

theorem toNat_ofWideBytes (a b c d : UInt8) :
    (ofWideBytes a b c d).toNat =
      a.toNat + 0x100 * b.toNat + 0x10000 * c.toNat + 0x1000000 * d.toNat := by
  have ha := a.toNat_lt
  have hb := b.toNat_lt
  have hc := c.toNat_lt
  have hd := d.toNat_lt
  simp only [ofWideBytes, UInt32.toNat_ofNat']
  omega

theorem wideBytes_ofWideBytes (a b c d : UInt8) :
    wideBytes (ofWideBytes a b c d) = [a, b, c, d] := by
  have ha := a.toNat_lt
  have hb := b.toNat_lt
  have hc := c.toNat_lt
  have hd := d.toNat_lt
  simp only [wideBytes, toNat_ofWideBytes, List.cons.injEq, and_true]
  refine ⟨?_, ?_, ?_, ?_⟩ <;> apply UInt8.toNat_inj.mp <;>
    simp only [UInt8.toNat_ofNat'] <;> omega

theorem ofWideBytes_wideBytes (n : UInt32) :
    ofWideBytes (UInt8.ofNat n.toNat) (UInt8.ofNat (n.toNat / 0x100))
      (UInt8.ofNat (n.toNat / 0x10000)) (UInt8.ofNat (n.toNat / 0x1000000)) = n := by
  have h := n.toNat_lt
  apply UInt32.toNat_inj.mp
  rw [toNat_ofWideBytes]
  simp only [UInt8.toNat_ofNat']
  omega

@[simp] theorem length_toBytes (h : Header) : h.toBytes.length = size := rfl

theorem ofBytes?_toBytes_append (h : Header) (rest : List UInt8) :
    ofBytes? (h.toBytes ++ rest) = some h := by
  simp only [toBytes, wideBytes, Word.toBytes, List.cons_append, List.nil_append, ofBytes?,
    ofWideBytes_wideBytes, Word.ofBytes_lowByte_highByte]

end Header

end WordMachine
