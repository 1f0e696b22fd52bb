import WordMachine.Image.Header

/-! Program images. An image is a static segment followed by code, small enough
for sixteen-bit addresses. It is stored behind a header, or, when it has no
static segment, as bare code. -/
namespace WordMachine

/-- The most bytes of static data and code together. -/
def maxPayload : Nat := 0xFFFF

structure Image where
  /-- Option bits of the header; bare code has none. -/
  options? : Option UInt32
  statics : List UInt8
  code : List UInt8
  bare : options? = none → statics = []
  fits : statics.length + code.length ≤ maxPayload
  deriving DecidableEq

inductive ImageError where
  | truncatedHeader (length : Nat)
  | unsupportedVersion (version : Word)
  | unsupportedEndianness (endianness : UInt8)
  | staticOverrun (staticSize : Word) (payload : Nat)
  | tooLarge (payload : Nat)
  deriving DecidableEq, Repr

namespace ImageError

def message : ImageError → String
  | truncatedHeader length =>
    "image has a header magic but only " ++ length.repr ++ " bytes (header is " ++
      Header.size.repr ++ ")"
  | unsupportedVersion version =>
    "unsupported image version " ++ version.toNat.repr ++ " (expected " ++
      Header.imageVersion.toNat.repr ++ ")"
  | unsupportedEndianness endianness =>
    "unsupported endianness " ++ endianness.toNat.repr ++
      " (only little-endian images are supported)"
  | staticOverrun staticSize payload =>
    "static segment of " ++ staticSize.toNat.repr ++ " bytes exceeds the " ++ payload.repr ++
      "-byte payload"
  | tooLarge payload =>
    "payload of " ++ payload.repr ++ " bytes exceeds the 16-bit address space"

end ImageError

namespace Image

/-- Static data and code, as they are mapped from address 0. -/
def payload (i : Image) : List UInt8 := i.statics ++ i.code

/-- Address of the first instruction. -/
def codeOffset (i : Image) : Nat := i.statics.length

def hasHeader (i : Image) : Bool := i.options?.isSome

/-- The header of the image; bare code gets one without options. -/
def header (i : Image) : Header :=
  Header.sound (i.options?.getD 0) (UInt16.ofNat i.statics.length)

/-- An image with a header from its two segments. -/
def compose (statics code : List UInt8) : Except ImageError Image :=
  if fits : statics.length + code.length ≤ maxPayload then
    .ok ⟨some 0, statics, code, nofun, fits⟩
  else .error (.tooLarge (statics.length + code.length))

/-- Bytes that do not begin with the magic number are bare code. -/
def ofBytes (bytes : List UInt8) : Except ImageError Image :=
  if Header.detected bytes then
    match Header.ofBytes? bytes with
    | none => .error (.truncatedHeader bytes.length)
    | some header =>
      let payload := bytes.drop Header.size
      let split := header.staticSize.toNat
      if header.version ≠ Header.imageVersion then .error (.unsupportedVersion header.version)
      else if header.endianness ≠ Header.littleEndian then
        .error (.unsupportedEndianness header.endianness)
      else if fits : payload.length ≤ maxPayload then
        if split ≤ payload.length then
          .ok ⟨some header.options, payload.take split, payload.drop split, nofun, by
            simpa using (by omega : min split payload.length + (payload.length - split) ≤ _)⟩
        else .error (.staticOverrun header.staticSize payload.length)
      else .error (.tooLarge payload.length)
  else if fits : bytes.length ≤ maxPayload then
    .ok ⟨none, [], bytes, fun _ => rfl, by simpa using fits⟩
  else .error (.tooLarge bytes.length)

def toBytes (i : Image) : List UInt8 :=
  if i.hasHeader then i.header.toBytes ++ i.payload else i.payload

theorem length_payload (i : Image) : i.payload.length = i.statics.length + i.code.length := by
  simp [payload]

theorem codeOffset_le (i : Image) : i.codeOffset ≤ i.payload.length := by
  simp [payload, codeOffset]

theorem length_payload_le (i : Image) : i.payload.length ≤ maxPayload := by
  rw [length_payload]; exact i.fits

end Image

end WordMachine
