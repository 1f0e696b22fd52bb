import WordMachine.Assembly.Section
import WordMachine.Assembly.Statement
import WordMachine.Image.Basic

/-! Linking. The static segment comes first, then the sections one after the
other; the address of a section is the number of bytes before it. With all
addresses known, every relocation is replaced by the address of its label. A
label names the start of a section and nothing else. -/
namespace WordMachine

structure LinkedProgram where
  statics : List UInt8
  code : List UInt8
  /-- The address of every section in link order. -/
  offsets : List (String × Word)
  deriving DecidableEq, Repr

namespace Section

def size (s : Section Chunk) : Nat := (s.body.map Chunk.size).foldr (· + ·) 0

/-- Addresses of sections that are laid down from `base` on. -/
def addresses (base : Nat) : List (Section Chunk) → List (String × Word)
  | [] => []
  | s :: rest => (s.name, UInt16.ofNat base) :: addresses (base + s.size) rest

end Section

namespace Chunk

/-- The bytes with the address of the label, if any, filled in. -/
def resolve (addressOf : String → Option Word) (c : Chunk) : Except LinkError (List UInt8) :=
  match c.relocation with
  | none => .ok c.bytes
  | some ⟨label, offset⟩ =>
    match addressOf label with
    | none => .error (.undefinedLabel label)
    | some address =>
      if offset + 2 ≤ c.bytes.length then
        .ok (c.bytes.take offset ++ address.toBytes ++ c.bytes.drop (offset + 2))
      else .error (.misplacedRelocation label offset)

end Chunk

namespace LinkedProgram

def header (p : LinkedProgram) : Header := Header.sound 0 (UInt16.ofNat p.statics.length)

/-- The address of a section, named in either letter case. -/
def offsetOf? (p : LinkedProgram) (name : String) : Option Word :=
  p.offsets.lookup (Text.upper name)

def toBytes (p : LinkedProgram) : List UInt8 := p.header.toBytes ++ p.statics ++ p.code

/-- Sizes are checked before labels, and labels in link order. -/
def link (statics : List UInt8) (sections : List (Section Chunk)) :
    Except LinkError LinkedProgram :=
  let total := statics.length + (sections.map Section.size).foldr (· + ·) 0
  if maxPayload < statics.length then .error (.staticSegmentTooLarge statics.length)
  else if maxPayload < total then .error (.programTooLarge total)
  else
    let offsets := Section.addresses statics.length sections
    match (sections.flatMap Section.body).mapM (Chunk.resolve (offsets.lookup ·)) with
    | .error e => .error e
    | .ok parts => .ok ⟨statics, parts.flatten, offsets⟩

end LinkedProgram

end WordMachine
