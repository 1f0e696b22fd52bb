import WordMachine.Image.Basic
import WordMachine.Instruction.Codec

/-! Listings: an image read back as string items, instructions and labels. The
code is swept from its first byte to its last, and a listing exists only if the
whole of it decodes. Jump and call targets that are the start of an instruction,
or the end of the code, become labels; other targets stay numbers. -/
namespace WordMachine

/-- The static segment as a listing shows it. -/
inductive StaticListing where
  | empty
  /-- Texts with the offsets of their length bytes, which are words. -/
  | texts (items : List (Word × String))
  /-- Bytes that are not a sequence of printable texts. -/
  | raw (size : Nat)
  deriving DecidableEq, Repr

structure Listing where
  statics : StaticListing
  /-- Every instruction with its address. -/
  instructions : List (Nat × Instruction)
  /-- Addresses with a label, in order of first reference. -/
  labels : List Nat
  /-- The address after the last instruction. -/
  stop : Nat
  deriving DecidableEq, Repr

structure ListingError where
  offset : Nat
  cause : DecodeError
  deriving DecidableEq, Repr

namespace ListingError

def message (e : ListingError) : String :=
  "cannot decode instruction at 0x" ++ Hex.address e.offset ++ ": " ++ e.cause.message

end ListingError

namespace StaticListing

/-- Literals have no escapes, so a text with a quote could not be written back. -/
def isPrintable (b : UInt8) : Bool := 0x20 ≤ b && b ≤ 0x7E && b ≠ 0x22

def textOf (bytes : List UInt8) : String := String.ofList (bytes.map fun b => Char.ofNat b.toNat)

/-- Reads length-prefixed printable texts up to the end of the segment. -/
def readTexts (offset : Nat) (found : List (Word × String)) :
    List UInt8 → Option (List (Word × String))
  | [] => some found.reverse
  | length :: rest =>
    let text := rest.take length.toNat
    if text.length = length.toNat ∧ text.all isPrintable = true then
      readTexts (offset + 1 + length.toNat) ((UInt16.ofNat offset, textOf text) :: found)
        (rest.drop length.toNat)
    else none
termination_by bytes => bytes.length
decreasing_by simp only [List.length_drop, List.length_cons]; omega

def ofBytes (segment : List UInt8) : StaticListing :=
  if segment.isEmpty then .empty
  else match readTexts 0 [] segment with
    | some items => .texts items
    | none => .raw segment.length

end StaticListing

namespace Listing

/-- Decodes instruction after instruction from an address on. -/
def sweep (address : Nat) (found : List (Nat × Instruction)) :
    List UInt8 → Except ListingError (List (Nat × Instruction))
  | [] => .ok found.reverse
  | byte :: rest =>
    match Instruction.decode (byte :: rest) with
    | .error cause => .error ⟨address, cause⟩
    | .ok i => sweep (address + i.size) ((address, i) :: found) ((byte :: rest).drop i.size)
termination_by bytes => bytes.length
decreasing_by
  have := i.size_pos
  simp only [List.length_drop, List.length_cons]
  omega

/-- Jump and call targets in order, each as often as it is referred to. -/
def targets (instructions : List (Nat × Instruction)) : List Nat :=
  instructions.filterMap fun (_, i) => i.target?.map UInt16.toNat

def findLabels (instructions : List (Nat × Instruction)) (stop : Nat) : List Nat :=
  let places := stop :: instructions.map Prod.fst
  ((targets instructions).filter places.contains).eraseDups

def ofImage (image : Image) : Except ListingError Listing :=
  match sweep image.codeOffset [] image.code with
  | .error e => .error e
  | .ok instructions =>
    let stop := image.codeOffset + image.code.length
    .ok ⟨StaticListing.ofBytes image.statics, instructions, findLabels instructions stop, stop⟩

def labelName (n : Nat) : String := "_LABEL_" ++ n.repr

/-- Labels are numbered in order of first reference. -/
def label? (l : Listing) (address : Nat) : Option String :=
  if address ∈ l.labels then some (labelName (l.labels.idxOf address)) else none

end Listing

end WordMachine
