import WordMachine.Listing.Basic
import WordMachine.Text.Palette

/-! The text of a listing: string items, then a start line, then instructions
with the label lines before them. Instructions are indented from the first line
that names a section on. -/
namespace WordMachine.Listing

structure Style where
  /-- Leave out the start line. -/
  implicitStart : Bool
  /-- Close every instruction line with its address as a comment. -/
  addresses : Bool
  palette : Palette
  deriving DecidableEq, Repr

def indentation : String := "    "

def labelLine (p : Palette) (name : String) : String := p.label ++ name ++ p.reset ++ ":"

def staticLines (p : Palette) : StaticListing → List String
  | .empty => []
  | .texts items =>
    ".STATIC" :: items.map fun (offset, text) =>
      "$S" ++ Hex.address offset.toNat ++ ": " ++ p.literal ++ "\"" ++ text ++ "\"" ++ p.reset
  | .raw size =>
    [p.dim ++ "// static segment: " ++ size.repr ++ " bytes with no string-literal form" ++ p.reset]

def operandTexts (p : Palette) (l : Listing) (i : Instruction) : List String :=
  let value (w : Word) := p.literal ++ Hex.word w ++ p.reset
  let memory (w : Word) := p.literal ++ "$" ++ Hex.word w ++ p.reset
  match i.operands with
  | .none => []
  | .imm w =>
    match i.target?.bind fun t => l.label? t.toNat with
    | some name => [p.label ++ name ++ p.reset]
    | none => [value w]
  | .reg r => [r.name]
  | .regImm r w => [r.name, value w]
  | .regReg r s => [r.name, s.name]
  | .regMem r w => [r.name, memory w]
  | .memReg w r => [memory w, r.name]

def instructionText (p : Palette) (l : Listing) (i : Instruction) : String :=
  " ".intercalate (i.opcode.mnemonic :: operandTexts p l i)

/-- The address from which instructions are indented: with a start line all are,
without one those from the first label on. -/
def indentedFrom? (style : Style) (l : Listing) : Option Nat :=
  if style.implicitStart then l.labels.min? else some 0

def instructionLine (style : Style) (l : Listing) (indented : Bool) (address : Nat)
    (i : Instruction) : String :=
  (if indented then indentation else "") ++ instructionText style.palette l i ++
    if style.addresses then
      "  " ++ style.palette.dim ++ "// 0x" ++ Hex.address address ++ style.palette.reset
    else ""

/-- The line that names the section at an address, if a label is there. -/
def labelLines (style : Style) (l : Listing) (address : Nat) : List String :=
  ((l.label? address).map (labelLine style.palette)).toList

/-- A label at the end of the code still gets its line. -/
def lines (style : Style) (l : Listing) : List String :=
  let start? := indentedFrom? style l
  staticLines style.palette l.statics ++
    (if style.implicitStart then [] else [labelLine style.palette "_START"]) ++
    (l.instructions.flatMap fun (address, i) =>
      labelLines style l address ++
        [instructionLine style l (start?.any (· ≤ address)) address i]) ++
    labelLines style l l.stop

def text (style : Style) (l : Listing) : String :=
  String.join ((l.lines style).map (· ++ "\n"))

end WordMachine.Listing
