import WordMachine.Assembly.Link
import WordMachine.Assembly.StaticData

/-! Assemblies: a source compiled section by section and not yet linked. Static
declarations are taken out first. A block of them is a marker line and the lines
after it that begin with a dollar sign, and it does not end a section. -/
namespace WordMachine

/-- Source lines told apart by what they are for. -/
structure Separation where
  declarations : List Line
  code : List Line
  deriving DecidableEq, Repr

namespace Separation

/-- The line that opens a block of declarations, in either letter case. -/
def marker : String := ".STATIC"

def isMarker (line : Line) : Bool := Text.sameLetters line.text marker

def isDeclaration (line : Line) : Bool := line.text.toList.head? == some '$'

/-- Reads lines in order; `inBlock` says whether a block is open, and both lists
found so far are reversed. -/
def read (inBlock : Bool) (declarations code : List Line) : List Line → Separation
  | [] => ⟨declarations.reverse, code.reverse⟩
  | line :: rest =>
    if isMarker line then read true declarations code rest
    else if inBlock && isDeclaration line then read true (line :: declarations) code rest
    else read false declarations (line :: code) rest

def ofLines (lines : List Line) : Separation := read false [] [] lines

end Separation

structure Assembly where
  statics : StaticData
  /-- Compiled sections in link order. -/
  sections : List (Section Chunk)
  deriving DecidableEq, Repr

namespace Assembly

def compileSection (s : Section Line) : Except SyntaxError (Section Chunk) :=
  match s.body.mapM Statement.compileLine with
  | .error e => .error e
  | .ok chunks => .ok ⟨s.name, chunks.flatten⟩

/-- Declarations are checked first, then section names, then statements. -/
def ofSource (source : String) : Except AssemblyError Assembly :=
  let lines := Separation.ofLines (Line.normalize source)
  match lines.declarations.foldlM StaticData.declare StaticData.empty with
  | .error e => .error (.inLine e)
  | .ok statics =>
    match Section.partition lines.code with
    | .error e => .error (.inProgram e)
    | .ok sections =>
      match sections.mapM compileSection with
      | .error e => .error (.inLine e)
      | .ok compiled => .ok ⟨statics, compiled⟩

def link (a : Assembly) : Except LinkError LinkedProgram :=
  LinkedProgram.link a.statics.toBytes a.sections

end Assembly

/-- The bytes of the image a source describes. -/
def assemble (source : String) : Except AssemblyError (List UInt8) :=
  match Assembly.ofSource source with
  | .error e => .error e
  | .ok assembly =>
    match assembly.link with
    | .error e => .error (.inProgram e)
    | .ok program => .ok program.toBytes

end WordMachine
