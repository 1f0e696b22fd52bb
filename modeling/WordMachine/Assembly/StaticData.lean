import WordMachine.Assembly.Error
import WordMachine.Text.Case

/-! Static data: named string literals, each stored as a length byte and its
bytes. Items lie in the order of their names, so the order in which they are
declared does not matter. -/
namespace WordMachine

structure StaticData where
  /-- Names with their bytes, in increasing order of names. -/
  entries : List (String × List UInt8)
  deriving DecidableEq, Repr

/-- An item with the offset of its length byte. -/
structure StaticItem where
  identifier : String
  bytes : List UInt8
  offset : Nat
  deriving DecidableEq, Repr

namespace StaticData

def empty : StaticData := ⟨[]⟩

def maxLength : Nat := 255

def isEmpty (d : StaticData) : Bool := d.entries.isEmpty

def contains (d : StaticData) (identifier : String) : Bool :=
  d.entries.any (·.1 == identifier)

/-- Puts an entry before the first one with a greater name. -/
def insertEntry (entry : String × List UInt8) :
    List (String × List UInt8) → List (String × List UInt8)
  | [] => [entry]
  | first :: rest =>
    if entry.1 < first.1 then entry :: first :: rest else first :: insertEntry entry rest

/-- Adds an item unless its name is taken. -/
def insert? (d : StaticData) (identifier : String) (bytes : List UInt8) : Option StaticData :=
  if d.contains identifier then none else some ⟨insertEntry (identifier, bytes) d.entries⟩

/-- A letter or underscore, then letters, digits and underscores. -/
def isIdentifier : List Char → Bool
  | [] => false
  | c :: rest => (c.isAlpha || c == '_') && rest.all fun d => d.isAlphanum || d == '_'

/-- The text between double quotes. -/
def literal? : List Char → Option (List Char)
  | '"' :: rest => if rest.getLast? = some '"' then some rest.dropLast else none
  | _ => none

/-- Reads a declaration such as `$name: "text"`. -/
def readDeclaration (text : String) : Except SyntaxFault (String × List UInt8) :=
  match text.toList with
  | '$' :: rest =>
    let identifier := Text.trim (rest.takeWhile (· != ':'))
    let afterName := rest.dropWhile (· != ':')
    if afterName.isEmpty ∨ isIdentifier identifier = false then .error .malformedStatic
    else
      let value := Text.trim (afterName.drop 1)
      match literal? value with
      | none => .error (.unsupportedStatic (String.ofList value))
      | some literal =>
        if literal.any (fun c => 128 ≤ c.toNat) then .error .nonAsciiStatic
        else if maxLength < literal.length then .error (.staticTooLong literal.length)
        else .ok (Text.upper (String.ofList identifier), literal.map fun c => UInt8.ofNat c.toNat)
  | _ => .error .malformedStatic

/-- Adds the item declared by a line. -/
def declare (d : StaticData) (line : Line) : Except SyntaxError StaticData :=
  match readDeclaration line.text with
  | .error fault => .error ⟨line, fault⟩
  | .ok (identifier, bytes) =>
    match d.insert? identifier bytes with
    | some more => .ok more
    | none => .error ⟨line, .duplicateStatic identifier⟩

def place (offset : Nat) : List (String × List UInt8) → List StaticItem
  | [] => []
  | (identifier, bytes) :: rest =>
    ⟨identifier, bytes, offset⟩ :: place (offset + (1 + bytes.length)) rest

def items (d : StaticData) : List StaticItem := place 0 d.entries

/-- The offset of an item, named in either letter case. -/
def offsetOf? (d : StaticData) (identifier : String) : Option Nat :=
  (d.items.find? fun item => Text.sameLetters item.identifier identifier).map StaticItem.offset

def encodedLength (d : StaticData) : Nat :=
  (d.entries.map fun e => 1 + e.2.length).foldr (· + ·) 0

/-- The length byte holds the last eight bits of the length. -/
def toBytes (d : StaticData) : List UInt8 :=
  d.entries.flatMap fun e => UInt8.ofNat e.2.length :: e.2

end StaticData

end WordMachine
