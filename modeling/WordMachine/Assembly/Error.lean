import WordMachine.Assembly.Line
import WordMachine.Instruction.Register

/-! What can be wrong with a source. A fault of a single line is reported with
that line; faults of linking concern the program as a whole. -/
namespace WordMachine

inductive SyntaxFault where
  | unrecognizedToken (text : String)
  | expectedMnemonic (found : String)
  | unknownMnemonic (text : String)
  | unknownRegister (text : String)
  | unexpectedLabel (text : String)
  | invalidOperands (mnemonic operands : String)
  | aliasedOperand (register : Register)
  | malformedStatic
  | unsupportedStatic (value : String)
  | duplicateStatic (identifier : String)
  | staticTooLong (length : Nat)
  | nonAsciiStatic
  deriving DecidableEq, Repr

def SyntaxFault.message : SyntaxFault → String
  | unrecognizedToken text => "unrecognized token `" ++ text ++ "`"
  | expectedMnemonic found => "expected a mnemonic, found `" ++ found ++ "`"
  | unknownMnemonic text => "unknown mnemonic `" ++ text ++ "`"
  | unknownRegister text => "unknown register `" ++ text ++ "`"
  | unexpectedLabel text => "label `" ++ text ++ "` cannot be used as an operand"
  | invalidOperands mnemonic operands =>
    "invalid operands for " ++ mnemonic ++ ": `" ++ operands ++ "`"
  | aliasedOperand register =>
    "destination " ++ register.name ++ " is also the right operand of a non-commutative operation"
  | malformedStatic => "malformed static declaration, expected `$identifier: \"text\"`"
  | unsupportedStatic value =>
    "unsupported static data `" ++ value ++ "`, only string literals are supported"
  | duplicateStatic identifier =>
    "static identifier `" ++ identifier ++ "` is already declared"
  | staticTooLong length => "static string is " ++ length.repr ++ " bytes long, the limit is 255"
  | nonAsciiStatic => "static string contains non-ASCII characters"

structure SyntaxError where
  line : Line
  fault : SyntaxFault
  deriving DecidableEq, Repr

def SyntaxError.message (e : SyntaxError) : String :=
  "syntax error on line " ++ e.line.number.repr ++ ": " ++ e.fault.message ++ " (in `" ++
    e.line.text ++ "`)"

inductive LinkError where
  | duplicateSection (name : String)
  | undefinedLabel (label : String)
  | staticSegmentTooLarge (size : Nat)
  | programTooLarge (size : Nat)
  /-- A placeholder that does not lie within the bytes it belongs to. -/
  | misplacedRelocation (label : String) (offset : Nat)
  deriving DecidableEq, Repr

def LinkError.message : LinkError → String
  | duplicateSection name => "duplicate section `" ++ name ++ "`"
  | undefinedLabel label => "undefined label `" ++ label ++ "`"
  | staticSegmentTooLarge size =>
    "static segment of " ++ size.repr ++ " bytes exceeds the 16-bit address space"
  | programTooLarge size =>
    "program of " ++ size.repr ++ " bytes exceeds the 16-bit address space"
  | misplacedRelocation label offset =>
    "relocation of `" ++ label ++ "` at offset " ++ offset.repr ++ " is misplaced"

inductive AssemblyError where
  | inLine (error : SyntaxError)
  | inProgram (error : LinkError)
  deriving DecidableEq, Repr

def AssemblyError.message : AssemblyError → String
  | inLine error => error.message
  | inProgram error => error.message

end WordMachine
