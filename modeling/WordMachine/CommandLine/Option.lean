/-! Options of a command and how they are read. A command takes one path and a
fixed set of options. The value of an option is checked when the next option or
path begins, so an argument nobody knows is reported before a bad value right in
front of it. Except for options that are counted, none may be given twice. -/
namespace WordMachine.CommandLine

inductive UsageError where
  /-- A value that is missing, empty or not among those allowed. -/
  | invalidValue
  /-- A value that is not a number. -/
  | valueValidation
  | unknownArgument
  | invalidSubcommand
  /-- An option given twice. -/
  | argumentConflict
  | missingRequiredArgument
  /-- A value given to an option that takes none. -/
  | tooManyValues
  /-- Not an error: help was asked for. -/
  | help
  /-- No command was given. -/
  | missingCommand
  deriving DecidableEq, Repr

/-- What an option does with its value. -/
inductive OptionKind where
  /-- Is given or not. -/
  | flag
  /-- Counts how often it is given. -/
  | count
  | path
  | number
  | choice (allowed : List String)
  | help
  deriving DecidableEq, Repr

def OptionKind.takesValue : OptionKind → Bool
  | flag | count | help => false
  | path | number | choice _ => true

structure OptionSpec where
  /-- Name after two dashes, if it has one. -/
  long : String
  /-- Letter after one dash, if it has one. -/
  short : Option Char
  kind : OptionKind
  deriving DecidableEq, Repr

/-- Values read so far. -/
structure Reading where
  /-- Options with their checked values; flags have the empty text. -/
  given : List (OptionSpec × String)
  /-- The option, or the path, whose value has not been checked yet. -/
  pending : Option (OptionSpec × Option String)
  /-- A path has been given. -/
  placed : Bool
  /-- Two dashes have been given: all that follows are paths. -/
  escaped : Bool
  deriving DecidableEq, Repr

namespace OptionSpec

/-- The one path of a command. -/
def operand : OptionSpec := ⟨"", none, .path⟩

def helpOption : OptionSpec := ⟨"help", some 'h', .help⟩

end OptionSpec

/-- Decimal digits after at most one plus sign, below `2 ^ 64`. -/
def number? (text : String) : Option Nat :=
  let digits := match text.toList with
    | '+' :: rest => rest
    | cs => cs
  if digits.isEmpty ∨ digits.any (fun c => !c.isDigit) = true then none
  else
    let n := digits.foldl (fun n c => 10 * n + (c.toNat - 48)) 0
    if n < 0x10000000000000000 then some n else none

namespace Reading

def start : Reading := ⟨[], none, false, false⟩

def has (r : Reading) (o : OptionSpec) : Bool := r.given.any (·.1 == o)

def checkValue (kind : OptionKind) (value : String) : Except UsageError Unit :=
  match kind with
  | .number => if (number? value).isSome then .ok () else .error .valueValidation
  | .choice allowed => if value ∈ allowed then .ok () else .error .invalidValue
  | .path => if value.isEmpty then .error .invalidValue else .ok ()
  | .flag | .count | .help => .ok ()

/-- Takes an option with its value. -/
def accept (r : Reading) (o : OptionSpec) (value : String) : Except UsageError Reading :=
  if r.has o && o.kind != .count then .error .argumentConflict
  else match checkValue o.kind value with
    | .error e => .error e
    | .ok _ => .ok { r with given := r.given ++ [(o, value)] }

/-- Checks the value that is still open. -/
def resolve (r : Reading) : Except UsageError Reading :=
  match r.pending with
  | none => .ok r
  | some (_, none) => .error .invalidValue
  | some (o, some value) => { r with pending := none }.accept o value

/-- Takes an option that is given without a value. -/
def note (r : Reading) (o : OptionSpec) : Except UsageError Reading := do
  let r ← r.resolve
  if o.kind = .help then throw .help
  else r.accept o ""

/-- Opens an option whose value is the next argument. -/
def await (r : Reading) (o : OptionSpec) : Except UsageError Reading := do
  let r ← r.resolve
  return { r with pending := some (o, none) }

/-- Takes an option whose value is attached to it. -/
def attach (r : Reading) (o : OptionSpec) (value : List Char) : Except UsageError Reading := do
  let r ← r.resolve
  r.accept o (String.ofList value)

/-- Reads an argument after its two dashes. -/
def readLong (options : List OptionSpec) (r : Reading) (text : List Char) :
    Except UsageError Reading :=
  let name := String.ofList (text.takeWhile (· != '='))
  let value? := (text.dropWhile (· != '=')).tail?
  match options.find? (fun o => !o.long.isEmpty && o.long == name) with
  | none => .error .unknownArgument
  | some o =>
    match value? with
    | none => if o.kind.takesValue then r.await o else r.note o
    | some value => if o.kind.takesValue then r.attach o value else .error .tooManyValues

/-- Reads letters after a single dash; a value may follow the last of them. -/
def readShort (options : List OptionSpec) (r : Reading) : List Char → Except UsageError Reading
  | [] => .ok r
  | c :: rest =>
    match options.find? (·.short == some c) with
    | none => .error .unknownArgument
    | some o =>
      if o.kind.takesValue then
        match rest with
        | [] => r.await o
        | '=' :: value => r.attach o value
        | value => r.attach o value
      else
        match r.note o with
        | .error e => .error e
        | .ok r => readShort options r rest

/-- Reads an argument that is no option. -/
def readOperand (r : Reading) (text : String) : Except UsageError Reading :=
  if r.placed then .error .unknownArgument
  else do
    let r ← r.resolve
    return { r with pending := some (.operand, some text), placed := true }

def readArgument (options : List OptionSpec) (r : Reading) (text : String) :
    Except UsageError Reading :=
  if r.escaped then r.readOperand text
  else match text.toList with
    | ['-', '-'] => .ok { r with escaped := true }
    | '-' :: '-' :: rest => r.readLong options rest
    | '-' :: c :: rest => r.readShort options (c :: rest)
    | _ =>
      match r.pending with
      | some (o, none) => .ok { r with pending := some (o, some text) }
      | _ => r.readOperand text

def readAll (options : List OptionSpec) (arguments : List String) : Except UsageError Reading := do
  let r ← arguments.foldlM (readArgument (.helpOption :: options)) start
  let r ← r.resolve
  if r.has .operand then return r else throw .missingRequiredArgument

/-- The value of an option that was given. -/
def value? (r : Reading) (o : OptionSpec) : Option String :=
  (r.given.find? (·.1 == o)).map Prod.snd

def path (r : Reading) : String := (r.value? .operand).getD ""

def countOf (r : Reading) (o : OptionSpec) : Nat := (r.given.filter (·.1 == o)).length

end Reading

end WordMachine.CommandLine
