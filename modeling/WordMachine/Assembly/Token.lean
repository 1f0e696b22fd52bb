import WordMachine.Text.Hex

/-! Tokens of a line of capital letters. A line is cut into pieces, each the
longest that fits a pattern at its place; where none fits, the piece is garbage
and reaches as far as some pattern could still have matched. Adjacent garbage
is one token, separators are none. -/
namespace WordMachine

inductive TokenKind where
  /-- A name followed by a colon, perhaps after a dot. -/
  | label
  /-- `0X` and one to four hexadecimal digits. -/
  | immediate
  /-- `$0X` and one to four hexadecimal digits. -/
  | memory
  /-- `$`, a letter, then letters and digits. -/
  | register
  /-- A name: a mnemonic or a reference to a label. -/
  | ident
  /-- Blanks, tabs and commas. -/
  | separator
  | garbage
  deriving DecidableEq, Repr

/-- A part of a line with its text. -/
structure Piece where
  kind : TokenKind
  text : List Char
  deriving DecidableEq, Repr

/-- A piece with its place in the line, counted in bytes of UTF-8. -/
structure Token where
  kind : TokenKind
  start : Nat
  text : String
  deriving DecidableEq, Repr

namespace Token

def isLetter (c : Char) : Bool := 'A' ≤ c && c ≤ 'Z'

def isDigit (c : Char) : Bool := '0' ≤ c && c ≤ '9'

def isHexDigit (c : Char) : Bool := isDigit c || ('A' ≤ c && c ≤ 'F')

def isNameStart (c : Char) : Bool := isLetter c || c == '_'

def isNamePart (c : Char) : Bool := isNameStart c || isDigit c

def isRegisterPart (c : Char) : Bool := isLetter c || isDigit c

def isSeparator (c : Char) : Bool := c == ' ' || c == '\t' || c == ','

/-- Kind and length of what follows the `0` of a number. -/
def afterZero (kind : TokenKind) : List Char → TokenKind × Nat
  | 'X' :: rest =>
    let digits := ((rest.take 4).takeWhile isHexDigit).length
    if digits = 0 then (.garbage, 1) else (kind, digits + 1)
  | _ => (.garbage, 0)

/-- Kind and length of what follows the first character of a name. -/
def afterNameStart (rest : List Char) : TokenKind × Nat :=
  let n := (rest.takeWhile isNamePart).length
  if rest[n]? = some ':' then (.label, n + 1) else (.ident, n)

/-- Kind and length of what follows a dot: only a label may begin with one. -/
def afterDot : List Char → TokenKind × Nat
  | [] => (.garbage, 0)
  | c :: rest =>
    if isNameStart c then
      match afterNameStart rest with
      | (.label, n) => (.label, n + 1)
      | (_, n) => (.garbage, n + 1)
    else (.garbage, 0)

/-- Kind and length of what follows a dollar sign. -/
def afterDollar : List Char → TokenKind × Nat
  | [] => (.garbage, 0)
  | c :: rest =>
    if c = '0' then
      let (kind, n) := afterZero .memory rest
      (kind, n + 1)
    else if isLetter c then (.register, (rest.takeWhile isRegisterPart).length + 1)
    else (.garbage, 0)

/-- The kind of the piece that begins with `c`, and how many of the characters
after `c` belong to it. -/
def pieceAt (c : Char) (rest : List Char) : TokenKind × Nat :=
  if isSeparator c then (.separator, (rest.takeWhile isSeparator).length)
  else if isNameStart c then afterNameStart rest
  else if c = '.' then afterDot rest
  else if c = '0' then afterZero .immediate rest
  else if c = '$' then afterDollar rest
  else (.garbage, 0)

def pieces : List Char → List Piece
  | [] => []
  | c :: rest =>
    let found := pieceAt c rest
    ⟨found.1, c :: rest.take found.2⟩ :: pieces (rest.drop found.2)
termination_by line => line.length
decreasing_by simp only [List.length_drop, List.length_cons]; omega

/-- Joins garbage to the garbage after it. -/
def joinGarbage (ps : List Piece) : List Piece :=
  ps.foldr
    (fun p joined =>
      match joined with
      | q :: rest =>
        if p.kind = .garbage ∧ q.kind = .garbage then ⟨.garbage, p.text ++ q.text⟩ :: rest
        else p :: q :: rest
      | [] => [p])
    []

/-- Places pieces one after the other and drops the separators. -/
def place (start : Nat) : List Piece → List Token
  | [] => []
  | p :: rest =>
    let text := String.ofList p.text
    let later := place (start + text.utf8ByteSize) rest
    if p.kind = .separator then later else ⟨p.kind, start, text⟩ :: later

def lex (line : String) : List Token := place 0 (joinGarbage (pieces line.toList))

/-- The byte after the token. -/
def stop (t : Token) : Nat := t.start + t.text.utf8ByteSize

/-- The word written by a number, whatever dollar signs stand before it. A plus
sign may stand before the digits. -/
def hexValue? (text : String) : Option Word :=
  match text.toList.dropWhile (· == '$') with
  | '0' :: x :: rest =>
    if x = 'X' ∨ x = 'x' then
      let digits := match rest with
        | '+' :: rest => rest
        | rest => rest
      match Hex.value? digits with
      | some n => if n < 0x10000 then some (UInt16.ofNat n) else none
      | none => none
    else none
  | _ => none

/-- The pieces of a line make up the whole line. -/
theorem flatMap_text_pieces (line : List Char) : (pieces line).flatMap Piece.text = line := by
  fun_induction pieces line with
  | case1 => rfl
  | case2 c rest found ih =>
    simp only [List.flatMap_cons, ih, List.cons_append, List.take_append_drop]

end Token

end WordMachine
