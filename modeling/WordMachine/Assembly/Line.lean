import WordMachine.Text.Blank

/-! Source lines. Comments and blanks around a line are dropped, then lines with
nothing left; the rest keep the number they have in the source. A comment starts
at two slashes with an even number of double quotes before them on the line. -/
namespace WordMachine

structure Line where
  /-- Counted from one. -/
  number : Nat
  text : String
  deriving DecidableEq, Repr

namespace Line

/-- The pieces between line feeds; there is always at least one. -/
def split (source : List Char) : List (List Char) :=
  source.foldr
    (fun c lines =>
      if c = '\n' then [] :: lines
      else match lines with
        | [] => [[c]]
        | line :: rest => (c :: line) :: rest)
    [[]]

/-- The part of a line before its comment; `quoted` says whether a string
literal is open. -/
def uncommented : (quoted : Bool) → List Char → List Char
  | _, [] => []
  | quoted, c :: rest =>
    if c = '/' ∧ quoted = false ∧ rest.head? = some '/' then []
    else c :: uncommented (quoted != (c == '"')) rest

/-- What counts of a line. -/
def content (raw : List Char) : List Char := Text.trim (uncommented false raw)

def normalize (source : String) : List Line :=
  ((split source.toList).zipIdx 1).filterMap fun (raw, number) =>
    let text := content raw
    if text.isEmpty then none else some ⟨number, String.ofList text⟩

end Line

end WordMachine
