import WordMachine.Assembly.Error
import WordMachine.Assembly.Token

/-! Sections. A line that holds nothing but a label opens a section, and the
lines up to the next label are its body. Lines before the first label form the
section `_START`, which is linked first wherever it is declared. -/
namespace WordMachine

structure Section (α : Type) where
  name : String
  body : List α
  deriving DecidableEq, Repr

namespace Section

/-- The name of the section that is linked first. -/
def startName : String := "_START"

/-- The name declared by a label line, in capital letters. -/
def labelName? (text : String) : Option String :=
  match Token.lex (Text.upper text) with
  | [t] =>
    if t.kind = .label then
      some (String.ofList ((t.text.toList.dropWhile (· == '.')).takeWhile (· != ':')))
    else none
  | _ => none

/-- The lines before the first label, and the section of every label. -/
def gather (lines : List Line) : List Line × List (Section Line) :=
  lines.foldr
    (fun line (lead, sections) =>
      match labelName? line.text with
      | some name => ([], ⟨name, lead⟩ :: sections)
      | none => (line :: lead, sections))
    ([], [])

/-- All sections in the order of the source. -/
def inOrder (lines : List Line) : List (Section Line) :=
  let (lead, sections) := gather lines
  if lead.isEmpty then sections else ⟨startName, lead⟩ :: sections

/-- The first name that has occurred before. -/
def firstRepeat? (seen : List String) : List String → Option String
  | [] => none
  | name :: rest => if name ∈ seen then some name else firstRepeat? (name :: seen) rest

/-- Moves the section `_START` to the front. -/
def startFirst {α : Type} (sections : List (Section α)) : List (Section α) :=
  let (start, others) := sections.partition (·.name == startName)
  start ++ others

/-- The sections of a source in link order. -/
def partition (lines : List Line) : Except LinkError (List (Section Line)) :=
  let sections := inOrder lines
  match firstRepeat? [] (sections.map Section.name) with
  | some name => .error (.duplicateSection name)
  | none => .ok (startFirst sections)

/-- Adds a section at the end, or gives the section of that name a new body. -/
def put {α : Type} (new : Section α) : List (Section α) → List (Section α)
  | [] => [new]
  | old :: rest => if old.name = new.name then new :: rest else old :: put new rest

end Section

end WordMachine
