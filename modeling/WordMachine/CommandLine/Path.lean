import WordMachine.Text.Case

/-! File paths as text, with slashes between components. Slashes and single dots
at the end of a path do not change what it names. The extension of a name is
what follows its last dot, unless nothing stands before that dot. -/
namespace WordMachine.Path

/-- A reversed path without slashes and single dots at its end. -/
def dropTail : List Char → List Char
  | '/' :: rest => dropTail rest
  | '.' :: '/' :: rest => dropTail rest
  | rest => rest

/-- The last component with the text before it; a path that ends in a root, a
single dot or two dots has none. -/
def splitName? (path : List Char) : Option (List Char × List Char) :=
  let rest := dropTail path.reverse
  let name := (rest.takeWhile (· != '/')).reverse
  if name = [] ∨ name = ['.'] ∨ name = ['.', '.'] then none
  else some ((rest.dropWhile (· != '/')).reverse, name)

/-- A name split at its last dot; a dot in front does not count. -/
def splitExtension (name : List Char) : List Char × Option (List Char) :=
  let tail := (name.reverse.takeWhile (· != '.')).reverse
  let stem := (name.reverse.dropWhile (· != '.')).drop 1 |>.reverse
  if stem = [] then (name, none) else (stem, some tail)

def extension? (path : String) : Option String :=
  match splitName? path.toList with
  | none => none
  | some (_, name) => (splitExtension name).2.map String.ofList

/-- The path with another extension. The characters of the old one are taken off
first; what is left stays as it is if it has no name. -/
def withExtension (path extension : String) : String :=
  let kept := match extension? path with
    | some old => path.toList.take (path.length - old.length)
    | none => path.toList
  match splitName? kept with
  | none => String.ofList kept
  | some (before, name) =>
    String.ofList (before ++ (splitExtension name).1) ++ "." ++ extension

/-- Extension of assembly sources. -/
def sourceExtension : String := "vasm"

/-- Extension of program images. -/
def imageExtension : String := "vbin"

/-- The path names an assembly source, in either letter case. -/
def isSource (path : String) : Bool :=
  match extension? path with
  | some e => Text.sameLetters e sourceExtension
  | none => false

example : extension? "dir/a.b.c" = some "c" ∧ extension? ".vasm" = none ∧
    extension? "..vasm" = some "vasm" ∧ extension? "dir.x/" = some "x" := by decide +kernel

example : withExtension "dir.a/" "vbin" = "dir.vbin" ∧ withExtension ".." "vbin" = ".." ∧
    withExtension "..vasm" "vbin" = ".." := by decide +kernel

end WordMachine.Path
