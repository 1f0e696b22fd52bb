/-! Letter case. Only the English letters have two cases here; every other
character is left as it is and differs from all others. -/
namespace WordMachine.Text

def upper (s : String) : String := String.ofList (s.toList.map Char.toUpper)

/-- Equality up to the case of letters. -/
def sameLetters (s t : String) : Bool := upper s == upper t

@[simp] theorem toList_upper (s : String) : (upper s).toList = s.toList.map Char.toUpper := by
  simp [upper]

theorem sameLetters_iff {s t : String} : sameLetters s t = true ↔ upper s = upper t := by
  simp [sameLetters]

end WordMachine.Text
