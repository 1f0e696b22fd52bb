/-! Colours of listings, traces and summaries. A palette gives the escape
sequence written before a span of each role and the one that closes it; the
plain palette gives the empty text for all of them, so that plain and coloured
output come from the same renderer. -/
namespace WordMachine

structure Palette where
  /-- Labels and section names. -/
  label : String
  /-- Numbers, memory operands, string literals and good news. -/
  literal : String
  /-- Addresses, comments and annotations. -/
  dim : String
  /-- Refused writes. -/
  alarm : String
  reset : String
  deriving DecidableEq, Repr

namespace Palette

def plain : Palette := ⟨"", "", "", "", ""⟩

def ansi : Palette := ⟨"\x1b[34m", "\x1b[32m", "\x1b[2m", "\x1b[31m", "\x1b[0m"⟩

def ofChoice (coloured : Bool) : Palette := if coloured then ansi else plain

end Palette

end WordMachine
