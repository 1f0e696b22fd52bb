import WordMachine.Word

/-! The flags word. A comparison sets exactly one of its three lowest bits and
keeps all others. -/
namespace WordMachine

structure Flags where
  bits : Word
  deriving DecidableEq, Repr

namespace Flags

def equal (f : Flags) : Bool := f.bits.bit 0

def less (f : Flags) : Bool := f.bits.bit 1

def greater (f : Flags) : Bool := f.bits.bit 2

def interrupt (f : Flags) : Bool := f.bits.bit 3

/-- The flags after a comparison with this outcome. -/
def record (f : Flags) (outcome : Ordering) : Flags :=
  ⟨UInt16.ofNat (f.bits.toNat / 8 * 8 + match outcome with | .eq => 1 | .lt => 2 | .gt => 4)⟩

/-- Names of the flags that are set, from the lowest bit up. -/
def names (f : Flags) : List String :=
  (if f.equal then ["EQ"] else []) ++ (if f.less then ["LT"] else []) ++
    (if f.greater then ["GT"] else []) ++ (if f.interrupt then ["INT"] else [])

def text (f : Flags) : String := "Flags(" ++ "|".intercalate f.names ++ ")"

theorem toNat_record (f : Flags) (outcome : Ordering) :
    (f.record outcome).bits.toNat =
      f.bits.toNat / 8 * 8 + match outcome with | .eq => 1 | .lt => 2 | .gt => 4 := by
  have h := f.bits.toNat_lt
  cases outcome <;> simp only [record, UInt16.toNat_ofNat'] <;> omega

theorem equal_record (f : Flags) (outcome : Ordering) :
    (f.record outcome).equal = (outcome == .eq) := by
  cases outcome <;> simp [equal, Word.bit, toNat_record] <;> omega

theorem less_record (f : Flags) (outcome : Ordering) :
    (f.record outcome).less = (outcome == .lt) := by
  cases outcome <;> simp [less, Word.bit, toNat_record] <;> omega

theorem greater_record (f : Flags) (outcome : Ordering) :
    (f.record outcome).greater = (outcome == .gt) := by
  cases outcome <;> simp [greater, Word.bit, toNat_record] <;> omega

end Flags

end WordMachine
