import WordMachine.Word.Half

/-! The four arithmetic operations on words, under each of the three readings.
Whole-number results keep their last sixteen bits. Only a whole-number division
by zero has no result. -/
namespace WordMachine

inductive NumericView where
  | unsigned | signed | half
  deriving DecidableEq, Repr

inductive ArithOp where
  | add | sub | mul | div
  deriving DecidableEq, Repr

namespace Word

/-- Quotients of signed numbers are cut off toward zero. -/
def arith (op : ArithOp) (view : NumericView) (a b : Word) : Option Word :=
  match view, op with
  | .unsigned, .add | .signed, .add => some (a + b)
  | .unsigned, .sub | .signed, .sub => some (a - b)
  | .unsigned, .mul | .signed, .mul => some (a * b)
  | .unsigned, .div => if b = 0 then none else some (a / b)
  | .signed, .div => if b = 0 then none else some (a.toInt16 / b.toInt16).toUInt16
  | .half, .add => some (Half.add a b)
  | .half, .sub => some (Half.sub a b)
  | .half, .mul => some (Half.mul a b)
  | .half, .div => some (Half.div a b)

theorem arith_eq_none_iff {op : ArithOp} {view : NumericView} {a b : Word} :
    arith op view a b = none ↔ op = .div ∧ view ≠ .half ∧ b = 0 := by
  cases op <;> cases view <;> simp [arith]

example : arith .div .signed 0x8000 0xFFFF = some 0x8000 := by decide

example : arith .div .signed 0xFFF9 2 = some 0xFFFD := by decide

end Word

end WordMachine
