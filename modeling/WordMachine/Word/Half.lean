import WordMachine.Word

/-! Half floats: the sixteen-bit binary format with five exponent bits and ten
fraction bits. The definitions stand for the arithmetic of the `half` library,
which the machine is specified to compute with: exact IEEE 754 binary16. Every
finite half is a whole number of units of `2 ^ -24`, so sums are exact integers
and products and quotients exact fractions. The result of an operation is that
exact number rounded once, to the nearest half and on a tie to the even one.

Only the bits of a result that is not a number are not that library's. Its sign
and payload are left out: every such result is the one word `notANumber`. -/
namespace WordMachine.Half

/-- What a half stands for; a magnitude counts units of `2 ^ -24`. -/
inductive Value where
  | finite (negative : Bool) (magnitude : Nat)
  | infinite (negative : Bool)
  | notANumber
  deriving DecidableEq, Repr

def notANumber : Word := 0x7E00

def value (w : Word) : Value :=
  let negative := w.bit 15
  let exponent := w.toNat / 1024 % 32
  let fraction := w.toNat % 1024
  if exponent = 31 then
    if fraction = 0 then .infinite negative else .notANumber
  else if exponent = 0 then .finite negative fraction
  else .finite negative ((1024 + fraction) <<< (exponent - 1))

/-- The whole number nearest to a fraction, the even one on a tie. -/
def roundDiv (num den : Nat) : Nat :=
  let whole := num / den
  let rest := num % den
  if 2 * rest < den ∨ 2 * rest = den ∧ whole % 2 = 0 then whole else whole + 1

/-- Exponent and fraction bits of the half nearest to `num / den` units. The
exponent field sits above the fraction, so a fraction that rounds up to the next
power of two carries into it, and past the largest half into infinity. -/
def magnitudeBits (num den : Nat) : Nat :=
  let shift := (num / den).log2 - 10
  min (shift * 1024 + roundDiv num (den <<< shift)) 0x7C00

def pack (negative : Bool) (bits : Nat) : Word :=
  UInt16.ofNat (bits + if negative then 0x8000 else 0)

def zero (negative : Bool) : Word := pack negative 0

def infinity (negative : Bool) : Word := pack negative 0x7C00

def signed (negative : Bool) (magnitude : Nat) : Int :=
  if negative then -(magnitude : Int) else magnitude

/-- A sum that is exactly zero is negative only if both terms are. -/
def addFinite (s : Bool) (m : Nat) (t : Bool) (n : Nat) : Word :=
  let sum := signed s m + signed t n
  pack (if sum = 0 then s && t else decide (sum < 0)) (magnitudeBits sum.natAbs 1)

def addValue : Value → Value → Word
  | .finite s m, .finite t n => addFinite s m t n
  | .infinite s, .infinite t => if s = t then infinity s else notANumber
  | .infinite s, .finite _ _ => infinity s
  | .finite _ _, .infinite t => infinity t
  | .notANumber, _ => notANumber
  | _, .notANumber => notANumber

def mulValue : Value → Value → Word
  | .finite s m, .finite t n => pack (s != t) (magnitudeBits (m * n) 0x1000000)
  | .infinite s, .infinite t => infinity (s != t)
  | .infinite s, .finite t n => if n = 0 then notANumber else infinity (s != t)
  | .finite s m, .infinite t => if m = 0 then notANumber else infinity (s != t)
  | .notANumber, _ => notANumber
  | _, .notANumber => notANumber

def divValue : Value → Value → Word
  | .finite s m, .finite t n =>
    if n = 0 then
      if m = 0 then notANumber else infinity (s != t)
    else pack (s != t) (magnitudeBits (m * 0x1000000) n)
  | .infinite _, .infinite _ => notANumber
  | .infinite s, .finite t _ => infinity (s != t)
  | .finite s _, .infinite t => zero (s != t)
  | .notANumber, _ => notANumber
  | _, .notANumber => notANumber

def negate (w : Word) : Word := w ^^^ 0x8000

def add (a b : Word) : Word := addValue (value a) (value b)

def sub (a b : Word) : Word := add a (negate b)

def mul (a b : Word) : Word := mulValue (value a) (value b)

def div (a b : Word) : Word := divValue (value a) (value b)

/-- The half nearest to a 32-bit float given by its bits. -/
def ofSingle (bits : UInt32) : Word :=
  let negative := bits.toNat / 0x80000000 % 2 == 1
  let exponent := bits.toNat / 0x800000 % 256
  let fraction := bits.toNat % 0x800000
  if exponent = 255 then
    if fraction = 0 then infinity negative else notANumber
  else if exponent = 0 then pack negative (magnitudeBits fraction (1 <<< 125))
  else pack negative (magnitudeBits ((0x800000 + fraction) <<< (exponent - 1)) (1 <<< 125))

/-- The bits of the 32-bit float equal to a half. -/
def toSingle (w : Word) : UInt32 :=
  let sign (negative : Bool) : Nat := if negative then 0x80000000 else 0
  match value w with
  | .notANumber => 0x7FC00000
  | .infinite negative => UInt32.ofNat (sign negative + 255 * 0x800000)
  | .finite negative 0 => UInt32.ofNat (sign negative)
  | .finite negative m =>
    let top := m.log2
    UInt32.ofNat (sign negative + (top + 103) * 0x800000 + ((m * 0x800000) >>> top - 0x800000))

/-- The bits of a half are those of its magnitude, whether subnormal or not. -/
example : value 0x0001 = .finite false 1 ∧ value 0x3C00 = .finite false 0x1000000 := by decide

example : add 0x3C00 0x3C00 = 0x4000 ∧ div 0x3C00 0x4200 = 0x3555 ∧ sub 0x3C00 0x3C00 = 0 := by
  decide +kernel

theorem addFinite_comm (s : Bool) (m : Nat) (t : Bool) (n : Nat) :
    addFinite s m t n = addFinite t n s m := by
  simp only [addFinite, Int.add_comm (signed s m), Bool.and_comm s]

theorem add_comm (a b : Word) : add a b = add b a := by
  unfold add
  cases value a <;> cases value b <;> simp only [addValue, addFinite_comm]
  grind

theorem mul_comm (a b : Word) : mul a b = mul b a := by
  unfold mul
  cases value a <;> cases value b <;> simp only [mulValue, Nat.mul_comm, bne_comm]

end WordMachine.Half
