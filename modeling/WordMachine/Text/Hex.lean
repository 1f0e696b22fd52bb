import WordMachine.Word

/-! Hexadecimal text. Numbers are written in capital digits, padded with zeros
to a least width; `Hex.value?` reads back what `Hex.digits` writes. -/
namespace WordMachine.Hex

/-- The capital digit of a number below sixteen. -/
def digit (n : Nat) : Char := if n < 10 then Char.ofNat (48 + n) else Char.ofNat (55 + n)

/-- The last `width` hexadecimal digits of a number, the most significant first. -/
def digits : (width : Nat) → (n : Nat) → List Char
  | 0, _ => []
  | width + 1, n => digits width (n / 16) ++ [digit (n % 16)]

/-- The value of a digit in either letter case. -/
def digitValue? (c : Char) : Option Nat :=
  if '0' ≤ c ∧ c ≤ '9' then some (c.toNat - 48)
  else if 'A' ≤ c ∧ c ≤ 'F' then some (c.toNat - 55)
  else if 'a' ≤ c ∧ c ≤ 'f' then some (c.toNat - 87)
  else none

/-- Reads digits after a number already read; fails at the first other character. -/
def valueFrom? : (read : Nat) → List Char → Option Nat
  | read, [] => some read
  | read, c :: rest =>
    match digitValue? c with
    | some d => valueFrom? (16 * read + d) rest
    | none => none

/-- The number written by a non-empty run of digits. -/
def value? : List Char → Option Nat
  | [] => none
  | c :: rest => valueFrom? 0 (c :: rest)

/-- A byte as two digits. -/
def byte (b : UInt8) : String := String.ofList (digits 2 b.toNat)

/-- A number as four digits, or as many more as it needs. -/
def address (n : Nat) : String :=
  String.ofList (digits (max 4 (n.log2 / 4 + 1)) n)

/-- A word as it is written in listings and messages, such as `0x00FF`. -/
def word (w : Word) : String := "0x" ++ String.ofList (digits 4 w.toNat)

@[simp] theorem length_digits (width n : Nat) : (digits width n).length = width := by
  induction width generalizing n with
  | zero => rfl
  | succ width ih => simp [digits, ih]

theorem digitValue?_digit {n : Nat} (h : n < 16) : digitValue? (digit n) = some n := by
  have all : ∀ k : Fin 16, digitValue? (digit k) = some k.val := by decide
  exact all ⟨n, h⟩

theorem valueFrom?_append (read : Nat) (cs ds : List Char) :
    valueFrom? read (cs ++ ds) = (valueFrom? read cs).bind (valueFrom? · ds) := by
  induction cs generalizing read with
  | nil => rfl
  | cons c rest ih =>
    simp only [List.cons_append, valueFrom?]
    cases digitValue? c with
    | none => rfl
    | some d => exact ih _

end WordMachine.Hex
