import Mathlib.Algebra.Group.Nat.Defs
import WordMachine.Assembly.Token
import WordMachine.Proofs.Assembly.Line
import WordMachine.Proofs.Text.Case

/-! Hexadecimal digits. What is written in them is read back as the same number.
As characters they are capital letters and figures, none of which ends a word,
and they have the order of their values. Digits that are read may be written in
either letter case. -/
namespace WordMachine.Hex

theorem valueFrom?_digits (read width n : Nat) (h : n < 16 ^ width) :
    valueFrom? read (digits width n) = some (read * 16 ^ width + n) := by
  induction width generalizing n with
  | zero => simp [digits, valueFrom?] at h ⊢; omega
  | succ width ih =>
    have hq : n / 16 < 16 ^ width := by
      rw [Nat.pow_succ] at h; exact Nat.div_lt_of_lt_mul (by omega)
    have hd := digitValue?_digit (Nat.mod_lt n (by decide : 16 > 0))
    rw [digits, valueFrom?_append, ih _ hq]
    simp only [Option.bind_some, valueFrom?, hd, Nat.pow_succ]
    congr 1
    have := Nat.div_add_mod n 16
    rw [Nat.mul_add, ← Nat.mul_assoc, Nat.mul_comm 16 read, ← Nat.mul_assoc]
    grind

/-- Reading four digits of a word gives the word. -/
theorem value?_digits_word (w : Word) : value? (digits 4 w.toNat) = some w.toNat := by
  have h : w.toNat < 16 ^ 4 := w.toNat_lt
  have hne : digits 4 w.toNat ≠ [] := by
    intro e
    have := length_digits 4 w.toNat
    simp [e] at this
  cases hd : digits 4 w.toNat with
  | nil => exact absurd hd hne
  | cons c rest =>
    simp only [value?]
    rw [← hd, valueFrom?_digits 0 4 _ h]
    simp

/-- Up to four digits, in either letter case, that write a word. -/
structure Writes (ds : List Char) (w : Word) : Prop where
  short : ds.length ≤ 4
  value : value? ds = some w.toNat

theorem writes_digits (w : Word) : Writes (digits 4 w.toNat) w :=
  ⟨Nat.le_of_eq (length_digits 4 _), value?_digits_word w⟩

/-- The letter case of digits does not matter. -/
theorem value?_upper (ds : List Char) : value? (ds.map Char.toUpper) = value? ds := by
  have digit : ∀ c : Char, digitValue? c.toUpper = digitValue? c :=
    Text.toUpper_invariant (by decide)
  have more : ∀ read, valueFrom? read (ds.map Char.toUpper) = valueFrom? read ds := by
    induction ds with
    | nil => exact fun _ => rfl
    | cons c rest ih =>
      intro read
      simp only [List.map_cons, valueFrom?, digit, ih]
  cases ds with
  | nil => rfl
  | cons c rest => exact more 0

/-- Only digits have a value. -/
theorem digits_of_valueFrom? {read n : Nat} {ds : List Char} (h : valueFrom? read ds = some n) :
    ∀ c ∈ ds, (digitValue? c).isSome = true := by
  induction ds generalizing read with
  | nil => exact List.forall_mem_nil _
  | cons c rest ih =>
    rw [valueFrom?] at h
    split at h
    · next d found =>
      refine List.forall_mem_cons.mpr ⟨?_, ih h⟩
      rw [found, Option.isSome_some]
    · cases h

theorem Writes.digits {ds : List Char} {w : Word} (writes : Writes ds w) :
    ds ≠ [] ∧ ∀ c ∈ ds, (digitValue? c).isSome = true := by
  have value := writes.value
  cases ds with
  | nil => cases value
  | cons c rest => exact ⟨List.cons_ne_nil c rest, digits_of_valueFrom? value⟩

theorem mem_digits {width n : Nat} {c : Char} (h : c ∈ digits width n) : ∃ k < 16, c = digit k := by
  induction width generalizing n with
  | zero => cases h
  | succ width ih =>
    rw [digits] at h
    rcases List.mem_append.mp h with more | last
    · exact ih more
    · exact ⟨n % 16, Nat.mod_lt n (by decide), List.mem_singleton.mp last⟩

theorem digit_of_mem {width n : Nat} {c : Char} (h : c ∈ digits width n) :
    (Token.isHexDigit c = true ∧ c.toUpper = c) ∧ (c.isAlphanum = true ∧ c ≠ ':') ∧
      Line.Solid c := by
  have each : ∀ k < 16, (Token.isHexDigit (digit k) = true ∧ (digit k).toUpper = digit k) ∧
      ((digit k).isAlphanum = true ∧ digit k ≠ ':') ∧ Line.Solid (digit k) := by
    decide
  obtain ⟨k, hk, rfl⟩ := mem_digits h
  exact each k hk

theorem digits_upper (width n : Nat) :
    (digits width n).all Token.isHexDigit = true ∧
      (digits width n).map Char.toUpper = digits width n := by
  constructor
  · exact List.all_eq_true.mpr fun c hc => (digit_of_mem hc).1.1
  · have same : ∀ c ∈ digits width n, c.toUpper = c := by
      intro c hc
      exact (digit_of_mem hc).1.2
    rw [List.map_congr_left same, List.map_id']

theorem append_lt_append {xs ys : List Char} (less : xs < ys) (even : xs.length = ys.length)
    (zs ws : List Char) : xs ++ zs < ys ++ ws := by
  induction xs generalizing ys with
  | nil =>
    rw [List.length_eq_zero_iff.mp even.symm] at less
    exact absurd less (List.lt_irrefl _)
  | cons x xs ih =>
    cases ys with
    | nil => cases even
    | cons y ys =>
      rw [List.cons_append, List.cons_append, List.cons_lt_cons_iff]
      rcases List.cons_lt_cons_iff.mp less with smaller | ⟨same, less⟩
      · exact Or.inl smaller
      · exact Or.inr ⟨same, ih less (Nat.succ.inj even)⟩

/-- Digits of one width are ordered as their numbers. -/
theorem digits_lt {width a b : Nat} (less : a < b) (fits : b < 16 ^ width) :
    digits width a < digits width b := by
  have digit_lt : ∀ j < 16, ∀ k < 16, j < k → digit j < digit k := by decide
  induction width generalizing a b with
  | zero => omega
  | succ width ih =>
    rw [Nat.pow_succ] at fits
    rw [digits, digits]
    rcases Nat.lt_or_ge (a / 16) (b / 16) with smaller | larger
    · exact append_lt_append (ih smaller (by omega)) (by rw [length_digits, length_digits]) _ _
    · have same : a / 16 = b / 16 := by omega
      rw [same]
      apply List.append_left_lt
      rw [List.cons_lt_cons_iff]
      exact Or.inl (digit_lt _ (Nat.mod_lt a (by decide)) _ (Nat.mod_lt b (by decide)) (by omega))

theorem address_of_small {n : Nat} (small : n < 0x10000) :
    address n = String.ofList (digits 4 n) := by
  have short : n.log2 / 4 + 1 ≤ 4 := by
    by_cases zero : n = 0
    · rw [zero]
      decide
    · have bits : n.log2 < 16 := (Nat.log2_lt zero).mpr small
      omega
  rw [address, Nat.max_eq_left short]

end WordMachine.Hex
