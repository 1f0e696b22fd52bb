import Mathlib.Data.List.TakeWhile
import WordMachine.Assembly.Token
import WordMachine.Proofs.Assembly.Line
import WordMachine.Text.Case

/-! Lexing words. A word is a text that makes one piece of its kind whenever a
separator or nothing follows it. Names are words, and so are numbers, registers
and labels. -/
namespace WordMachine.Token

/-- One piece, where a separator or nothing follows. -/
structure IsWord (kind : TokenKind) (text : List Char) : Prop where
  meaningful : kind ≠ .separator ∧ kind ≠ .garbage
  piece : ∃ c rest, text = c :: rest ∧ isSeparator c = false ∧
    ∀ tail, (∀ d ∈ tail.head?, isSeparator d = true) → pieceAt c (rest ++ tail) = (kind, rest.length)

theorem separator_cases {c : Char} (h : isSeparator c = true) : c = ' ' ∨ c = '\t' ∨ c = ',' := by
  simp only [isSeparator, Bool.or_eq_true, beq_iff_eq] at h
  rcases h with (blank | tab) | comma
  · exact Or.inl blank
  · exact Or.inr (Or.inl tab)
  · exact Or.inr (Or.inr comma)

/-- A run of characters ends at a separator. -/
theorem takeWhile_word {p : Char → Bool} (stops : p ' ' = false ∧ p '\t' = false ∧ p ',' = false)
    {run tail : List Char} (all : run.all p = true) (ended : ∀ d ∈ tail.head?, isSeparator d = true) :
    (run ++ tail).takeWhile p = run := by
  rw [List.takeWhile_append_of_pos (List.all_eq_true.mp all)]
  cases tail with
  | nil => rw [List.takeWhile_nil, List.append_nil]
  | cons d tail =>
    have stopped : p d = false := by
      rcases separator_cases (ended d rfl) with rfl | rfl | rfl
      · exact stops.1
      · exact stops.2.1
      · exact stops.2.2
    rw [List.takeWhile_cons_of_neg (by rw [stopped]; decide), List.append_nil]

theorem toNat_of_isNamePart {c : Char} (h : isNamePart c = true) : 48 ≤ c.toNat ∧ c.toNat ≤ 95 := by
  simp only [isNamePart, isNameStart, isLetter, isDigit, Bool.or_eq_true, Bool.and_eq_true,
    decide_eq_true_eq, beq_iff_eq] at h
  rcases h with (⟨low, high⟩ | rfl) | ⟨low, high⟩
  · have low : 65 ≤ c.toNat := low
    have high : c.toNat ≤ 90 := high
    omega
  · decide
  · have low : 48 ≤ c.toNat := low
    have high : c.toNat ≤ 57 := high
    omega

/-- Characters of names are neither blanks nor parts of comments and literals. -/
theorem solid_of_isNamePart {c : Char} (h : isNamePart c = true) : Line.Solid c := by
  have between := toNat_of_isNamePart h
  refine ⟨?_, ?_, ?_⟩
  · rw [Text.isBlank, ← Bool.not_eq_true]
    simp
    omega
  · rintro rfl
    exact absurd between.1 (by decide)
  · rintro rfl
    exact absurd between.1 (by decide)

theorem toUpper_of_isNamePart {c : Char} (h : isNamePart c = true) : c.toUpper = c := by
  have below := (toNat_of_isNamePart h).2
  refine dif_neg ?_
  rintro ⟨small, _⟩
  have above : 97 ≤ c.toNat := small
  omega

/-- A letter or underscore, then letters, digits and underscores. -/
structure IsName (text : List Char) : Prop where
  first : text.head?.any isNameStart = true
  parts : text.all isNamePart = true

namespace IsName

variable {text : List Char}

theorem cons (h : IsName text) :
    ∃ c rest, text = c :: rest ∧ isNameStart c = true ∧ rest.all isNamePart = true ∧
      isSeparator c = false := by
  obtain ⟨first, parts⟩ := h
  cases text with
  | nil => cases first
  | cons c rest =>
    rw [List.all_cons, Bool.and_eq_true] at parts
    refine ⟨c, rest, rfl, first, parts.2, ?_⟩
    cases sep : isSeparator c with
    | false => rfl
    | true => rcases separator_cases sep with rfl | rfl | rfl <;> cases first

theorem solid (h : IsName text) : ∀ c ∈ text, Line.Solid c := by
  intro c hc
  exact solid_of_isNamePart (List.all_eq_true.mp h.parts c hc)

theorem upper {name : String} (h : IsName name.toList) : Text.upper name = name := by
  have kept : ∀ c ∈ name.toList, c.toUpper = c := by
    intro c hc
    exact toUpper_of_isNamePart (List.all_eq_true.mp h.parts c hc)
  rw [Text.upper, List.map_congr_left kept, List.map_id', String.ofList_toList]

theorem isWord_ident (h : IsName text) : IsWord .ident text := by
  obtain ⟨c, rest, rfl, first, others, inside⟩ := h.cons
  refine ⟨by decide, c, rest, rfl, inside, fun tail ended => ?_⟩
  have run := takeWhile_word (p := isNamePart) (by decide) others ended
  have uncoloned : (rest ++ tail)[rest.length]? ≠ some ':' := by
    rw [List.getElem?_append_right (Nat.le_refl _), Nat.sub_self, ← List.head?_eq_getElem?]
    intro coloned
    exact absurd (ended ':' coloned) (by decide)
  simp only [pieceAt, inside, first, if_true, Bool.false_eq_true, if_false, afterNameStart, run,
    uncoloned]

/-- A label ends with its colon, whatever follows. -/
theorem isWord_label (h : IsName text) : IsWord .label (text ++ [':']) := by
  obtain ⟨c, rest, rfl, first, others, inside⟩ := h.cons
  refine ⟨by decide, c, rest ++ [':'], rfl, inside, fun tail _ => ?_⟩
  have run : ((rest ++ [':']) ++ tail).takeWhile isNamePart = rest := by
    rw [List.append_assoc, List.takeWhile_append_of_pos (List.all_eq_true.mp others),
      List.singleton_append, List.takeWhile_cons_of_neg (by decide), List.append_nil]
  have coloned : ((rest ++ [':']) ++ tail)[rest.length]? = some ':' := by
    rw [List.append_assoc, List.getElem?_append_right (Nat.le_refl _), Nat.sub_self]
    rfl
  simp only [pieceAt, inside, first, if_true, Bool.false_eq_true, if_false, afterNameStart, run,
    coloned, List.length_append, List.length_singleton]

end IsName

theorem isWord_register {c : Char} {rest : List Char} (first : isLetter c = true)
    (others : rest.all isRegisterPart = true) : IsWord .register ('$' :: c :: rest) := by
  refine ⟨by decide, '$', c :: rest, rfl, by decide, fun tail ended => ?_⟩
  have run := takeWhile_word (p := isRegisterPart) (by decide) others ended
  have nonzero : c ≠ '0' := by
    rintro rfl
    cases first
  have dollar : pieceAt '$' (c :: rest ++ tail) = afterDollar (c :: rest ++ tail) := rfl
  rw [dollar, List.cons_append]
  simp only [afterDollar, nonzero, if_false, first, if_true, run, List.length_cons]

/-- One to four hexadecimal digits. -/
structure IsNumeral (ds : List Char) : Prop where
  filled : ds ≠ []
  short : ds.length ≤ 4
  digits : ds.all isHexDigit = true

section Numerals

variable {ds : List Char}

theorem afterZero_digits {kind : TokenKind} (numeral : IsNumeral ds) {tail : List Char}
    (ended : ∀ d ∈ tail.head?, isSeparator d = true) :
    afterZero kind ('X' :: (ds ++ tail)) = (kind, ds.length + 1) := by
  have taken : (ds ++ tail).take 4 = ds ++ tail.take (4 - ds.length) := by
    rw [List.take_append, List.take_of_length_le numeral.short]
  have stopped : ∀ d ∈ (tail.take (4 - ds.length)).head?, isSeparator d = true := by
    intro d hd
    rw [List.head?_take] at hd
    split at hd
    · cases hd
    · exact ended d hd
  have run := takeWhile_word (p := isHexDigit) (by decide) numeral.digits stopped
  have filled : ds.length ≠ 0 := mt List.eq_nil_iff_length_eq_zero.mpr numeral.filled
  simp only [afterZero, taken, run, filled, if_false]

theorem isWord_immediate (numeral : IsNumeral ds) : IsWord .immediate ('0' :: 'X' :: ds) := by
  refine ⟨by decide, '0', 'X' :: ds, rfl, by decide, fun tail ended => ?_⟩
  have zero : pieceAt '0' ('X' :: ds ++ tail) = afterZero .immediate ('X' :: (ds ++ tail)) := rfl
  rw [zero, afterZero_digits numeral ended, List.length_cons]

theorem isWord_memory (numeral : IsNumeral ds) : IsWord .memory ('$' :: '0' :: 'X' :: ds) := by
  refine ⟨by decide, '$', '0' :: 'X' :: ds, rfl, by decide, fun tail ended => ?_⟩
  have dollar : pieceAt '$' ('0' :: 'X' :: ds ++ tail) = afterDollar ('0' :: 'X' :: (ds ++ tail)) := rfl
  rw [dollar]
  simp only [afterDollar, if_true, afterZero_digits numeral ended, List.length_cons]

end Numerals

/-- A word is cut off where it ends. -/
theorem pieces_word {kind : TokenKind} {text : List Char} (word : IsWord kind text)
    {tail : List Char} (ended : ∀ d ∈ tail.head?, isSeparator d = true) :
    pieces (text ++ tail) = ⟨kind, text⟩ :: pieces tail := by
  obtain ⟨c, rest, rfl, _, found⟩ := word.piece
  rw [List.cons_append, pieces]
  simp only [found tail ended, List.take_left, List.drop_left]

theorem map_place (start : Nat) (ps : List Piece) :
    (place start ps).map (fun t => (t.kind, t.text)) =
      (ps.filter (·.kind ≠ .separator)).map fun p => (p.kind, String.ofList p.text) := by
  induction ps generalizing start with
  | nil => rfl
  | cons p rest ih =>
    by_cases sep : p.kind = .separator
    · simp only [place, sep, if_true, ih, ne_eq, not_true_eq_false, decide_false,
        List.filter_cons, Bool.false_eq_true, if_false]
    · simp only [place, sep, if_false, List.map_cons, ih, ne_eq, not_false_eq_true, decide_true,
        List.filter_cons, if_true]

end WordMachine.Token
