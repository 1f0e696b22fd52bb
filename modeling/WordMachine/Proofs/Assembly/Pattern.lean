import WordMachine.Proofs.Assembly.Token

/-! Patterns of pieces. A piece that is not garbage has a text of the pattern of
its kind, wherever on a line it is found; and a text of the pattern of a kind,
separators apart, is a word of that kind. -/
namespace WordMachine.Token

variable {kind : TokenKind} {c : Char} {rest text : List Char}

/-- The texts that pieces of a kind have. -/
inductive Pattern : TokenKind → List Char → Prop
  | label {name : List Char} : IsName name → Pattern .label (name ++ [':'])
  | dotted {name : List Char} : IsName name → Pattern .label ('.' :: (name ++ [':']))
  | immediate {ds : List Char} : IsNumeral ds → Pattern .immediate ('0' :: 'X' :: ds)
  | memory {ds : List Char} : IsNumeral ds → Pattern .memory ('$' :: '0' :: 'X' :: ds)
  | register {c : Char} {rest : List Char} : isLetter c = true → rest.all isRegisterPart = true →
      Pattern .register ('$' :: c :: rest)
  | ident {name : List Char} : IsName name → Pattern .ident name
  | separator {run : List Char} : run ≠ [] → run.all isSeparator = true → Pattern .separator run

theorem take_takeWhile (p : Char → Bool) (rest : List Char) :
    rest.take (rest.takeWhile p).length = rest.takeWhile p :=
  (List.prefix_iff_eq_take.mp (List.takeWhile_prefix p)).symm

theorem isName_takeWhile (start : isNameStart c = true) (rest : List Char) :
    IsName (c :: rest.takeWhile isNamePart) := by
  refine ⟨start, ?_⟩
  rw [List.all_cons, isNamePart, start, Bool.true_or, Bool.true_and]
  exact List.all_takeWhile

/-- What follows the first character of a name ends the name, or a label. -/
theorem afterNameStart_cases (start : isNameStart c = true) (rest : List Char) :
    ∃ name, IsName name ∧
      ((afterNameStart rest).1 = .label ∧ c :: rest.take (afterNameStart rest).2 = name ++ [':'] ∨
        (afterNameStart rest).1 = .ident ∧ c :: rest.take (afterNameStart rest).2 = name) := by
  refine ⟨c :: rest.takeWhile isNamePart, isName_takeWhile start rest, ?_⟩
  simp only [afterNameStart]
  split
  · next coloned =>
    refine Or.inl ⟨rfl, ?_⟩
    rw [List.take_add_one, coloned, take_takeWhile]
    rfl
  · exact Or.inr ⟨rfl, by rw [take_takeWhile]⟩

theorem afterZero_cases (kind : TokenKind) (rest : List Char) :
    (afterZero kind rest).1 = .garbage ∨ (afterZero kind rest).1 = kind ∧
      ∃ ds, IsNumeral ds ∧ rest.take (afterZero kind rest).2 = 'X' :: ds := by
  unfold afterZero
  split
  · next rest =>
    simp only
    split
    · exact Or.inl rfl
    · next some_digit =>
      have within : (rest.take 4).takeWhile isHexDigit <+: rest :=
        (List.takeWhile_prefix _).trans (List.take_prefix 4 rest)
      have short := (List.takeWhile_prefix (p := isHexDigit) (l := rest.take 4)).length_le
      refine Or.inr ⟨rfl, (rest.take 4).takeWhile isHexDigit, ⟨?_, ?_, List.all_takeWhile⟩, ?_⟩
      · exact mt List.eq_nil_iff_length_eq_zero.mp some_digit
      · exact short.trans (List.length_take_le 4 rest)
      · rw [List.take_succ_cons, ← List.prefix_iff_eq_take.mp within]
  · exact Or.inl rfl

theorem pattern_afterDot (clean : (afterDot rest).1 ≠ .garbage) :
    Pattern (afterDot rest).1 ('.' :: rest.take (afterDot rest).2) := by
  cases rest with
  | nil => exact absurd rfl clean
  | cons d rest =>
    rw [afterDot] at clean ⊢
    split at clean
    · next start =>
      obtain ⟨name, named, ends⟩ := afterNameStart_cases start rest
      rw [if_pos start]
      split at clean
      · next n found =>
        rw [found] at ends
        obtain ⟨_, text⟩ | ⟨ident, _⟩ := ends
        · rw [List.take_succ_cons, text]
          exact .dotted named
        · cases ident
      · exact absurd rfl clean
    · exact absurd rfl clean

theorem pattern_afterDollar (clean : (afterDollar rest).1 ≠ .garbage) :
    Pattern (afterDollar rest).1 ('$' :: rest.take (afterDollar rest).2) := by
  cases rest with
  | nil => exact absurd rfl clean
  | cons d rest =>
    rw [afterDollar] at clean ⊢
    split_ifs at clean ⊢ with zero letter
    · rcases afterZero_cases .memory rest with garbage | ⟨kind, ds, numeral, text⟩
      · exact absurd garbage clean
      · rw [kind, List.take_succ_cons, text, zero]
        exact .memory numeral
    · rw [List.take_succ_cons, take_takeWhile]
      exact .register letter List.all_takeWhile
    · exact absurd rfl clean

/-- A piece has the pattern of its kind. -/
theorem pattern_pieceAt (clean : (pieceAt c rest).1 ≠ .garbage) :
    Pattern (pieceAt c rest).1 (c :: rest.take (pieceAt c rest).2) := by
  unfold pieceAt at clean ⊢
  split_ifs at clean ⊢ with separator start dot zero dollar
  · rw [take_takeWhile]
    refine .separator (List.cons_ne_nil c _) ?_
    rw [List.all_cons, separator, Bool.true_and]
    exact List.all_takeWhile
  · obtain ⟨name, named, ⟨kind, text⟩ | ⟨kind, text⟩⟩ := afterNameStart_cases start rest
    · rw [kind, text]
      exact .label named
    · rw [kind, text]
      exact .ident named
  · rw [dot]
    exact pattern_afterDot clean
  · rcases afterZero_cases .immediate rest with garbage | ⟨kind, ds, numeral, text⟩
    · exact absurd garbage clean
    · rw [kind, text, zero]
      exact .immediate numeral
  · rw [dollar]
    exact pattern_afterDollar clean
  · exact absurd rfl clean

theorem pattern_pieces {line : List Char} :
    ∀ p ∈ pieces line, p.kind ≠ .garbage → Pattern p.kind p.text := by
  fun_induction pieces line with
  | case1 => exact List.forall_mem_nil _
  | case2 c rest found ih => exact List.forall_mem_cons.mpr ⟨pattern_pieceAt, ih⟩

theorem IsWord.pattern (word : IsWord kind text) : Pattern kind text := by
  obtain ⟨c, rest, rfl, _, found⟩ := word.piece
  have alone := found [] nofun
  rw [List.append_nil] at alone
  have clean : (pieceAt c rest).1 ≠ .garbage := by
    rw [alone]
    exact word.meaningful.2
  have whole := pattern_pieceAt clean
  rwa [alone, List.take_length] at whole

end WordMachine.Token
