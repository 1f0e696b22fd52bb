import WordMachine.Assembly.Section
import WordMachine.Assembly.Statement
import WordMachine.Proofs.Assembly.Naming
import WordMachine.Proofs.Assembly.Pattern
import WordMachine.Proofs.Result

/-! What a line is read as. Tokens are read for their kinds and texts, and where
they stand on the line does not matter. A separator ends a piece as the end of the
line does, so tokens with separators between them are the same whatever the
separators are. -/
namespace WordMachine

namespace Token

/-- What a token says, wherever it stands. -/
def word (t : Token) : TokenKind × String := (t.kind, t.text)

/-- What the tokens of a line say in capital letters. -/
def words (text : String) : List (TokenKind × String) := (lex (Text.upper text)).map word

section Separators

variable {p : Char → Bool} {c s : Char} {rest : List Char}

/-- Nothing but separators themselves goes on over a separator. -/
theorem not_part_of_separator (sep : isSeparator s = true) :
    isNamePart s = false ∧ isRegisterPart s = false ∧ isHexDigit s = false ∧ s ≠ ':' ∧ s ≠ 'X' ∧
      s ≠ '0' ∧ isNameStart s = false ∧ isLetter s = false := by
  rcases separator_cases sep with rfl | rfl | rfl <;> decide

theorem takeWhile_append_stop (stop : p s = false) (run more : List Char) :
    (run ++ s :: more).takeWhile p = run.takeWhile p := by
  rw [List.takeWhile_append, List.takeWhile_cons_of_neg (by rw [stop]; decide), List.append_nil]
  split
  · next whole => rw [(List.takeWhile_prefix p).eq_of_length whole]
  · rfl

theorem length_takeWhile_le (p : Char → Bool) (run : List Char) :
    (run.takeWhile p).length ≤ run.length := (List.takeWhile_prefix p).length_le

theorem afterZero_append (sep : isSeparator s = true) (kind : TokenKind) (more : List Char) :
    afterZero kind (rest ++ s :: more) = afterZero kind rest := by
  obtain ⟨_, _, hex, _, notX, _⟩ := not_part_of_separator sep
  cases rest with
  | nil =>
    rw [List.nil_append]
    unfold afterZero
    split
    · next same => exact absurd (List.cons.inj same).1 notX
    · rfl
  | cons d rest =>
    by_cases marked : d = 'X'
    · subst marked
      have digits : ((rest ++ s :: more).take 4).takeWhile isHexDigit =
          (rest.take 4).takeWhile isHexDigit := by
        rw [List.take_append]
        cases 4 - rest.length with
        | zero => rw [List.take_zero, List.append_nil]
        | succ room => rw [List.take_succ_cons, takeWhile_append_stop hex]
      simp only [List.cons_append, afterZero, digits]
    · unfold afterZero
      split
      · next same => exact absurd (List.cons.inj same).1 marked
      · split
        · next same => exact absurd (List.cons.inj same).1 marked
        · rfl

theorem afterNameStart_append (sep : isSeparator s = true) (more : List Char) :
    afterNameStart (rest ++ s :: more) = afterNameStart rest := by
  obtain ⟨part, _, _, colon, _⟩ := not_part_of_separator sep
  have coloned : (rest ++ s :: more)[(rest.takeWhile isNamePart).length]? = some ':' ↔
      rest[(rest.takeWhile isNamePart).length]? = some ':' := by
    rcases Nat.lt_or_eq_of_le (length_takeWhile_le isNamePart rest) with inside | whole
    · rw [List.getElem?_append_left inside]
    · rw [whole, List.getElem?_append_right (Nat.le_refl _), Nat.sub_self, List.getElem?_cons_zero,
        List.getElem?_eq_none (Nat.le_refl _)]
      simp [colon]
  simp only [afterNameStart, takeWhile_append_stop part, coloned]

theorem pieceAt_append (solid : isSeparator c = false) (sep : isSeparator s = true)
    (more : List Char) : pieceAt c (rest ++ s :: more) = pieceAt c rest := by
  obtain ⟨_, register, _, _, _, zero, start, letter⟩ := not_part_of_separator sep
  have dot : afterDot (rest ++ s :: more) = afterDot rest := by
    cases rest with
    | nil => simp only [List.nil_append, afterDot, start, Bool.false_eq_true, if_false]
    | cons d rest => simp only [List.cons_append, afterDot, afterNameStart_append sep]
  have dollar : afterDollar (rest ++ s :: more) = afterDollar rest := by
    cases rest with
    | nil => simp only [List.nil_append, afterDollar, zero, letter, Bool.false_eq_true, if_false]
    | cons d rest =>
      simp only [List.cons_append, afterDollar, afterZero_append sep, takeWhile_append_stop register]
  simp only [pieceAt, solid, Bool.false_eq_true, if_false, afterNameStart_append sep,
    afterZero_append sep, dot, dollar]

theorem afterZero_le (kind : TokenKind) (rest : List Char) :
    (afterZero kind rest).2 ≤ rest.length := by
  unfold afterZero
  split
  · next rest =>
    have digits := length_takeWhile_le isHexDigit (rest.take 4)
    rw [List.length_take] at digits
    simp only [List.length_cons]
    split <;> simp only <;> omega
  · exact Nat.zero_le _

theorem afterNameStart_le (rest : List Char) : (afterNameStart rest).2 ≤ rest.length := by
  have run := length_takeWhile_le isNamePart rest
  simp only [afterNameStart]
  split
  · next coloned => exact (List.getElem?_eq_some_iff.mp coloned).1
  · exact run

/-- A piece ends with its line or before. -/
theorem pieceAt_le (c : Char) (rest : List Char) : (pieceAt c rest).2 ≤ rest.length := by
  have dot : (afterDot rest).2 ≤ rest.length := by
    cases rest with
    | nil => exact Nat.le_refl 0
    | cons d rest =>
      have named := afterNameStart_le rest
      simp only [afterDot, List.length_cons]
      split
      · split
        · next n found => rw [found] at named; exact Nat.succ_le_succ named
        · next n found => rw [found] at named; exact Nat.succ_le_succ named
      · exact Nat.zero_le _
  have dollar : (afterDollar rest).2 ≤ rest.length := by
    cases rest with
    | nil => exact Nat.le_refl 0
    | cons d rest =>
      simp only [afterDollar, List.length_cons]
      split
      · exact Nat.succ_le_succ (afterZero_le .memory rest)
      · split
        · exact Nat.succ_le_succ (length_takeWhile_le isRegisterPart rest)
        · exact Nat.zero_le _
  unfold pieceAt
  split
  · exact length_takeWhile_le isSeparator rest
  · split
    · exact afterNameStart_le rest
    · split
      · exact dot
      · split
        · exact afterZero_le .immediate rest
        · split
          · exact dollar
          · exact Nat.zero_le _

/-- A separator behind a character that is none cuts the line. -/
theorem pieces_append {front : List Char} (last : ∀ d ∈ front.getLast?, isSeparator d = false)
    (sep : isSeparator s = true) (more : List Char) :
    pieces (front ++ s :: more) = pieces front ++ pieces (s :: more) := by
  -- The induction follows the pieces of the front, which end where they did.
  fun_induction pieces front with
  | case1 => rfl
  | case2 c rest found ih =>
    have same : pieceAt c (rest ++ s :: more) = found := by
      cases solid : isSeparator c with
      | false => exact pieceAt_append solid sep more
      | true =>
        have stops : ∃ d ∈ rest, isSeparator d = false := by
          cases rest with
          | nil => exact absurd (last c rfl) (by rw [solid]; decide)
          | cons d others =>
            rw [List.getLast?_cons_cons] at last
            have filled := List.getLast?_isSome.mpr (List.cons_ne_nil d others)
            obtain ⟨e, he⟩ := Option.isSome_iff_exists.mp filled
            exact ⟨e, List.mem_of_mem_getLast? he, last e he⟩
        have run : (rest ++ s :: more).takeWhile isSeparator = rest.takeWhile isSeparator := by
          rw [List.takeWhile_append, if_neg]
          intro whole
          obtain ⟨d, hd, solid⟩ := stops
          have all := List.takeWhile_eq_self_iff.mp ((List.takeWhile_prefix _).eq_of_length whole)
          exact absurd (all d hd) (by rw [solid]; decide)
        have found_eq : found = (.separator, (rest.takeWhile isSeparator).length) := by
          simp only [found, pieceAt, solid, if_true]
        simp only [pieceAt, solid, if_true, run, found_eq]
    have inside : found.2 ≤ rest.length := pieceAt_le c rest
    rw [List.cons_append, pieces, same, List.take_append_of_le_length inside,
      List.drop_append_of_le_length inside, ih, List.cons_append]
    intro d hd
    refine last d ?_
    have filled : rest.drop found.2 ≠ [] := by
      intro gone
      rw [gone] at hd
      cases hd
    rw [← List.take_append_drop found.2 rest, ← List.cons_append, List.getLast?_append, hd]
    rfl

/-- A run of separators is one piece. -/
theorem pieces_run {run : List Char} {d : Char} (filled : run ≠ []) (all : run.all isSeparator = true)
    (solid : isSeparator d = false) (more : List Char) :
    pieces (run ++ d :: more) = ⟨.separator, run⟩ :: pieces (d :: more) := by
  obtain ⟨c, run, rfl⟩ := List.exists_cons_of_ne_nil filled
  rw [List.all_cons, Bool.and_eq_true] at all
  have taken : (run ++ d :: more).takeWhile isSeparator = run := by
    rw [takeWhile_append_stop solid, List.takeWhile_eq_self_iff]
    exact List.all_eq_true.mp all.2
  have found : pieceAt c (run ++ d :: more) = (.separator, run.length) := by
    simp only [pieceAt, all.1, if_true, taken]
  rw [List.cons_append, pieces, found, List.take_left, List.drop_left]

end Separators

theorem joinGarbage_cons (p : Piece) (ps : List Piece) :
    joinGarbage (p :: ps) =
      match joinGarbage ps with
      | q :: rest =>
        if p.kind = .garbage ∧ q.kind = .garbage then ⟨.garbage, p.text ++ q.text⟩ :: rest
        else p :: q :: rest
      | [] => [p] := rfl

theorem joinGarbage_clean_cons {q : Piece} (clean : q.kind ≠ .garbage) (ps : List Piece) :
    joinGarbage (q :: ps) = q :: joinGarbage ps := by
  rw [joinGarbage_cons]
  cases joinGarbage ps with
  | nil => rfl
  | cons r rest => simp only [clean, false_and, if_false]

/-- Garbage is not joined over a piece that is none. -/
theorem joinGarbage_append {q : Piece} (clean : q.kind ≠ .garbage) (ps qs : List Piece) :
    joinGarbage (ps ++ q :: qs) = joinGarbage ps ++ q :: joinGarbage qs := by
  induction ps with
  | nil => exact joinGarbage_clean_cons clean qs
  | cons p rest ih =>
    rw [List.cons_append, joinGarbage_cons, ih, joinGarbage_cons]
    cases joinGarbage rest with
    | nil => simp only [List.nil_append, clean, and_false, if_false, List.cons_append]
    | cons r others =>
      simp only [List.cons_append]
      split <;> rfl

theorem map_word_lex (line : String) :
    (lex line).map word =
      ((joinGarbage (pieces line.toList)).filter (·.kind ≠ .separator)).map
        fun p => (p.kind, String.ofList p.text) := map_place 0 _

/-- The separators between two tokens do not matter. -/
theorem map_word_lex_run {front run back : List Char} {d : Char}
    (last : ∀ c ∈ front.getLast?, isSeparator c = false) (filled : run ≠ [])
    (all : run.all isSeparator = true) (solid : isSeparator d = false) :
    (lex (String.ofList (front ++ run ++ d :: back))).map word =
      (lex (String.ofList front)).map word ++ (lex (String.ofList (d :: back))).map word := by
  have cut : pieces (front ++ run ++ d :: back) =
      pieces front ++ ⟨.separator, run⟩ :: pieces (d :: back) := by
    rw [← pieces_run filled all solid back]
    obtain ⟨s, run, rfl⟩ := List.exists_cons_of_ne_nil filled
    rw [List.all_cons, Bool.and_eq_true] at all
    rw [List.append_assoc, List.cons_append, pieces_append last all.1]
  have dropped : ∀ ps qs : List Piece, (ps ++ ⟨.separator, run⟩ :: qs).filter (·.kind ≠ .separator) =
      ps.filter (·.kind ≠ .separator) ++ qs.filter (·.kind ≠ .separator) := by
    intro ps qs
    rw [List.filter_append, List.filter_cons_of_neg (by simp)]
  have joined := joinGarbage_append (q := ⟨.separator, run⟩) (fun same => nomatch same)
  simp only [map_word_lex, String.toList_ofList, cut, joined, dropped, List.map_append]

/-- In capital letters, too, the separators between two tokens do not matter. -/
theorem words_run {front run back : List Char} {d : Char}
    (last : ∀ c ∈ front.getLast?, isSeparator c = false) (filled : run ≠ [])
    (all : run.all isSeparator = true) (solid : isSeparator d = false) :
    words (String.ofList (front ++ run ++ d :: back)) =
      words (String.ofList front) ++ words (String.ofList (d :: back)) := by
  have same : ∀ c : Char, isSeparator c.toUpper = isSeparator c :=
    Text.toUpper_invariant (by decide)
  have capital : ∀ cs : List Char,
      Text.upper (String.ofList cs) = String.ofList (cs.map Char.toUpper) := by
    intro cs
    rw [Text.upper, String.toList_ofList]
  simp only [words, capital, List.map_append, List.map_cons]
  apply map_word_lex_run
  · intro c hc
    rw [List.getLast?_map] at hc
    obtain ⟨e, he, rfl⟩ := Option.map_eq_some_iff.mp hc
    rw [same, last e he]
  · simpa using filled
  · rw [List.all_map, ← all]
    exact List.all_congr rfl same
  · rw [same, solid]

/-- Characters that may stand in a line without garbage. -/
def isPlain (c : Char) : Bool := isSeparator c || isNamePart c || c == ':' || c == '.' || c == '$'

theorem plain_of_isNamePart {c : Char} (h : isNamePart c = true) :
    isPlain c = true ∧ isSeparator c = false := by
  refine ⟨by simp only [isPlain, h, Bool.or_true, Bool.true_or], Bool.eq_false_iff.mpr fun sep => ?_⟩
  rw [(not_part_of_separator sep).1] at h
  cases h

theorem isNamePart_of_isRegisterPart {c : Char} (h : isRegisterPart c = true) :
    isNamePart c = true := by
  simp only [isRegisterPart, Bool.or_eq_true] at h
  rcases h with letter | digit
  · simp only [isNamePart, isNameStart, letter, Bool.true_or]
  · simp only [isNamePart, digit, Bool.or_true]

theorem isNamePart_of_isHexDigit {c : Char} (h : isHexDigit c = true) : isNamePart c = true := by
  simp only [isHexDigit, isLetter, isDigit, isNamePart, isNameStart, Bool.or_eq_true,
    Bool.and_eq_true, decide_eq_true_eq] at h ⊢
  rcases h with digit | ⟨low, high⟩
  · exact Or.inr digit
  · exact Or.inl (Or.inl ⟨low, Char.le_trans high (by decide)⟩)

/-- The text of a piece that is no separator has plain characters and no separators. -/
theorem Pattern.solid {kind : TokenKind} {text : List Char} (h : Pattern kind text)
    (solid : kind ≠ .separator) : ∀ c ∈ text, isPlain c = true ∧ isSeparator c = false := by
  have parts : ∀ {run : List Char} {p : Char → Bool}, (∀ c, p c = true → isNamePart c = true) →
      run.all p = true → ∀ c ∈ run, isPlain c = true ∧ isSeparator c = false := by
    intro run p part all c hc
    exact plain_of_isNamePart (part c (List.all_eq_true.mp all c hc))
  have coloned : ∀ {name : List Char}, IsName name →
      ∀ c ∈ name ++ [':'], isPlain c = true ∧ isSeparator c = false := by
    intro name h
    exact List.forall_mem_append.mpr
      ⟨parts (fun _ => id) h.parts, List.forall_mem_singleton.mpr (by decide)⟩
  have numeral : ∀ {ds : List Char}, IsNumeral ds →
      ∀ c ∈ '0' :: 'X' :: ds, isPlain c = true ∧ isSeparator c = false := by
    intro ds h
    refine List.forall_mem_cons.mpr ⟨by decide, List.forall_mem_cons.mpr ⟨by decide, ?_⟩⟩
    exact parts (fun _ => isNamePart_of_isHexDigit) h.digits
  cases h with
  | label name => exact coloned name
  | dotted name => exact List.forall_mem_cons.mpr ⟨by decide, coloned name⟩
  | immediate digits => exact numeral digits
  | memory digits => exact List.forall_mem_cons.mpr ⟨by decide, numeral digits⟩
  | register letter others =>
    have first : isRegisterPart _ = true := Bool.or_eq_true_iff.mpr (Or.inl letter)
    refine List.forall_mem_cons.mpr ⟨by decide, List.forall_mem_cons.mpr ⟨?_, ?_⟩⟩
    · exact plain_of_isNamePart (isNamePart_of_isRegisterPart first)
    · exact parts (fun _ => isNamePart_of_isRegisterPart) others
  | ident name => exact parts (fun _ => id) name.parts
  | separator => exact absurd rfl solid

theorem Pattern.plain {kind : TokenKind} {text : List Char} (h : Pattern kind text) :
    ∀ c ∈ text, isPlain c = true := by
  by_cases sep : kind = .separator
  · subst sep
    cases h with
    | separator _ all =>
      intro c hc
      simp only [isPlain, List.all_eq_true.mp all c hc, Bool.true_or]
  · exact fun c hc => (h.solid sep c hc).1

/-- Only garbage is joined. -/
theorem mem_of_mem_joinGarbage {p : Piece} (clean : p.kind ≠ .garbage) {ps : List Piece}
    (h : p ∈ joinGarbage ps) : p ∈ ps := by
  induction ps with
  | nil => exact h
  | cons q rest ih =>
    rw [joinGarbage_cons] at h
    split at h
    · next r others joined =>
      rw [joined] at ih
      split at h
      · rcases List.mem_cons.mp h with rfl | later
        · exact absurd rfl clean
        · exact List.mem_cons_of_mem q (ih (List.mem_cons_of_mem r later))
      · exact (List.mem_cons.mp h).elim (· ▸ List.mem_cons_self)
          fun later => List.mem_cons_of_mem q (ih later)
    · rw [List.mem_singleton.mp h]
      exact List.mem_cons_self

/-- Every token has the pattern of its kind. -/
theorem pattern_of_mem_joinGarbage {line : List Char} {p : Piece}
    (h : p ∈ joinGarbage (pieces line)) (clean : p.kind ≠ .garbage) : Pattern p.kind p.text :=
  pattern_pieces p (mem_of_mem_joinGarbage clean h) clean

theorem pattern_of_mem_lex {line : String} {w : TokenKind × String}
    (h : w ∈ (lex line).map word) (clean : w.1 ≠ .garbage) : Pattern w.1 w.2.toList := by
  rw [map_word_lex] at h
  obtain ⟨p, hp, rfl⟩ := List.mem_map.mp h
  rw [String.toList_ofList]
  exact pattern_of_mem_joinGarbage (List.mem_filter.mp hp).1 clean

/-- A line without garbage is made of plain characters. -/
theorem plain_of_words {line : String} (clean : ∀ w ∈ (lex line).map word, w.1 ≠ .garbage) :
    ∀ c ∈ line.toList, isPlain c = true := by
  intro c hc
  rw [← flatMap_text_pieces line.toList, ← flatMap_text_joinGarbage] at hc
  obtain ⟨p, hp, hc⟩ := List.mem_flatMap.mp hc
  have kind : p.kind ≠ .garbage := by
    intro garbage
    refine clean (p.kind, String.ofList p.text) ?_ garbage
    rw [map_word_lex]
    refine List.mem_map_of_mem (List.mem_filter.mpr ⟨hp, ?_⟩)
    rw [garbage]
    decide
  exact (pattern_of_mem_joinGarbage hp kind).plain c hc

end Token

/-- A statement is compiled by what its tokens say. -/
theorem Statement.ofTokens_congr {ts us : List Token} (same : ts.map Token.word = us.map Token.word) :
    ofTokens ts = ofTokens us := by
  have garbage : ∀ ts : List Token, (ts.find? (·.kind == .garbage)).map Token.text =
      ((ts.map Token.word).find? (·.1 == .garbage)).map Prod.snd := by
    intro ts
    rw [List.find?_map, Option.map_map]
    rfl
  have found : (ts.find? (·.kind == .garbage)).map Token.text =
      (us.find? (·.kind == .garbage)).map Token.text := by
    rw [garbage, same, garbage]
  unfold ofTokens
  cases bad : ts.find? (·.kind == .garbage) with
  | some t =>
    rw [bad, Option.map_some] at found
    obtain ⟨u, other, text⟩ := Option.map_eq_some_iff.mp found.symm
    simp only [other, text]
  | none =>
    rw [bad, Option.map_none] at found
    simp only [Option.map_eq_none_iff.mp found.symm]
    cases ts with
    | nil => rw [List.map_eq_nil_iff.mp same.symm]
    | cons first rest =>
      obtain ⟨head, tail, rfl, own, others⟩ := List.map_eq_cons_iff.mp same.symm
      obtain ⟨kind, text⟩ := Prod.mk.inj own
      have operands : ∀ ts : List Token, ts.mapM Operand.ofToken =
          (ts.map Token.word).mapM fun w => Operand.ofToken ⟨w.1, 0, w.2⟩ := by
        intro ts
        rw [List.mapM_map]
        rfl
      have texts : ∀ ts : List Token, ts.map Token.text = (ts.map Token.word).map Prod.snd := by
        intro ts
        rw [List.map_map]
        rfl
      simp only [kind, text, operands, texts, others]

theorem Statement.compile_congr {s t : String} (same : Token.words s = Token.words t) :
    compile s = compile t := ofTokens_congr same

theorem Section.labelName?_eq (text : String) :
    labelName? text =
      match Token.words text with
      | [w] =>
        if w.1 = .label then
          some (String.ofList ((w.2.toList.dropWhile (· == '.')).takeWhile (· != ':')))
        else none
      | _ => none := by
  rw [labelName?, Token.words]
  cases Token.lex (Text.upper text) with
  | nil => rfl
  | cons t rest => cases rest <;> rfl

theorem Section.labelName?_congr {s t : String} (same : Token.words s = Token.words t) :
    labelName? s = labelName? t := by rw [labelName?_eq, same, labelName?_eq]

/-- A line that is a label or a statement has no garbage. -/
theorem Statement.clean_of_compile {text : String} {chunks : List Chunk}
    (h : compile text = .ok chunks) : ∀ w ∈ Token.words text, w.1 ≠ .garbage := by
  unfold compile ofTokens at h
  split at h
  · cases h
  · next clean =>
    intro w hw
    obtain ⟨t, ht, rfl⟩ := List.mem_map.mp hw
    simpa [Token.word] using List.find?_eq_none.mp clean t ht

theorem Section.clean_of_labelName? {text name : String} (h : labelName? text = some name) :
    ∀ w ∈ Token.words text, w.1 ≠ .garbage := by
  rw [labelName?_eq] at h
  split at h
  · next w alone =>
    split at h
    · next label =>
      rw [alone, List.forall_mem_singleton, label]
      decide
    · cases h
  · cases h

end WordMachine
