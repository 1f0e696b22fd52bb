import Mathlib.Data.List.Chain
import WordMachine.Proofs.Assembly.Reading

/-! Tokens on their line. Whatever cuts a line into pieces, each the longest start of
what is left that has a pattern, or garbage where no start has one, the tokens made
of the pieces lie one behind the other, only separators lie between them, and no
garbage touches other garbage. The pieces of a line are cut in this way. -/
namespace WordMachine.Token

/-- The piece is the longest start of the line that has a pattern, or garbage if no
start of the line has one. -/
structure Fits (p : Piece) (line : List Char) : Prop where
  filled : p.text ≠ []
  pattern : p.kind ≠ .garbage → Pattern p.kind p.text
  longest : ∀ kind text, Pattern kind text → text <+: line →
    p.kind ≠ .garbage ∧ text.length ≤ p.text.length

/-- The pieces make up the line, each fitting what is left of it. -/
inductive Scan : List Char → List Piece → Prop
  | nil : Scan [] []
  | cons {p : Piece} {rest : List Char} {ps : List Piece} :
      Fits p (p.text ++ rest) → Scan rest ps → Scan (p.text ++ rest) (p :: ps)

section Longest

variable {c : Char} {rest text run : List Char} {kind : TokenKind}

theorem length_le_takeWhile {p : Char → Bool} (all : run.all p = true) (start : run <+: rest) :
    run.length ≤ (rest.takeWhile p).length := by
  obtain ⟨more, rfl⟩ := start
  rw [List.takeWhile_append_of_pos (List.all_eq_true.mp all), List.length_append]
  exact Nat.le_add_right _ _

/-- A name is read to its end, and a label with its colon. -/
theorem longest_afterNameStart (parts : run.all isNamePart = true) :
    (run <+: rest → run.length ≤ (afterNameStart rest).2) ∧
      (run ++ [':'] <+: rest → afterNameStart rest = (.label, run.length + 1)) := by
  constructor
  · intro start
    have whole := length_le_takeWhile parts start
    simp only [afterNameStart]
    split
    · exact Nat.le_succ_of_le whole
    · exact whole
  · rintro ⟨more, rfl⟩
    have taken : (run ++ [':'] ++ more).takeWhile isNamePart = run := by
      rw [List.append_assoc, List.takeWhile_append_of_pos (List.all_eq_true.mp parts),
        List.singleton_append, List.takeWhile_cons_of_neg (by decide), List.append_nil]
    have coloned : (run ++ [':'] ++ more)[run.length]? = some ':' := by simp
    simp only [afterNameStart, taken, coloned, if_true]

theorem longest_afterZero (kind : TokenKind) {ds : List Char} (numeral : IsNumeral ds)
    (start : 'X' :: ds <+: rest) :
    (afterZero kind rest).1 = kind ∧ ds.length + 1 ≤ (afterZero kind rest).2 := by
  obtain ⟨more, rfl⟩ := start
  have within : ds <+: (ds ++ more).take 4 := by
    rw [List.take_append, List.take_of_length_le numeral.short]
    exact List.prefix_append ds _
  have digits := length_le_takeWhile numeral.digits within
  have filled := List.length_pos_iff.mpr numeral.filled
  have some_digit : (((ds ++ more).take 4).takeWhile isHexDigit).length ≠ 0 := by omega
  simp only [List.cons_append, afterZero, some_digit, if_false]
  exact ⟨trivial, Nat.succ_le_succ digits⟩

theorem pieceAt_name (named : IsName (c :: run)) : pieceAt c rest = afterNameStart rest := by
  obtain ⟨d, others, same, first, _, inside⟩ := named.cons
  obtain ⟨rfl, rfl⟩ := List.cons.inj same
  simp only [pieceAt, inside, first, Bool.false_eq_true, if_false, if_true]

/-- A piece is at least as long as every start of the line that has a pattern. -/
theorem longest_pieceAt (pattern : Pattern kind text) (within : text <+: c :: rest) :
    (pieceAt c rest).1 ≠ .garbage ∧ text.length ≤ (pieceAt c rest).2 + 1 := by
  cases pattern with
  | label named =>
    obtain ⟨d, others, rfl, _, parts, _⟩ := named.cons
    obtain ⟨rfl, start⟩ := List.cons_prefix_cons.mp within
    rw [pieceAt_name named, (longest_afterNameStart parts).2 start]
    simp
  | dotted named =>
    obtain ⟨d, others, rfl, first, parts, _⟩ := named.cons
    obtain ⟨rfl, more, rfl⟩ := List.cons_prefix_cons.mp within
    have dot : pieceAt '.' (d :: others ++ [':'] ++ more) =
        afterDot (d :: (others ++ [':'] ++ more)) := rfl
    rw [dot, afterDot, if_pos first, (longest_afterNameStart parts).2 (List.prefix_append _ more)]
    simp
  | @immediate ds numeral =>
    obtain ⟨rfl, start⟩ := List.cons_prefix_cons.mp within
    have zero : pieceAt '0' rest = afterZero .immediate rest := rfl
    obtain ⟨kind, digits⟩ := longest_afterZero .immediate numeral start
    rw [zero, kind]
    exact ⟨by simp, Nat.succ_le_succ digits⟩
  | @memory ds numeral =>
    obtain ⟨rfl, more, rfl⟩ := List.cons_prefix_cons.mp within
    have dollar : pieceAt '$' ('0' :: 'X' :: ds ++ more) =
        afterDollar ('0' :: ('X' :: ds ++ more)) := rfl
    obtain ⟨kind, digits⟩ := longest_afterZero .memory numeral (List.prefix_append _ more)
    rw [dollar, afterDollar, if_pos rfl]
    simp only [kind]
    exact ⟨by simp, Nat.succ_le_succ (Nat.succ_le_succ digits)⟩
  | @register d others letter parts =>
    obtain ⟨rfl, more, rfl⟩ := List.cons_prefix_cons.mp within
    have dollar : pieceAt '$' (d :: others ++ more) = afterDollar (d :: (others ++ more)) := rfl
    have nonzero : d ≠ '0' := by
      rintro rfl
      cases letter
    rw [dollar, afterDollar, if_neg nonzero, if_pos letter]
    refine ⟨by simp, Nat.succ_le_succ (Nat.succ_le_succ ?_)⟩
    exact length_le_takeWhile parts (List.prefix_append others more)
  | ident named =>
    obtain ⟨d, others, rfl, _, parts, _⟩ := named.cons
    obtain ⟨rfl, start⟩ := List.cons_prefix_cons.mp within
    rw [pieceAt_name named]
    refine ⟨?_, Nat.succ_le_succ ((longest_afterNameStart parts).1 start)⟩
    simp only [afterNameStart]
    split <;> simp
  | separator filled all =>
    obtain ⟨d, others, rfl⟩ := List.exists_cons_of_ne_nil filled
    obtain ⟨rfl, start⟩ := List.cons_prefix_cons.mp within
    rw [List.all_cons, Bool.and_eq_true] at all
    simp only [pieceAt, all.1, if_true]
    exact ⟨by simp, Nat.succ_le_succ (length_le_takeWhile all.2 start)⟩

end Longest

section Scans

variable {line : List Char} {p : Piece} {ps qs : List Piece}

/-- A line is cut into the longest pieces. -/
theorem scan_pieces (line : List Char) : Scan line (pieces line) := by
  fun_induction pieces line with
  | case1 => exact .nil
  | case2 c rest found ih =>
    have whole : c :: rest.take found.2 ++ rest.drop found.2 = c :: rest := by
      rw [List.cons_append, List.take_append_drop]
    have fits : Fits ⟨found.1, c :: rest.take found.2⟩ (c :: rest.take found.2 ++ rest.drop found.2) := by
      refine ⟨List.cons_ne_nil _ _, pattern_pieceAt, fun kind text pattern within => ?_⟩
      rw [whole] at within
      obtain ⟨clean, long⟩ := longest_pieceAt pattern within
      refine ⟨clean, ?_⟩
      have inside : found.2 ≤ rest.length := pieceAt_le c rest
      rw [List.length_cons, List.length_take, Nat.min_eq_left inside]
      exact long
    have scan := Scan.cons fits ih
    rwa [whole] at scan

theorem Scan.flatMap_text (scan : Scan line ps) : ps.flatMap Piece.text = line := by
  induction scan with
  | nil => rfl
  | cons _ _ ih => rw [List.flatMap_cons, ih]

/-- A piece fits the line from where it stands. -/
theorem Scan.fits (scan : Scan line (ps ++ p :: qs)) :
    Fits p (p.text ++ qs.flatMap Piece.text) := by
  induction ps generalizing line with
  | nil =>
    cases scan with
    | cons fits later =>
      rw [later.flatMap_text]
      exact fits
  | cons q rest ih =>
    cases scan with
    | cons _ later => exact ih later

/-- Where garbage begins nothing has a pattern, however much of it is joined. -/
theorem Scan.joinGarbage (scan : Scan line ps) : Scan line (joinGarbage ps) := by
  induction scan with
  | nil => exact .nil
  | @cons p rest ps fits later ih =>
    rw [joinGarbage_cons]
    split
    · next q others joined =>
      rw [joined] at ih
      split
      · next both =>
        cases ih with
        | @cons q rest _ _ behind =>
          rw [← List.append_assoc] at fits ⊢
          refine .cons (p := ⟨.garbage, p.text ++ q.text⟩) ⟨?_, ?_, ?_⟩ behind
          · exact List.append_ne_nil_of_left_ne_nil fits.filled _
          · exact absurd rfl
          · intro kind text pattern within
            exact absurd both.1 (fits.longest kind text pattern within).1
      · exact .cons fits ih
    · next joined =>
      rw [joined] at ih
      exact .cons fits ih

/-- Joined garbage does not touch other garbage. -/
theorem isChain_joinGarbage (ps : List Piece) :
    (Token.joinGarbage ps).IsChain fun p q => p.kind = .garbage → q.kind ≠ .garbage := by
  induction ps with
  | nil => exact .nil
  | cons p rest ih =>
    rw [joinGarbage_cons]
    split
    · next q others joined =>
      rw [joined] at ih
      split
      · next both =>
        cases others with
        | nil => exact List.isChain_singleton _
        | cons r others =>
          obtain ⟨apart, later⟩ := List.isChain_cons_cons.mp ih
          exact List.isChain_cons_cons.mpr ⟨fun _ => apart both.2, later⟩
      · next apart =>
        exact List.isChain_cons_cons.mpr ⟨fun left right => apart ⟨left, right⟩, ih⟩
    · exact List.isChain_singleton p

end Scans

section Bytes

/-- The bytes of a text. -/
def bytes (text : String) : List UInt8 := text.toByteArray.data.toList

theorem length_bytes (text : String) : (bytes text).length = text.utf8ByteSize := rfl

theorem bytes_ofList (cs : List Char) :
    bytes (String.ofList cs) = cs.flatMap String.utf8EncodeChar := by
  rw [bytes, String.toByteArray_ofList, List.utf8Encode, List.data_toByteArray]

/-- Separators are bytes of their own. -/
theorem separator_of_mem_bytes {run : List Char} (all : run.all isSeparator = true) {b : UInt8}
    (mem : b ∈ bytes (String.ofList run)) : b = 0x20 ∨ b = 0x09 ∨ b = 0x2C := by
  rw [bytes_ofList] at mem
  obtain ⟨c, hc, mem⟩ := List.mem_flatMap.mp mem
  rcases separator_cases (List.all_eq_true.mp all c hc) with rfl | rfl | rfl
  · exact Or.inl (List.mem_singleton.mp mem)
  · exact Or.inr (Or.inl (List.mem_singleton.mp mem))
  · exact Or.inr (Or.inr (List.mem_singleton.mp mem))

/-- What stands in a row of parts stands in one of them. -/
theorem exists_of_getElem?_flatMap {α β : Type} {f : α → List β} {xs : List α} {k : Nat} {b : β}
    (h : (xs.flatMap f)[k]? = some b) :
    ∃ before x after, xs = before ++ x :: after ∧ b ∈ f x ∧
      (before.flatMap f).length ≤ k ∧ k < (before.flatMap f).length + (f x).length := by
  induction xs generalizing k with
  | nil => simp at h
  | cons x rest ih =>
    rw [List.flatMap_cons] at h
    by_cases here : k < (f x).length
    · rw [List.getElem?_append_left here] at h
      exact ⟨[], x, rest, rfl, List.mem_of_getElem? h, Nat.zero_le k, by simpa using here⟩
    · rw [List.getElem?_append_right (Nat.le_of_not_lt here)] at h
      obtain ⟨before, y, after, rfl, mem, low, high⟩ := ih h
      refine ⟨x :: before, y, after, rfl, mem, ?_, ?_⟩
      · rw [List.flatMap_cons, List.length_append]
        omega
      · rw [List.flatMap_cons, List.length_append]
        omega

/-- Bytes that some pieces take. -/
def size (ps : List Piece) : Nat := (String.ofList (ps.flatMap Piece.text)).utf8ByteSize

theorem size_append (ps qs : List Piece) : size (ps ++ qs) = size ps + size qs := by
  rw [size, List.flatMap_append, String.ofList_append, String.utf8ByteSize_append, size, size]

theorem size_cons (p : Piece) (ps : List Piece) :
    size (p :: ps) = (String.ofList p.text).utf8ByteSize + size ps := by
  rw [size, List.flatMap_cons, String.ofList_append, String.utf8ByteSize_append, size]

theorem Fits.size_pos {p : Piece} {line : List Char} (fits : Fits p line) :
    0 < (String.ofList p.text).utf8ByteSize := by
  rw [Nat.pos_iff_ne_zero, ne_eq, String.utf8ByteSize_eq_zero_iff, String.ofList_eq_empty_iff]
  exact fits.filled

/-- Every piece but a separator is a token behind the bytes of the pieces before it. -/
theorem mem_place {start : Nat} {ps : List Piece} {t : Token} :
    t ∈ place start ps ↔ ∃ before p after, ps = before ++ p :: after ∧ p.kind ≠ .separator ∧
      t = ⟨p.kind, start + size before, String.ofList p.text⟩ := by
  induction ps generalizing start with
  | nil => simp [place]
  | cons p rest ih =>
    rw [place]
    constructor
    · intro mem
      by_cases sep : p.kind = .separator
      · rw [if_pos sep] at mem
        obtain ⟨before, q, after, rfl, kind, rfl⟩ := ih.mp mem
        exact ⟨p :: before, q, after, rfl, kind, by rw [size_cons, Nat.add_assoc]⟩
      · rw [if_neg sep] at mem
        rcases List.mem_cons.mp mem with rfl | later
        · exact ⟨[], p, rest, rfl, sep, rfl⟩
        · obtain ⟨before, q, after, rfl, kind, rfl⟩ := ih.mp later
          exact ⟨p :: before, q, after, rfl, kind, by rw [size_cons, Nat.add_assoc]⟩
    · rintro ⟨before, q, after, split, kind, rfl⟩
      cases before with
      | nil =>
        obtain ⟨rfl, rfl⟩ := List.cons.inj split
        rw [if_neg kind]
        exact List.mem_cons_self
      | cons r before =>
        obtain ⟨rfl, rfl⟩ := List.cons.inj split
        have later : (⟨q.kind, start + size (p :: before), String.ofList q.text⟩ : Token) ∈
            place (start + (String.ofList p.text).utf8ByteSize) (before ++ q :: after) :=
          ih.mpr ⟨before, q, after, rfl, kind, by rw [size_cons, Nat.add_assoc]⟩
        split
        · exact later
        · exact List.mem_cons_of_mem _ later

/-- Tokens lie one behind the other, with something between garbage and garbage. -/
theorem pairwise_place {start : Nat} {ps : List Piece}
    (filled : ∀ p ∈ ps, 0 < (String.ofList p.text).utf8ByteSize)
    (chain : ps.IsChain fun p q => p.kind = .garbage → q.kind ≠ .garbage) :
    (place start ps).Pairwise fun t u => t.stop ≤ u.start ∧
      (t.kind = .garbage → u.kind = .garbage → t.stop < u.start) := by
  induction ps generalizing start with
  | nil => exact .nil
  | cons p rest ih =>
    obtain ⟨_, filledLater⟩ := List.forall_mem_cons.mp filled
    have later := @ih (start + (String.ofList p.text).utf8ByteSize) filledLater chain.tail
    rw [place]
    split
    · exact later
    · refine List.pairwise_cons.mpr ⟨fun u hu => ?_, later⟩
      obtain ⟨before, q, after, rfl, _, rfl⟩ := mem_place.mp hu
      constructor
      · exact Nat.le_add_right _ _
      · intro left right
        cases before with
        | nil => exact absurd right ((List.isChain_cons_cons.mp chain).1 left)
        | cons r before =>
          have between := filledLater r List.mem_cons_self
          simp only [stop, size_cons]
          omega

end Bytes

/-- Tokens with their spans in the bytes of their line. -/
structure Covers (line : String) (ts : List Token) : Prop where
  filled : ∀ t ∈ ts, t.start < t.stop ∧ t.stop ≤ line.utf8ByteSize
  ordered : ts.Pairwise fun t u => t.stop ≤ u.start
  /-- Bytes outside of all tokens are blanks, tabs and commas. -/
  gaps : ∀ k b, (bytes line)[k]? = some b → (∀ t ∈ ts, ¬(t.start ≤ k ∧ k < t.stop)) →
    b = 0x20 ∨ b = 0x09 ∨ b = 0x2C
  kinds : ∀ t ∈ ts, t.kind ≠ .separator ∧ (t.kind ≠ .garbage → Pattern t.kind t.text.toList)
  /-- A token is a part of the line at its span. Nothing behind a name or a register goes
  on with it, and where garbage begins nothing has a pattern. -/
  stands : ∀ t ∈ ts, ∃ before after, line = before ++ t.text ++ after ∧
    t.start = before.utf8ByteSize ∧
    (t.kind = .ident → ∀ c ∈ after.toList.head?, isNamePart c = false ∧ c ≠ ':') ∧
    (t.kind = .register → ∀ c ∈ after.toList.head?, isRegisterPart c = false) ∧
    (t.kind = .garbage → ∀ kind text, Pattern kind text →
      ¬text <+: t.text.toList ++ after.toList)
  apart : ts.Pairwise fun t u => t.kind = .garbage → u.kind = .garbage → t.stop ≠ u.start

section Ends

variable {p : Piece} {rest : List Char}

/-- A piece is not followed by a character with which it would have a pattern. -/
theorem Fits.ends (fits : Fits p (p.text ++ rest)) {c : Char} (next : c ∈ rest.head?)
    (kind : TokenKind) : ¬Pattern kind (p.text ++ [c]) := by
  intro pattern
  obtain ⟨more, rfl⟩ := List.head?_eq_some_iff.mp next
  have within : p.text ++ [c] <+: p.text ++ c :: more :=
    ⟨more, by rw [List.append_assoc, List.singleton_append]⟩
  have short := (fits.longest kind _ pattern within).2
  rw [List.length_append, List.length_singleton] at short
  omega

theorem Fits.ident_ends (fits : Fits p (p.text ++ rest)) (ident : p.kind = .ident) :
    ∀ c ∈ rest.head?, isNamePart c = false ∧ c ≠ ':' := by
  have pattern := fits.pattern (by rw [ident]; decide)
  rw [ident] at pattern
  intro c next
  cases pattern with
  | ident named =>
    constructor
    · refine Bool.eq_false_iff.mpr fun part => fits.ends next .ident (.ident ⟨?_, ?_⟩)
      · obtain ⟨d, others, text, first, _⟩ := named.cons
        rw [text]
        exact first
      · rw [List.all_append, named.parts]
        simpa using part
    · rintro rfl
      exact fits.ends next .label (.label named)

theorem Fits.register_ends (fits : Fits p (p.text ++ rest)) (register : p.kind = .register) :
    ∀ c ∈ rest.head?, isRegisterPart c = false := by
  have pattern := fits.pattern (by rw [register]; decide)
  rw [register] at pattern
  intro c next
  refine Bool.eq_false_iff.mpr fun part => fits.ends next .register ?_
  generalize p.text = text at pattern
  cases pattern with
  | @register d others letter parts =>
    refine @Pattern.register d (others ++ [c]) letter ?_
    rw [List.all_append, parts]
    simpa using part

end Ends

/-- Pieces that fit their line become tokens that cover it. -/
theorem covers_of_scan {line : String} {ps : List Piece} (scan : Scan line.toList ps) :
    Covers line (place 0 (joinGarbage ps)) := by
  have joined := scan.joinGarbage
  have whole : line = String.ofList ((joinGarbage ps).flatMap Piece.text) := by
    rw [joined.flatMap_text, String.ofList_toList]
  have chain := isChain_joinGarbage ps
  generalize joinGarbage ps = qs at joined whole chain
  have fits : ∀ before p after, qs = before ++ p :: after →
      Fits p (p.text ++ after.flatMap Piece.text) := by
    rintro before p after rfl
    exact joined.fits
  have filled : ∀ p ∈ qs, 0 < (String.ofList p.text).utf8ByteSize := by
    intro p hp
    obtain ⟨before, after, split⟩ := List.append_of_mem hp
    exact (fits before p after split).size_pos
  have pairs := @pairwise_place 0 qs filled chain
  refine
    { filled := fun t ht => ?_
      ordered := pairs.imp And.left
      gaps := fun k b found bare => ?_
      kinds := fun t ht => ?_
      stands := fun t ht => ?_
      apart := pairs.imp fun h left right => Nat.ne_of_lt (h.2 left right) }
  · obtain ⟨before, p, after, rfl, _, rfl⟩ := mem_place.mp ht
    have positive := filled p (List.mem_append_right before List.mem_cons_self)
    have total : line.utf8ByteSize =
        size before + ((String.ofList p.text).utf8ByteSize + size after) := by
      rw [whole, ← size, size_append, size_cons]
    simp only [stop]
    omega
  · rw [whole, bytes_ofList, List.flatMap_assoc] at found
    obtain ⟨before, p, after, rfl, mem, low, high⟩ := exists_of_getElem?_flatMap found
    have length : size before =
        (before.flatMap fun p => p.text.flatMap String.utf8EncodeChar).length := by
      rw [size, ← length_bytes, bytes_ofList, List.flatMap_assoc]
    by_cases sep : p.kind = .separator
    · have pattern := (fits before p after rfl).pattern (by rw [sep]; decide)
      rw [sep] at pattern
      rw [← bytes_ofList] at mem
      cases pattern with
      | separator _ all => exact separator_of_mem_bytes all mem
    · refine absurd ⟨?_, ?_⟩ (bare _ (mem_place.mpr ⟨before, p, after, rfl, sep, rfl⟩))
      · simp only [Nat.zero_add, length]
        exact low
      · rw [← bytes_ofList, length_bytes, ← length] at high
        simpa only [stop, Nat.zero_add] using high
  · obtain ⟨before, p, after, rfl, kind, rfl⟩ := mem_place.mp ht
    refine ⟨kind, fun clean => ?_⟩
    rw [String.toList_ofList]
    exact (fits before p after rfl).pattern clean
  · obtain ⟨before, p, after, rfl, kind, rfl⟩ := mem_place.mp ht
    have here := fits before p after rfl
    refine ⟨String.ofList (before.flatMap Piece.text), String.ofList (after.flatMap Piece.text),
      ?_, Nat.zero_add _, ?_, ?_, ?_⟩
    · rw [whole, List.flatMap_append, List.flatMap_cons, ← List.append_assoc, String.ofList_append,
        String.ofList_append]
    · intro ident
      rw [String.toList_ofList]
      exact here.ident_ends ident
    · intro register
      rw [String.toList_ofList]
      exact here.register_ends register
    · intro garbage kind text pattern within
      rw [String.toList_ofList, String.toList_ofList] at within
      exact (here.longest kind text pattern within).1 garbage

/-- However a line is cut into pieces that fit it, the tokens made of them cover it,
and so do the tokens that are read from it. -/
theorem tokens_cover :
    (∀ (line : String) (ps : List Piece), Scan line.toList ps →
      Covers line (place 0 (joinGarbage ps))) ∧
    ∀ line : String, Covers line (lex line) :=
  ⟨fun _ _ scan => covers_of_scan scan, fun line => covers_of_scan (scan_pieces line.toList)⟩

/-- Three pieces of garbage, one of them two bytes long, are one token. -/
theorem tokens_cover_garbage :
    let line := "MOV, $0X1F%é.$R1"
    let ps : List Piece := [⟨.ident, "MOV".toList⟩, ⟨.separator, ", ".toList⟩,
      ⟨.memory, "$0X1F".toList⟩, ⟨.garbage, ['%']⟩, ⟨.garbage, ['é']⟩, ⟨.garbage, ['.']⟩,
      ⟨.register, "$R1".toList⟩]
    Scan line.toList ps ∧
      Covers line [⟨.ident, 0, "MOV"⟩, ⟨.memory, 5, "$0X1F"⟩, ⟨.garbage, 10, "%é."⟩,
        ⟨.register, 14, "$R1"⟩] := by
  intro line ps
  have cut : pieces line.toList = ps := by decide +kernel
  have placed : place 0 (joinGarbage ps) = [⟨.ident, 0, "MOV"⟩, ⟨.memory, 5, "$0X1F"⟩,
      ⟨.garbage, 10, "%é."⟩, ⟨.register, 14, "$R1"⟩] := by decide +kernel
  have scan : Scan line.toList ps := cut ▸ scan_pieces line.toList
  have covers := tokens_cover.1 line ps scan
  rw [placed] at covers
  exact ⟨scan, covers⟩

end WordMachine.Token
