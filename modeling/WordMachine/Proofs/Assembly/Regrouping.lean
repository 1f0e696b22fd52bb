import WordMachine.Proofs.Assembly.Alike
import WordMachine.Proofs.Assembly.Table

/-! Declarations in other blocks. In a source that assembles the lines that begin
with a dollar sign are the declarations, and the other lines but for the markers
are the code. When the declarations are put in any order into any blocks between
the lines of code, the source assembles to the same bytes. -/
namespace WordMachine

namespace Token

/-- Joining keeps the kind of the first piece. -/
theorem exists_joinGarbage_cons (p : Piece) (ps : List Piece) :
    ∃ q qs, joinGarbage (p :: ps) = q :: qs ∧ q.kind = p.kind := by
  rw [joinGarbage_cons]
  split
  · split
    · next both => exact ⟨_, _, rfl, both.1.symm⟩
    · exact ⟨_, _, rfl, rfl⟩
  · exact ⟨_, _, rfl, rfl⟩

theorem kind_afterDollar (rest : List Char) :
    (afterDollar rest).1 = .garbage ∨ (afterDollar rest).1 = .memory ∨
      (afterDollar rest).1 = .register := by
  cases rest with
  | nil => exact Or.inl rfl
  | cons c rest =>
    rw [afterDollar]
    split_ifs
    · exact (afterZero_cases .memory rest).imp_right fun number => Or.inl number.1
    · exact Or.inr (Or.inr rfl)
    · exact Or.inl rfl

/-- The first word of a line has the kind of the piece that the line begins with. -/
theorem exists_words_cons {text : String} {c : Char} {rest : List Char}
    (chars : (Text.upper text).toList = c :: rest) (kept : (pieceAt c rest).1 ≠ .separator) :
    ∃ s more, words text = ((pieceAt c rest).1, s) :: more := by
  obtain ⟨q, qs, joined, kind⟩ := exists_joinGarbage_cons
    ⟨(pieceAt c rest).1, c :: rest.take (pieceAt c rest).2⟩ (pieces (rest.drop (pieceAt c rest).2))
  have kind : q.kind = (pieceAt c rest).1 := kind
  have kept : q.kind ≠ .separator := by rwa [kind]
  refine ⟨String.ofList q.text, (qs.filter (·.kind ≠ .separator)).map
    fun p => (p.kind, String.ofList p.text), ?_⟩
  rw [words, map_word_lex, chars, pieces, joined,
    List.filter_cons_of_pos (by simpa using kept), List.map_cons, kind]

/-- A line with a dollar sign in front begins with an operand or with garbage. -/
theorem exists_words_dollar {text : String} (dollar : text.toList.head? = some '$') :
    ∃ w more, words text = w :: more ∧ (w.1 = .garbage ∨ w.1 = .memory ∨ w.1 = .register) := by
  obtain ⟨rest, chars⟩ := List.head?_eq_some_iff.mp dollar
  have capital : (Text.upper text).toList = '$' :: rest.map Char.toUpper := by
    rw [Text.toList_upper, chars]
    rfl
  have kinds := kind_afterDollar (rest.map Char.toUpper)
  have kept : (pieceAt '$' (rest.map Char.toUpper)).1 ≠ .separator := by
    intro separator
    have separator : (afterDollar (rest.map Char.toUpper)).1 = .separator := separator
    rw [separator] at kinds
    simp at kinds
  obtain ⟨s, more, words⟩ := exists_words_cons capital kept
  exact ⟨_, more, words, kinds⟩

end Token

/-- Neither a label nor a statement begins with a dollar sign. -/
theorem Section.undollared_of_labelName? {text name : String} (h : labelName? text = some name) :
    text.toList.head? ≠ some '$' := by
  intro dollar
  obtain ⟨w, more, words, kinds⟩ := Token.exists_words_dollar dollar
  rw [labelName?_eq, words] at h
  split at h
  · next w' alone =>
    split at h
    · next label =>
      cases alone
      rw [label] at kinds
      simp at kinds
    · cases h
  · cases h

theorem Statement.undollared_of_compile {text : String} {chunks : List Chunk}
    (h : compile text = .ok chunks) : text.toList.head? ≠ some '$' := by
  intro dollar
  obtain ⟨w, more, words, kinds⟩ := Token.exists_words_dollar dollar
  obtain ⟨mnemonic, operands, _, ⟨written, _, _, read⟩, _⟩ := reads_of_compile h
  rw [words] at read
  cases read
  simp at kinds

namespace Separation

/-- The lines that begin with a dollar sign. -/
def declarationTexts (lines : List Line) : List String :=
  (lines.filter isDeclaration).map Line.text

/-- The lines that are neither markers nor begin with a dollar sign. -/
def codeTexts (lines : List Line) : List String :=
  (lines.filter fun line => !isMarker line && !isDeclaration line).map Line.text

/-- Lines of code with the declarations in blocks between them. -/
inductive Grouped : (declarations code lines : List String) → Prop
  | nil : Grouped [] [] []
  | code {declarations code lines : List String} (text : String) :
      Grouped declarations code lines → Grouped declarations (text :: code) (text :: lines)
  | block {declarations code lines : List String} {marker : String} (block : List String) :
      Text.sameLetters marker Separation.marker = true → Grouped declarations code lines →
      Grouped (block ++ declarations) code (marker :: (block ++ lines))

theorem undollared_of_isMarker {line : Line} (marked : isMarker line = true) :
    isDeclaration line = false := by
  have capital := congrArg (fun text => text.toList.head?) (Text.sameLetters_iff.mp marked)
  simp only [Text.toList_upper, List.head?_map] at capital
  rw [isDeclaration, beq_eq_false_iff_ne]
  intro dollar
  rw [dollar] at capital
  exact absurd capital (by decide)

theorem mem_code_read {inBlock : Bool} {declarations code lines : List Line} {line : Line}
    (h : line ∈ code) : line ∈ (read inBlock declarations code lines).code := by
  induction lines generalizing inBlock declarations code with
  | nil => exact List.mem_reverse.mpr h
  | cons first rest ih =>
    rw [read]
    split_ifs
    · exact ih h
    · exact ih h
    · exact ih (List.mem_cons_of_mem first h)

/-- Where no code begins with a dollar sign, the lines that do are the declarations. -/
theorem read_eq_filter {inBlock : Bool} {declarations code lines : List Line}
    (undollared : ∀ line ∈ (read inBlock declarations code lines).code,
      isDeclaration line = false) :
    read inBlock declarations code lines =
      ⟨declarations.reverse ++ lines.filter isDeclaration,
        code.reverse ++ lines.filter fun line => !isMarker line && !isDeclaration line⟩ := by
  induction lines generalizing inBlock declarations code with
  | nil => simp only [read, List.filter_nil, List.append_nil]
  | cons line rest ih =>
    rw [read] at undollared ⊢
    split at undollared
    · next marked =>
      rw [if_pos marked, ih undollared]
      simp [marked, undollared_of_isMarker marked]
    · next unmarked =>
      rw [if_neg unmarked]
      split at undollared
      · next inside =>
        rw [if_pos inside, ih undollared]
        simp [(Bool.and_eq_true_iff.mp inside).2]
      · next outside =>
        have own := undollared line (mem_code_read List.mem_cons_self)
        rw [if_neg outside, ih undollared]
        simp [own, unmarked]

/-- Blocks are read as their declarations, and what is between them as code. -/
theorem read_grouped {declared coded texts : List String} (grouped : Grouped declared coded texts)
    (dollars : ∀ text ∈ declared, text.toList.head? = some '$')
    (plain : ∀ text ∈ coded, text.toList.head? ≠ some '$' ∧ Text.sameLetters text marker = false)
    {lines : List Line} (same : lines.map Line.text = texts) (inBlock : Bool)
    (declarations code : List Line) :
    (read inBlock declarations code lines).declarations.map Line.text =
        declarations.reverse.map Line.text ++ declared ∧
      (read inBlock declarations code lines).code.map Line.text =
        code.reverse.map Line.text ++ coded := by
  induction grouped generalizing lines inBlock declarations code with
  | nil =>
    obtain rfl := List.map_eq_nil_iff.mp same
    simp only [read, List.append_nil, and_self]
  | code text _ ih =>
    obtain ⟨line, rest, rfl, own, same⟩ := List.map_eq_cons_iff.mp same
    obtain ⟨⟨undollared, unmarked⟩, plain⟩ := List.forall_mem_cons.mp plain
    have unmarked : isMarker line = false := by rw [isMarker, own, unmarked]
    have undeclared : isDeclaration line = false := by
      rw [isDeclaration, own, beq_eq_false_iff_ne]
      exact undollared
    obtain ⟨declared, coded⟩ := ih dollars plain same false declarations (line :: code)
    rw [read, unmarked, undeclared, Bool.and_false, if_neg Bool.false_ne_true,
      if_neg Bool.false_ne_true]
    refine ⟨declared, ?_⟩
    rw [coded, List.reverse_cons, List.map_append, List.append_assoc, List.map_singleton, own]
    rfl
  | block block marked _ ih =>
    obtain ⟨line, rest, rfl, own, same⟩ := List.map_eq_cons_iff.mp same
    obtain ⟨front, rest, rfl, inside, same⟩ := List.map_eq_append_iff.mp same
    obtain ⟨opened, dollars⟩ := List.forall_mem_append.mp dollars
    have marked : isMarker line = true := by rw [isMarker, own, marked]
    have declares : ∀ line ∈ front, isMarker line = false ∧ isDeclaration line = true := by
      intro line hline
      have dollar : isDeclaration line = true := by
        rw [isDeclaration, beq_iff_eq]
        exact opened _ (inside ▸ List.mem_map_of_mem hline)
      refine ⟨Bool.eq_false_iff.mpr fun marked => ?_, dollar⟩
      rw [undollared_of_isMarker marked] at dollar
      cases dollar
    obtain ⟨declared, coded⟩ := ih dollars plain same true (front.reverse ++ declarations) code
    rw [read, if_pos marked, read_declarations declares]
    refine ⟨?_, coded⟩
    rw [declared, List.reverse_append, List.reverse_reverse, List.map_append, inside,
      List.append_assoc]

end Separation

namespace Assembly

variable {source source' : String} {bytes : List UInt8}

/-- A source that assembles is its declarations, its code and markers. -/
theorem linesOf_eq (h : assemble source = .ok bytes) :
    linesOf source =
      ⟨(Line.normalize source).filter Separation.isDeclaration,
        (Line.normalize source).filter fun line =>
          !Separation.isMarker line && !Separation.isDeclaration line⟩ := by
  refine Separation.read_eq_filter fun line coded => ?_
  rw [Separation.isDeclaration, beq_eq_false_iff_ne]
  rcases coded_of_assemble h line coded with ⟨name, named⟩ | ⟨chunks, compiled⟩
  · exact Section.undollared_of_labelName? named
  · exact Statement.undollared_of_compile compiled

/-- Declarations may be put in any order into blocks between any lines of code. -/
theorem regrouping_immaterial {declarations : List String} (h : assemble source = .ok bytes)
    (moved : declarations.Perm (Separation.declarationTexts (Line.normalize source)))
    (grouped : Separation.Grouped declarations (Separation.codeTexts (Line.normalize source))
      ((Line.normalize source').map Line.text)) :
    assemble source' = .ok bytes := by
  have own := linesOf_eq h
  have dollars : ∀ text ∈ declarations, text.toList.head? = some '$' := by
    intro text htext
    obtain ⟨line, hline, rfl⟩ := List.mem_map.mp (moved.mem_iff.mp htext)
    exact beq_iff_eq.mp (List.mem_filter.mp hline).2
  have plain : ∀ text ∈ Separation.codeTexts (Line.normalize source),
      text.toList.head? ≠ some '$' ∧ Text.sameLetters text Separation.marker = false := by
    intro text htext
    obtain ⟨line, hline, rfl⟩ := List.mem_map.mp htext
    have kept := (List.mem_filter.mp hline).2
    simpa [Separation.isMarker, Separation.isDeclaration, and_comm] using kept
  obtain ⟨declared, coded⟩ := Separation.read_grouped grouped dollars plain rfl false [] []
  refine assemble_of_separation (fun statics done => ?_) ?_ h
  · refine StaticData.declare_perm ?_ done
    rw [linesOf, Separation.ofLines, declared, own]
    exact moved
  · have texts : (linesOf source').code.map Line.text = (linesOf source).code.map Line.text := by
      rw [own]
      exact coded
    have alike : List.Forall₂ Line.Alike ((linesOf source).code.map Line.text)
        ((linesOf source').code.map Line.text) := by
      rw [texts]
      exact List.forall₂_same.mpr fun text _ => Line.Alike.refl text
    rwa [List.forall₂_map_left_iff, List.forall₂_map_right_iff] at alike

/-- One block is split in two, with its declarations swapped and inside a section. -/
theorem regrouping_immaterial_split :
    let source := ".static\n$b: \"B\"\n$a: \"A\"\nLOOP:\nNOOP\nJUMP LOOP"
    let source' :=
      "LOOP:\n.STATIC\n$a: \"A\"\nNOOP\n.Static\n.static // empty before\n$b: \"B\"\nJUMP LOOP"
    ∃ bytes, assemble source = .ok bytes ∧
      ["$a: \"A\"", "$b: \"B\""].Perm (Separation.declarationTexts (Line.normalize source)) ∧
      Separation.Grouped ["$a: \"A\"", "$b: \"B\""] (Separation.codeTexts (Line.normalize source))
        ((Line.normalize source').map Line.text) ∧
      assemble source' = .ok bytes := by
  intro source source'
  have assembles : (assemble source).toOption.isSome = true := by decide +kernel
  obtain ⟨bytes, found⟩ := Option.isSome_iff_exists.mp assembles
  have assembled := Result.eq_ok_of_toOption found
  have declared : Separation.declarationTexts (Line.normalize source) =
      ["$b: \"B\"", "$a: \"A\""] := by decide +kernel
  have coded : Separation.codeTexts (Line.normalize source) = ["LOOP:", "NOOP", "JUMP LOOP"] := by
    decide +kernel
  have lines : (Line.normalize source').map Line.text = ["LOOP:", ".STATIC", "$a: \"A\"", "NOOP",
      ".Static", ".static", "$b: \"B\"", "JUMP LOOP"] := by decide +kernel
  have moved : ["$a: \"A\"", "$b: \"B\""].Perm
      (Separation.declarationTexts (Line.normalize source)) := by
    rw [declared]
    exact .swap _ _ _
  have grouped : Separation.Grouped ["$a: \"A\"", "$b: \"B\""]
      (Separation.codeTexts (Line.normalize source)) ((Line.normalize source').map Line.text) := by
    rw [coded, lines]
    exact .code "LOOP:" (.block ["$a: \"A\""] (by decide) (.code "NOOP" (.block [] (by decide)
      (.block ["$b: \"B\""] (by decide) (.code "JUMP LOOP" .nil)))))
  exact ⟨bytes, assembled, moved, grouped, regrouping_immaterial assembled moved grouped⟩

end Assembly

end WordMachine
