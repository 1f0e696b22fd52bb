import WordMachine.Assembly.Statement
import WordMachine.Proofs.Assembly.Reading
import WordMachine.Proofs.Text.Hex

/-! Operands as words. The words of a line are the same whatever separators stand
between them. A text stands for an operand if it is the operand's name or number
in either letter case; it is one word then, and read back as the operand, and
what a token is read as stands in its text. -/
namespace WordMachine

namespace Token

/-- Words with a run of separators between each two. -/
inductive Joined : List String → String → Prop
  | single (word : String) : Joined [word] word
  | cons {rest : List String} {run text : String} (word : String) : run ≠ "" →
      run.toList.all isSeparator = true → Joined rest text →
      Joined (word :: rest) (word ++ run ++ text)

theorem joined_intercalate (w : String) (rest : List String) :
    Joined (w :: rest) (" ".intercalate (w :: rest)) := by
  induction rest generalizing w with
  | nil =>
    rw [String.intercalate_singleton]
    exact .single w
  | cons v rest ih =>
    rw [String.intercalate_cons_cons]
    exact .cons w (by decide) (by decide) (ih v)

variable {kind : TokenKind} {s text : String}

/-- Words are read in capital letters. -/
theorem upper_of_mem_words {w : TokenKind × String} (h : w ∈ words text) :
    Text.upper w.2 = w.2 := by
  obtain ⟨t, ht, rfl⟩ := List.mem_map.mp h
  exact Text.upper_of_mem fun c hc => mem_of_mem_lex ht hc

theorem solid_of_isPlain {c : Char} (plain : isPlain c = true) (inside : isSeparator c = false) :
    Line.Solid c := by
  simp only [isPlain, inside, Bool.false_or, Bool.or_eq_true, beq_iff_eq] at plain
  rcases plain with ((part | rfl) | rfl) | rfl
  · exact solid_of_isNamePart part
  · decide
  · decide
  · decide

/-- A word holds characters and none of them is a separator. -/
theorem IsWord.inside (word : IsWord kind (Text.upper s).toList) :
    s.toList ≠ [] ∧ ∀ c ∈ s.toList, isSeparator c = false := by
  obtain ⟨d, rest, chars, _⟩ := word.piece
  have solid := word.pattern.solid word.meaningful.1
  rw [Text.toList_upper] at chars solid
  refine ⟨fun empty => ?_, fun c hc => ?_⟩
  · rw [empty] at chars
    cases chars
  · have same : isSeparator c.toUpper = isSeparator c := Text.toUpper_invariant (by decide) c
    rw [← same]
    exact (solid c.toUpper (List.mem_map_of_mem hc)).2

/-- A line of one word. -/
theorem words_word (word : IsWord kind (Text.upper s).toList) :
    words s = [(kind, Text.upper s)] := by
  have cut : pieces ((Text.upper s).toList ++ []) = _ := pieces_word word nofun
  rw [List.append_nil, pieces] at cut
  rw [words, map_word_lex, cut, joinGarbage_clean_cons word.meaningful.2,
    List.filter_cons_of_pos (by simpa using word.meaningful.1), List.map_cons,
    String.ofList_toList]
  rfl

/-- A line of words is read as these words, whatever the separators between them. -/
theorem words_joined {ws : List (TokenKind × String)}
    (each : ∀ w ∈ ws, IsWord w.1 (Text.upper w.2).toList) (joined : Joined (ws.map Prod.snd) text) :
    words text = ws.map (fun w => (w.1, Text.upper w.2)) ∧
      ∃ d back, text.toList = d :: back ∧ isSeparator d = false := by
  generalize names : ws.map Prod.snd = texts at joined
  induction joined generalizing ws with
  | single word =>
    obtain ⟨w, rest, rfl, rfl, none⟩ := List.map_eq_cons_iff.mp names
    obtain rfl := List.map_eq_nil_iff.mp none
    have first := each w List.mem_cons_self
    obtain ⟨d, back, chars⟩ := List.exists_cons_of_ne_nil first.inside.1
    refine ⟨words_word first, d, back, chars, first.inside.2 d ?_⟩
    rw [chars]
    exact List.mem_cons_self
  | @cons others run text word filled separators _ ih =>
    obtain ⟨w, rest, rfl, rfl, later⟩ := List.map_eq_cons_iff.mp names
    have first := each w List.mem_cons_self
    have others := fun v hv => each v (List.mem_cons_of_mem w hv)
    obtain ⟨read, d, back, chars, solid⟩ := ih others later
    have last : ∀ c ∈ w.2.toList.getLast?, isSeparator c = false := by
      intro c hc
      exact first.inside.2 c (List.mem_of_mem_getLast? hc)
    have cut : words (String.ofList (w.2.toList ++ run.toList ++ d :: back)) = _ :=
      words_run last (mt String.toList_eq_nil_iff.mp filled) separators solid
    rw [← chars, ← String.toList_append, ← String.toList_append, String.ofList_toList,
      String.ofList_toList, String.ofList_toList] at cut
    obtain ⟨e, front, begin⟩ := List.exists_cons_of_ne_nil first.inside.1
    refine ⟨?_, e, front ++ run.toList ++ text.toList, ?_, first.inside.2 e ?_⟩
    · rw [cut, words_word first, read]
      rfl
    · rw [String.toList_append, String.toList_append, begin]
      rfl
    · rw [begin]
      exact List.mem_cons_self

end Token

theorem Register.name_word (r : Register) :
    Text.upper r.name = r.name ∧ ofName? r.name = some r ∧
      ∃ c rest, r.name.toList = '$' :: c :: rest ∧ Token.isLetter c = true ∧
        rest.all Token.isRegisterPart = true := by
  cases r <;> exact ⟨by decide +kernel, by decide +kernel, _, _, rfl, by decide, by decide⟩

namespace Token

/-- A character with a value is a digit, in capital letters. -/
theorem isHexDigit_toUpper {c : Char} (h : (Hex.digitValue? c).isSome = true) :
    isHexDigit c.toUpper = true := by
  unfold Hex.digitValue? at h
  split_ifs at h with figure capital small
  · have digit : isHexDigit c = true := by
      simp only [isHexDigit, isDigit, figure, decide_true, Bool.and_self, Bool.true_or]
    rwa [toUpper_of_isNamePart (isNamePart_of_isHexDigit digit)]
  · have digit : isHexDigit c = true := by
      simp only [isHexDigit, capital, decide_true, Bool.and_self, Bool.or_true]
    rwa [toUpper_of_isNamePart (isNamePart_of_isHexDigit digit)]
  · have each : ∀ n < 6, isHexDigit (Char.ofNat (n + 97)).toUpper = true := by decide
    have low : 97 ≤ c.toNat := small.1
    have high : c.toNat ≤ 102 := small.2
    have digit := each (c.toNat - 97) (by omega)
    rwa [Nat.sub_add_cancel low, Char.ofNat_toNat] at digit
  · cases h

theorem isNumeral_upper {ds : List Char} {w : Word} (writes : Hex.Writes ds w) :
    IsNumeral (ds.map Char.toUpper) := by
  obtain ⟨filled, digits⟩ := writes.digits
  refine ⟨by simpa using filled, by simpa using writes.short, ?_⟩
  rw [List.all_map, List.all_eq_true]
  exact fun c hc => isHexDigit_toUpper (digits c hc)

/-- A number has the value of its digits, and a dollar sign before it does not count. -/
theorem hexValue?_eq_some {text : String} {ds : List Char} {w : Word} (numeral : IsNumeral ds)
    (chars : text.toList.dropWhile (· == '$') = '0' :: 'X' :: ds) :
    hexValue? text = some w ↔ Hex.value? ds = some w.toNat := by
  have unsigned : ds.head? ≠ some '+' := by
    obtain ⟨c, rest, rfl⟩ := List.exists_cons_of_ne_nil numeral.filled
    rintro ⟨⟩
    cases numeral.digits
  have read : hexValue? text =
      (Hex.value? ds).bind fun n => if n < 0x10000 then some (UInt16.ofNat n) else none := by
    unfold hexValue?
    rw [chars]
    simp only [true_or, if_true]
    split
    · next n found =>
      split at found
      · exact absurd rfl unsigned
      · rw [found, Option.bind_some]
    · next missing =>
      split at missing
      · exact absurd rfl unsigned
      · rw [missing, Option.bind_none]
  rw [read, Option.bind_eq_some_iff]
  constructor
  · rintro ⟨n, value, word⟩
    rw [Option.ite_none_right_eq_some] at word
    obtain ⟨small, same⟩ := word
    rw [value, ← Option.some.inj same, UInt16.toNat_ofNat_of_lt' small]
  · intro value
    have small : w.toNat < 0x10000 := w.toNat_lt
    exact ⟨w.toNat, value, by rw [if_pos small, UInt16.ofNat_toNat]⟩

end Token

namespace Operand

def kind : Operand → TokenKind
  | imm _ => .immediate
  | reg _ => .register
  | mem _ => .memory
  | label _ => .ident

/-- The texts that stand for an operand. -/
inductive Written : Operand → String → Prop
  | imm {w : Word} {x : Char} {ds : List Char} : x.toUpper = 'X' → Hex.Writes ds w →
      Written (.imm w) (String.ofList ('0' :: x :: ds))
  | mem {w : Word} {x : Char} {ds : List Char} : x.toUpper = 'X' → Hex.Writes ds w →
      Written (.mem w) (String.ofList ('$' :: '0' :: x :: ds))
  | reg {r : Register} {s : String} : Text.sameLetters s r.name = true → Written (.reg r) s
  | label {name s : String} : Token.IsName name.toList → Text.sameLetters s name = true →
      Written (.label name) s

theorem written_imm (w : Word) : (imm w).Written (Hex.word w) := by
  have text : Hex.word w = String.ofList ('0' :: 'x' :: Hex.digits 4 w.toNat) := by
    simp [Hex.word, ← String.toList_inj]
  rw [text]
  exact .imm (by decide) (Hex.writes_digits w)

theorem written_mem (w : Word) : (mem w).Written ("$" ++ Hex.word w) := by
  have text : "$" ++ Hex.word w = String.ofList ('$' :: '0' :: 'x' :: Hex.digits 4 w.toNat) := by
    simp [Hex.word, ← String.toList_inj]
  rw [text]
  exact .mem (by decide) (Hex.writes_digits w)

theorem written_reg (r : Register) : (reg r).Written r.name := .reg (Text.sameLetters_iff.mpr rfl)

namespace Written

variable {o : Operand} {s : String}

/-- The text is one word, which is read back as the operand. -/
theorem word_read (written : o.Written s) :
    Token.IsWord o.kind (Text.upper s).toList ∧
      ∀ t : Token, t.kind = o.kind → t.text = Text.upper s → ofToken t = .ok o := by
  cases written with
  | @imm w x ds marked writes =>
    have numeral := Token.isNumeral_upper writes
    have chars : (Text.upper (String.ofList ('0' :: x :: ds))).toList =
        '0' :: 'X' :: ds.map Char.toUpper := by
      rw [Text.toList_upper, String.toList_ofList, List.map_cons, List.map_cons, marked]
      rfl
    refine ⟨by rw [chars]; exact Token.isWord_immediate numeral, fun t kind text => ?_⟩
    have value : Token.hexValue? t.text = some w := by
      rw [Token.hexValue?_eq_some numeral, Hex.value?_upper, writes.value]
      rw [text, chars]
      exact List.dropWhile_cons_of_neg (by decide)
    simp only [ofToken, kind, Operand.kind, value]
  | @mem w x ds marked writes =>
    have numeral := Token.isNumeral_upper writes
    have chars : (Text.upper (String.ofList ('$' :: '0' :: x :: ds))).toList =
        '$' :: '0' :: 'X' :: ds.map Char.toUpper := by
      rw [Text.toList_upper, String.toList_ofList, List.map_cons, List.map_cons, List.map_cons,
        marked]
      rfl
    refine ⟨by rw [chars]; exact Token.isWord_memory numeral, fun t kind text => ?_⟩
    have value : Token.hexValue? t.text = some w := by
      rw [Token.hexValue?_eq_some numeral, Hex.value?_upper, writes.value]
      rw [text, chars, List.dropWhile_cons_of_pos (by decide)]
      exact List.dropWhile_cons_of_neg (by decide)
    simp only [ofToken, kind, Operand.kind, value]
  | @reg r s same =>
    obtain ⟨capital, found, c, rest, chars, first, others⟩ := r.name_word
    rw [Text.sameLetters_iff.mp same, capital]
    refine ⟨by rw [chars]; exact Token.isWord_register first others, fun t kind text => ?_⟩
    simp only [ofToken, kind, Operand.kind, text, found]
  | @label name s named same =>
    rw [Text.sameLetters_iff.mp same, named.upper]
    refine ⟨named.isWord_ident, fun t kind text => ?_⟩
    simp only [ofToken, kind, Operand.kind, text]

theorem word (written : o.Written s) : Token.IsWord o.kind (Text.upper s).toList :=
  written.word_read.1

theorem read (written : o.Written s) {t : Token} (kind : t.kind = o.kind)
    (text : t.text = Text.upper s) : ofToken t = .ok o := written.word_read.2 t kind text

/-- No blank, quote or slash stands in the text. -/
theorem solid (written : o.Written s) : ∀ c ∈ s.toList, Line.Solid c := by
  intro c hc
  have same : decide (Line.Solid c.toUpper) = decide (Line.Solid c) :=
    Text.toUpper_invariant (p := fun c => decide (Line.Solid c)) (by decide) c
  have mem : c.toUpper ∈ (Text.upper s).toList := by
    rw [Text.toList_upper]
    exact List.mem_map_of_mem hc
  obtain ⟨plain, inside⟩ := written.word.pattern.solid written.word.meaningful.1 _ mem
  exact (decide_eq_decide.mp same).mp (Token.solid_of_isPlain plain inside)

end Written

/-- A token stands for the operand that it is read as. -/
theorem written_of_ofToken {t : Token} {o : Operand} (pattern : Token.Pattern t.kind t.text.toList)
    (read : ofToken t = .ok o) : t.kind = o.kind ∧ o.Written t.text := by
  obtain ⟨kind, start, text⟩ := t
  generalize chars : text.toList = cs at pattern
  have own : text = String.ofList cs := by rw [← chars, String.ofList_toList]
  cases kind with
  | immediate =>
    simp only [ofToken] at read
    split at read
    · next w value =>
      cases read
      cases pattern with
      | @immediate ds numeral =>
        have number : text.toList.dropWhile (· == '$') = '0' :: 'X' :: ds := by
          rw [chars]
          exact List.dropWhile_cons_of_neg (by decide)
        rw [Token.hexValue?_eq_some numeral number] at value
        rw [own]
        exact ⟨rfl, .imm (by decide) ⟨numeral.short, value⟩⟩
    · cases read
  | memory =>
    simp only [ofToken] at read
    split at read
    · next w value =>
      cases read
      cases pattern with
      | @memory ds numeral =>
        have number : text.toList.dropWhile (· == '$') = '0' :: 'X' :: ds := by
          rw [chars, List.dropWhile_cons_of_pos (by decide)]
          exact List.dropWhile_cons_of_neg (by decide)
        rw [Token.hexValue?_eq_some numeral number] at value
        rw [own]
        exact ⟨rfl, .mem (by decide) ⟨numeral.short, value⟩⟩
    · cases read
  | register =>
    simp only [ofToken] at read
    split at read
    · next r found =>
      cases read
      rw [Register.ofName?] at found
      have same := List.find?_some found
      exact ⟨rfl, .reg (Text.sameLetters_iff.mpr (Text.sameLetters_iff.mp same).symm)⟩
    · cases read
  | ident =>
    simp only [ofToken] at read
    cases read
    cases pattern with
    | ident named =>
      rw [← chars] at named
      exact ⟨rfl, .label named (Text.sameLetters_iff.mpr rfl)⟩
  | _ => cases read

end Operand

end WordMachine
