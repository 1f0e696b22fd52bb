import WordMachine.Proofs.Assembly.Operand
import WordMachine.Proofs.Instruction.Cases
import WordMachine.Proofs.Result

/-! Spellings of instructions: a mnemonic and operands, in either letter case and
with any separators between them. Every spelling of an instruction compiles to the
instruction, and no text is a spelling of two. -/
namespace WordMachine

namespace Opcode

/-- Mnemonics are names, and tell operations of one shape apart. -/
theorem mnemonic_word (op : Opcode) :
    Token.IsName op.mnemonic.toList ∧ isMnemonic op.mnemonic = true ∧
      lookup? op.mnemonic op.shape = some op := by
  have each : ∀ o ∈ all, o.mnemonic.toList.head?.any Token.isNameStart = true ∧
      o.mnemonic.toList.all Token.isNamePart = true ∧ isMnemonic o.mnemonic = true ∧
      lookup? o.mnemonic o.shape = some o := by
    decide +kernel
  obtain ⟨first, parts, known, found⟩ := each op (mem_all op)
  exact ⟨⟨first, parts⟩, known, found⟩

end Opcode

namespace Statement

variable {op : Opcode} {operands : List (Operand × String)} {text : String}

theorem mapM_ofToken {rest : List Token} (each : ∀ o ∈ operands, o.1.Written o.2)
    (words : rest.map (fun t => (t.kind, t.text)) =
      operands.map fun o => (o.1.kind, Text.upper o.2)) :
    rest.mapM Operand.ofToken = .ok (operands.map Prod.fst) := by
  rw [Result.mapM_eq_ok]
  induction rest generalizing operands with
  | nil =>
    rw [List.map_eq_nil_iff.mp words.symm]
    rfl
  | cons t rest ih =>
    obtain ⟨o, others, rfl, same, words⟩ := List.map_eq_cons_iff.mp words.symm
    obtain ⟨kind, text⟩ := Prod.mk.inj same
    have read := (each o List.mem_cons_self).read kind.symm text.symm
    have ih := ih (fun p hp => each p (List.mem_cons_of_mem o hp)) words.symm
    simp only [List.map_cons, read, ih]

/-- A mnemonic and operands are read one by one, in either letter case and
whatever the separators between them. -/
theorem words_spelled {mnemonic : String} (each : ∀ o ∈ operands, o.1.Written o.2)
    (same : Text.sameLetters mnemonic op.mnemonic = true)
    (joined : Token.Joined (mnemonic :: operands.map Prod.snd) text) :
    Token.words text =
      (.ident, op.mnemonic) :: operands.map fun o => (o.1.kind, Text.upper o.2) := by
  have named := op.mnemonic_word.1
  have capital : Text.upper mnemonic = op.mnemonic := by
    rw [Text.sameLetters_iff.mp same, named.upper]
  have words : ∀ w ∈ (TokenKind.ident, mnemonic) :: operands.map fun o => (o.1.kind, o.2),
      Token.IsWord w.1 (Text.upper w.2).toList := by
    refine List.forall_mem_cons.mpr ⟨?_, List.forall_mem_map.mpr fun o ho => (each o ho).word⟩
    dsimp only
    rw [capital]
    exact named.isWord_ident
  have read := (Token.words_joined words (by rwa [List.map_cons, List.map_map])).1
  rwa [List.map_cons, List.map_map, capital] at read

theorem words_written (each : ∀ o ∈ operands, o.1.Written o.2) :
    Token.words (" ".intercalate (op.mnemonic :: operands.map Prod.snd)) =
      (.ident, op.mnemonic) :: operands.map fun o => (o.1.kind, Text.upper o.2) :=
  words_spelled each (Text.sameLetters_iff.mpr rfl) (Token.joined_intercalate _ _)

/-- A line of the words of a statement is compiled by its operands. -/
theorem compile_of_words (each : ∀ o ∈ operands, o.1.Written o.2)
    (words : Token.words text =
      (.ident, op.mnemonic) :: operands.map fun o => (o.1.kind, Text.upper o.2)) :
    ∃ invalid, compile text = onOperands op.mnemonic invalid (operands.map Prod.fst) := by
  have clean : (Token.lex (Text.upper text)).find? (·.kind == .garbage) = none := by
    refine List.find?_eq_none.mpr fun t ht => ?_
    have mem : t.word ∈ Token.words text := List.mem_map_of_mem ht
    rw [words, List.mem_cons, List.mem_map] at mem
    rw [beq_iff_eq]
    rcases mem with same | ⟨o, ho, same⟩
    · have kind : t.kind = .ident := (Prod.mk.inj same).1
      rw [kind]
      decide
    · have kind : o.1.kind = t.kind := (Prod.mk.inj same).1
      rw [← kind]
      exact (each o ho).word.meaningful.2
  obtain ⟨head, tail, tokens, first, later⟩ := List.map_eq_cons_iff.mp words
  obtain ⟨kind, text⟩ := Prod.mk.inj first
  rw [tokens] at clean
  rw [compile, tokens, ofTokens, clean]
  simp only [kind, ne_eq, not_true_eq_false, if_false, text, op.mnemonic_word.2.1,
    Bool.true_eq_false, mapM_ofToken each later]
  exact ⟨_, rfl⟩

theorem compile_written {chunks : List Chunk} (each : ∀ o ∈ operands, o.1.Written o.2)
    (arranged : ∀ invalid, onOperands op.mnemonic invalid (operands.map Prod.fst) = .ok chunks) :
    compile (" ".intercalate (op.mnemonic :: operands.map Prod.snd)) = .ok chunks := by
  obtain ⟨invalid, compiled⟩ := compile_of_words each (words_written each)
  rw [compiled, arranged]

/-- An instruction does not name a section. -/
theorem labelName?_written (each : ∀ o ∈ operands, o.1.Written o.2) :
    Section.labelName? (" ".intercalate (op.mnemonic :: operands.map Prod.snd)) = none := by
  rw [Section.labelName?_eq, words_written each]
  cases operands <;> rfl

/-- Operands of an instruction that stand for themselves. -/
theorem onOperands_plain {i : Instruction} {operands : List Operand}
    (arranged : Operand.arrange? operands = some (i.operands, none)) (invalid : SyntaxFault) :
    onOperands i.opcode.mnemonic invalid operands = .ok [.ofInstruction i] := by
  have found := i.opcode.mnemonic_word.2.2
  have parts : Instruction.ofParts? i.opcode i.operands = some i :=
    Instruction.ofParts?_eq_some_iff.mpr ⟨rfl, rfl⟩
  unfold onOperands
  split
  · cases arranged
  · simp only [arranged, i.fits, found, Option.bind_some, parts]

/-- A label that stands for the target of a jump or a call. -/
theorem onOperands_label {i : Instruction} (takes : i.opcode.takesLabel = true) (name : String)
    (invalid : SyntaxFault) :
    onOperands i.opcode.mnemonic invalid [.label name] = .ok [.toLabel (i.withTarget 0) name] := by
  have found := i.opcode.mnemonic_word.2.2
  cases i using Instruction.byOpcode with
  | jump condition target =>
    have parts : Instruction.ofParts? (.jump condition) (.imm 0) =
        some ⟨.jump condition, .imm 0, rfl⟩ := rfl
    have shape : (Operands.imm 0).shape = Opcode.shape (.jump condition) := rfl
    simp only [onOperands, Operand.arrange?, shape, found, Option.bind_some, parts]
    rfl
  | call target =>
    have parts : Instruction.ofParts? .call (.imm 0) = some ⟨.call, .imm 0, rfl⟩ := rfl
    have shape : (Operands.imm 0).shape = Opcode.shape .call := rfl
    simp only [onOperands, Operand.arrange?, shape, found, Option.bind_some, parts]
    rfl
  | _ => cases takes

end Statement

/-- The operands in the order they are encoded. -/
def Operands.toList : Operands → List Operand
  | .none => []
  | .imm value => [.imm value]
  | .reg register => [.reg register]
  | .regImm register value => [.reg register, .imm value]
  | .regReg first second => [.reg first, .reg second]
  | .regMem register address => [.reg register, .mem address]
  | .memReg address register => [.mem address, .reg register]

/-- The text of an operand in the text of an instruction. -/
def Operand.text : Operand → String
  | .imm value => Hex.word value
  | .reg register => register.name
  | .mem address => "$" ++ Hex.word address
  | .label name => name

namespace Operands

theorem operandText_eq (operands : Operands) :
    Instruction.operandText operands = operands.toList.map Operand.text := by
  cases operands <;> rfl

theorem written_text (operands : Operands) : ∀ o ∈ operands.toList, o.Written o.text := by
  cases operands <;>
    simp [toList, Operand.text, Operand.written_imm, Operand.written_mem, Operand.written_reg]

end Operands

theorem Operand.arrange?_toList (operands : Operands) :
    arrange? operands.toList = some (operands, none) := by
  cases operands <;> rfl

namespace Instruction

variable {i j : Instruction} {text : String}

/-- The mnemonic and texts of the operands in order, with separators between them. -/
def Spelling (i : Instruction) (text : String) : Prop :=
  ∃ (mnemonic : String) (operands : List (Operand × String)),
    Text.sameLetters mnemonic i.opcode.mnemonic = true ∧
      operands.map Prod.fst = i.operands.toList ∧ (∀ o ∈ operands, o.1.Written o.2) ∧
      Token.Joined (mnemonic :: operands.map Prod.snd) text

theorem spelling_text (i : Instruction) : i.Spelling i.text := by
  refine ⟨i.opcode.mnemonic, i.operands.toList.map fun o => (o, o.text),
    Text.sameLetters_iff.mpr rfl, ?_, List.forall_mem_map.mpr i.operands.written_text, ?_⟩
  · rw [List.map_map]
    exact List.map_id _
  · rw [List.map_map, text, i.operands.operandText_eq]
    exact Token.joined_intercalate _ _

theorem compile_spelling (spelling : i.Spelling text) :
    Statement.compile text = .ok [.ofInstruction i] := by
  obtain ⟨mnemonic, operands, same, own, each, joined⟩ := spelling
  obtain ⟨invalid, compiled⟩ :=
    Statement.compile_of_words each (Statement.words_spelled each same joined)
  rw [compiled, own, Statement.onOperands_plain (Operand.arrange?_toList i.operands)]

theorem encode_injective (same : i.encode = j.encode) : i = j := by
  have first := decode_encode_append i []
  rw [same, decode_encode_append j []] at first
  exact (Except.ok.inj first).symm

/-- Every spelling of an instruction compiles to its bytes, its text is one of
them, and no other instruction has it. -/
theorem compileLine_spelling (i : Instruction) :
    (∀ line : Line, i.Spelling line.text → Statement.compileLine line = .ok [⟨i.encode, none⟩]) ∧
      i.Spelling i.text ∧
      ∀ (j : Instruction) (text : String), i.Spelling text → j.Spelling text → i = j := by
  refine ⟨fun line spelling => ?_, i.spelling_text, fun j text own other => ?_⟩
  · exact Result.mapError_eq_ok.mpr (compile_spelling spelling)
  · have compiled := compile_spelling own
    rw [compile_spelling other] at compiled
    injection compiled with chunks
    injection chunks with chunk
    exact (encode_injective (congrArg Chunk.bytes chunk)).symm

/-- Case, separators and leading zeros are free. -/
theorem compileLine_spelling_mixed :
    let i : Instruction := ⟨.moveRegMem, .regMem .r1 10, rfl⟩
    i.Spelling "mOv ,\t$Reg1,,$0x0a" ∧
      Statement.compileLine ⟨3, "mOv ,\t$Reg1,,$0x0a"⟩ = .ok [⟨[0xA0, 0x00, 0x0A, 0x00], none⟩] ∧
      ¬ Instruction.Spelling ⟨.moveRegImm, .regImm .r1 10, rfl⟩ "mOv ,\t$Reg1,,$0x0a" := by
  intro i
  have operands : ∀ o ∈ [(Operand.reg .r1, "$Reg1"), (.mem 10, "$0x0a")], o.1.Written o.2 := by
    refine List.forall_mem_cons.mpr ⟨.reg (by decide +kernel), List.forall_mem_singleton.mpr ?_⟩
    have digits : Hex.Writes ['0', 'a'] 10 := ⟨by decide, by decide⟩
    exact .mem (x := 'x') (by decide) digits
  have joined : Token.Joined ["mOv", "$Reg1", "$0x0a"] "mOv ,\t$Reg1,,$0x0a" :=
    @Token.Joined.cons _ " ,\t" _ "mOv" (by decide) (by decide)
      (@Token.Joined.cons _ ",," _ "$Reg1" (by decide) (by decide) (.single "$0x0a"))
  have spelling : i.Spelling "mOv ,\t$Reg1,,$0x0a" :=
    ⟨"mOv", _, by decide +kernel, rfl, operands, joined⟩
  refine ⟨spelling, ?_, fun other => ?_⟩
  · have compiled := (compileLine_spelling i).1 ⟨3, "mOv ,\t$Reg1,,$0x0a"⟩ spelling
    have bytes : i.encode = [0xA0, 0x00, 0x0A, 0x00] := by decide
    rwa [bytes] at compiled
  · have same := (compileLine_spelling i).2.2 _ _ spelling other
    exact absurd same (by decide)

end Instruction

end WordMachine
