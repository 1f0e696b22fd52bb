import WordMachine.Proofs.Assembly.Chunk
import WordMachine.Proofs.Assembly.Spelling

/-! The table of operations as the assembler reads it. A line compiles exactly if
its words are a mnemonic and operands of one instruction, a label perhaps standing
for the address of a jump or a call, or an operation with three registers that
does not spoil an operand. -/
namespace WordMachine

namespace Opcode

/-- A mnemonic in capital letters and a shape are those of one operation. -/
theorem lookup?_eq_some {mnemonic : String} {shape : Shape} {op : Opcode}
    (capital : Text.upper mnemonic = mnemonic) :
    lookup? mnemonic shape = some op ↔ op.mnemonic = mnemonic ∧ op.shape = shape := by
  constructor
  · intro found
    rw [lookup?] at found
    have fits := List.find?_some found
    rw [Bool.and_eq_true, beq_iff_eq, Text.sameLetters_iff, op.mnemonic_word.1.upper,
      capital] at fits
    exact fits.symm
  · rintro ⟨rfl, rfl⟩
    exact op.mnemonic_word.2.2

theorem binary?_eq_some {op : Opcode} {b : BinaryOp} : op.binary? = some b ↔ op = binary b := by
  cases op <;> simp [binary?]

end Opcode

theorem Instruction.withTarget_eq_self {i : Instruction} {address : Word}
    (own : i.operands = .imm address) : i.withTarget address = i := by
  obtain ⟨opcode, operands, fits⟩ := i
  obtain rfl := own
  simp only [withTarget, ite_self]

/-- The operands stand for themselves, or a label stands for the only one. -/
theorem Operand.arrange?_eq_some {operands : List Operand} {arranged : Operands}
    {label? : Option String} (h : arrange? operands = some (arranged, label?)) :
    operands = arranged.toList ∧ label? = none ∨
      ∃ name, operands = [.label name] ∧ arranged = .imm 0 ∧ label? = some name := by
  unfold arrange? at h
  split at h <;> cases h
  case h_3 name => exact Or.inr ⟨name, rfl, rfl, rfl⟩
  all_goals exact Or.inl ⟨rfl, rfl⟩

namespace Statement

/-- The words of a line are a mnemonic and operands. -/
def Reads (text mnemonic : String) (operands : List Operand) : Prop :=
  ∃ written : List (Operand × String), written.map Prod.fst = operands ∧
    (∀ o ∈ written, o.1.Written o.2) ∧
      Token.words text = (.ident, mnemonic) :: written.map fun o => (o.1.kind, o.2)

/-- An instruction with its mnemonic and operands. A label may stand for the
address of a jump or a call, which is zero then. -/
inductive Tabled : String → List Operand → Instruction → Option String → Prop
  | plain (i : Instruction) : Tabled i.opcode.mnemonic i.operands.toList i none
  | label {i : Instruction} (name : String) : i.opcode.takesLabel = true → i.operands = .imm 0 →
      Tabled i.opcode.mnemonic [.label name] i (some name)

/-- An operation and three registers, of which the move does not spoil the last. -/
inductive Combined : String → List Operand → Prop
  | three {op : BinaryOp} {d a b : Register} : (d = b → d = a ∨ op.commutative = true) →
      Combined op.name [.reg d, .reg a, .reg b]

variable {text mnemonic : String} {operands : List Operand} {chunks : List Chunk}

theorem exists_written {tokens : List Token}
    (patterns : ∀ t ∈ tokens, Token.Pattern t.kind t.text.toList)
    (read : tokens.map Operand.ofToken = operands.map .ok) :
    ∃ written : List (Operand × String), written.map Prod.fst = operands ∧
      (∀ o ∈ written, o.1.Written o.2) ∧
        tokens.map Token.word = written.map fun o => (o.1.kind, o.2) := by
  induction tokens generalizing operands with
  | nil => exact ⟨[], (List.map_eq_nil_iff.mp read.symm).symm, List.forall_mem_nil _, rfl⟩
  | cons t rest ih =>
    obtain ⟨o, others, rfl, first, later⟩ := List.map_eq_cons_iff.mp read.symm
    obtain ⟨first_pattern, later_patterns⟩ := List.forall_mem_cons.mp patterns
    obtain ⟨kind, own⟩ := Operand.written_of_ofToken first_pattern first.symm
    obtain ⟨written, rfl, each, words⟩ := ih later_patterns later.symm
    refine ⟨(o, t.text) :: written, rfl, List.forall_mem_cons.mpr ⟨own, each⟩, ?_⟩
    rw [List.map_cons, words, List.map_cons, Token.word, kind]

/-- A line that compiles is a mnemonic and operands. -/
theorem reads_of_compile (accepted : compile text = .ok chunks) :
    ∃ mnemonic operands invalid, Reads text mnemonic operands ∧
      onOperands mnemonic invalid operands = .ok chunks := by
  have clean := clean_of_compile accepted
  unfold compile ofTokens at accepted
  split at accepted
  · cases accepted
  · split at accepted
    · cases accepted
    · next first rest lexed =>
      split_ifs at accepted with kind known
      obtain ⟨operands, read, done⟩ := Result.bind_eq_ok.mp accepted
      have patterns : ∀ t ∈ rest, Token.Pattern t.kind t.text.toList := by
        intro t ht
        have mem : t.word ∈ Token.words text := by
          rw [Token.words, lexed]
          exact List.mem_map_of_mem (List.mem_cons_of_mem first ht)
        exact Token.pattern_of_mem_lex mem (clean _ mem)
      obtain ⟨written, own, each, words⟩ := exists_written patterns (Result.mapM_eq_ok.mp read)
      refine ⟨first.text, operands, _, ⟨written, own, each, ?_⟩, done⟩
      rw [Token.words, lexed, List.map_cons, words, Token.word, not_not.mp kind]

theorem Reads.upper_mnemonic (reads : Reads text mnemonic operands) :
    Text.upper mnemonic = mnemonic := by
  obtain ⟨_, _, _, words⟩ := reads
  have mem : (TokenKind.ident, mnemonic) ∈ Token.words text := by
    rw [words]
    exact List.mem_cons_self
  exact Token.upper_of_mem_words mem

theorem Reads.upper_label {name : String} (reads : Reads text mnemonic [.label name]) :
    Text.upper name = name := by
  obtain ⟨written, own, each, _⟩ := reads
  obtain ⟨o, _, rfl, label, _⟩ := List.map_eq_cons_iff.mp own
  have stands := each o List.mem_cons_self
  rw [label] at stands
  cases stands with
  | label named _ => exact named.upper

theorem compile_of_reads {op : Opcode} (reads : Reads text op.mnemonic operands) :
    ∃ invalid, compile text = onOperands op.mnemonic invalid operands := by
  obtain ⟨written, rfl, each, words⟩ := reads
  refine compile_of_words each ?_
  rw [words]
  congr 1
  refine List.map_congr_left fun o ho => ?_
  have mem : (o.1.kind, o.2) ∈ Token.words text := by
    rw [words]
    exact List.mem_cons_of_mem _ (List.mem_map_of_mem ho)
  rw [Token.upper_of_mem_words mem]

theorem onThree_eq_ok {op : BinaryOp} {d a b : Register} :
    (∃ chunks, onThree op d a b = .ok chunks) ↔ (d = b → d = a ∨ op.commutative = true) := by
  unfold onThree
  split_ifs with left right swaps
  · exact ⟨fun _ _ => Or.inl left, fun _ => ⟨_, rfl⟩⟩
  · exact ⟨fun _ _ => Or.inr swaps, fun _ => ⟨_, rfl⟩⟩
  · refine ⟨fun ⟨_, done⟩ => ?_, fun spared => ?_⟩
    · cases done
    · exact (spared right).elim (absurd · left) (absurd · swaps)
  · exact ⟨fun _ same => absurd same right, fun _ => ⟨_, rfl⟩⟩

/-- Three registers make instructions on two. -/
theorem onThree_regReg {op : BinaryOp} {d a b : Register} (done : onThree op d a b = .ok chunks) :
    chunks ≠ [] ∧
      ∀ c ∈ chunks, ∃ i : Instruction, i.opcode.shape = .regReg ∧ c = .ofInstruction i := by
  unfold onThree at done
  split_ifs at done with left right swaps
  · cases done
    exact ⟨List.cons_ne_nil _ _, List.forall_mem_singleton.mpr ⟨_, rfl, rfl⟩⟩
  · cases done
    exact ⟨List.cons_ne_nil _ _, List.forall_mem_singleton.mpr ⟨_, rfl, rfl⟩⟩
  · cases done
    refine ⟨List.cons_ne_nil _ _, List.forall_mem_cons.mpr ⟨⟨_, rfl, rfl⟩, ?_⟩⟩
    exact List.forall_mem_singleton.mpr ⟨_, rfl, rfl⟩

theorem tabled_of_onOperands {invalid : SyntaxFault} (capital : Text.upper mnemonic = mnemonic)
    (done : onOperands mnemonic invalid operands = .ok chunks) :
    (∃ i label?, Tabled mnemonic operands i label?) ∨ Combined mnemonic operands := by
  unfold onOperands at done
  split at done
  · split at done
    · next op found =>
      obtain ⟨_, found, binary⟩ := Option.bind_eq_some_iff.mp found
      obtain rfl := Opcode.binary?_eq_some.mp binary
      obtain ⟨rfl, _⟩ := (Opcode.lookup?_eq_some capital).mp found
      exact Or.inr (.three (onThree_eq_ok.mp ⟨chunks, done⟩))
    · cases done
  · split at done
    · cases done
    · next arranged label? placed =>
      split at done
      · cases done
      · next i found =>
        obtain ⟨op, found, parts⟩ := Option.bind_eq_some_iff.mp found
        obtain ⟨rfl, _⟩ := (Opcode.lookup?_eq_some capital).mp found
        obtain ⟨rfl, rfl⟩ := Instruction.ofParts?_eq_some_iff.mp parts
        obtain ⟨rfl, rfl⟩ | ⟨name, rfl, zero, rfl⟩ := Operand.arrange?_eq_some placed
        · exact Or.inl ⟨i, none, .plain i⟩
        · simp only at done
          split at done
          · next takes => exact Or.inl ⟨i, some name, .label name takes zero⟩
          · cases done

/-- An instruction of the table is compiled to its bytes, and a label is kept for later. -/
theorem compile_tabled {i : Instruction} {label? : Option String}
    (reads : Reads text mnemonic operands) (tabled : Tabled mnemonic operands i label?) :
    compile text = .ok [⟨i.encode, label?.map (Relocation.mk · 1)⟩] := by
  cases tabled with
  | plain =>
    obtain ⟨invalid, compiled⟩ := compile_of_reads reads
    rw [compiled, onOperands_plain (Operand.arrange?_toList i.operands)]
    rfl
  | label name takes zero =>
    obtain ⟨invalid, compiled⟩ := compile_of_reads reads
    rw [compiled, onOperands_label takes, Instruction.withTarget_eq_self zero]
    rfl

theorem compile_combined (reads : Reads text mnemonic operands)
    (combined : Combined mnemonic operands) :
    ∃ chunks, compile text = .ok chunks ∧ chunks ≠ [] ∧
      ∀ c ∈ chunks, ∃ i : Instruction, i.opcode.shape = .regReg ∧ c = .ofInstruction i := by
  cases combined with
  | @three op d a b spared =>
    obtain ⟨chunks, done⟩ := onThree_eq_ok.mpr spared
    have reads : Reads text (Opcode.binary op).mnemonic [.reg d, .reg a, .reg b] := reads
    obtain ⟨invalid, compiled⟩ := compile_of_reads reads
    have found : Opcode.lookup? (Opcode.binary op).mnemonic .regReg = some (.binary op) :=
      (Opcode.binary op).mnemonic_word.2.2
    refine ⟨chunks, ?_, onThree_regReg done⟩
    rw [compiled, ← done]
    simp only [onOperands, found, Option.bind_some, Opcode.binary?]

end Statement

/-- The chunk is one instruction and no more, with a zero in the place of an
address that a label stands for. -/
structure Chunk.Encodes (c : Chunk) (i : Instruction) (label? : Option String) : Prop where
  decoded : Instruction.decode c.bytes = .ok i
  whole : c.bytes.length = i.size
  relocation : c.relocation = label?.map (Relocation.mk · 1)
  placeholder : label?.isSome = true → c.bytes.length = 3 ∧ c.bytes.drop 1 = [0, 0]

theorem Chunk.encodes {i : Instruction} {label? : Option String}
    (zero : label?.isSome = true → i.operands = .imm 0) :
    Encodes ⟨i.encode, label?.map (Relocation.mk · 1)⟩ i label? := by
  have decoded := Instruction.decode_encode_append i []
  rw [List.append_nil] at decoded
  refine ⟨decoded, i.length_encode, rfl, fun labelled => ?_⟩
  have bytes : i.encode = [i.opcode.byte, 0, 0] := by
    rw [Instruction.encode, zero labelled]
    rfl
  rw [bytes]
  exact ⟨rfl, rfl⟩

namespace Statement

/-- The assembler accepts the table of operations and combined operations, and
nothing else. -/
theorem compileLine_accepts (line : Line) :
    ((∃ chunks, compileLine line = .ok chunks) ↔
        (∀ w ∈ Token.words line.text, w.1 ≠ .garbage) ∧
          ∃ mnemonic operands, Reads line.text mnemonic operands ∧
            ((∃ i label?, Tabled mnemonic operands i label?) ∨ Combined mnemonic operands)) ∧
      ∀ mnemonic operands, Reads line.text mnemonic operands →
        (∀ i label?, Tabled mnemonic operands i label? →
          ∃ c, compileLine line = .ok [c] ∧ c.Encodes i label? ∧
            ∀ name ∈ label?, Text.upper name = name) ∧
        (Combined mnemonic operands →
          ∃ chunks, compileLine line = .ok chunks ∧ chunks ≠ [] ∧
            ∀ c ∈ chunks, ∃ i, i.opcode.shape = .regReg ∧ c.Encodes i none) := by
  simp only [compileLine, Result.mapError_eq_ok]
  refine ⟨⟨?_, ?_⟩, fun mnemonic operands reads => ⟨fun i label? tabled => ?_, fun combined => ?_⟩⟩
  · rintro ⟨chunks, accepted⟩
    obtain ⟨mnemonic, operands, invalid, reads, done⟩ := reads_of_compile accepted
    exact ⟨clean_of_compile accepted, mnemonic, operands, reads,
      tabled_of_onOperands reads.upper_mnemonic done⟩
  · rintro ⟨_, mnemonic, operands, reads, ⟨i, label?, tabled⟩ | combined⟩
    · exact ⟨_, compile_tabled reads tabled⟩
    · obtain ⟨chunks, accepted, _⟩ := compile_combined reads combined
      exact ⟨chunks, accepted⟩
  · refine ⟨_, compile_tabled reads tabled, Chunk.encodes ?_, ?_⟩
    · cases tabled with
      | plain => exact fun labelled => absurd labelled Bool.false_ne_true
      | label name takes zero => exact fun _ => zero
    · cases tabled with
      | plain => rintro _ ⟨⟩
      | label name takes zero =>
        rintro _ ⟨⟩
        exact reads.upper_label
  · obtain ⟨chunks, accepted, filled, each⟩ := compile_combined reads combined
    refine ⟨chunks, accepted, filled, fun c hc => ?_⟩
    obtain ⟨i, shape, rfl⟩ := each c hc
    have unlabelled : (none : Option String).isSome = true → i.operands = .imm 0 :=
      fun labelled => absurd labelled Bool.false_ne_true
    exact ⟨i, shape, Chunk.encodes unlabelled⟩

/-- A call to a label, and an operation that spares its last operand by a swap. -/
theorem compileLine_accepts_call :
    Reads "call\t Loop" "CALL" [.label "LOOP"] ∧
      (∃ c, compileLine ⟨5, "call\t Loop"⟩ = .ok [c] ∧
        c.Encodes ⟨.call, .imm 0, rfl⟩ (some "LOOP")) ∧
      Combined "XOR" [.reg .r1, .reg .r2, .reg .r1] ∧
      ∃ chunks, compileLine ⟨6, "Xor $REG1,$reg2,$Reg1"⟩ = .ok chunks := by
  have call : Reads "call\t Loop" "CALL" [.label "LOOP"] := by
    refine ⟨[(.label "LOOP", "LOOP")], rfl, List.forall_mem_singleton.mpr ?_, by decide +kernel⟩
    exact .label ⟨by decide, by decide⟩ (by decide)
  have combined : Combined "XOR" [.reg .r1, .reg .r2, .reg .r1] :=
    @Combined.three .xor .r1 .r2 .r1 fun _ => Or.inr rfl
  have xor : Reads "Xor $REG1,$reg2,$Reg1" "XOR" [.reg .r1, .reg .r2, .reg .r1] := by
    refine ⟨[(.reg .r1, "$REG1"), (.reg .r2, "$REG2"), (.reg .r1, "$REG1")], rfl, ?_,
      by decide +kernel⟩
    simp only [List.forall_mem_cons]
    exact ⟨Operand.written_reg .r1, Operand.written_reg .r2, Operand.written_reg .r1,
      List.forall_mem_nil _⟩
  have tabled : Tabled "CALL" [.label "LOOP"] ⟨.call, .imm 0, rfl⟩ (some "LOOP") :=
    .label (i := ⟨.call, .imm 0, rfl⟩) "LOOP" rfl rfl
  obtain ⟨c, compiled, encodes, _⟩ :=
    ((compileLine_accepts ⟨5, "call\t Loop"⟩).2 _ _ call).1 _ _ tabled
  obtain ⟨chunks, accepted, _⟩ :=
    ((compileLine_accepts ⟨6, "Xor $REG1,$reg2,$Reg1"⟩).2 _ _ xor).2 combined
  exact ⟨call, ⟨c, compiled, encodes⟩, combined, chunks, accepted⟩

end Statement

end WordMachine
