import WordMachine.Assembly.Basic
import WordMachine.Proofs.Result

/-! What compilation makes. Every chunk is the encoding of one instruction, and a
chunk with a relocation is that of a jump or a call, whose address is to be
filled in. -/
namespace WordMachine

namespace Chunk

/-- The instruction a chunk was compiled from. -/
def instruction? (c : Chunk) : Option Instruction := (Instruction.decode c.bytes).toOption

/-- One instruction; a label stands for the target of a jump or a call only. -/
inductive Sound : Chunk → Prop
  | ofInstruction (i : Instruction) : Sound (.ofInstruction i)
  | toLabel {i : Instruction} (label : String) : i.opcode.takesLabel = true → Sound (.toLabel i label)

@[simp] theorem instruction?_ofInstruction (i : Instruction) :
    (ofInstruction i).instruction? = some i := by
  have decoded := Instruction.decode_encode_append i []
  rw [List.append_nil] at decoded
  simp only [instruction?, ofInstruction, decoded, Except.toOption]

@[simp] theorem instruction?_toLabel (i : Instruction) (label : String) :
    (toLabel i label).instruction? = some i := instruction?_ofInstruction i

end Chunk

namespace Statement

theorem sound_onThree {op : BinaryOp} {dest left right : Register} {chunks : List Chunk}
    (h : onThree op dest left right = .ok chunks) : ∀ c ∈ chunks, c.Sound := by
  unfold onThree at h
  split at h
  · cases h
    simp only [List.mem_singleton, forall_eq]
    exact .ofInstruction _
  · split at h
    · split at h
      · cases h
        simp only [List.mem_singleton, forall_eq]
        exact .ofInstruction _
      · cases h
    · cases h
      simp only [List.mem_cons, List.not_mem_nil, or_false, forall_eq_or_imp, forall_eq]
      exact ⟨.ofInstruction _, .ofInstruction _⟩

theorem sound_onOperands {mnemonic : String} {invalid : SyntaxFault} {operands : List Operand}
    {chunks : List Chunk} (h : onOperands mnemonic invalid operands = .ok chunks) :
    ∀ c ∈ chunks, c.Sound := by
  unfold onOperands at h
  split at h
  · split at h
    · exact sound_onThree h
    · cases h
  · split at h
    · cases h
    · split at h
      · cases h
      · split at h
        · cases h
          simp only [List.mem_singleton, forall_eq]
          exact .ofInstruction _
        · split at h
          · next takes =>
            cases h
            simp only [List.mem_singleton, forall_eq]
            exact .toLabel _ takes
          · cases h

theorem sound_ofTokens {tokens : List Token} {chunks : List Chunk}
    (h : ofTokens tokens = .ok chunks) : ∀ c ∈ chunks, c.Sound := by
  unfold ofTokens at h
  split at h
  · cases h
  · split at h
    · cases h
    · split at h
      · cases h
      · split at h
        · cases h
        · obtain ⟨operands, _, h⟩ := Result.bind_eq_ok.mp h
          exact sound_onOperands h

theorem sound_compileLine {line : Line} {chunks : List Chunk}
    (h : compileLine line = .ok chunks) : ∀ c ∈ chunks, c.Sound :=
  sound_ofTokens (Result.mapError_eq_ok.mp h)

end Statement

namespace Assembly

theorem sound_compileSection {s : Section Line} {t : Section Chunk}
    (h : compileSection s = .ok t) : ∀ c ∈ t.body, c.Sound := by
  unfold compileSection at h
  split at h
  · cases h
  · next parts compiled =>
    cases h
    intro c hc
    obtain ⟨chunks, hchunks, hc⟩ := List.mem_flatten.mp hc
    obtain ⟨line, _, hline⟩ := Result.mem_of_mapM compiled hchunks
    exact Statement.sound_compileLine hline c hc

/-- Whatever a source says, its assembly holds instructions. -/
theorem sound_ofSource {source : String} {a : Assembly} (h : ofSource source = .ok a) :
    ∀ s ∈ a.sections, ∀ c ∈ s.body, c.Sound := by
  simp only [ofSource] at h
  split at h
  · cases h
  · split at h
    · cases h
    · split at h
      · cases h
      · next compiled hcompiled =>
        cases h
        intro t ht
        obtain ⟨s, _, hs⟩ := Result.mem_of_mapM hcompiled ht
        exact sound_compileSection hs

end Assembly

end WordMachine
