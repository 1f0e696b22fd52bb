import WordMachine.Listing.Text
import WordMachine.Proofs.Assembly.Spelling

/-! Instruction lines of a listing compiled again. Every operand of a listed
instruction is written as one word, which is read back as the operand; so the
line compiles to the instruction, with a relocation where the listing names a
label instead of an address. -/
namespace WordMachine

namespace Listing

theorem isName_labelName (n : Nat) : Token.IsName (labelName n).toList := by
  have digits : ∀ c ∈ n.repr.toList, Token.isNamePart c = true := by
    intro c hc
    rw [Nat.toList_repr] at hc
    have digit : Token.isDigit c = true :=
      Nat.isDigit_of_mem_toDigits (by decide) (by decide) hc
    rw [Token.isNamePart, digit, Bool.or_true]
  have chars : (labelName n).toList = "_LABEL_".toList ++ n.repr.toList := by
    rw [labelName, String.toList_append]
  rw [chars]
  refine ⟨rfl, ?_⟩
  rw [List.all_append, Bool.and_eq_true]
  exact ⟨by decide, List.all_eq_true.mpr digits⟩

end Listing

theorem Operand.written_label (n : Nat) :
    (label (Listing.labelName n)).Written (Listing.labelName n) :=
  .label (Listing.isName_labelName n) (Text.sameLetters_iff.mpr rfl)

namespace Listing

/-- The label that stands for the target of an instruction. -/
def targetLabel? (l : Listing) (i : Instruction) : Option String :=
  i.target?.bind fun t => l.label? t.toNat

/-- What the line of an instruction compiles to. -/
def chunk (l : Listing) (i : Instruction) : Chunk :=
  match l.targetLabel? i with
  | some name => .toLabel (i.withTarget 0) name
  | none => .ofInstruction i

/-- The operands of an instruction as its line writes them. -/
def written (l : Listing) (i : Instruction) : List (Operand × String) :=
  match i.operands with
  | .none => []
  | .imm w =>
    match l.targetLabel? i with
    | some name => [(.label name, name)]
    | none => [(.imm w, Hex.word w)]
  | .reg r => [(.reg r, r.name)]
  | .regImm r w => [(.reg r, r.name), (.imm w, Hex.word w)]
  | .regReg r s => [(.reg r, r.name), (.reg s, s.name)]
  | .regMem r w => [(.reg r, r.name), (.mem w, "$" ++ Hex.word w)]
  | .memReg w r => [(.mem w, "$" ++ Hex.word w), (.reg r, r.name)]

theorem operandTexts_plain (l : Listing) (i : Instruction) :
    operandTexts .plain l i = (l.written i).map Prod.snd := by
  simp only [operandTexts, written, Palette.plain, String.empty_append, String.append_empty]
  cases i.operands with
  | imm w =>
    simp only [targetLabel?]
    cases i.target?.bind fun t => l.label? t.toNat <;> rfl
  | _ => rfl

theorem label?_eq_some {l : Listing} {address : Nat} {name : String}
    (h : l.label? address = some name) :
    address ∈ l.labels ∧ name = labelName (l.labels.idxOf address) := by
  unfold label? at h
  split at h
  · next mem =>
    cases h
    exact ⟨mem, rfl⟩
  · cases h

theorem isSome_label?_iff {l : Listing} {address : Nat} :
    (l.label? address).isSome = true ↔ address ∈ l.labels := by
  rw [label?]
  split
  · next mem => simp only [Option.isSome_some, mem]
  · next absent => simp only [Option.isSome_none, Bool.false_eq_true, absent]

theorem written_each (l : Listing) (i : Instruction) : ∀ o ∈ l.written i, o.1.Written o.2 := by
  unfold written
  split
  case h_2 w _ =>
    split
    · next name labelled =>
      obtain ⟨t, _, named⟩ := Option.bind_eq_some_iff.mp labelled
      obtain ⟨_, rfl⟩ := label?_eq_some named
      simpa using Operand.written_label _
    · simpa using Operand.written_imm w
  all_goals simp [Operand.written_imm, Operand.written_mem, Operand.written_reg]

/-- The line of an instruction compiles to its chunk. -/
theorem compile_instructionText (l : Listing) (i : Instruction) :
    Statement.compile (instructionText .plain l i) = .ok [l.chunk i] := by
  rw [instructionText, operandTexts_plain]
  refine Statement.compile_written (l.written_each i) fun invalid => ?_
  cases labelled : l.targetLabel? i with
  | some name =>
    obtain ⟨t, aimed, _⟩ := Option.bind_eq_some_iff.mp labelled
    obtain ⟨operands, takes⟩ := Instruction.target?_eq_some.mp aimed
    simp only [chunk, written, operands, labelled, List.map_cons, List.map_nil]
    exact Statement.onOperands_label takes name invalid
  | none =>
    have single : l.chunk i = .ofInstruction i := by
      rw [chunk, labelled]
    rw [single]
    refine Statement.onOperands_plain ?_ invalid
    rw [written, labelled]
    cases i.operands <;> rfl

end Listing

end WordMachine
