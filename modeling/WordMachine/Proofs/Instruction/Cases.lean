import WordMachine.Instruction.Basic

/-! Case analysis on instructions: one case for every operation, with operands
of its shape. -/
namespace WordMachine.Instruction

@[elab_as_elim]
theorem byOpcode {motive : Instruction → Prop}
    (noop : motive ⟨.noop, .none, rfl⟩)
    (halt : motive ⟨.halt, .none, rfl⟩)
    (ret : motive ⟨.ret, .none, rfl⟩)
    (dup : motive ⟨.dup, .none, rfl⟩)
    (compareTop : motive ⟨.compareTop, .none, rfl⟩)
    (jump : ∀ condition target, motive ⟨.jump condition, .imm target, rfl⟩)
    (call : ∀ target, motive ⟨.call, .imm target, rfl⟩)
    (pushImm : ∀ w, motive ⟨.pushImm, .imm w, rfl⟩)
    (push : ∀ r, motive ⟨.push, .reg r, rfl⟩)
    (pop : ∀ r, motive ⟨.pop, .reg r, rfl⟩)
    (not : ∀ r, motive ⟨.not, .reg r, rfl⟩)
    (moveRegImm : ∀ r w, motive ⟨.moveRegImm, .regImm r w, rfl⟩)
    (moveRegReg : ∀ r s, motive ⟨.moveRegReg, .regReg r s, rfl⟩)
    (moveRegMem : ∀ r address, motive ⟨.moveRegMem, .regMem r address, rfl⟩)
    (moveMemReg : ∀ address r, motive ⟨.moveMemReg, .memReg address r, rfl⟩)
    (compareRegReg : ∀ r s, motive ⟨.compareRegReg, .regReg r s, rfl⟩)
    (compareRegMem : ∀ r address, motive ⟨.compareRegMem, .regMem r address, rfl⟩)
    (compareMemReg : ∀ address r, motive ⟨.compareMemReg, .memReg address r, rfl⟩)
    (binary : ∀ op r s, motive ⟨.binary op, .regReg r s, rfl⟩)
    (i : Instruction) : motive i := by
  obtain ⟨opcode, operands, fits⟩ := i
  cases opcode <;> cases operands <;> first | exact Shape.noConfusion fits | skip
  case noop.none => exact noop
  case halt.none => exact halt
  case ret.none => exact ret
  case dup.none => exact dup
  case compareTop.none => exact compareTop
  case jump.imm => exact jump _ _
  case call.imm => exact call _
  case pushImm.imm => exact pushImm _
  case push.reg => exact push _
  case pop.reg => exact pop _
  case not.reg => exact not _
  case moveRegImm.regImm => exact moveRegImm _ _
  case moveRegReg.regReg => exact moveRegReg _ _
  case moveRegMem.regMem => exact moveRegMem _ _
  case moveMemReg.memReg => exact moveMemReg _ _
  case compareRegReg.regReg => exact compareRegReg _ _
  case compareRegMem.regMem => exact compareRegMem _ _
  case compareMemReg.memReg => exact compareMemReg _ _
  case binary.regReg => exact binary _ _ _

/-- Jumps and calls have a target, and it is all of their operands. -/
theorem target?_eq_some {i : Instruction} {t : Word} :
    i.target? = some t ↔ i.operands = .imm t ∧ i.opcode.takesLabel = true := by
  obtain ⟨opcode, operands, fits⟩ := i
  cases operands with
  | imm w => cases takes : opcode.takesLabel <;> simp [target?, takes]
  | _ => simp [target?]

end WordMachine.Instruction
