import WordMachine.Proofs.Machine.Effect

/-! Frames. An instruction stores at most one word, writes the registers that
its operation and its first operand name, and leads to the next instruction, to
its target or to the return address. Once it is decoded, it fails for reasons
of its own only. -/
namespace WordMachine

namespace Instruction

/-- The register an instruction names for its result. -/
def destination? (i : Instruction) : Option Register :=
  match i.opcode, i.operands with
  | .pop, .reg r | .not, .reg r | .moveRegImm, .regImm r _ | .moveRegReg, .regReg r _
  | .moveRegMem, .regMem r _ | .binary _, .regReg r _ => some r
  | _, _ => none

end Instruction

/-- Registers an operation writes whatever its operands are. -/
def Opcode.writes : Opcode → List Register
  | .push | .pushImm | .dup | .pop => [.sp]
  | .ret => [.sb, .sp]
  | .call => [Register.savedBase, Register.savedPointer, Register.returnAddress, .sb]
  | .compareTop | .compareRegReg | .compareRegMem | .compareMemReg => [.flags]
  | _ => []

namespace Fault

/-- There was no instruction to execute at the address. -/
def isDecoding : Fault → Bool
  | illegalOpcode _ _ | invalidRegister _ _ | truncatedInstruction _ => true
  | _ => false

/-- An instruction was there and could not be executed. -/
def inExecution : Fault → Bool
  | divisionByZero _ | memoryOutOfBounds _ | stackOverflow _ | stackUnderflow _ => true
  | _ => false

theorem isDecoding_of_inExecution {fault : Fault} (h : fault.inExecution = true) :
    fault.isDecoding = false := by
  cases fault with
  | illegalOpcode | invalidRegister | truncatedInstruction => cases h
  | _ => rfl

end Fault

theorem Opcode.not_mem_writes (op : Opcode) :
    Register.pc ∉ op.writes ∧ (op ≠ .call → Register.returnAddress ∉ op.writes) := by
  cases op <;>
    simp [writes, Register.savedBase, Register.savedPointer, Register.returnAddress]

namespace Machine

variable {m : Machine} {pc : Word} {fault : Fault}

/-- The bounds of an effect. -/
structure Within (m : Machine) (i : Instruction) (e : Effect) : Prop where
  memory : ∀ c ∈ e.changes, ∀ address ∈ c.address?, address + 1 < m.memory.bytes.size ∧
    (m.config.readonlyProgram = true → m.layout.programSize ≤ address)
  registers : ∀ c ∈ e.changes, ∀ r ∈ c.register?, i.destination? = some r ∨ r ∈ i.opcode.writes
  flow : e.flow = .next ∨ e.flow = .stop ∨ (∃ target ∈ i.target?, e.flow = .jump target) ∨
    i.opcode = .ret ∧ e.flow = .jump (m.get Register.returnAddress)

theorem within_push {w : Word} {changes : List Change} {i : Instruction}
    (h : m.push w = .ok changes) (writes : .sp ∈ i.opcode.writes) :
    m.Within i ⟨.next, changes⟩ := by
  obtain ⟨_, inside, rfl⟩ := push_eq_ok.mp h
  refine ⟨?_, ?_, Or.inl rfl⟩
  · simpa [Change.address?, Layout.stack] using inside
  · simp [Change.register?, writes]

theorem within_write {r : Register} {w : Word} {i : Instruction}
    (named : i.destination? = some r) : m.Within i ⟨.next, [.register r w]⟩ :=
  ⟨by simp [Change.address?], by simp [Change.register?, named], Or.inl rfl⟩

theorem within_compare {left right : Word} {i : Instruction} (writes : .flags ∈ i.opcode.writes) :
    m.Within i (m.compare left right) :=
  ⟨by simp [compare, Change.address?], by simp [compare, Change.register?, writes], Or.inl rfl⟩

theorem within_effect {i : Instruction} {e : Effect} (h : m.effect pc i = .ok e) :
    m.Within i e := by
  cases i using Instruction.byOpcode with
  | noop => cases h; exact ⟨by simp, by simp, Or.inl rfl⟩
  | halt => cases h; exact ⟨by simp [Change.address?], by simp [Change.register?], by simp⟩
  | ret =>
    cases h
    exact ⟨by simp [Change.address?], by simp [Change.register?, Opcode.writes], by simp⟩
  | dup =>
    simp only [effect, Result.map_eq_ok, Result.bind_eq_ok] at h
    obtain ⟨changes, ⟨top, _, h⟩, rfl⟩ := h
    exact within_push h (by simp [Opcode.writes])
  | compareTop =>
    simp only [effect, Result.map_eq_ok, Result.bind_eq_ok] at h
    obtain ⟨left, _, right, _, rfl⟩ := h
    exact within_compare (by simp [Opcode.writes])
  | jump condition target =>
    cases h
    refine ⟨by simp [Change.address?], by simp [Change.register?], ?_⟩
    cases condition.holds m.flags <;> simp [Instruction.target?, Opcode.takesLabel]
  | call target =>
    cases h
    refine ⟨by simp [Change.address?], by simp [Change.register?, Opcode.writes], ?_⟩
    simp [Instruction.target?, Opcode.takesLabel]
  | pushImm w =>
    simp only [effect, Result.map_eq_ok] at h
    obtain ⟨changes, h, rfl⟩ := h
    exact within_push h (by simp [Opcode.writes])
  | push r =>
    simp only [effect, Result.map_eq_ok] at h
    obtain ⟨changes, h, rfl⟩ := h
    exact within_push h (by simp [Opcode.writes])
  | pop r =>
    simp only [effect, Result.map_eq_ok] at h
    obtain ⟨w, _, rfl⟩ := h
    exact ⟨by simp [Change.address?],
      by simp [Change.register?, Opcode.writes, Instruction.destination?], Or.inl rfl⟩
  | not r => cases h; exact within_write rfl
  | moveRegImm r w => cases h; exact within_write rfl
  | moveRegReg r t => cases h; exact within_write rfl
  | moveRegMem r address =>
    simp only [effect, Result.map_eq_ok] at h
    obtain ⟨w, _, rfl⟩ := h
    exact within_write rfl
  | moveMemReg address r =>
    obtain ⟨inside, ⟨_, _, rfl⟩ | ⟨above, rfl⟩⟩ := store_ok h
    · exact ⟨by simp [Change.address?], by simp [Change.register?], by simp⟩
    · have inside : address.toNat + 1 < m.memory.bytes.size := inside
      exact ⟨by simpa [Change.address?] using ⟨inside, above⟩, by simp [Change.register?], Or.inl rfl⟩
  | compareRegReg r t => cases h; exact within_compare (by simp [Opcode.writes])
  | compareRegMem r address =>
    simp only [effect, Result.map_eq_ok] at h
    obtain ⟨w, _, rfl⟩ := h
    exact within_compare (by simp [Opcode.writes])
  | compareMemReg address r =>
    simp only [effect, Result.map_eq_ok] at h
    obtain ⟨w, _, rfl⟩ := h
    exact within_compare (by simp [Opcode.writes])
  | binary op r t =>
    simp only [effect] at h
    split at h
    · cases h
    · cases h
      exact within_write rfl

theorem peek_error {depth : Word} (h : m.peek depth = .error fault) :
    fault.inExecution = true := by
  unfold peek at h
  split at h
  · cases h; rfl
  · split at h
    · cases h; rfl
    · unfold Memory.readWord at h
      split at h
      · cases h
      · cases h; rfl

theorem load_error {address : Word} (h : m.load address = .error fault) :
    fault.inExecution = true := by
  unfold load Memory.readWord at h
  split at h
  · cases h
  · cases h; rfl

theorem push_error {w : Word} (h : m.push w = .error fault) : fault.inExecution = true := by
  simp only [push] at h
  split at h
  · cases h; rfl
  · split at h
    · cases h
    · cases h; rfl

theorem store_error {address w : Word} (h : m.store address w = .error fault) :
    fault.inExecution = true := by
  unfold store at h
  split at h
  · cases h; rfl
  · split at h <;> cases h

/-- An instruction that is there fails as it is executed. -/
theorem effect_error {i : Instruction} (h : m.effect pc i = .error fault) :
    fault.inExecution = true := by
  cases i using Instruction.byOpcode with
  | dup =>
    simp only [effect, Result.map_eq_error, Result.bind_eq_error] at h
    rcases h with h | ⟨top, _, h⟩
    · exact peek_error h
    · exact push_error h
  | compareTop =>
    simp only [effect, Result.map_eq_error, Result.bind_eq_error] at h
    rcases h with h | ⟨left, _, h⟩
    · exact peek_error h
    · exact peek_error h
  | pushImm w => exact push_error (Result.map_eq_error.mp h)
  | push r => exact push_error (Result.map_eq_error.mp h)
  | pop r => exact peek_error (Result.map_eq_error.mp h)
  | moveRegMem r address => exact load_error (Result.map_eq_error.mp h)
  | moveMemReg address r => exact store_error h
  | compareRegMem r address => exact load_error (Result.map_eq_error.mp h)
  | compareMemReg address r => exact load_error (Result.map_eq_error.mp h)
  | binary op r t =>
    simp only [effect] at h
    split at h
    · cases h; rfl
    · cases h
  | _ => cases h

theorem get_set (m : Machine) (r s : Register) (w : Word) :
    (m.set r w).get s = if s = r then w else m.get s := RegisterFile.get_set m.registers r s w

theorem get_change {c : Change} {r : Register} (other : c.register? ≠ some r) :
    (c.apply m).get r = m.get r := by
  cases c with
  | register s w =>
    have apart : r ≠ s := by
      intro same
      exact other (by rw [same]; rfl)
    rw [Change.apply, get_set, if_neg apart]
  | memory address w =>
    simp only [Change.apply]
    split <;> rfl
  | flags left right f =>
    have apart : r ≠ .flags := by
      intro same
      exact other (by rw [same]; rfl)
    rw [Change.apply, get_set, if_neg apart]
  | refuse address w => rfl
  | halt pc => rfl
  | notice event => rfl

/-- Changes leave every register as it is that none of them writes. -/
theorem get_applyAll {changes : List Change} {r : Register}
    (others : ∀ c ∈ changes, c.register? ≠ some r) : (m.applyAll changes).get r = m.get r := by
  induction changes generalizing m with
  | nil => rfl
  | cons c rest ih =>
    have first : (c.apply m).get r = m.get r := get_change (others c List.mem_cons_self)
    exact (ih fun d hd => others d (List.mem_cons_of_mem c hd)).trans first

theorem get_applyAll_of_within {i : Instruction} {e : Effect} {r : Register}
    (within : m.Within i e) (other : i.destination? ≠ some r) (unwritten : r ∉ i.opcode.writes) :
    (m.applyAll e.changes).get r = m.get r := by
  refine get_applyAll fun c hc same => ?_
  rcases within.registers c hc r same with named | written
  · exact other named
  · exact unwritten written

/-- A call leaves the address of the next instruction to return to. -/
theorem returnAddress_of_call {i : Instruction} {e : Effect} (h : m.effect pc i = .ok e)
    (call : i.opcode = .call) :
    (m.applyAll e.changes).get Register.returnAddress = pc + UInt16.ofNat i.size := by
  cases i using Instruction.byOpcode with
  | call target =>
    cases h
    simp only [applyAll, List.foldl_cons, List.foldl_nil, Change.apply, get_set]
    rfl
  | _ => cases call

theorem pc_after (m : Machine) (i : Instruction) (e : Effect) :
    (m.after i e).pc =
      match e.flow with
      | .next => (m.applyAll e.changes).pc + UInt16.ofNat i.size
      | .jump target => target
      | .stop => (m.applyAll e.changes).pc := by
  have moved : (m.after i e).pc = ((m.applyAll e.changes).follow i e.flow).get .pc := rfl
  rw [moved]
  cases e.flow with
  | next => rw [follow, get_set, if_pos rfl]
  | jump target => rw [follow, get_set, if_pos rfl]
  | stop => rfl

theorem get_after (m : Machine) (i : Instruction) (e : Effect) {r : Register} (other : r ≠ .pc) :
    (m.after i e).get r = (m.applyAll e.changes).get r := by
  have moved : (m.after i e).get r = ((m.applyAll e.changes).follow i e.flow).get r := rfl
  rw [moved]
  cases e.flow with
  | next => rw [follow, get_set, if_neg other]
  | jump target => rw [follow, get_set, if_neg other]
  | stop => rfl

theorem memory_after (m : Machine) (i : Instruction) (e : Effect) :
    (m.after i e).memory = (m.applyAll e.changes).memory := by
  rw [after]
  cases e.flow <;> rfl

end Machine

end WordMachine
