import WordMachine.Proofs.Machine.Footprint

/-! Calls. A call keeps the caller's frame in three registers, and a return takes
it from there. A routine that makes no call of its own and leaves these registers
alone returns to the caller's frame, whatever else it does: the stack pointer and
the stack base it ends with do not matter. Nothing is kept for a second call. -/
namespace WordMachine

/-- An instruction of a routine that leaves its caller's frame alone. -/
def Instruction.InBody (i : Instruction) : Prop :=
  i.opcode ≠ .call ∧ i.opcode ≠ .ret ∧ i.destination? ≠ some Register.savedBase ∧
    i.destination? ≠ some Register.savedPointer ∧ i.destination? ≠ some Register.returnAddress

instance (i : Instruction) : Decidable i.InBody :=
  inferInstanceAs (Decidable (_ ∧ _ ∧ _ ∧ _ ∧ _))

/-- Only a call writes these three whatever its operands are. -/
theorem Opcode.frame_not_mem_writes {op : Opcode} (other : op ≠ .call) :
    Register.savedBase ∉ op.writes ∧ Register.savedPointer ∉ op.writes ∧
      Register.returnAddress ∉ op.writes := by
  cases op with
  | call => exact absurd rfl other
  | _ => simp [writes, Register.savedBase, Register.savedPointer, Register.returnAddress]

namespace Machine

variable {m n : Machine} {i : Instruction}

/-- What a call leaves behind: the caller's frame in three registers, and a new
frame at the stack pointer. -/
structure Entered (m : Machine) (target : Word) (n : Machine) : Prop where
  pc : n.pc = target
  base : n.get .sb = m.sp
  savedBase : n.get Register.savedBase = m.get .sb
  savedPointer : n.get Register.savedPointer = m.sp
  returnAddress : n.get Register.returnAddress = m.pc + 3

theorem call_step {target : Word} (call : m.Executes ⟨.call, .imm target, rfl⟩) :
    m.step.1 = .ok .running ∧ m.Entered target m.step.2 := by
  have stepped := step_of_executes call
  simp only [effect] at stepped
  have footprint := footprint_after call.1 (i := ⟨.call, .imm target, rfl⟩) rfl
  obtain ⟨running, counter⟩ := footprint.jump target rfl
  rw [stepped]
  refine ⟨congrArg Except.ok running, counter, ?_, ?_, ?_, ?_⟩
  all_goals
    rw [get_after _ _ _ (by decide)]
    simp only [applyAll, List.foldl_cons, List.foldl_nil, Change.apply, get_set]
    rfl

/-- A return succeeds and takes the frame from the three registers. -/
theorem ret_step (ret : m.Executes ⟨.ret, .none, rfl⟩) :
    m.step.1 = .ok .running ∧ m.step.2.pc = m.get Register.returnAddress ∧
      m.step.2.get .sb = m.get Register.savedBase ∧
      m.step.2.sp = m.get Register.savedPointer := by
  have stepped := step_of_executes ret
  simp only [effect] at stepped
  have footprint := footprint_after ret.1 (i := ⟨.ret, .none, rfl⟩) rfl
  obtain ⟨running, counter⟩ := footprint.jump _ rfl
  rw [stepped]
  refine ⟨congrArg Except.ok running, counter, ?_, ?_⟩
  · rw [get_after _ _ _ (by decide)]
    simp only [applyAll, List.foldl_cons, List.foldl_nil, Change.apply, get_set]
    rfl
  · rw [sp, get_after _ _ _ (by decide)]
    simp only [applyAll, List.foldl_cons, List.foldl_nil, Change.apply, get_set]
    rfl

/-- The body of a routine keeps what the call left for the return. -/
theorem RunOf.frame {start : Machine} (body : start.RunOf Instruction.InBody n) :
    n.get Register.savedBase = start.get Register.savedBase ∧
      n.get Register.savedPointer = start.get Register.savedPointer ∧
      n.get Register.returnAddress = start.get Register.returnAddress := by
  refine ⟨body.get (by decide) ?_, body.get (by decide) ?_, body.get (by decide) ?_⟩
  all_goals
    rintro i ⟨call, _, base, pointer, address⟩ writes
    obtain ⟨clearBase, clearPointer, clearAddress⟩ := Opcode.frame_not_mem_writes call
    rcases writes with named | written <;> contradiction

/-- However a routine of instructions that leave its caller's frame alone goes on,
its return leads behind the call, to the caller's frame. -/
theorem call_return {target : Word} (call : m.Executes ⟨.call, .imm target, rfl⟩) :
    m.step.1 = .ok .running ∧ m.step.2.pc = target ∧ m.step.2.get .sb = m.sp ∧
      ∀ n, m.step.2.RunOf Instruction.InBody n → n.Executes ⟨.ret, .none, rfl⟩ →
        n.step.1 = .ok .running ∧ n.step.2.get .sb = m.get .sb ∧ n.step.2.sp = m.sp ∧
          n.step.2.pc = m.pc + 3 ∧ (m.Live → n.step.2.pc.toNat = m.pc.toNat + 3) := by
  obtain ⟨running, entered⟩ := call_step call
  refine ⟨running, entered.pc, entered.base, ?_⟩
  intro n body ret
  obtain ⟨base, pointer, address⟩ := body.frame
  obtain ⟨returned, counter, restoredBase, restoredPointer⟩ := ret_step ret
  have back : n.step.2.pc = m.pc + 3 := by rw [counter, address, entered.returnAddress]
  refine ⟨returned, ?_, ?_, back, fun live => ?_⟩
  · rw [restoredBase, base, entered.savedBase]
  · rw [restoredPointer, pointer, entered.savedPointer]
  · have short : m.pc.toNat + 3 ≤ m.layout.programSize := end_of_executes call
    have small : m.layout.programSize ≤ 0xFFFF := live.programSize_le
    have three : (3 : Word).toNat = 3 := rfl
    rw [back, UInt16.toNat_add, three]
    omega

/-- A routine that moves the stack pointer away and returns. -/
theorem call_return_moved :
    let call : Instruction := ⟨.call, .imm 4, rfl⟩
    let move : Instruction := ⟨.moveRegImm, .regImm .sp 8, rfl⟩
    let ret : Instruction := ⟨.ret, .none, rfl⟩
    let image : Image := ⟨none, [], [call, ⟨.halt, .none, rfl⟩, move, ret].flatMap
      Instruction.encode, fun _ => rfl, by decide⟩
    ∃ m, ofImage image ⟨32, 4, true, true⟩ = .ok m ∧ m.Executes call ∧
      let n := m.step.2.step.2
      m.step.2.RunOf Instruction.InBody n ∧ n.sp = 8 ∧ n.Executes ret ∧
        n.step.2.sp = m.sp ∧ n.step.2.pc.toNat = m.pc.toNat + 3 := by
  intro call move ret image
  obtain ⟨m, built⟩ : ∃ m, ofImage image ⟨32, 4, true, true⟩ = .ok m := ⟨_, rfl⟩
  have calls : m.Executes call := by
    cases built
    exact ⟨rfl, Result.eq_ok_of_toOption (by decide +kernel)⟩
  have moves : m.step.2.Executes move := by
    cases built
    exact ⟨rfl, Result.eq_ok_of_toOption (by decide +kernel)⟩
  have moved : m.step.2.step.1 = .ok .running ∧ m.step.2.step.2.sp = 8 := by
    cases built
    exact ⟨Result.eq_ok_of_toOption (by decide +kernel), by decide +kernel⟩
  have returns : m.step.2.step.2.Executes ret := by
    cases built
    exact ⟨by decide +kernel, Result.eq_ok_of_toOption (by decide +kernel)⟩
  have body : m.step.2.RunOf Instruction.InBody m.step.2.step.2 := by
    refine .step .start (fun i executes => ?_) (Prod.ext moved.1 rfl)
    obtain rfl : move = i := executes_unique moves executes
    decide
  obtain ⟨_, _, _, frame⟩ := call_return calls
  obtain ⟨_, _, pointer, _, counter⟩ := frame _ body returns
  exact ⟨m, built, calls, body, moved.2, returns, pointer, counter (.built built)⟩

end Machine

end WordMachine
