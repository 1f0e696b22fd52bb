import WordMachine.Proofs.Machine.Stack
import WordMachine.Proofs.Machine.Tracing

/-! Comparisons and the jumps they decide. The left word of a comparison is the
deeper one on the stack and the first operand elsewhere, and both are read before
the flags change, be they the flags themselves. What a comparison records stays
until the next one or a write to the flags register, so every jump up to then is
decided by the order of the two words as unsigned numbers. -/
namespace WordMachine

/-- The operation records how two words compare. -/
def Opcode.compares : Opcode → Bool
  | compareTop | compareRegReg | compareRegMem | compareMemReg => true
  | _ => false

/-- What a jump says of the two words compared last, as unsigned numbers. -/
def Condition.Relates : Condition → Word → Word → Prop
  | .always, _, _ => True
  | .equal, left, right => left.toNat = right.toNat
  | .notEqual, left, right => left.toNat ≠ right.toNat
  | .greater, left, right => left.toNat > right.toNat
  | .less, left, right => left.toNat < right.toNat
  | .greaterOrEqual, left, right => left.toNat ≥ right.toNat
  | .lessOrEqual, left, right => left.toNat ≤ right.toNat

instance (condition : Condition) (left right : Word) :
    Decidable (condition.Relates left right) :=
  match condition with
  | .always => inferInstanceAs (Decidable True)
  | .equal => inferInstanceAs (Decidable (_ = _))
  | .notEqual => inferInstanceAs (Decidable (_ ≠ _))
  | .greater | .less => inferInstanceAs (Decidable (_ < _))
  | .greaterOrEqual | .lessOrEqual => inferInstanceAs (Decidable (_ ≤ _))

namespace Instruction

/-- The instruction compares these two words, which are where it finds them on
the machine before it. -/
inductive Compares (m : Machine) (left right : Word) : Instruction → Prop
  | top : 4 ≤ m.sp.toNat →
      m.memory.readWord (m.layout.stack.start + (m.sp.toNat - 4)) = .ok left →
      m.memory.readWord (m.layout.stack.start + (m.sp.toNat - 2)) = .ok right →
      Compares m left right ⟨.compareTop, .none, rfl⟩
  | registers {r s : Register} : m.get r = left → m.get s = right →
      Compares m left right ⟨.compareRegReg, .regReg r s, rfl⟩
  | rightMemory {r : Register} {address : Word} :
      m.get r = left → m.memory.readWord address.toNat = .ok right →
      Compares m left right ⟨.compareRegMem, .regMem r address, rfl⟩
  | leftMemory {address : Word} {r : Register} :
      m.memory.readWord address.toNat = .ok left → m.get r = right →
      Compares m left right ⟨.compareMemReg, .memReg address r, rfl⟩

/-- The instruction leaves the flags register alone. -/
def KeepsFlags (i : Instruction) : Prop :=
  i.opcode.compares = false ∧ i.destination? ≠ some .flags

instance (i : Instruction) : Decidable i.KeepsFlags := inferInstanceAs (Decidable (_ ∧ _))

theorem KeepsFlags.not_writes {i : Instruction} (keeps : i.KeepsFlags) : ¬i.Writes .flags := by
  obtain ⟨other, unnamed⟩ := keeps
  rintro (named | written)
  · exact unnamed named
  · cases op : i.opcode <;> simp [op, Opcode.writes, Opcode.compares, Register.savedBase,
      Register.savedPointer, Register.returnAddress] at other written

end Instruction

namespace Flags

/-- The flags say how two words compare; the other bits are those of the flags
before. -/
structure Tell (before : Flags) (left right : Word) (f : Flags) : Prop where
  equal : f.equal = true ↔ left.toNat = right.toNat
  less : f.less = true ↔ left.toNat < right.toNat
  greater : f.greater = true ↔ left.toNat > right.toNat
  one : [f.equal, f.less, f.greater].count true = 1
  others : ∀ k, 3 ≤ k → f.bits.bit k = before.bits.bit k

/-- Only the three lowest bits are replaced. -/
theorem bit_record (f : Flags) (outcome : Ordering) {k : Nat} (high : 3 ≤ k) :
    (f.record outcome).bits.bit k = f.bits.bit k := by
  have same : (f.record outcome).bits.toNat >>> 3 = f.bits.toNat >>> 3 := by
    rw [toNat_record]
    cases outcome <;> simp only <;> omega
  obtain ⟨j, rfl⟩ := Nat.exists_eq_add_of_le high
  rw [Word.bit, Nat.shiftRight_add, same, ← Nat.shiftRight_add, Word.bit]

theorem tell_record (f : Flags) (left right : Word) :
    f.Tell left right (f.record (Ord.compare left right)) := by
  have equal : Ord.compare left right = .eq ↔ left.toNat = right.toNat := by
    rw [Std.compare_eq_iff_eq, UInt16.toNat_inj]
  have less : Ord.compare left right = .lt ↔ left.toNat < right.toNat := by
    rw [Std.compare_eq_lt, UInt16.lt_iff_toNat_lt]
  have greater : Ord.compare left right = .gt ↔ left.toNat > right.toNat := by
    rw [Std.compare_eq_gt, UInt16.lt_iff_toNat_lt]
  refine
    { equal := ?_
      less := ?_
      greater := ?_
      one := ?_
      others := fun k => bit_record f _ }
  · rw [equal_record, beq_iff_eq, equal]
  · rw [less_record, beq_iff_eq, less]
  · rw [greater_record, beq_iff_eq, greater]
  · rw [equal_record, less_record, greater_record]
    cases Ord.compare left right <;> rfl

/-- A jump is decided by the order that the flags tell. -/
theorem Tell.holds_iff {before f : Flags} {left right : Word} (tell : before.Tell left right f)
    (condition : Condition) : condition.holds f = true ↔ condition.Relates left right := by
  have equal := tell.equal
  have less := tell.less
  have greater := tell.greater
  cases condition with
  | always => exact ⟨fun _ => trivial, fun _ => rfl⟩
  | equal => exact equal
  | less => exact less
  | greater => exact greater
  | notEqual =>
    rw [Condition.holds, Bool.not_eq_true', ← Bool.not_eq_true, equal]
    rfl
  | greaterOrEqual =>
    rw [Condition.holds, Bool.not_eq_true', ← Bool.not_eq_true, less, Nat.not_lt]
    rfl
  | lessOrEqual =>
    rw [Condition.holds, Bool.not_eq_true', ← Bool.not_eq_true, greater, Nat.not_lt]
    rfl

end Flags

namespace Machine

variable {m n o : Machine} {i : Instruction} {e : Effect} {left right : Word}

/-- A word that is read below the stack pointer lies there. -/
theorem readWord_of_peek {depth w : Word} (read : m.peek depth = .ok w) :
    depth.toNat ≤ m.sp.toNat ∧
      m.memory.readWord (m.layout.stack.start + (m.sp.toNat - depth.toNat)) = .ok w := by
  obtain ⟨deep, _, found⟩ := peek_eq_ok.mp read
  rw [UInt16.toNat_sub_of_le _ _ deep] at found
  exact ⟨UInt16.le_iff_toNat_le.mp deep, found⟩

theorem compares_of_effect (compares : i.opcode.compares = true)
    (effected : m.effect m.pc i = .ok e) :
    ∃ left right, i.Compares m left right ∧ e = m.compare left right := by
  cases i using Instruction.byOpcode with
  | compareTop =>
    simp only [effect, Result.bind_eq_ok, Result.map_eq_ok] at effected
    obtain ⟨left, below, right, top, rfl⟩ := effected
    obtain ⟨deep, below⟩ := readWord_of_peek below
    exact ⟨left, right, .top deep below (readWord_of_peek top).2, rfl⟩
  | compareRegReg r s =>
    cases effected
    exact ⟨_, _, .registers rfl rfl, rfl⟩
  | compareRegMem r address =>
    simp only [effect, Result.map_eq_ok] at effected
    obtain ⟨right, read, rfl⟩ := effected
    exact ⟨_, right, .rightMemory rfl read, rfl⟩
  | compareMemReg address r =>
    simp only [effect, Result.map_eq_ok] at effected
    obtain ⟨left, read, rfl⟩ := effected
    exact ⟨left, _, .leftMemory read rfl, rfl⟩
  | _ => cases compares

/-- A jump is taken or not as the flags before it say, and never fails. -/
theorem jump_step {condition : Condition} {target : Word}
    (jump : m.Executes ⟨.jump condition, .imm target, rfl⟩) :
    m.step.1 = .ok .running ∧
      m.step.2.pc = (if condition.holds m.flags then target else m.pc + 3) ∧
      m.stepEvents = [.instruction m.pc ⟨.jump condition, .imm target, rfl⟩,
        .jump target (condition.holds m.flags)] := by
  have stepped := step_of_executes jump
  simp only [effect] at stepped
  have footprint := footprint_after jump.1 (i := ⟨.jump condition, .imm target, rfl⟩) rfl
  have shown : m.stepEvents = [.instruction m.pc ⟨.jump condition, .imm target, rfl⟩,
      .jump target (condition.holds m.flags)] := by
    simp only [stepEvents, jump.1, jump.2, effect, Bool.false_eq_true, if_false]
    rfl
  rw [stepped]
  cases taken : condition.holds m.flags with
  | true =>
    obtain ⟨running, counter⟩ := footprint.jump target (if_pos taken)
    rw [taken] at running counter shown
    exact ⟨congrArg Except.ok running, counter, shown⟩
  | false =>
    obtain ⟨running, counter⟩ := footprint.next (if_neg (by rw [taken]; decide))
    rw [taken] at running counter shown
    exact ⟨congrArg Except.ok running, counter, shown⟩

/-- A comparison that succeeds, whatever the flags were, decides every jump until
the flags are written again. -/
theorem comparison_decides {status : Status} (executes : m.Executes i)
    (compares : i.opcode.compares = true) (stepped : m.step = (.ok status, n))
    (run : n.RunOf Instruction.KeepsFlags o) :
    ∃ left right, i.Compares m left right ∧ m.flags.Tell left right o.flags ∧
      ∀ condition target, o.Executes ⟨.jump condition, .imm target, rfl⟩ →
        o.step.1 = .ok .running ∧
          o.step.2.pc = (if condition.Relates left right then target else o.pc + 3) ∧
          o.stepEvents = [.instruction o.pc ⟨.jump condition, .imm target, rfl⟩,
            .jump target (decide (condition.Relates left right))] := by
  obtain ⟨e, effected, rfl⟩ := effect_of_step executes stepped
  obtain ⟨left, right, found, rfl⟩ := compares_of_effect compares effected
  have kept : o.flags = (m.after i (m.compare left right)).flags :=
    congrArg Flags.mk (run.get (by decide) fun _ => Instruction.KeepsFlags.not_writes)
  have tell : m.flags.Tell left right o.flags := by
    rw [kept, flags_after_compare]
    exact Flags.tell_record m.flags left right
  refine ⟨left, right, found, tell, fun condition target jump => ?_⟩
  have decided : condition.holds o.flags = decide (condition.Relates left right) := by
    rw [Bool.eq_iff_iff, decide_eq_true_eq, tell.holds_iff]
  obtain ⟨running, counter, shown⟩ := jump_step jump
  rw [decided] at counter shown
  simp only [decide_eq_true_eq] at counter
  exact ⟨running, counter, shown⟩

/-- Flags that are compared with a register are those from before the comparison,
and a register that is written afterwards does not matter. -/
theorem comparison_decides_own_flags :
    let compare : Instruction := ⟨.compareRegReg, .regReg .flags .r1, rfl⟩
    let move : Instruction := ⟨.moveRegImm, .regImm .r1 0xFFFF, rfl⟩
    let jump : Instruction := ⟨.jump .greaterOrEqual, .imm 0, rfl⟩
    let image : Image := ⟨none, [], [compare, move, jump].flatMap Instruction.encode,
      fun _ => rfl, by decide⟩
    ∃ start, ofImage image ⟨16, 4, true, true⟩ = .ok start ∧
      let m := start.set .flags 0x00F3
      let o := m.step.2.step.2
      m.Executes compare ∧ m.step.1 = .ok .running ∧ m.step.2.RunOf Instruction.KeepsFlags o ∧
        o.Executes jump ∧ m.flags.Tell 0x00F3 0 o.flags ∧ o.step.2.pc = 0 := by
  intro compare move jump image
  obtain ⟨start, built⟩ : ∃ start, ofImage image ⟨16, 4, true, true⟩ = .ok start := ⟨_, rfl⟩
  refine ⟨start, built, ?_⟩
  intro m o
  have executes : m.Executes compare := by
    cases built
    exact ⟨rfl, Result.eq_ok_of_toOption (by decide +kernel)⟩
  have compared : m.step.1 = .ok .running := by
    cases built
    exact Result.eq_ok_of_toOption (by decide +kernel)
  have moves : m.step.2.Executes move := by
    cases built
    exact ⟨by decide +kernel, Result.eq_ok_of_toOption (by decide +kernel)⟩
  have moved : m.step.2.step.1 = .ok .running := by
    cases built
    exact Result.eq_ok_of_toOption (by decide +kernel)
  have jumps : o.Executes jump := by
    cases built
    exact ⟨by decide +kernel, Result.eq_ok_of_toOption (by decide +kernel)⟩
  have words : m.get .flags = 0x00F3 ∧ m.get .r1 = 0 := by
    cases built
    exact ⟨by decide +kernel, by decide +kernel⟩
  have run : m.step.2.RunOf Instruction.KeepsFlags o := by
    refine .step .start (fun i executes => ?_) (Prod.ext moved rfl)
    obtain rfl : move = i := executes_unique moves executes
    decide
  obtain ⟨left, right, found, tell, decided⟩ :=
    comparison_decides executes rfl (Prod.ext compared rfl) run
  obtain ⟨left_eq, right_eq⟩ : left = 0x00F3 ∧ right = 0 := by
    have found : Instruction.Compares m left right
        ⟨.compareRegReg, .regReg .flags .r1, rfl⟩ := found
    cases found with
    | registers leftRead rightRead =>
      exact ⟨leftRead.symm.trans words.1, rightRead.symm.trans words.2⟩
  subst left_eq right_eq
  have taken := (decided .greaterOrEqual 0 jumps).2.1
  exact ⟨executes, compared, run, jumps, tell, taken⟩

end Machine

end WordMachine
