import WordMachine.Proofs.Listing.Compile
import WordMachine.Proofs.Machine.Atomicity
import WordMachine.Proofs.Machine.Safety

/-! Arithmetic on three registers. A line with an operation and three registers
is compiled to that operation on two of them, after a move unless two are the
same, and rejected where both the move and a swap would spoil an operand. As long
as the program counter is not involved, executing what the line was compiled to
leaves the result of the operation and changes nothing else. The second of two
instructions reads the program counter later than the first. -/
namespace WordMachine

namespace BinaryOp

variable {op : BinaryOp} {a b : Word}

/-- The operation is a division of whole numbers. -/
def divides : BinaryOp → Bool
  | .arith .half _ => false
  | .arith _ op => op == .div
  | _ => false

theorem eval_eq_none_iff : op.eval a b = none ↔ op.divides = true ∧ b = 0 := by
  cases op with
  | arith view op =>
    rw [eval, Word.arith_eq_none_iff]
    cases view <;> simp [divides]
  | _ => simp [eval, divides]

theorem eval_comm (swaps : op.commutative = true) : op.eval a b = op.eval b a := by
  cases op with
  | arith view op =>
    cases op with
    | add => cases view <;> simp only [eval, Word.arith, UInt16.add_comm a, Half.add_comm a]
    | mul => cases view <;> simp only [eval, Word.arith, UInt16.mul_comm a, Half.mul_comm a]
    | _ => cases swaps
  | or => simp only [eval, UInt16.or_comm a]
  | xor => simp only [eval, UInt16.xor_comm a]
  | and => simp only [eval, UInt16.and_comm a]

end BinaryOp

/-- Of two words for one register the second is left. -/
theorem RegisterFile.set_set (f : RegisterFile) (r : Register) (v w : Word) :
    (f.set r v).set r w = f.set r w := by
  simp only [set, Vector.set_set]

namespace Statement

variable {text : String} {line : Line} {op : BinaryOp} {d a b : Register}

/-- The tokens of the line are an operation and three registers. -/
def SpellsThree (text : String) (op : BinaryOp) (d a b : Register) : Prop :=
  Token.words text =
    [(.ident, op.name), (.register, d.name), (.register, a.name), (.register, b.name)]

/-- The three registers as operands, each with its name. -/
def threeOperands (d a b : Register) : List (Operand × String) :=
  [(.reg d, d.name), (.reg a, a.name), (.reg b, b.name)]

theorem written_three (d a b : Register) : ∀ o ∈ threeOperands d a b, o.1.Written o.2 := by
  simp only [threeOperands, List.forall_mem_cons]
  exact ⟨Operand.written_reg d, Operand.written_reg a, Operand.written_reg b, nofun⟩

theorem spellsThree_iff : SpellsThree text op d a b ↔
    Token.words text = (.ident, (Opcode.binary op).mnemonic) ::
      (threeOperands d a b).map fun o => (o.1.kind, Text.upper o.2) := by
  simp only [threeOperands, List.map_cons, List.map_nil, Operand.kind, d.name_word.1,
    a.name_word.1, b.name_word.1]
  exact Iff.rfl

theorem compile_three (spells : SpellsThree text op d a b) : compile text = onThree op d a b := by
  obtain ⟨invalid, compiled⟩ := compile_of_words (written_three d a b) (spellsThree_iff.mp spells)
  have found : Opcode.lookup? (Opcode.binary op).mnemonic .regReg = some (.binary op) :=
    (Opcode.binary op).mnemonic_word.2.2
  rw [compiled]
  simp only [threeOperands, List.map_cons, List.map_nil, onOperands, found, Option.bind_some,
    Opcode.binary?]

/-- The four names with blanks between them are such a line. -/
theorem spellsThree_plain (op : BinaryOp) (d a b : Register) :
    SpellsThree (" ".intercalate [op.name, d.name, a.name, b.name]) op d a b := by
  have texts : [op.name, d.name, a.name, b.name] =
      (Opcode.binary op).mnemonic :: (threeOperands d a b).map Prod.snd := rfl
  rw [spellsThree_iff, texts, words_written (written_three d a b)]

/-- A line is rejected when the move would spoil the right operand and the
operands cannot be swapped. -/
theorem compileLine_three_eq_error (spells : SpellsThree line.text op d a b) {e : SyntaxError} :
    compileLine line = .error e ↔
      e = ⟨line, .aliasedOperand d⟩ ∧ d = b ∧ d ≠ a ∧ op.commutative = false := by
  rw [compileLine, Result.mapError_eq_error, compile_three spells, onThree]
  by_cases left : d = a
  · simp [left]
  · by_cases right : d = b
    · subst right
      cases swaps : op.commutative <;> simp [left, eq_comm]
    · simp [left, right]

/-- What a line is compiled to: one instruction on two of the registers where one
is enough, or else a move and one instruction. -/
inductive Expansion (op : BinaryOp) (d a b : Register) : List Chunk → Prop
  | left : d = a → Expansion op d a b [apply op d b]
  | right : d ≠ a → d = b → op.commutative = true → Expansion op d a b [apply op d a]
  | apart : d ≠ a → d ≠ b → Expansion op d a b [move d a, apply op d b]

theorem expansion_of_compileLine {chunks : List Chunk} (spells : SpellsThree line.text op d a b)
    (accepted : compileLine line = .ok chunks) : Expansion op d a b chunks := by
  rw [compileLine, Result.mapError_eq_ok, compile_three spells, onThree] at accepted
  split_ifs at accepted with left right swaps
  · cases accepted
    exact .left left
  · cases accepted
    exact .right left right swaps
  · cases accepted
    exact .apart left right

theorem bytes_apply (op : BinaryOp) (d b : Register) : [apply op d b].flatMap Chunk.bytes =
    Instruction.encode ⟨.binary op, .regReg d b, rfl⟩ ++ [] := rfl

theorem bytes_move_apply (op : BinaryOp) (d a b : Register) :
    [move d a, apply op d b].flatMap Chunk.bytes =
      Instruction.encode ⟨.moveRegReg, .regReg d a, rfl⟩ ++
        (Instruction.encode ⟨.binary op, .regReg d b, rfl⟩ ++ []) := rfl

end Statement

namespace Machine

variable {m n : Machine} {i : Instruction} {bytes rest : List UInt8}

/-- The bytes lie at the program counter, in the part of the program that is
executed. -/
structure Loaded (m : Machine) (bytes : List UInt8) : Prop where
  executable : m.config.restrictExecution = true → m.layout.staticSize ≤ m.pc.toNat
  inside : m.pc.toNat + bytes.length ≤ m.layout.programSize
  bytes : m.memory.segment ⟨m.pc.toNat, m.pc.toNat + bytes.length⟩ = bytes

/-- An instruction that is loaded is executed next. -/
theorem Loaded.executes (loaded : m.Loaded (i.encode ++ rest))
    (sized : m.memory.size = m.layout.memorySize) (running : m.isHalted = false) : m.Executes i := by
  obtain ⟨executable, inside, bytes⟩ := loaded
  have fits := m.layout.fits
  have positive := i.size_pos
  rw [List.length_append, Instruction.length_encode] at inside bytes
  refine ⟨running, fetch_eq_ok.mpr ⟨⟨executable, by omega⟩, _, if_pos (by omega), ?_⟩⟩
  let code := m.memory.segment ⟨m.pc.toNat, m.layout.programSize⟩
  have window : m.memory.segment ⟨m.pc.toNat, min (m.pc.toNat + Instruction.maxSize)
      m.layout.programSize⟩ = code.take Instruction.maxSize := by
    simp only [code, Memory.segment_eq, List.take_take]
    congr 1
    omega
  have front : code.take (i.size + rest.length) = i.encode ++ rest := by
    rw [← bytes]
    simp only [code, Memory.segment_eq, List.take_take]
    congr 1
    omega
  rw [window, Instruction.decode_take_iff, ← List.take_append_drop (i.size + rest.length) code,
    front, List.append_assoc]
  exact Instruction.decode_encode_append i _

/-- Behind an instruction that leaves the program alone lies what was loaded
behind it. -/
theorem Loaded.next (loaded : m.Loaded (i.encode ++ rest)) (memory : n.memory = m.memory)
    (layout : n.layout = m.layout) (config : n.config = m.config)
    (counter : n.pc.toNat = m.pc.toNat + i.size) : n.Loaded rest := by
  obtain ⟨executable, inside, bytes⟩ := loaded
  rw [List.length_append, Instruction.length_encode] at inside bytes
  refine ⟨?_, ?_, ?_⟩
  · rw [config, layout, counter]
    intro restricted
    exact Nat.le_add_right_of_le (executable restricted)
  · rw [layout, counter]
    omega
  · rw [memory, counter]
    have behind : m.memory.segment ⟨m.pc.toNat + i.size, m.pc.toNat + i.size + rest.length⟩ =
        (m.memory.segment ⟨m.pc.toNat, m.pc.toNat + (i.size + rest.length)⟩).drop i.size := by
      simp only [Memory.segment_eq, List.drop_take, List.drop_drop]
      congr 1
      omega
    rw [behind, bytes, ← Instruction.length_encode i, List.drop_left]

/-- Within what is loaded the program counter does not wrap around. -/
theorem Loaded.toNat_pc_add (loaded : m.Loaded bytes) (live : m.Live) {k : Nat}
    (within : k ≤ bytes.length) : (m.pc + UInt16.ofNat k).toNat = m.pc.toNat + k := by
  have below := loaded.inside
  have small := live.programSize_le
  simp only [maxPayload] at small
  rw [UInt16.toNat_add, UInt16.toNat_ofNat']
  omega

theorem next_of_executes (executes : m.Executes i) :
    m.next = (m.effect m.pc i).map (m.after i) := by
  rw [next, executes.1, executes.2]
  rfl

/-- The machine after an instruction on two registers that writes this word to the
first. A word written to the program counter is moved on by the size of the
instruction. -/
def wrote (m : Machine) (r : Register) (w : Word) : Machine :=
  { (m.set r w).set .pc ((m.set r w).pc + 3) with count := m.count + 1 }

section Writes

variable {op : BinaryOp} {d a b : Register} {v w : Word}

theorem pc_wrote (m : Machine) (r : Register) (w : Word) :
    (m.wrote r w).pc = (if r = .pc then w else m.pc) + 3 := by
  have counter : (m.wrote r w).pc = (m.set r w).pc + 3 := by
    show ((m.set r w).set .pc ((m.set r w).pc + 3)).get .pc = _
    rw [get_set, if_pos rfl]
  rw [counter, pc, get_set]
  simp only [eq_comm, pc]

theorem get_wrote (m : Machine) (r : Register) (w : Word) {s : Register} (other : s ≠ .pc) :
    (m.wrote r w).get s = if s = r then w else m.get s := by
  show ((m.set r w).set .pc ((m.set r w).pc + 3)).get s = _
  rw [get_set, if_neg other, get_set]

/-- A word written to the program counter is moved on, and nothing else changes. -/
theorem wrote_pc (m : Machine) (w : Word) :
    m.wrote .pc w = { m.set .pc (w + 3) with count := m.count + 1 } := by
  have counter : (m.set .pc w).pc = w := by
    rw [pc, get_set, if_pos rfl]
  rw [wrote, counter]
  exact congrArg (fun registers => { m with registers, count := m.count + 1 })
    (m.registers.set_set .pc w (w + 3))

/-- A word written to another register leaves the program counter behind the
instruction. -/
theorem wrote_eq (m : Machine) {r : Register} (other : r ≠ .pc) (w : Word) :
    m.wrote r w = { (m.set r w).set .pc (m.pc + 3) with count := m.count + 1 } := by
  have counter : (m.set r w).pc = m.pc := by
    rw [pc, get_set, if_neg other.symm, pc]
  rw [wrote, counter]

/-- Of two words that are written to a register the second is left. -/
theorem wrote_wrote (m : Machine) {r : Register} (other : r ≠ .pc) (v w : Word) :
    (m.wrote r v).wrote r w =
      { (m.set r w).set .pc (m.pc + 6) with count := m.count + 2 } := by
  have counter : (m.wrote r v).pc + 3 = m.pc + 6 := by
    rw [pc_wrote, if_neg other, UInt16.add_assoc]
    rfl
  have registers : ∀ x : Word, (((m.registers.set r v).set .pc x).set r w).set .pc (m.pc + 6) =
      (m.registers.set r w).set .pc (m.pc + 6) := by
    intro x
    apply RegisterFile.ext
    intro s
    simp only [RegisterFile.get_set]
    split_ifs <;> rfl
  rw [wrote_eq _ other, counter]
  exact congrArg (fun registers => { m with registers, count := m.count + 2 }) (registers _)

theorem next_binary (executes : m.Executes ⟨.binary op, .regReg d b, rfl⟩)
    (result : op.eval (m.get d) (m.get b) = some w) : m.next = .ok (m.wrote d w) := by
  rw [next_of_executes executes]
  simp only [effect, result]
  rfl

theorem next_binary_error (executes : m.Executes ⟨.binary op, .regReg d b, rfl⟩)
    (none : op.eval (m.get d) (m.get b) = none) : m.next = .error (.divisionByZero m.pc) := by
  rw [next_of_executes executes]
  simp only [effect, none]
  rfl

theorem next_move (executes : m.Executes ⟨.moveRegReg, .regReg d a, rfl⟩) :
    m.next = .ok (m.wrote d (m.get a)) := by
  rw [next_of_executes executes]
  rfl

/-- Behind a move that is not a jump the second instruction of a line is executed. -/
theorem executes_after_move (live : m.Live) (running : m.isHalted = false)
    (loaded : m.Loaded ([Statement.move d a, Statement.apply op d b].flatMap Chunk.bytes))
    (straight : (m.wrote d (m.get a)).pc = m.pc + 3) :
    m.next = .ok (m.wrote d (m.get a)) ∧
      (m.wrote d (m.get a)).Executes ⟨.binary op, .regReg d b, rfl⟩ := by
  rw [Statement.bytes_move_apply] at loaded
  have counter : (m.wrote d (m.get a)).pc.toNat = m.pc.toNat + 3 := by
    rw [straight]
    refine loaded.toNat_pc_add live (k := 3) ?_
    rw [List.length_append, Instruction.length_encode]
    exact Nat.le_add_right 3 _
  have behind : (m.wrote d (m.get a)).Loaded
      (Instruction.encode ⟨.binary op, .regReg d b, rfl⟩ ++ []) :=
    loaded.next rfl rfl rfl counter
  exact ⟨next_move (loaded.executes live.sized running), behind.executes live.sized running⟩

/-- What the instructions of a line leave that computes a word for a register: they
are executed one after the other and only the register has changed; or, if there
is no such word, the last of them reports a division by zero. -/
def Leaves (m : Machine) (chunks : List Chunk) (d : Register) : Option Word → Prop
  | none => (m.run chunks.length).1 =
      .error (.divisionByZero (m.pc + UInt16.ofNat (3 * (chunks.length - 1))))
  | some w => m.run chunks.length = (.ok chunks.length,
      { (m.set d w).set .pc (m.pc + UInt16.ofNat (chunks.flatMap Chunk.bytes).length) with
        count := m.count + chunks.length })

theorem executes_apply (live : m.Live) (running : m.isHalted = false)
    (loaded : m.Loaded ([Statement.apply op d b].flatMap Chunk.bytes)) :
    m.Executes ⟨.binary op, .regReg d b, rfl⟩ := by
  rw [Statement.bytes_apply] at loaded
  exact loaded.executes live.sized running

/-- One instruction computes its result from what the registers hold. -/
theorem leaves_apply (dest : d ≠ .pc) (live : m.Live) (running : m.isHalted = false)
    (loaded : m.Loaded ([Statement.apply op d b].flatMap Chunk.bytes)) :
    m.Leaves [Statement.apply op d b] d (op.eval (m.get d) (m.get b)) := by
  have executes := executes_apply live running loaded
  cases result : op.eval (m.get d) (m.get b) with
  | none =>
    show (m.run 1).1 = .error (.divisionByZero (m.pc + 0))
    rw [UInt16.add_zero, run_of_next_error running (next_binary_error executes result)]
  | some w =>
    show m.run 1 = (.ok 1, { (m.set d w).set .pc (m.pc + 3) with count := m.count + 1 })
    rw [run_of_next running (next_binary executes result), run_zero, wrote_eq m dest w]
    rfl

/-- The second of two instructions finds the left operand in the destination, and
the right one as the move has left it. -/
theorem leaves_move_apply (dest : d ≠ .pc) (live : m.Live) (running : m.isHalted = false)
    (loaded : m.Loaded ([Statement.move d a, Statement.apply op d b].flatMap Chunk.bytes)) :
    m.Leaves [Statement.move d a, Statement.apply op d b] d
      (op.eval (m.get a) ((m.wrote d (m.get a)).get b)) := by
  have straight : (m.wrote d (m.get a)).pc = m.pc + 3 := by
    rw [pc_wrote, if_neg dest]
  obtain ⟨moved, executes⟩ := executes_after_move live running loaded straight
  have left : (m.wrote d (m.get a)).get d = m.get a := by
    rw [get_wrote _ _ _ dest, if_pos rfl]
  cases result : op.eval (m.get a) ((m.wrote d (m.get a)).get b) with
  | none =>
    show (m.run 2).1 = .error (.divisionByZero (m.pc + 3))
    have faults := next_binary_error executes (by rw [left, result])
    rw [run_of_next running moved, run_of_next_error executes.1 faults, straight]
    rfl
  | some w =>
    show m.run 2 = (.ok 2, { (m.set d w).set .pc (m.pc + 6) with count := m.count + 2 })
    have computes := next_binary executes (by rw [left, result])
    rw [run_of_next running moved, run_of_next executes.1 computes, run_zero, wrote_wrote m dest]
    rfl

/-- One instruction may write to the program counter, too. -/
theorem run_apply (live : m.Live) (running : m.isHalted = false)
    (loaded : m.Loaded ([Statement.apply op d b].flatMap Chunk.bytes))
    (result : op.eval (m.get d) (m.get b) = some w) :
    m.run 1 = (.ok 1,
      { (m.set d w).set .pc ((if d = .pc then w else m.pc) + 3) with count := m.count + 1 }) := by
  have counter : (if d = .pc then w else m.pc) = (m.set d w).pc := by
    rw [pc, pc, get_set]
    simp only [eq_comm]
  have computes := next_binary (executes_apply live running loaded) result
  rw [run_of_next running computes, run_zero, counter]
  rfl

/-- The second of two instructions reads the program counter when it has moved on
by three, which is then not zero. -/
theorem run_move_apply_counter (dest : d ≠ .pc) (live : m.Live) (running : m.isHalted = false)
    (loaded : m.Loaded ([Statement.move d a, Statement.apply op d .pc].flatMap Chunk.bytes)) :
    ∃ w, op.eval (m.get a) (m.pc + 3) = some w ∧
      m.run 2 = (.ok 2, { (m.set d w).set .pc (m.pc + 6) with count := m.count + 2 }) := by
  have moved : (m.wrote d (m.get a)).get .pc = m.pc + 3 := by
    show (m.wrote d (m.get a)).pc = m.pc + 3
    rw [pc_wrote, if_neg dest]
  have leaves := leaves_move_apply dest live running loaded
  rw [moved] at leaves
  have counted : (m.pc + 3).toNat = m.pc.toNat + 3 :=
    loaded.toNat_pc_add live (Nat.le_add_right 3 3)
  have nonzero : m.pc + 3 ≠ 0 := by
    intro zero
    rw [zero] at counted
    cases counted
  cases result : op.eval (m.get a) (m.pc + 3) with
  | none => exact absurd (BinaryOp.eval_eq_none_iff.mp result).2 nonzero
  | some w =>
    rw [result] at leaves
    exact ⟨w, rfl, leaves⟩

/-- A move to the program counter is a jump. -/
theorem run_jump (live : m.Live) (running : m.isHalted = false)
    (loaded : m.Loaded ([Statement.move .pc a, Statement.apply op .pc b].flatMap Chunk.bytes)) :
    m.run 1 = (.ok 1, { m.set .pc (m.get a + 3) with count := m.count + 1 }) := by
  rw [Statement.bytes_move_apply] at loaded
  have jumped := next_move (loaded.executes live.sized running)
  rw [run_of_next running jumped, run_zero, wrote_pc]
  rfl

/-- The jump leads to the second instruction if the left operand holds the address
of the line. -/
theorem run_jump_apply (live : m.Live) (running : m.isHalted = false)
    (loaded : m.Loaded ([Statement.move .pc a, Statement.apply op .pc b].flatMap Chunk.bytes))
    (here : m.get a = m.pc) (right : b ≠ .pc) (result : op.eval (m.pc + 3) (m.get b) = some w) :
    m.run 2 = (.ok 2, { m.set .pc (w + 3) with count := m.count + 2 }) := by
  have straight : (m.wrote .pc (m.get a)).pc = m.pc + 3 := by
    rw [pc_wrote, if_pos rfl, here]
  obtain ⟨jumped, executes⟩ := executes_after_move live running loaded straight
  have kept : (m.wrote .pc (m.get a)).get b = m.get b := by
    rw [get_wrote _ _ _ right, if_neg right]
  have computes := next_binary executes (w := w) (by rw [kept, ← result, ← straight]; rfl)
  rw [run_of_next running jumped, run_of_next executes.1 computes, run_zero, wrote_pc, wrote_pc]
  exact Prod.ext rfl (congrArg (fun registers => { m with registers, count := m.count + 2 })
    (m.registers.set_set .pc (m.get a + 3) (w + 3)))

end Writes

section Lines

variable {line : Line} {op : BinaryOp} {d a b : Register} {chunks : List Chunk}

/-- A line that does not write to the program counter and does not end with it
leaves the result of its operation. -/
theorem leaves_three (expansion : Statement.Expansion op d a b chunks) (dest : d ≠ .pc)
    (right : b ≠ .pc) (live : m.Live) (running : m.isHalted = false)
    (loaded : m.Loaded (chunks.flatMap Chunk.bytes)) :
    m.Leaves chunks d (op.eval (m.get a) (m.get b)) := by
  cases expansion with
  | left same =>
    subst same
    exact leaves_apply dest live running loaded
  | right _ same swaps =>
    subst same
    rw [op.eval_comm swaps]
    exact leaves_apply dest live running loaded
  | apart _ other =>
    have kept : (m.wrote d (m.get a)).get b = m.get b := by
      rw [get_wrote _ _ _ right, if_neg (Ne.symm other)]
    rw [← kept]
    exact leaves_move_apply dest live running loaded

/-- A line with an operation and three registers means what it says while the
program counter is neither its destination nor its right operand. -/
theorem three_registers (spells : Statement.SpellsThree line.text op d a b) :
    (∀ e, Statement.compileLine line = .error e ↔
      e = ⟨line, .aliasedOperand d⟩ ∧ d = b ∧ d ≠ a ∧ op.commutative = false) ∧
    ∀ chunks, Statement.compileLine line = .ok chunks → d ≠ .pc → b ≠ .pc →
      ∀ m : Machine, m.Live → m.isHalted = false → m.Loaded (chunks.flatMap Chunk.bytes) →
        (op.divides = true ∧ m.get b = 0 → (m.run chunks.length).1 =
          .error (.divisionByZero (m.pc + UInt16.ofNat (3 * (chunks.length - 1))))) ∧
        (¬(op.divides = true ∧ m.get b = 0) → ∃ w, op.eval (m.get a) (m.get b) = some w ∧
          m.run chunks.length = (.ok chunks.length,
            { (m.set d w).set .pc (m.pc + UInt16.ofNat (chunks.flatMap Chunk.bytes).length) with
              count := m.count + chunks.length })) := by
  refine ⟨fun e => Statement.compileLine_three_eq_error spells, ?_⟩
  intro chunks accepted dest right m live running loaded
  have expansion := Statement.expansion_of_compileLine spells accepted
  have leaves := leaves_three expansion dest right live running loaded
  constructor
  · intro division
    rw [BinaryOp.eval_eq_none_iff.mpr division] at leaves
    exact leaves
  · intro divisible
    rw [← BinaryOp.eval_eq_none_iff (a := m.get a)] at divisible
    obtain ⟨w, result⟩ := Option.ne_none_iff_exists'.mp divisible
    rw [result] at leaves
    exact ⟨w, result, leaves⟩

/-- The stack base is set below the stack pointer, by two instructions. -/
theorem three_registers_frame :
    let line : Line := ⟨1, "sub $rbp, $rsp, $reg1"⟩
    let chunks := [Statement.move .sb .sp, Statement.apply (.arith .unsigned .sub) .sb .r1]
    let image : Image := ⟨none, [], chunks.flatMap Chunk.bytes, fun _ => rfl, by decide⟩
    ∃ start, ofImage image ⟨16, 4, true, true⟩ = .ok start ∧
      let m := (start.set .sp 2).set .r1 3
      Statement.compileLine line = .ok chunks ∧ m.Live ∧ m.isHalted = false ∧
        m.Loaded (chunks.flatMap Chunk.bytes) ∧
        m.run 2 = (.ok 2, { (m.set .sb 0xFFFF).set .pc 6 with count := 2 }) := by
  intro line chunks image
  obtain ⟨start, built⟩ : ∃ start, ofImage image ⟨16, 4, true, true⟩ = .ok start := ⟨_, rfl⟩
  refine ⟨start, built, ?_⟩
  intro m
  have spells : Statement.SpellsThree line.text (.arith .unsigned .sub) .sb .sp .r1 := by
    rw [Statement.SpellsThree]
    decide +kernel
  have accepted : Statement.compileLine line = .ok chunks := by
    rw [Statement.compileLine, Result.mapError_eq_ok, Statement.compile_three spells]
    rfl
  have pointed : start.apply (.set .sp 2) = some (.ok .done, start.set .sp 2) := rfl
  have changed : (start.set .sp 2).apply (.set .r1 3) = some (.ok .done, m) := rfl
  have live : m.Live := .after (.after (.built built) pointed) changed
  have running : m.isHalted = false := by
    cases built
    rfl
  have loaded : m.Loaded (chunks.flatMap Chunk.bytes) := by
    cases built
    exact ⟨by decide +kernel, by decide +kernel, by decide +kernel⟩
  obtain ⟨words, counter, count⟩ : (m.get .sp = 2 ∧ m.get .r1 = 3) ∧ m.pc = 0 ∧ m.count = 0 := by
    cases built
    decide +kernel
  obtain ⟨_, computed⟩ := (three_registers spells).2 chunks accepted (by decide) (by decide) m live
    running loaded
  obtain ⟨w, result, run⟩ := computed fun division => nomatch division.1
  rw [words.1, words.2] at result
  cases result
  rw [counter, count] at run
  exact ⟨accepted, live, running, loaded, run⟩

/-- With the program counter on a line the operation is computed from the
registers as they are when it is executed. One instruction computes it from what
they hold at the start. Of two the second reads a program counter that has moved
on by three, and when the program counter is the destination the move is a jump,
which leads to the second only if the left operand holds the address of the line. -/
theorem three_registers_counter (spells : Statement.SpellsThree line.text op d a b)
    (accepted : Statement.compileLine line = .ok chunks) (live : m.Live)
    (running : m.isHalted = false) (loaded : m.Loaded (chunks.flatMap Chunk.bytes)) :
    (d = a ∨ d = b → chunks.length = 1 ∧ ∀ w, op.eval (m.get a) (m.get b) = some w →
      m.run 1 = (.ok 1,
        { (m.set d w).set .pc ((if d = .pc then w else m.pc) + 3) with count := m.count + 1 })) ∧
    (d ≠ a → d ≠ b → chunks.length = 2 ∧
      (d ≠ .pc → b = .pc → ∃ w, op.eval (m.get a) (m.pc + 3) = some w ∧
        m.run 2 = (.ok 2, { (m.set d w).set .pc (m.pc + 6) with count := m.count + 2 })) ∧
      (d = .pc → m.run 1 = (.ok 1, { m.set .pc (m.get a + 3) with count := m.count + 1 }) ∧
        (m.get a = m.pc → ∀ w, op.eval (m.pc + 3) (m.get b) = some w →
          m.run 2 = (.ok 2, { m.set .pc (w + 3) with count := m.count + 2 })))) := by
  have expansion := Statement.expansion_of_compileLine spells accepted
  cases expansion with
  | left same =>
    subst same
    refine ⟨fun _ => ⟨rfl, fun w => run_apply live running loaded⟩, ?_⟩
    exact fun other => absurd rfl other
  | right other same swaps =>
    subst same
    refine ⟨fun _ => ⟨rfl, fun w result => ?_⟩, fun _ other => absurd rfl other⟩
    rw [op.eval_comm swaps] at result
    exact run_apply live running loaded result
  | apart left right =>
    refine ⟨fun same => absurd same (not_or.mpr ⟨left, right⟩), fun _ _ => ⟨rfl, ?_, ?_⟩⟩
    · rintro dest rfl
      exact run_move_apply_counter dest live running loaded
    · rintro rfl
      exact ⟨run_jump live running loaded,
        fun here w => run_jump_apply live running loaded here (Ne.symm right)⟩

/-- A sum for the program counter begins with a jump. It leads to the addition
here, which is made from the address behind the move. -/
theorem three_registers_counter_jump :
    let line : Line := ⟨1, "ADD $RPC $REG1 $REG2"⟩
    let chunks := [Statement.move .pc .r1, Statement.apply (.arith .unsigned .add) .pc .r2]
    let image : Image := ⟨none, [], chunks.flatMap Chunk.bytes, fun _ => rfl, by decide⟩
    ∃ start, ofImage image ⟨16, 4, true, true⟩ = .ok start ∧
      let m := start.set .r2 4
      Statement.compileLine line = .ok chunks ∧ m.Live ∧ m.isHalted = false ∧
        m.Loaded (chunks.flatMap Chunk.bytes) ∧
        m.run 1 = (.ok 1, { m.set .pc 3 with count := 1 }) ∧
        m.run 2 = (.ok 2, { m.set .pc 10 with count := 2 }) := by
  intro line chunks image
  obtain ⟨start, built⟩ : ∃ start, ofImage image ⟨16, 4, true, true⟩ = .ok start := ⟨_, rfl⟩
  refine ⟨start, built, ?_⟩
  intro m
  have spells : Statement.SpellsThree line.text (.arith .unsigned .add) .pc .r1 .r2 :=
    Statement.spellsThree_plain (.arith .unsigned .add) .pc .r1 .r2
  have accepted : Statement.compileLine line = .ok chunks := by
    rw [Statement.compileLine, Result.mapError_eq_ok, Statement.compile_three spells]
    rfl
  have changed : start.apply (.set .r2 4) = some (.ok .done, m) := rfl
  have live : m.Live := .after (.built built) changed
  have running : m.isHalted = false := by
    cases built
    rfl
  have loaded : m.Loaded (chunks.flatMap Chunk.bytes) := by
    cases built
    exact ⟨by decide +kernel, by decide +kernel, by decide +kernel⟩
  obtain ⟨⟨left, right⟩, counter, count⟩ :
      (m.get .r1 = 0 ∧ m.get .r2 = 4) ∧ m.pc = 0 ∧ m.count = 0 := by
    cases built
    decide +kernel
  obtain ⟨_, _, jump⟩ := (three_registers_counter spells accepted live running loaded).2
    (by decide) (by decide)
  obtain ⟨first, second⟩ := jump rfl
  have both := second (left.trans counter.symm) 7 (by rw [right, counter]; rfl)
  rw [left, count] at first
  rw [count] at both
  exact ⟨accepted, live, running, loaded, first, both⟩

/-- The sum of two registers that hold zero comes out as three. -/
theorem three_registers_counter_late :
    let line : Line := ⟨1, "ADD $REG1 $REG2 $RPC"⟩
    let chunks := [Statement.move .r1 .r2, Statement.apply (.arith .unsigned .add) .r1 .pc]
    let image : Image := ⟨none, [], chunks.flatMap Chunk.bytes, fun _ => rfl, by decide⟩
    ∃ m, ofImage image ⟨16, 4, true, true⟩ = .ok m ∧
      Statement.compileLine line = .ok chunks ∧ m.Live ∧ m.isHalted = false ∧
        m.Loaded (chunks.flatMap Chunk.bytes) ∧
        BinaryOp.eval (.arith .unsigned .add) (m.get .r2) (m.get .pc) = some 0 ∧
        (m.run 2).1 = .ok 2 ∧ (m.run 2).2.get .r1 = 3 := by
  intro line chunks image
  obtain ⟨m, built⟩ : ∃ m, ofImage image ⟨16, 4, true, true⟩ = .ok m := ⟨_, rfl⟩
  have spells : Statement.SpellsThree line.text (.arith .unsigned .add) .r1 .r2 .pc :=
    Statement.spellsThree_plain (.arith .unsigned .add) .r1 .r2 .pc
  have accepted : Statement.compileLine line = .ok chunks := by
    rw [Statement.compileLine, Result.mapError_eq_ok, Statement.compile_three spells]
    rfl
  refine ⟨m, built, accepted, .built built, ?_⟩
  cases built
  exact ⟨rfl, ⟨by decide +kernel, by decide +kernel, by decide +kernel⟩, by decide +kernel,
    Result.eq_ok_of_toOption (by decide +kernel), by decide +kernel⟩

end Lines

end Machine

end WordMachine
