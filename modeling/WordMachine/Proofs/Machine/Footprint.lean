import WordMachine.Proofs.Machine.Safety

/-! Footprints. The instruction a step executes and the machine before it settle
what the step may change: one word of memory at most, the registers that the
operation and its first operand name, and the program counter, which moves on
from whatever the instruction itself left in it. Nothing is claimed of the words
that a call saves or a push stores. -/
namespace WordMachine

namespace Instruction

/-- Where an instruction stores a word, if it stores one. -/
def store? (i : Instruction) (m : Machine) : Option Nat :=
  match i.opcode, i.operands with
  | .moveMemReg, .memReg address _ => some address.toNat
  | .push, _ | .pushImm, _ | .dup, _ => some (m.layout.stack.start + m.sp.toNat)
  | _, _ => none

/-- The word an instruction leaves in its destination, if it has one. -/
def result? (i : Instruction) (m : Machine) : Option Word :=
  match i.opcode, i.operands with
  | .pop, .reg _ => (m.peek 2).toOption
  | .not, .reg r => some (~~~m.get r)
  | .moveRegImm, .regImm _ w => some w
  | .moveRegReg, .regReg _ s => some (m.get s)
  | .moveRegMem, .regMem _ address => (m.load address).toOption
  | .binary op, .regReg r s => op.eval (m.get r) (m.get s)
  | _, _ => none

/-- The program counter after an instruction's own write. -/
def counter (i : Instruction) (m : Machine) : Word :=
  if i.destination? = some .pc then (i.result? m).getD m.pc else m.pc

/-- The registers an instruction may write, the program counter left out unless
it is the destination. -/
def Writes (i : Instruction) (r : Register) : Prop :=
  i.destination? = some r ∨ r ∈ i.opcode.writes

/-- Where an instruction leads: jumps are decided by the flags before them, and a
store into a read-only program stops the machine. -/
def flow (i : Instruction) (m : Machine) : Flow :=
  match i.opcode, i.operands with
  | .halt, _ => .stop
  | .moveMemReg, .memReg address _ =>
    if m.config.readonlyProgram && m.layout.overlapsProgram address.toNat 2 then .stop else .next
  | .jump condition, .imm target => if condition.holds m.flags then .jump target else .next
  | .call, .imm target => .jump target
  | .ret, _ => .jump (m.get Register.returnAddress)
  | _, _ => .next

end Instruction

/-- Seen beside the changes of an instruction. -/
def Event.isBranch : Event → Bool
  | jump _ _ | call _ _ | ret _ => true
  | _ => false

namespace Machine

variable {m n : Machine} {i : Instruction} {e : Effect}

/-- An effect does what the instruction says. -/
structure Follows (m : Machine) (i : Instruction) (e : Effect) : Prop where
  flow : e.flow = i.flow m
  store : ∀ c ∈ e.changes, ∀ address ∈ c.address?, i.store? m = some address
  result : ∀ r ∈ i.destination?, i.result? m = some ((m.applyAll e.changes).get r)
  running : e.flow ≠ .stop → (m.applyAll e.changes).status = m.status
  stop : e.flow = .stop → m.applyAll e.changes = { m with status := .halted }
  notices : ∀ event, Change.notice event ∈ e.changes → event.isBranch = true

theorem status_memory (m : Machine) (address : Nat) (w : Word) :
    ((Change.memory address w).apply m).status = m.status := by
  rw [Change.apply]
  split <;> rfl

theorem follows_push {w : Word} {changes : List Change} (h : m.push w = .ok changes)
    (flow : i.flow m = .next) (store : i.store? m = some (m.layout.stack.start + m.sp.toNat))
    (plain : i.destination? = none) : m.Follows i ⟨.next, changes⟩ := by
  obtain ⟨_, _, rfl⟩ := push_eq_ok.mp h
  refine ⟨flow.symm, ?_, ?_, fun _ => status_memory m _ w, nofun, by simp⟩
  · simpa [Change.address?] using store
  · simp [plain]

theorem follows_write {r : Register} {w : Word} (flow : i.flow m = .next)
    (named : i.destination? = some r) (result : i.result? m = some w) :
    m.Follows i ⟨.next, [.register r w]⟩ := by
  refine ⟨flow.symm, by simp [Change.address?], ?_, fun _ => rfl, nofun, by simp⟩
  intro s hs
  obtain rfl : r = s := Option.some.inj (named.symm.trans hs)
  exact result.trans (congrArg some ((get_set m r r w).trans (if_pos rfl)).symm)

theorem follows_compare {left right : Word} (flow : i.flow m = .next)
    (plain : i.destination? = none) : m.Follows i (m.compare left right) := by
  refine ⟨flow.symm, by simp [compare, Change.address?], ?_, fun _ => rfl, nofun,
    by simp [compare]⟩
  simp [plain]

/-- An effect that stores nothing into memory and has no result only leads on. -/
theorem follows_jump {target : Word} {changes : List Change} (flow : i.flow m = .jump target)
    (clear : ∀ c ∈ changes, c.address? = none) (plain : i.destination? = none)
    (running : (m.applyAll changes).status = m.status)
    (notices : ∀ event, Change.notice event ∈ changes → event.isBranch = true) :
    m.Follows i ⟨.jump target, changes⟩ := by
  refine ⟨flow.symm, ?_, ?_, fun _ => running, nofun, notices⟩
  · intro c hc address ha
    rw [clear c hc] at ha
    cases ha
  · simp [plain]

theorem follows_effect (h : m.effect m.pc i = .ok e) : m.Follows i e := by
  cases i using Instruction.byOpcode with
  | noop =>
    cases h
    exact ⟨rfl, by simp, by rintro _ ⟨⟩, fun _ => rfl, by rintro ⟨⟩, by simp⟩
  | halt =>
    cases h
    exact ⟨rfl, by simp [Change.address?], by rintro _ ⟨⟩, fun go => absurd rfl go, fun _ => rfl,
      by simp⟩
  | ret =>
    cases h
    exact follows_jump rfl (by simp [Change.address?]) rfl rfl (by simp [Event.isBranch])
  | dup =>
    simp only [effect, Result.map_eq_ok, Result.bind_eq_ok] at h
    obtain ⟨changes, ⟨top, _, h⟩, rfl⟩ := h
    exact follows_push h rfl rfl rfl
  | compareTop =>
    simp only [effect, Result.map_eq_ok, Result.bind_eq_ok] at h
    obtain ⟨left, _, right, _, rfl⟩ := h
    exact follows_compare rfl rfl
  | jump condition target =>
    cases h
    refine ⟨rfl, by simp [Change.address?], by rintro _ ⟨⟩, fun _ => rfl, ?_,
      by simp [Event.isBranch]⟩
    cases condition.holds m.flags <;> rintro ⟨⟩
  | call target =>
    cases h
    exact follows_jump rfl (by simp [Change.address?]) rfl rfl (by simp [Event.isBranch])
  | pushImm w =>
    simp only [effect, Result.map_eq_ok] at h
    obtain ⟨changes, h, rfl⟩ := h
    exact follows_push h rfl rfl rfl
  | push r =>
    simp only [effect, Result.map_eq_ok] at h
    obtain ⟨changes, h, rfl⟩ := h
    exact follows_push h rfl rfl rfl
  | pop r =>
    simp only [effect, Result.map_eq_ok] at h
    obtain ⟨w, read, rfl⟩ := h
    refine ⟨rfl, by simp [Change.address?], ?_, fun _ => rfl, by rintro ⟨⟩, by simp⟩
    intro s hs
    obtain rfl : r = s := Option.some.inj hs
    have top : Instruction.result? ⟨.pop, .reg r, rfl⟩ m = (m.peek 2).toOption := rfl
    rw [top, read]
    exact congrArg some ((get_set _ r r w).trans (if_pos rfl)).symm
  | not r => cases h; exact follows_write rfl rfl rfl
  | moveRegImm r w => cases h; exact follows_write rfl rfl rfl
  | moveRegReg r t => cases h; exact follows_write rfl rfl rfl
  | moveRegMem r address =>
    simp only [effect, Result.map_eq_ok] at h
    obtain ⟨w, read, rfl⟩ := h
    exact follows_write rfl rfl (congrArg Except.toOption read)
  | moveMemReg address r =>
    obtain ⟨_, ⟨readonly, overlaps, rfl⟩ | ⟨clear, rfl⟩⟩ := store_ok h
    · have refused : Instruction.flow ⟨.moveMemReg, .memReg address r, rfl⟩ m = .stop :=
        if_pos (by rw [readonly, overlaps]; rfl)
      exact ⟨refused.symm, by simp [Change.address?], by rintro _ ⟨⟩, fun go => absurd rfl go,
        fun _ => rfl, by simp⟩
    · have accepted : Instruction.flow ⟨.moveMemReg, .memReg address r, rfl⟩ m = .next := by
        refine if_neg ?_
        rw [Bool.and_eq_true, Layout.overlapsProgram, Bool.and_eq_true, decide_eq_true_eq]
        rintro ⟨readonly, inside, _⟩
        exact absurd inside (Nat.not_lt.mpr (clear readonly))
      exact ⟨accepted.symm, by simp [Change.address?, Instruction.store?], by rintro _ ⟨⟩,
        fun _ => status_memory m _ _, by rintro ⟨⟩, by simp⟩
  | compareRegReg r t => cases h; exact follows_compare rfl rfl
  | compareRegMem r address =>
    simp only [effect, Result.map_eq_ok] at h
    obtain ⟨w, _, rfl⟩ := h
    exact follows_compare rfl rfl
  | compareMemReg address r =>
    simp only [effect, Result.map_eq_ok] at h
    obtain ⟨w, _, rfl⟩ := h
    exact follows_compare rfl rfl
  | binary op r t =>
    simp only [effect] at h
    split at h
    · cases h
    · next w evaluated =>
      cases h
      exact follows_write rfl rfl evaluated

theorem getElem?_change {c : Change} {k : Nat}
    (clear : ∀ address ∈ c.address?, k ≠ address ∧ k ≠ address + 1) :
    (c.apply m).memory.bytes[k]? = m.memory.bytes[k]? := by
  cases c with
  | memory address w =>
    have apart := clear address rfl
    cases stored : m.memory.writeWord address w with
    | error fault => simp only [Change.apply, stored]
    | ok written =>
      simp only [Change.apply, stored]
      exact Memory.getElem?_writeWord stored (by omega)
  | _ => rfl

/-- Changes leave every byte as it is that none of them stores. -/
theorem getElem?_applyAll {changes : List Change} {k : Nat}
    (clear : ∀ c ∈ changes, ∀ address ∈ c.address?, k ≠ address ∧ k ≠ address + 1) :
    (m.applyAll changes).memory.bytes[k]? = m.memory.bytes[k]? := by
  induction changes generalizing m with
  | nil => rfl
  | cons c rest ih =>
    have first : (c.apply m).memory.bytes[k]? = m.memory.bytes[k]? :=
      getElem?_change (clear c List.mem_cons_self)
    exact (ih fun d hd => clear d (List.mem_cons_of_mem c hd)).trans first

theorem Follows.counter (follows : m.Follows i e) (within : m.Within i e) :
    (m.applyAll e.changes).pc = i.counter m := by
  rw [Instruction.counter]
  by_cases aimed : i.destination? = some .pc
  · rw [if_pos aimed, follows.result .pc aimed]
    rfl
  · rw [if_neg aimed]
    exact get_applyAll_of_within within aimed i.opcode.not_mem_writes.1

theorem status_of_not_halted (running : m.isHalted = false) : m.status = .running := by
  cases state : m.status with
  | running => rfl
  | halted =>
    rw [isHalted_iff.mpr state] at running
    cases running

/-- What a step that executes an instruction may change, and where it leads. -/
structure Footprint (m : Machine) (i : Instruction) (n : Machine) : Prop where
  setting : m.SameSetting n
  count : n.count = m.count + 1
  memory : ∀ k, (∀ address ∈ i.store? m, k ≠ address ∧ k ≠ address + 1) →
    n.memory.bytes[k]? = m.memory.bytes[k]?
  registers : ∀ r, r ≠ .pc → ¬i.Writes r → n.get r = m.get r
  result : ∀ r ∈ i.destination?, r ≠ .pc → i.result? m = some (n.get r)
  next : i.flow m = .next → n.status = .running ∧ n.pc = i.counter m + UInt16.ofNat i.size
  jump : ∀ target, i.flow m = .jump target → n.status = .running ∧ n.pc = target
  /-- Nothing but the count, not even the program counter. -/
  stop : i.flow m = .stop → n = { m with status := .halted, count := m.count + 1 }

theorem status_after (m : Machine) (i : Instruction) (e : Effect) :
    (m.after i e).status = (m.applyAll e.changes).status := by
  rw [after]
  cases e.flow <;> rfl

/-- The effect of an instruction keeps to its footprint. -/
theorem footprint_after (running : m.isHalted = false) (effected : m.effect m.pc i = .ok e) :
    m.Footprint i (m.after i e) := by
  have follows := follows_effect effected
  have within := within_effect effected
  have running : m.status = .running := status_of_not_halted running
  refine
    { setting := .after m i e
      count := count_after m i e
      memory := ?_
      registers := ?_
      result := ?_
      next := ?_
      jump := ?_
      stop := ?_ }
  · intro k clear
    rw [memory_after]
    exact getElem?_applyAll fun c hc address ha => clear address (follows.store c hc address ha)
  · intro r other unwritten
    rw [Instruction.Writes, not_or] at unwritten
    rw [get_after m i e other]
    exact get_applyAll_of_within within unwritten.1 unwritten.2
  · intro r named other
    rw [get_after m i e other]
    exact follows.result r named
  · intro leads
    have flow := follows.flow.trans leads
    refine ⟨?_, ?_⟩
    · rw [status_after, follows.running (by rw [flow]; exact nofun), running]
    · rw [pc_after, flow, ← follows.counter within]
  · intro target leads
    have flow := follows.flow.trans leads
    refine ⟨?_, ?_⟩
    · rw [status_after, follows.running (by rw [flow]; exact nofun), running]
    · rw [pc_after, flow]
  · intro leads
    have flow := follows.flow.trans leads
    have counted : (m.applyAll e.changes).count = m.count := count_applyAll m e.changes
    rw [after, flow, follow, counted, follows.stop flow]

/-- Whatever a machine holds, a step that succeeds keeps to the footprint of its
instruction. -/
theorem step_footprint {status : Status} (executes : m.Executes i)
    (stepped : m.step = (.ok status, n)) : m.Footprint i n := by
  obtain ⟨e, effected, rfl⟩ := effect_of_step executes stepped
  exact footprint_after executes.1 effected

/-- An address that is popped into the program counter is passed by the size of
the instruction that pops it. -/
theorem pop_counter_footprint :
    let pop : Instruction := ⟨.pop, .reg .pc, rfl⟩
    let image : Image := ⟨none, [],
      [⟨.pushImm, .imm 6, rfl⟩, pop].flatMap Instruction.encode, fun _ => rfl, by decide⟩
    ∃ m n, ofImage image ⟨16, 4, true, true⟩ = .ok m ∧ m.step.2.Executes pop ∧
      m.step.2.step = (.ok .running, n) ∧ m.step.2.Footprint pop n ∧ n.pc = 8 := by
  intro pop image
  obtain ⟨m, built⟩ : ∃ m, ofImage image ⟨16, 4, true, true⟩ = .ok m := ⟨_, rfl⟩
  have executes : m.step.2.Executes pop := by
    cases built
    exact ⟨rfl, Result.eq_ok_of_toOption (by decide +kernel)⟩
  have popped : m.step.2.peek 2 = .ok 6 := by
    cases built
    exact Result.eq_ok_of_toOption (by decide +kernel)
  have succeeds : m.step.2.step.1 = .ok .running := by
    cases built
    exact Result.eq_ok_of_toOption (by decide +kernel)
  have stepped : m.step.2.step = (.ok .running, m.step.2.step.2) := Prod.ext succeeds rfl
  have footprint := step_footprint executes stepped
  have aimed : pop.destination? = some .pc := rfl
  have counter : pop.counter m.step.2 = 6 := by
    rw [Instruction.counter, if_pos aimed]
    exact congrArg (fun read => read.toOption.getD m.step.2.pc) popped
  refine ⟨m, _, built, executes, stepped, footprint, ?_⟩
  rw [(footprint.next rfl).2, counter]
  rfl

/-- A step that succeeds finds the machine halted or executes an instruction. -/
theorem step_ok_cases {status : Status} (stepped : m.step = (.ok status, n)) :
    m.isHalted = true ∧ n = m ∨ ∃ i, m.Executes i ∧ m.Footprint i n := by
  have led := stepped
  rw [step_eq] at led
  cases one : m.next with
  | error fault => simp [one] at led
  | ok o =>
    simp only [one, Prod.mk.injEq] at led
    obtain ⟨_, rfl⟩ := led
    cases running : m.isHalted with
    | true =>
      rw [next_of_halted running, Except.ok.injEq] at one
      exact Or.inl ⟨rfl, one.symm⟩
    | false =>
      obtain ⟨i, e, fetched, effected, rfl⟩ := next_ok running one
      exact Or.inr ⟨i, ⟨running, fetched⟩, footprint_after running effected⟩

/-- Steps that all succeed and execute instructions of one kind only. A machine
that has halted executes none. -/
inductive RunOf (kind : Instruction → Prop) (start : Machine) : Machine → Prop
  | start : RunOf kind start start
  | step {m n : Machine} {status : Status} : RunOf kind start m →
      (∀ i, m.Executes i → kind i) → m.step = (.ok status, n) → RunOf kind start n

/-- A run keeps the registers that no instruction of its kind writes. -/
theorem RunOf.get {kind : Instruction → Prop} {start : Machine} {r : Register}
    (run : RunOf kind start m) (other : r ≠ .pc) (spared : ∀ i, kind i → ¬i.Writes r) :
    m.get r = start.get r := by
  induction run with
  | start => rfl
  | step _ kinds stepped ih =>
    rcases step_ok_cases stepped with ⟨_, rfl⟩ | ⟨i, executes, footprint⟩
    · exact ih
    · exact (footprint.registers r other (spared i (kinds i executes))).trans ih

end Machine

end WordMachine
