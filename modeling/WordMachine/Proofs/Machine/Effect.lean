import WordMachine.Machine.Run
import WordMachine.Proofs.Instruction.Cases
import WordMachine.Proofs.Result

/-! Effects. Execution decides first what an instruction does, reading the
machine only, and then makes a list of changes none of which can fail: a fault
comes from the decision. What a step does is stated here once, and everything
about steps and runs is read off it. -/
namespace WordMachine

/-- One thing an instruction does to a machine. -/
inductive Change where
  | register (r : Register) (w : Word)
  | memory (address : Nat) (w : Word)
  | flags (left right : Word) (flags : Flags)
  /-- The machine halts on a store into its read-only program. -/
  | refuse (address w : Word)
  | halt (pc : Word)
  /-- Something to be seen that leaves the machine as it is. -/
  | notice (event : Event)
  deriving DecidableEq, Repr

namespace Change

def apply (m : Machine) : Change → Machine
  | register r w => m.set r w
  | memory address w =>
    match m.memory.writeWord address w with
    | .ok written => { m with memory := written }
    | .error _ => m
  | flags _ _ f => m.set .flags f.bits
  | refuse _ _ | halt _ => { m with status := .halted }
  | notice _ => m

/-- Where a change stores a word, if it stores one. -/
def address? : Change → Option Nat
  | memory address _ => some address
  | _ => none

/-- The register a change writes, if it writes one. -/
def register? : Change → Option Register
  | register r _ => some r
  | flags _ _ _ => some .flags
  | _ => none

/-- What an observer sees of a change. -/
def event : Change → Event
  | register r w => .registerWrite r w
  | memory address w => .memoryWrite (UInt16.ofNat address) w
  | flags left right f => .comparison left right f
  | refuse address w => .refusedWrite address w
  | halt pc => .halt pc
  | notice e => e

end Change

/-- What an instruction does, changes in order, and where it leads. -/
structure Effect where
  flow : Flow
  changes : List Change
  deriving DecidableEq, Repr

namespace Machine

def applyAll (m : Machine) (changes : List Change) : Machine := changes.foldl Change.apply m

/-- The word that begins `depth` bytes below the stack pointer. -/
def peek (m : Machine) (depth : Word) : Except Fault Word :=
  if m.sp < depth then .error (.stackUnderflow m.sp)
  else if m.layout.stackSize < m.sp.toNat then .error (.stackOverflow m.sp)
  else m.memory.readWord (m.layout.stack.start + (m.sp - depth).toNat)

def load (m : Machine) (address : Word) : Except Fault Word := m.memory.readWord address.toNat

def push (m : Machine) (w : Word) : Except Fault (List Change) :=
  let address := m.layout.stack.start + m.sp.toNat
  if m.layout.stackSize < m.sp.toNat + 2 then .error (.stackOverflow m.sp)
  else if address + 1 < m.memory.bytes.size then
    .ok [.memory address w, .register .sp (m.sp + 2)]
  else .error (.memoryOutOfBounds address)

def store (m : Machine) (address w : Word) : Except Fault Effect :=
  if m.memory.size < address.toNat + 2 then .error (.memoryOutOfBounds address.toNat)
  else if m.config.readonlyProgram && m.layout.overlapsProgram address.toNat 2 then
    .ok ⟨.stop, [.refuse address w]⟩
  else .ok ⟨.next, [.memory address.toNat w]⟩

def compare (m : Machine) (left right : Word) : Effect :=
  ⟨.next, [.flags left right (m.flags.record (Ord.compare left right))]⟩

/-- The effect of an instruction at `pc`. -/
def effect (m : Machine) (pc : Word) : Instruction → Except Fault Effect
  | ⟨.noop, .none, _⟩ => .ok ⟨.next, []⟩
  | ⟨.halt, .none, _⟩ => .ok ⟨.stop, [.halt pc]⟩
  | ⟨.ret, .none, _⟩ =>
    .ok ⟨.jump (m.get Register.returnAddress),
      [.register .sb (m.get Register.savedBase), .register .sp (m.get Register.savedPointer),
        .notice (.ret (m.get Register.returnAddress))]⟩
  | ⟨.dup, .none, _⟩ => ((m.peek 2).bind m.push).map (Effect.mk .next)
  | ⟨.compareTop, .none, _⟩ =>
    (m.peek 4).bind fun left => (m.peek 2).map fun right => m.compare left right
  | ⟨.jump condition, .imm target, _⟩ =>
    let taken := condition.holds m.flags
    .ok ⟨if taken then .jump target else .next, [.notice (.jump target taken)]⟩
  | ⟨.call, .imm target, _⟩ =>
    .ok ⟨.jump target,
      [.register Register.savedBase (m.get .sb), .register Register.savedPointer m.sp,
        .register Register.returnAddress (pc + 3), .register .sb m.sp,
        .notice (.call target (pc + 3))]⟩
  | ⟨.pushImm, .imm w, _⟩ => (m.push w).map (Effect.mk .next)
  | ⟨.push, .reg r, _⟩ => (m.push (m.get r)).map (Effect.mk .next)
  | ⟨.pop, .reg r, _⟩ =>
    (m.peek 2).map fun w => ⟨.next, [.register .sp (m.sp - 2), .register r w]⟩
  | ⟨.not, .reg r, _⟩ => .ok ⟨.next, [.register r (~~~m.get r)]⟩
  | ⟨.moveRegImm, .regImm r w, _⟩ => .ok ⟨.next, [.register r w]⟩
  | ⟨.moveRegReg, .regReg r s, _⟩ => .ok ⟨.next, [.register r (m.get s)]⟩
  | ⟨.moveRegMem, .regMem r address, _⟩ =>
    (m.load address).map fun w => ⟨.next, [.register r w]⟩
  | ⟨.moveMemReg, .memReg address r, _⟩ => m.store address (m.get r)
  | ⟨.compareRegReg, .regReg r s, _⟩ => .ok (m.compare (m.get r) (m.get s))
  | ⟨.compareRegMem, .regMem r address, _⟩ =>
    (m.load address).map fun right => m.compare (m.get r) right
  | ⟨.compareMemReg, .memReg address r, _⟩ =>
    (m.load address).map fun left => m.compare left (m.get r)
  | ⟨.binary op, .regReg r s, _⟩ =>
    match op.eval (m.get r) (m.get s) with
    | none => .error (.divisionByZero pc)
    | some w => .ok ⟨.next, [.register r w]⟩

def follow (m : Machine) (i : Instruction) : Flow → Machine
  | .next => m.set .pc (m.pc + UInt16.ofNat i.size)
  | .jump target => m.set .pc target
  | .stop => m

/-- The machine after an instruction with this effect. -/
def after (m : Machine) (i : Instruction) (e : Effect) : Machine :=
  let moved := (m.applyAll e.changes).follow i e.flow
  { moved with count := moved.count + 1 }

theorem peek_eq_ok {m : Machine} {depth w : Word} :
    m.peek depth = .ok w ↔
      depth ≤ m.sp ∧ m.sp.toNat ≤ m.layout.stackSize ∧
        m.memory.readWord (m.layout.stack.start + (m.sp - depth).toNat) = .ok w := by
  rw [← UInt16.not_lt, ← Nat.not_lt, peek]
  split
  · next under => exact ⟨nofun, fun h => absurd under h.1⟩
  · next under =>
    split
    · next above => exact ⟨nofun, fun h => absurd above h.2.1⟩
    · next above => exact ⟨fun read => ⟨under, above, read⟩, fun h => h.2.2⟩

theorem push_eq_ok {m : Machine} {w : Word} {changes : List Change} :
    m.push w = .ok changes ↔
      m.sp.toNat + 2 ≤ m.layout.stackSize ∧
        m.layout.stack.start + m.sp.toNat + 1 < m.memory.bytes.size ∧
        changes = [.memory (m.layout.stack.start + m.sp.toNat) w, .register .sp (m.sp + 2)] := by
  simp only [push]
  by_cases full : m.layout.stackSize < m.sp.toNat + 2
  · simp only [full, if_true]
    constructor
    · intro h
      cases h
    · rintro ⟨room, _⟩
      omega
  · by_cases inside : m.layout.stack.start + m.sp.toNat + 1 < m.memory.bytes.size
    · simp only [full, inside, if_true, if_false, Except.ok.injEq]
      constructor
      · rintro rfl
        exact ⟨by omega, trivial, rfl⟩
      · rintro ⟨_, _, rfl⟩
        rfl
    · simp only [full, inside, if_false]
      constructor
      · intro h
        cases h
      · rintro ⟨_, ⟨⟩, _⟩

/-- A store that succeeds is refused or stays clear of a read-only program. -/
theorem store_ok {m : Machine} {address w : Word} {e : Effect} (h : m.store address w = .ok e) :
    address.toNat + 2 ≤ m.memory.size ∧
      (m.config.readonlyProgram = true ∧ m.layout.overlapsProgram address.toNat 2 = true ∧
          e = ⟨.stop, [.refuse address w]⟩ ∨
        (m.config.readonlyProgram = true → m.layout.programSize ≤ address.toNat) ∧
          e = ⟨.next, [.memory address.toNat w]⟩) := by
  simp only [store] at h
  by_cases outside : m.memory.size < address.toNat + 2
  · simp only [outside, if_true] at h
    cases h
  · refine ⟨by omega, ?_⟩
    by_cases refused :
        (m.config.readonlyProgram && m.layout.overlapsProgram address.toNat 2) = true
    · simp only [outside, refused, if_true, if_false] at h
      cases h
      rw [Bool.and_eq_true] at refused
      exact Or.inl ⟨refused.1, refused.2, rfl⟩
    · simp only [outside, refused, if_false] at h
      cases h
      refine Or.inr ⟨fun readonly => ?_, rfl⟩
      simp [readonly, Layout.overlapsProgram] at refused
      omega

end Machine

namespace Exec

variable {σ : Type} (watch : Observer σ)

/-- What an observer has recorded after a list of changes. -/
def observe (changes : List Change) (record : σ) : σ :=
  changes.foldl (fun record c => watch c.event record) record

/-- Makes the changes of an effect, or faults and makes none. -/
def enact (decision : Except Fault Effect) : Exec σ Flow := fun s =>
  match decision with
  | .error fault => .error fault s
  | .ok e => .ok e.flow ⟨s.machine.applyAll e.changes, observe watch e.changes s.record⟩

@[simp] theorem bind_apply {α β : Type} (x : Exec σ α) (f : α → Exec σ β) (s : Session σ) :
    (x >>= f) s =
      match x s with
      | .ok a t => f a t
      | .error fault t => .error fault t := by
  simp only [bind, EStateM.bind]
  cases x s <;> rfl

@[simp] theorem map_apply {α β : Type} (f : α → β) (x : Exec σ α) (s : Session σ) :
    (f <$> x) s =
      match x s with
      | .ok a t => .ok (f a) t
      | .error fault t => .error fault t := by
  simp only [Functor.map, EStateM.map]
  cases x s <;> rfl

@[simp] theorem pure_apply {α : Type} (a : α) (s : Session σ) :
    (pure a : Exec σ α) s = .ok a s := rfl

@[simp] theorem throw_apply {α : Type} (fault : Fault) (s : Session σ) :
    (throw fault : Exec σ α) s = .error fault s := rfl

@[simp] theorem ite_apply {α : Type} (c : Prop) [Decidable c] (x y : Exec σ α) (s : Session σ) :
    (if c then x else y) s = if c then x s else y s := by
  split <;> rfl

@[simp] theorem machine_apply (s : Session σ) : machine s = .ok s.machine s := rfl

@[simp] theorem update_apply (change : Machine → Machine) (s : Session σ) :
    update change s = .ok () ⟨change s.machine, s.record⟩ := rfl

@[simp] theorem emit_apply (event : Event) (s : Session σ) :
    emit watch event s = .ok () ⟨s.machine, watch event s.record⟩ := rfl

@[simp] theorem ofExcept_apply {α : Type} (result : Except Fault α) (s : Session σ) :
    ofExcept result s =
      match result with
      | .ok a => .ok a s
      | .error fault => .error fault s := by
  cases result <;> rfl

@[simp] theorem writeRegister_apply (r : Register) (w : Word) (s : Session σ) :
    writeRegister watch r w s =
      .ok () ⟨s.machine.set r w, watch (.registerWrite r w) s.record⟩ := by
  simp [writeRegister]

@[simp] theorem peek_apply (depth : Word) (s : Session σ) :
    peek depth s = ofExcept (s.machine.peek depth) s := by
  by_cases under : s.machine.sp < depth
  · simp [peek, Machine.peek, under]
  · by_cases above : s.machine.layout.stackSize < s.machine.sp.toNat
    · simp [peek, Machine.peek, under, above]
    · simp [peek, Machine.peek, under, above]

@[simp] theorem loadMemory_apply (address : Word) (s : Session σ) :
    loadPlace (.memory address) s = ofExcept (s.machine.load address) s := by
  simp [loadPlace, Machine.load]

@[simp] theorem loadRegister_apply (r : Register) (s : Session σ) :
    loadPlace (.register r) s = .ok (s.machine.get r) s := rfl

@[simp] theorem push_apply (w : Word) (s : Session σ) :
    push watch w s =
      match s.machine.push w with
      | .ok changes => .ok () ⟨s.machine.applyAll changes, observe watch changes s.record⟩
      | .error fault => .error fault s := by
  by_cases full : s.machine.layout.stackSize < s.machine.sp.toNat + 2
  · simp [push, Machine.push, full]
  · by_cases inside :
        s.machine.layout.stack.start + s.machine.sp.toNat + 1 < s.machine.memory.bytes.size
    · simp [push, Machine.push, full, inside, storeWord_eq, observe, Machine.applyAll,
        Change.apply, Change.event, Memory.writeWord]
    · simp [push, Machine.push, full, inside, storeWord_eq, Memory.writeWord]

@[simp] theorem writeMemory_apply (address w : Word) (s : Session σ) :
    writeMemory watch address w s = enact watch (s.machine.store address w) s := by
  by_cases outside : s.machine.memory.size < address.toNat + 2
  · simp [writeMemory, Machine.store, outside, enact]
  · have inside : address.toNat + 1 < s.machine.memory.bytes.size := by
      simp only [Memory.size] at outside
      omega
    by_cases refused : s.machine.config.readonlyProgram = true ∧
        s.machine.layout.overlapsProgram address.toNat 2 = true
    · simp [writeMemory, Machine.store, outside, refused, enact, observe, Machine.applyAll,
        Change.apply, Change.event]
    · simp [writeMemory, Machine.store, outside, refused, inside, enact, storeWord_eq, observe,
        Machine.applyAll, Change.apply, Change.event, Memory.writeWord]

/-- Execution makes the changes of the effect, or faults and makes none. -/
theorem execute_eq (pc : Word) (i : Instruction) (s : Session σ) :
    execute watch pc i s = enact watch (s.machine.effect pc i) s := by
  cases i using Instruction.byOpcode with
  | noop => rfl
  | halt => rfl
  | ret => rfl
  | dup =>
    simp only [execute, Machine.effect, bind_apply, peek_apply, ofExcept_apply]
    cases s.machine.peek 2 with
    | error fault => rfl
    | ok top =>
      simp only [Except.bind, push_apply]
      cases s.machine.push top <;> rfl
  | compareTop =>
    simp only [execute, Machine.effect, bind_apply, peek_apply, ofExcept_apply]
    cases s.machine.peek 4 with
    | error fault => rfl
    | ok left =>
      simp only [Except.bind]
      cases s.machine.peek 2 <;> rfl
  | jump condition target => rfl
  | call target => rfl
  | pushImm w =>
    simp only [execute, Machine.effect, bind_apply, push_apply]
    cases s.machine.push w <;> rfl
  | push r =>
    simp only [execute, Machine.effect, bind_apply, machine_apply, push_apply]
    cases s.machine.push (s.machine.get r) <;> rfl
  | pop r =>
    simp only [execute, Machine.effect, bind_apply, pop, peek_apply, ofExcept_apply]
    cases s.machine.peek 2 <;> rfl
  | not r => rfl
  | moveRegImm r w => rfl
  | moveRegReg r t => rfl
  | moveRegMem r address =>
    simp only [execute, Machine.effect, move, load, bind_apply, loadMemory_apply, ofExcept_apply]
    cases s.machine.load address <;> rfl
  | moveMemReg address r =>
    simp only [execute, Machine.effect, move, load, bind_apply, loadRegister_apply, store,
      writeMemory_apply]
  | compareRegReg r t => rfl
  | compareRegMem r address =>
    simp only [execute, Machine.effect, comparePlaces, bind_apply, loadMemory_apply,
      loadRegister_apply, ofExcept_apply]
    cases s.machine.load address <;> rfl
  | compareMemReg address r =>
    simp only [execute, Machine.effect, comparePlaces, bind_apply, loadMemory_apply,
      loadRegister_apply, ofExcept_apply]
    cases s.machine.load address <;> rfl
  | binary op r t =>
    simp only [execute, Machine.effect, binary, bind_apply, loadRegister_apply]
    cases op.eval (s.machine.get r) (s.machine.get t) <;> rfl

@[simp] theorem advance_apply (i : Instruction) (flow : Flow) (s : Session σ) :
    advance i flow s = .ok () ⟨s.machine.follow i flow, s.record⟩ := by
  cases flow <;> rfl

/-- A step decides on the effect of the instruction it fetches and then makes
its changes; when there is no instruction or no effect, it faults before any. -/
theorem step_apply (s : Session σ) :
    step watch s =
      if s.machine.isHalted then .ok .halted s
      else match s.machine.fetch s.machine.pc with
        | .error fault => .error fault s
        | .ok i =>
          let seen := watch (.instruction s.machine.pc i) s.record
          match s.machine.effect s.machine.pc i with
          | .error fault => .error fault ⟨s.machine, seen⟩
          | .ok e =>
            .ok (s.machine.after i e).status
              ⟨s.machine.after i e, observe watch e.changes seen⟩ := by
  by_cases halted : s.machine.isHalted = true
  · simp [step, halted]
  · simp only [step, bind_apply, machine_apply, halted, Bool.false_eq_true, if_false,
      ofExcept_apply]
    cases s.machine.fetch s.machine.pc with
    | error fault => rfl
    | ok i =>
      simp only [emit_apply, execute_eq, enact]
      cases s.machine.effect s.machine.pc i with
      | error fault => rfl
      | ok e => simp [Machine.after]

/-- A step that succeeds finds the machine halted or has an effect. -/
theorem step_eq_ok {s t : Session σ} {status : Status} :
    step watch s = .ok status t ↔
      (s.machine.isHalted = true ∧ status = .halted ∧ t = s) ∨
      (s.machine.isHalted = false ∧ ∃ i e, s.machine.fetch s.machine.pc = .ok i ∧
        s.machine.effect s.machine.pc i = .ok e ∧ status = (s.machine.after i e).status ∧
        t = ⟨s.machine.after i e,
          observe watch e.changes (watch (.instruction s.machine.pc i) s.record)⟩) := by
  rw [step_apply]
  cases s.machine.isHalted with
  | true => simp [eq_comm]
  | false =>
    cases fetched : s.machine.fetch s.machine.pc with
    | error fault => simp
    | ok i => cases effected : s.machine.effect s.machine.pc i <;> simp [effected, eq_comm]

end Exec

namespace Machine

/-- The machine after its next step, or the fault the step ends in. -/
def next (m : Machine) : Except Fault Machine :=
  if m.isHalted then .ok m
  else (m.fetch m.pc).bind fun i => (m.effect m.pc i).map (m.after i)

theorem isHalted_iff {m : Machine} : m.isHalted = true ↔ m.status = .halted := beq_iff_eq

/-- A step that nobody watches. -/
theorem step_blind (m : Machine) :
    Exec.step Observer.blind ⟨m, ()⟩ =
      match m.next with
      | .ok n => .ok n.status ⟨n, ()⟩
      | .error fault => .error fault ⟨m, ()⟩ := by
  simp only [Exec.step_apply, next]
  by_cases halted : m.isHalted = true
  · have status : m.status = .halted := isHalted_iff.mp halted
    simp only [halted, if_true, status]
  · simp only [halted, Bool.false_eq_true, if_false]
    cases m.fetch m.pc with
    | error fault => rfl
    | ok i =>
      simp only [Except.bind]
      cases m.effect m.pc i <;> rfl

theorem step_eq (m : Machine) :
    m.step =
      match m.next with
      | .ok n => (.ok n.status, n)
      | .error fault => (.error fault, m) := by
  simp only [step, perform, EStateM.run, step_blind]
  cases m.next <;> rfl

theorem next_of_halted {m : Machine} (halted : m.isHalted = true) : m.next = .ok m := by
  simp only [next, halted, if_true]

/-- A machine takes a step only by an instruction it fetches. -/
theorem next_ok {m n : Machine} (running : m.isHalted = false) (h : m.next = .ok n) :
    ∃ i e, m.fetch m.pc = .ok i ∧ m.effect m.pc i = .ok e ∧ n = m.after i e := by
  simp only [next, running, Bool.false_eq_true, if_false] at h
  cases hi : m.fetch m.pc with
  | error fault => simp [hi, Except.bind] at h
  | ok i =>
    cases he : m.effect m.pc i with
    | error fault => simp [hi, he, Except.bind, Except.map] at h
    | ok e =>
      simp only [hi, he, Except.bind, Except.map, Except.ok.injEq] at h
      exact ⟨i, e, rfl, he, h.symm⟩

end Machine

end WordMachine
