import Mathlib.Data.List.Basic
import WordMachine.Proofs.Machine.Safety

/-! The stack as a list of words. As long as a machine moves its stack pointer by
pushing and popping only and stores nothing into the stack otherwise, the bytes
below the pointer are the words that were pushed and not yet popped, in order.
Pushing fails when half the bytes of the stack are taken up by words, reading
when there are too few of them, and nothing else goes wrong with either. -/
namespace WordMachine

namespace Word

/-- The bytes of words, one after the other. -/
def bytesOf (ws : List Word) : List UInt8 := ws.flatMap toBytes

theorem bytesOf_append (us vs : List Word) : bytesOf (us ++ vs) = bytesOf us ++ bytesOf vs :=
  List.flatMap_append

theorem length_bytesOf (ws : List Word) : (bytesOf ws).length = 2 * ws.length := by
  induction ws with
  | nil => rfl
  | cons w rest ih =>
    rw [bytesOf, List.flatMap_cons, List.length_append, ← bytesOf, ih, length_toBytes,
      List.length_cons]
    omega

/-- A word lies behind those that come before it. -/
theorem bytesOf_middle (us vs : List Word) (w : Word) :
    ((bytesOf (us ++ w :: vs)).drop (2 * us.length)).take 2 = w.toBytes := by
  rw [bytesOf_append, ← length_bytesOf us, List.drop_left]
  rfl

end Word

namespace Memory

variable {m n : Memory}

/-- A part of a segment is a segment. -/
theorem segment_within {a b i k : Nat} (inside : a + i + k ≤ b) :
    ((m.segment ⟨a, b⟩).drop i).take k = m.segment ⟨a + i, a + i + k⟩ := by
  simp only [segment_eq, List.drop_take, List.drop_drop, List.take_take]
  congr 1
  omega

theorem segment_add (a i k : Nat) :
    m.segment ⟨a, a + i + k⟩ = m.segment ⟨a, a + i⟩ ++ m.segment ⟨a + i, a + i + k⟩ := by
  simp only [segment_eq, Nat.add_sub_cancel_left, ← List.drop_drop]
  rw [← List.take_add]
  congr 1
  omega

theorem readWord_eq_ok {address : Nat} {w : Word} :
    m.readWord address = .ok w ↔ m.segment ⟨address, address + 2⟩ = w.toBytes := by
  by_cases inside : address + 1 < m.bytes.size
  · rw [readWord, dif_pos inside, segment_word (Nat.lt_of_succ_lt inside) inside,
      Except.ok.injEq, Word.toBytes]
    constructor
    · rintro rfl
      rw [Word.lowByte_ofBytes, Word.highByte_ofBytes]
    · intro same
      injection same with low rest
      injection rest with high
      rw [low, high, Word.ofBytes_lowByte_highByte]
  · rw [readWord, dif_neg inside]
    refine ⟨fun found => (by cases found), fun same => ?_⟩
    have length := congrArg List.length same
    simp [segment_eq] at length
    omega

end Memory

namespace Machine

variable {m n : Machine} {ws us vs : List Word} {w depth : Word}

/-- The words a stack has room for. -/
def capacity (m : Machine) : Nat := m.layout.stackSize / 2

/-- The words on the stack, the last one on top. -/
structure Holds (m : Machine) (ws : List Word) : Prop where
  pointer : m.sp.toNat = 2 * ws.length
  room : ws.length ≤ m.capacity
  bytes : m.stack.take m.sp.toNat = Word.bytesOf ws

theorem take_stack {k : Nat} (inside : k ≤ m.layout.stackSize) :
    m.stack.take k = m.memory.segment ⟨m.layout.stack.start, m.layout.stack.start + k⟩ :=
  Memory.segment_within (m := m.memory) (i := 0) (Nat.add_le_add_left inside _)

namespace Holds

theorem le_stackSize (holds : m.Holds ws) : m.sp.toNat ≤ m.layout.stackSize := by
  have room := holds.room
  rw [holds.pointer]
  simp only [capacity] at room
  omega

theorem segment (holds : m.Holds ws) :
    m.memory.segment ⟨m.layout.stack.start, m.layout.stack.start + 2 * ws.length⟩ =
      Word.bytesOf ws := by
  rw [← holds.pointer, ← take_stack holds.le_stackSize, holds.bytes]

/-- A word is read at its depth. -/
theorem peek (holds : m.Holds (us ++ w :: vs)) (deep : depth.toNat = 2 * (vs.length + 1)) :
    m.peek depth = .ok w := by
  have pointer := holds.pointer
  rw [List.length_append, List.length_cons] at pointer
  have above : depth ≤ m.sp := by
    rw [UInt16.le_iff_toNat_le]
    omega
  have place : (m.sp - depth).toNat = 2 * us.length := by
    rw [UInt16.toNat_sub_of_le _ _ above]
    omega
  refine peek_eq_ok.mpr ⟨above, holds.le_stackSize, Memory.readWord_eq_ok.mpr ?_⟩
  rw [place, ← Word.bytesOf_middle us vs w, ← holds.segment, Memory.segment_within]
  rw [List.length_append, List.length_cons]
  omega

/-- There is nothing to read below the bottom. -/
theorem peek_below (holds : m.Holds ws) (deep : 2 * ws.length < depth.toNat) :
    m.peek depth = .error (.stackUnderflow m.sp) := by
  have under : m.sp < depth := by
    rw [UInt16.lt_iff_toNat_lt, holds.pointer]
    exact deep
  rw [Machine.peek, if_pos under]

theorem push_full (holds : m.Holds ws) (full : ws.length = m.capacity) (w : Word) :
    m.push w = .error (.stackOverflow m.sp) := by
  have excess : m.layout.stackSize < m.sp.toNat + 2 := by
    rw [holds.pointer, full, capacity]
    omega
  simp only [Machine.push, excess, if_true]

theorem push_free (holds : m.Holds ws) (sized : m.memory.size = m.layout.memorySize)
    (free : ws.length < m.capacity) (w : Word) :
    m.push w = .ok [.memory (m.layout.stack.start + m.sp.toNat) w, .register .sp (m.sp + 2)] := by
  have room : m.sp.toNat + 2 ≤ m.layout.stackSize := by
    rw [holds.pointer]
    simp only [capacity] at free
    omega
  have fits := m.layout.fits
  refine push_eq_ok.mpr ⟨room, ?_, rfl⟩
  have size : m.memory.bytes.size = m.layout.memorySize := sized
  have start : m.layout.stack.start = m.layout.programSize := rfl
  omega

/-- The same stack holds the same words. -/
theorem keep (holds : m.Holds ws) (layout : n.layout = m.layout) (sp : n.sp = m.sp)
    (stack : n.stack = m.stack) : n.Holds ws := by
  refine ⟨?_, ?_, ?_⟩
  · rw [sp]
    exact holds.pointer
  · rw [capacity, layout]
    exact holds.room
  · rw [sp, stack]
    exact holds.bytes

/-- A word stored at the stack pointer lies on top. -/
theorem grow (holds : m.Holds ws) (code : 0 < m.layout.programSize)
    (room : m.sp.toNat + 2 ≤ m.layout.stackSize) (layout : n.layout = m.layout)
    (sp : n.sp = m.sp + 2)
    (stored : m.memory.writeWord (m.layout.stack.start + m.sp.toNat) w = .ok n.memory) :
    n.Holds (ws ++ [w]) := by
  have pointer := holds.pointer
  -- The stack lies behind a program, so the pointer stays below the last address.
  have moved : n.sp.toNat = m.sp.toNat + 2 := by
    have fits := m.layout.fits
    have range : m.layout.memorySize ≤ 0x10000 := m.layout.memory_le
    rw [sp, UInt16.toNat_add]
    exact Nat.mod_eq_of_lt (by show m.sp.toNat + 2 < 2 ^ 16; omega)
  have below : n.memory.segment ⟨m.layout.stack.start, m.layout.stack.start + m.sp.toNat⟩ =
      Word.bytesOf ws := by
    rw [Memory.segment_writeWord stored (Or.inl (Nat.le_refl _)), pointer, holds.segment]
  have top : n.memory.segment
      ⟨m.layout.stack.start + m.sp.toNat, m.layout.stack.start + m.sp.toNat + 2⟩ = w.toBytes :=
    Memory.readWord_eq_ok.mp (Memory.readWord_writeWord stored)
  refine ⟨?_, ?_, ?_⟩
  · rw [moved, pointer, List.length_append, List.length_singleton]
    omega
  · rw [capacity, layout, List.length_append, List.length_singleton]
    omega
  · rw [take_stack (by rw [moved, layout]; exact room), moved, layout, ← Nat.add_assoc,
      Memory.segment_add, below, top, Word.bytesOf_append]
    rfl

/-- The words below the last one stay when it is taken away. -/
theorem shrink (holds : m.Holds (ws ++ [w])) (layout : n.layout = m.layout)
    (sp : n.sp = m.sp - 2) (stack : n.stack = m.stack) : n.Holds ws := by
  have pointer := holds.pointer
  have room := holds.room
  rw [List.length_append, List.length_singleton] at pointer room
  have moved : n.sp.toNat = 2 * ws.length := by
    have two : (2 : Word).toNat = 2 := rfl
    rw [sp, UInt16.toNat_sub_of_le _ _ (by rw [UInt16.le_iff_toNat_le]; omega)]
    omega
  refine ⟨moved, ?_, ?_⟩
  · rw [capacity, layout]
    exact Nat.le_of_succ_le room
  · have below := congrArg (List.take (2 * ws.length)) holds.bytes
    rw [List.take_take, Nat.min_eq_left (by omega), Word.bytesOf_append, ← Word.length_bytesOf,
      List.take_left] at below
    rw [moved, stack, ← Word.length_bytesOf, below]

end Holds

theorem sp_after (m : Machine) (i : Instruction) (e : Effect) :
    (m.after i e).sp = (m.applyAll e.changes).sp := get_after m i e (by decide)

theorem stack_after (m : Machine) (i : Instruction) (e : Effect) :
    (m.after i e).stack = (m.applyAll e.changes).stack := by
  rw [after]
  cases e.flow <;> rfl

theorem stack_change {c : Change}
    (clear : ∀ a ∈ c.address?, m.layout.stack.stop ≤ a ∨ a + 2 ≤ m.layout.stack.start) :
    (c.apply m).stack = m.stack := by
  cases c with
  | memory address w =>
    have apart := clear address rfl
    cases h : m.memory.writeWord address w with
    | error fault => simp only [Change.apply, h]
    | ok written =>
      simp only [Change.apply, h]
      exact Memory.segment_writeWord h apart
  | _ => rfl

/-- Stores elsewhere leave the stack as it is. -/
theorem stack_applyAll {changes : List Change}
    (clear : ∀ c ∈ changes, ∀ a ∈ c.address?,
      m.layout.stack.stop ≤ a ∨ a + 2 ≤ m.layout.stack.start) :
    (m.applyAll changes).stack = m.stack := by
  induction changes generalizing m with
  | nil => rfl
  | cons c rest ih =>
    have first : (c.apply m).stack = m.stack := stack_change (clear c List.mem_cons_self)
    have same := (SameSetting.change m c).layout
    refine (ih fun d hd => ?_).trans first
    rw [same]
    exact clear d (List.mem_cons_of_mem c hd)

/-- The instruction, executed next, writes no stack pointer and nothing into the
stack. -/
def Spares (m : Machine) (i : Instruction) : Prop :=
  ∀ e, m.effect m.pc i = .ok e → ∀ c ∈ e.changes, c.register? ≠ some .sp ∧
    ∀ a ∈ c.address?, m.layout.stack.stop ≤ a ∨ a + 2 ≤ m.layout.stack.start

namespace Holds

variable {i : Instruction}

theorem after_spared (holds : m.Holds ws) (spares : m.Spares i) {e : Effect}
    (h : m.effect m.pc i = .ok e) : (m.after i e).Holds ws := by
  refine holds.keep (SameSetting.after m i e).layout ?_ ?_
  · rw [sp_after]
    exact get_applyAll fun c hc => (spares e h c hc).1
  · rw [stack_after]
    exact stack_applyAll fun c hc => (spares e h c hc).2

theorem after_push (holds : m.Holds ws) (code : 0 < m.layout.programSize)
    {changes : List Change} (h : m.push w = .ok changes) :
    (m.after i ⟨.next, changes⟩).Holds (ws ++ [w]) := by
  obtain ⟨room, inside, rfl⟩ := push_eq_ok.mp h
  obtain ⟨written, stored⟩ :
      ∃ written, m.memory.writeWord (m.layout.stack.start + m.sp.toNat) w = .ok written :=
    ⟨_, dif_pos inside⟩
  refine holds.grow code room (SameSetting.after m i _).layout ?_ ?_
  · rw [sp_after]
    exact (get_set _ _ _ _).trans (if_pos rfl)
  · rw [memory_after]
    simp only [applyAll, List.foldl_cons, List.foldl_nil, Change.apply, stored]
    rfl

theorem after_pop (holds : m.Holds (ws ++ [w])) {r : Register} (other : r ≠ .sp) {v : Word} :
    (m.after i ⟨.next, [.register .sp (m.sp - 2), .register r v]⟩).Holds ws := by
  refine holds.shrink (SameSetting.after m i _).layout ?_ ?_
  · rw [sp_after]
    simp only [applyAll, List.foldl_cons, List.foldl_nil, Change.apply]
    exact ((get_set _ _ _ _).trans (if_neg other.symm)).trans
      ((get_set _ _ _ _).trans (if_pos rfl))
  · rw [stack_after]
    rfl

end Holds

namespace Holds

variable {fault : Fault}

/-- Pushing fails on a full stack, and on no other. -/
theorem push_error_iff (holds : m.Holds ws) (sized : m.memory.size = m.layout.memorySize)
    (w : Word) : m.push w = .error fault ↔ ws.length = m.capacity ∧ fault = .stackOverflow m.sp := by
  by_cases full : ws.length = m.capacity
  · rw [holds.push_full full, Except.error.injEq, eq_comm]
    exact ⟨fun same => ⟨full, same⟩, And.right⟩
  · have free : ws.length < m.capacity := by
      have room := holds.room
      omega
    rw [holds.push_free sized free]
    exact ⟨nofun, fun h => absurd h.1 full⟩

/-- Reading so many words deep fails on a stack of fewer words, and on no other. -/
theorem peek_error_iff (holds : m.Holds ws) {k : Nat} (deep : depth.toNat = 2 * (k + 1)) :
    m.peek depth = .error fault ↔ ws.length ≤ k ∧ fault = .stackUnderflow m.sp := by
  by_cases short : ws.length ≤ k
  · rw [holds.peek_below (by omega), Except.error.injEq, eq_comm]
    exact ⟨fun same => ⟨short, same⟩, And.right⟩
  · have inside : ws.length - (k + 1) < ws.length := by omega
    have split : ws = ws.take (ws.length - (k + 1)) ++ ws[ws.length - (k + 1)] ::
        ws.drop (ws.length - (k + 1) + 1) := by simp
    rw [split] at holds
    have read : m.peek depth = .ok ws[ws.length - (k + 1)] :=
      holds.peek (by rw [deep, List.length_drop]; omega)
    rw [read]
    exact ⟨nofun, fun h => absurd h.1 short⟩

theorem peek_top (holds : m.Holds (us ++ [w])) : m.peek 2 = .ok w := holds.peek rfl

end Holds

/-- Runs of a machine whose steps all succeed and use the stack as one, with the
words that are on it: pushed and not yet popped. -/
inductive StackRun (start : Machine) : Machine → List Word → Prop
  | start : StackRun start start []
  | push {m n : Machine} {ws : List Word} {r : Register} {status : Status} :
      StackRun start m ws → m.Executes ⟨.push, .reg r, rfl⟩ → m.step = (.ok status, n) →
      StackRun start n (ws ++ [m.get r])
  | pushImm {m n : Machine} {ws : List Word} {w : Word} {status : Status} :
      StackRun start m ws → m.Executes ⟨.pushImm, .imm w, rfl⟩ → m.step = (.ok status, n) →
      StackRun start n (ws ++ [w])
  | pop {m n : Machine} {ws : List Word} {r : Register} {status : Status} :
      StackRun start m ws → m.Executes ⟨.pop, .reg r, rfl⟩ → r ≠ .sp →
      m.step = (.ok status, n) → StackRun start n ws.dropLast
  | dup {m n : Machine} {ws : List Word} {status : Status} :
      StackRun start m ws → m.Executes ⟨.dup, .none, rfl⟩ → m.step = (.ok status, n) →
      StackRun start n (ws ++ ws.getLast?.toList)
  | compare {m n : Machine} {ws : List Word} {status : Status} :
      StackRun start m ws → m.Executes ⟨.compareTop, .none, rfl⟩ → m.step = (.ok status, n) →
      StackRun start n ws
  | other {m n : Machine} {ws : List Word} {i : Instruction} {status : Status} :
      StackRun start m ws → m.Executes i → m.Spares i → m.step = (.ok status, n) →
      StackRun start n ws

/-- A machine with these words on its stack does with them what a stack of
limited capacity does, and fails where that does. -/
structure StackSound (m : Machine) (ws : List Word) : Prop where
  holds : m.Holds ws
  push : ∀ i, i.opcode = .push ∨ i.opcode = .pushImm → m.Executes i → ∀ fault,
    m.step.1 = .error fault ↔ ws.length = m.capacity ∧ fault = .stackOverflow m.sp
  pop : ∀ r, m.Executes ⟨.pop, .reg r, rfl⟩ → ∀ fault,
    m.step.1 = .error fault ↔ ws = [] ∧ fault = .stackUnderflow m.sp
  /-- The program counter moves on from the word that is popped into it. -/
  popped : ∀ r us w, m.Executes ⟨.pop, .reg r, rfl⟩ → ws = us ++ [w] →
    m.step.2.get r = if r = .pc then w + 2 else w
  dup : m.Executes ⟨.dup, .none, rfl⟩ → ∀ fault,
    m.step.1 = .error fault ↔ ws = [] ∧ fault = .stackUnderflow m.sp ∨
      ws ≠ [] ∧ ws.length = m.capacity ∧ fault = .stackOverflow m.sp
  compare : m.Executes ⟨.compareTop, .none, rfl⟩ → ∀ fault,
    m.step.1 = .error fault ↔ ws.length < 2 ∧ fault = .stackUnderflow m.sp
  compared : ∀ us a b, m.Executes ⟨.compareTop, .none, rfl⟩ → ws = us ++ [a, b] →
    m.step.2.flags = m.flags.record (Ord.compare a b)

theorem flags_after_compare (m : Machine) (i : Instruction) (left right : Word) :
    (m.after i (m.compare left right)).flags = m.flags.record (Ord.compare left right) := by
  have written : (m.after i (m.compare left right)).get .flags =
      (m.flags.record (Ord.compare left right)).bits :=
    (get_after m i _ (by decide)).trans ((get_set _ _ _ _).trans (if_pos rfl))
  rw [flags, written]

namespace Holds

variable {fault : Fault}

theorem push_step (holds : m.Holds ws) {i : Instruction} (executes : m.Executes i)
    (effect : m.effect m.pc i = (m.push w).map (Effect.mk .next)) {status : Status}
    (stepped : m.step = (.ok status, n)) : n.Holds (ws ++ [w]) := by
  obtain ⟨e, effected, rfl⟩ := effect_of_step executes stepped
  rw [effect, Result.map_eq_ok] at effected
  obtain ⟨changes, pushed, rfl⟩ := effected
  exact holds.after_push (code_of_executes executes) pushed

theorem pop_step (holds : m.Holds ws) {r : Register} (other : r ≠ .sp)
    (executes : m.Executes ⟨.pop, .reg r, rfl⟩) {status : Status}
    (stepped : m.step = (.ok status, n)) : n.Holds ws.dropLast := by
  obtain ⟨e, effected, rfl⟩ := effect_of_step executes stepped
  obtain ⟨w, read, rfl⟩ := Result.map_eq_ok.mp effected
  rcases List.eq_nil_or_concat' ws with rfl | ⟨us, top, rfl⟩
  · rw [holds.peek_below (by decide)] at read
    cases read
  · rw [List.dropLast_concat]
    exact holds.after_pop other

theorem dup_step (holds : m.Holds ws) (executes : m.Executes ⟨.dup, .none, rfl⟩)
    {status : Status} (stepped : m.step = (.ok status, n)) :
    n.Holds (ws ++ ws.getLast?.toList) := by
  obtain ⟨e, effected, rfl⟩ := effect_of_step executes stepped
  obtain ⟨changes, h, rfl⟩ := Result.map_eq_ok.mp effected
  obtain ⟨w, read, pushed⟩ := Result.bind_eq_ok.mp h
  rcases List.eq_nil_or_concat' ws with rfl | ⟨us, top, rfl⟩
  · rw [holds.peek_below (by decide)] at read
    cases read
  · rw [holds.peek_top, Except.ok.injEq] at read
    subst read
    rw [List.getLast?_concat]
    exact holds.after_push (code_of_executes executes) pushed

/-- Comparing writes the flags only. -/
theorem compare_step (holds : m.Holds ws) (executes : m.Executes ⟨.compareTop, .none, rfl⟩)
    {status : Status} (stepped : m.step = (.ok status, n)) : n.Holds ws := by
  obtain ⟨e, effected, rfl⟩ := effect_of_step executes stepped
  refine holds.after_spared ?_ effected
  intro e effected c hc
  obtain ⟨left, _, h⟩ := Result.bind_eq_ok.mp effected
  obtain ⟨right, _, rfl⟩ := Result.map_eq_ok.mp h
  obtain rfl := List.mem_singleton.mp hc
  exact ⟨nofun, nofun⟩

/-- A stack without words is one whose pointer is at the bottom. -/
theorem empty (bottom : m.sp = 0) : m.Holds [] := by
  refine ⟨?_, Nat.zero_le _, ?_⟩
  · rw [bottom]
    rfl
  · rw [bottom]
    rfl

/-- The word on top is what is popped. -/
theorem get_pop (holds : m.Holds (us ++ [w])) {r : Register}
    (executes : m.Executes ⟨.pop, .reg r, rfl⟩) :
    m.step.2.get r = if r = .pc then w + 2 else w := by
  have effected : m.effect m.pc ⟨.pop, .reg r, rfl⟩ =
      .ok ⟨.next, [.register .sp (m.sp - 2), .register r w]⟩ :=
    Result.map_eq_ok.mpr ⟨w, holds.peek_top, rfl⟩
  have written : (m.applyAll [.register .sp (m.sp - 2), .register r w]).get r = w :=
    (get_set _ _ _ _).trans (if_pos rfl)
  simp only [step_of_executes executes, effected]
  by_cases counter : r = .pc
  · subst counter
    have moved := pc_after m ⟨.pop, .reg .pc, rfl⟩
      ⟨.next, [.register .sp (m.sp - 2), .register .pc w]⟩
    rw [if_pos rfl]
    exact moved.trans (congrArg (· + 2) written)
  · rw [if_neg counter, get_after _ _ _ counter, written]

theorem dup_error_iff (holds : m.Holds ws) (sized : m.memory.size = m.layout.memorySize)
    (executes : m.Executes ⟨.dup, .none, rfl⟩) :
    m.step.1 = .error fault ↔ ws = [] ∧ fault = .stackUnderflow m.sp ∨
      ws ≠ [] ∧ ws.length = m.capacity ∧ fault = .stackOverflow m.sp := by
  rw [step_error_iff executes]
  refine Result.map_eq_error.trans (Result.bind_eq_error.trans ?_)
  rw [holds.peek_error_iff (k := 0) rfl, Nat.le_zero, List.length_eq_zero_iff]
  rcases List.eq_nil_or_concat' ws with rfl | ⟨us, w, rfl⟩
  · have below : m.peek 2 = .error (.stackUnderflow m.sp) := holds.peek_below (by decide)
    simp [below]
  · simp [holds.peek_top, holds.push_error_iff sized]

/-- A comparison that finds one word too few to read finds too few words. -/
theorem compare_error_iff (holds : m.Holds ws) (executes : m.Executes ⟨.compareTop, .none, rfl⟩) :
    m.step.1 = .error fault ↔ ws.length < 2 ∧ fault = .stackUnderflow m.sp := by
  have deep : (4 : Word).toNat = 2 * (1 + 1) := rfl
  rw [step_error_iff executes, Nat.lt_succ_iff, ← holds.peek_error_iff deep]
  refine Result.bind_eq_error.trans (or_iff_left_of_imp ?_)
  rintro ⟨left, _, read⟩
  obtain ⟨none, under⟩ := (holds.peek_error_iff (k := 0) rfl).mp (Result.map_eq_error.mp read)
  exact (holds.peek_error_iff rfl).mpr ⟨Nat.le_succ_of_le none, under⟩

/-- The last two words are what is compared. -/
theorem flags_compare {a b : Word} (holds : m.Holds (us ++ [a, b]))
    (executes : m.Executes ⟨.compareTop, .none, rfl⟩) :
    m.step.2.flags = m.flags.record (Ord.compare a b) := by
  have left : m.peek 4 = .ok a := holds.peek rfl
  have right : m.peek 2 = .ok b := by
    rw [List.append_cons] at holds
    exact holds.peek_top
  have effected : m.effect m.pc ⟨.compareTop, .none, rfl⟩ = .ok (m.compare a b) :=
    Result.bind_eq_ok.mpr ⟨a, left, Result.map_eq_ok.mpr ⟨b, right, rfl⟩⟩
  simp only [step_of_executes executes, effected, flags_after_compare]

end Holds

/-- What the words on the stack say about the next step. -/
theorem Holds.sound (holds : m.Holds ws) (sized : m.memory.size = m.layout.memorySize) :
    m.StackSound ws := by
  refine
    { holds
      push := ?_
      pop := ?_
      popped := ?_
      dup := fun executes fault => holds.dup_error_iff sized executes
      compare := fun executes fault => holds.compare_error_iff executes
      compared := ?_ }
  · intro i named executes fault
    rw [step_error_iff executes]
    cases i using Instruction.byOpcode with
    | push r => exact Result.map_eq_error.trans (holds.push_error_iff sized _)
    | pushImm w => exact Result.map_eq_error.trans (holds.push_error_iff sized w)
    | _ => rcases named with named | named <;> cases named
  · intro r executes fault
    rw [step_error_iff executes, ← List.length_eq_zero_iff, ← Nat.le_zero]
    exact Result.map_eq_error.trans (holds.peek_error_iff rfl)
  · rintro r us w executes rfl
    exact holds.get_pop executes
  · rintro us a b executes rfl
    exact holds.flags_compare executes

theorem Live.step (live : m.Live) {reply : Except Fault Status} (stepped : m.step = (reply, n)) :
    n.Live := by
  have applied : m.apply .step = some (reply.map .status, n) := by rw [apply, stepped]
  exact live.after applied

/-- Every step of a run does to the words what it does to the stack. -/
theorem StackRun.holds {start : Machine} (bottom : start.sp = 0) (run : start.StackRun m ws) :
    m.Holds ws := by
  induction run with
  | start => exact .empty bottom
  | push _ executes stepped ih | pushImm _ executes stepped ih =>
    exact ih.push_step executes rfl stepped
  | pop _ executes other stepped ih => exact ih.pop_step other executes stepped
  | dup _ executes stepped ih => exact ih.dup_step executes stepped
  | compare _ executes stepped ih => exact ih.compare_step executes stepped
  | other _ executes spares stepped ih =>
    obtain ⟨e, effected, rfl⟩ := effect_of_step executes stepped
    exact ih.after_spared spares effected

theorem StackRun.live {start : Machine} (live : start.Live) (run : start.StackRun m ws) :
    m.Live := by
  induction run with
  | start => exact live
  | push _ _ stepped ih | pushImm _ _ stepped ih | dup _ _ stepped ih | compare _ _ stepped ih =>
    exact ih.step stepped
  | pop _ _ _ stepped ih | other _ _ _ stepped ih => exact ih.step stepped

/-- Whatever program and stack a machine has, from an empty stack on it works on
its stack as on a list of words. -/
theorem stack_refinement {start : Machine} (live : start.Live) (bottom : start.sp = 0)
    (run : start.StackRun m ws) : m.StackSound ws :=
  (run.holds bottom).sound (run.live live).sized

/-- The third byte of a stack of three takes no word. -/
theorem stack_refinement_odd :
    let dup : Instruction := ⟨.dup, .none, rfl⟩
    let image : Image := ⟨none, [],
      [⟨.pushImm, .imm 7, rfl⟩, dup].flatMap Instruction.encode, fun _ => rfl, by decide⟩
    ∃ m, ofImage image ⟨8, 3, true, true⟩ = .ok m ∧
      m.step.2.StackSound [7] ∧ m.step.2.step.1 = .error (.stackOverflow 2) := by
  intro dup image
  obtain ⟨m, built⟩ : ∃ m, ofImage image ⟨8, 3, true, true⟩ = .ok m := ⟨_, rfl⟩
  have executes : m.Executes ⟨.pushImm, .imm 7, rfl⟩ := by
    cases built
    exact ⟨rfl, rfl⟩
  have stepped : m.step = (.ok .running, m.step.2) := by
    cases built
    rfl
  have doubles : m.step.2.Executes dup := by
    cases built
    exact ⟨rfl, Result.eq_ok_of_toOption (by decide +kernel)⟩
  have sound := stack_refinement (.built built) (by cases built; rfl)
    (.pushImm .start executes stepped)
  have full : m.step.2.capacity = 1 ∧ m.step.2.sp = 2 := by
    cases built
    decide +kernel
  refine ⟨m, built, sound, (sound.dup doubles _).mpr (Or.inr ⟨nofun, full.1.symm, ?_⟩)⟩
  rw [full.2]

end Machine

end WordMachine
