import WordMachine.Machine.Snapshot
import WordMachine.Proofs.Machine.Checked

/-! Safety. Whatever is done to machines, registers set to any value and
snapshots put back into other machines, the memory of each is as large as its
layout says, its segments are all of it, and no step breaks off where checked
execution would. -/
namespace WordMachine

/-- The second machine has the setting of the first, and memory of the same size. -/
structure Machine.SameSetting (m n : Machine) : Prop where
  layout : n.layout = m.layout
  config : n.config = m.config
  header : n.header = m.header
  size : n.memory.size = m.memory.size

namespace Machine.SameSetting

variable {m n o : Machine}

theorem refl (m : Machine) : SameSetting m m := ⟨rfl, rfl, rfl, rfl⟩

theorem trans (left : SameSetting m n) (right : SameSetting n o) : SameSetting m o :=
  ⟨right.layout.trans left.layout, right.config.trans left.config,
    right.header.trans left.header, right.size.trans left.size⟩

theorem change (m : Machine) (c : Change) : SameSetting m (c.apply m) := by
  cases c with
  | register r w => exact ⟨rfl, rfl, rfl, rfl⟩
  | memory address w =>
    cases h : m.memory.writeWord address w with
    | error fault =>
      simp only [Change.apply, h]
      exact refl m
    | ok written =>
      simp only [Change.apply, h]
      exact ⟨rfl, rfl, rfl, Memory.size_writeWord h⟩
  | flags left right f => exact ⟨rfl, rfl, rfl, rfl⟩
  | refuse address w => exact ⟨rfl, rfl, rfl, rfl⟩
  | halt pc => exact ⟨rfl, rfl, rfl, rfl⟩
  | notice event => exact refl m

theorem changes (m : Machine) (changes : List Change) : SameSetting m (m.applyAll changes) := by
  induction changes generalizing m with
  | nil => exact refl m
  | cons c rest ih => exact (change m c).trans (ih (c.apply m))

theorem follow (m : Machine) (i : Instruction) (flow : Flow) : SameSetting m (m.follow i flow) := by
  cases flow <;> exact ⟨rfl, rfl, rfl, rfl⟩

theorem after (m : Machine) (i : Instruction) (e : Effect) : SameSetting m (m.after i e) :=
  ((changes m e.changes).trans (follow _ i e.flow)).trans ⟨rfl, rfl, rfl, rfl⟩

/-- Steps leave layout, configuration and header alone. -/
theorem next (running : m.isHalted = false) (h : m.next = .ok n) : SameSetting m n := by
  obtain ⟨i, e, _, _, rfl⟩ := next_ok running h
  exact after m i e

/-- And so do the operations of a client. -/
theorem reachable {start : Machine} (reach : start.Reachable m) : SameSetting start m := by
  refine reach.keeps ?_ ?_ (refl start)
  · intro m n same running h
    exact same.trans (next running h)
  · intro m r w same
    exact same.trans ⟨rfl, rfl, rfl, rfl⟩

end Machine.SameSetting

namespace Machine

variable {m n : Machine}

theorem count_apply (m : Machine) (c : Change) : (c.apply m).count = m.count := by
  cases c with
  | memory address w =>
    rw [Change.apply]
    split <;> rfl
  | _ => rfl

theorem count_applyAll (m : Machine) (changes : List Change) :
    (m.applyAll changes).count = m.count := by
  induction changes generalizing m with
  | nil => rfl
  | cons c rest ih =>
    have first := ih (c.apply m)
    rw [count_apply] at first
    exact first

theorem count_follow (m : Machine) (i : Instruction) (flow : Flow) :
    (m.follow i flow).count = m.count := by
  cases flow <;> rfl

theorem count_after (m : Machine) (i : Instruction) (e : Effect) :
    (m.after i e).count = m.count + 1 := by
  rw [after, count_follow, count_applyAll]

theorem Steps.count {k : Nat} (steps : Steps k m n) : n.count = m.count + k := by
  induction steps with
  | zero => rfl
  | succ running one _ ih =>
    obtain ⟨i, e, _, _, rfl⟩ := next_ok running one
    rw [ih, count_after]
    omega

end Machine

namespace Checked

open Machine

variable {m n : Machine}

theorem follow_eq (m : Machine) (i : Instruction) (flow : Flow) :
    follow m i.opcode flow = .ok (m.follow i flow) := by
  cases flow with
  | next =>
    have small : i.opcode.size < 0x10000 := by
      have sized := i.size_le_maxSize
      simp only [Instruction.size, Instruction.maxSize] at sized
      omega
    have narrowed : (narrow i.opcode.size : Checked Fault Word) = .ok (UInt16.ofNat i.size) :=
      if_pos small
    rw [follow, narrowed]
    rfl
  | jump target => rfl
  | stop => rfl

/-- A checked step is a step, as long as instructions can be counted. -/
theorem next_eq (sized : m.memory.size = m.layout.memorySize) (room : m.count < maxCount) :
    next m = lift m.next := by
  rw [next, Machine.next]
  cases m.isHalted with
  | true => rfl
  | false =>
    simp only [Bool.false_eq_true, if_false, fetch_eq sized]
    cases fetched : m.fetch m.pc with
    | error fault => rfl
    | ok i =>
      have code : 0 < m.layout.programSize := by
        have inside := (fetch_eq_ok.mp fetched).1.2
        omega
      have counted : (tick (m.count) : Checked Fault Nat) = .ok (m.count + 1) := if_pos room
      simp only [Except.map, lift_ok, ok_bind, parts, effect_eq sized code, Except.bind]
      cases m.effect m.pc i with
      | error fault => rfl
      | ok e =>
        simp only [lift_ok, ok_bind, follow_eq, count_follow, count_applyAll, counted]
        simp only [after, count_follow, count_applyAll]
        rfl

/-- A checked run is a run. -/
theorem run_eq (sized : m.memory.size = m.layout.memorySize) {limit : Nat}
    (room : m.count + limit ≤ maxCount) :
    run m limit = lift ((m.run limit).1.map fun _ => (m.run limit).2) := by
  induction limit generalizing m with
  | zero => rfl
  | succ limit ih =>
    rw [run, run_succ]
    cases running : m.isHalted with
    | true => rfl
    | false =>
      simp only [Bool.false_eq_true, if_false, next_eq sized (by omega)]
      cases stepped : m.next with
      | error fault => rfl
      | ok n =>
        have same := SameSetting.next running stepped
        have counted : n.count = m.count + 1 := by
          obtain ⟨i, e, _, _, rfl⟩ := next_ok running stepped
          exact count_after m i e
        have rest := @ih n (by rw [same.size, same.layout, sized]) (by omega)
        simp only [lift_ok, ok_bind, rest]
        cases (n.run limit).1 <;> rfl

end Checked

namespace Machine

variable {m n : Machine}

/-- Machines as clients have them: built from an image, operated on, or put back
to where another machine has been. -/
inductive Live : Machine → Prop
  | built {image : Image} {config : Config} {m : Machine} : ofImage image config = .ok m → Live m
  | after {m n : Machine} {operation : Operation} {reply : Except Fault Reply} :
      Live m → m.apply operation = some (reply, n) → Live n
  | restored {m o : Machine} : Live m → Live o → Live (m.restore o.snapshot)

theorem Live.sized (live : Live m) : m.memory.size = m.layout.memorySize := by
  induction live with
  | @built image config m built =>
    unfold ofImage at built
    split at built
    · cases built
    · next layout laid =>
      cases built
      exact Memory.size_load image config layout laid
  | @after m n operation reply _ applied ih =>
    have same := SameSetting.reachable (.after .refl applied)
    rw [same.size, same.layout, ih]
  | restored _ _ _ ih => exact ih

theorem Live.programSize_le (live : m.Live) : m.layout.programSize ≤ maxPayload := by
  induction live with
  | @built image config m built =>
    rw [(Layout.ofImage_ok (Intact.ofImage built).layout).2]
    exact image.length_payload_le
  | after _ applied ih =>
    rw [(SameSetting.reachable (.after .refl applied)).layout]
    exact ih
  | restored _ _ _ ih => exact ih

/-- Every step of a run leads to a machine that clients could have. -/
theorem Live.steps (live : Live m) {k : Nat} (steps : Steps k m n) : Live n := by
  induction steps with
  | zero => exact live
  | @succ k m n o _ one _ ih =>
    have stepped : m.apply .step = some (.ok (.status n.status), n) := by
      rw [apply, step_eq, one]
      rfl
    exact ih (live.after stepped)

/-- The segments are all of memory. -/
theorem segments_append (sized : m.memory.size = m.layout.memorySize) :
    m.program ++ m.stack ++ m.heap = m.memory.bytes.toList := by
  have fits := m.layout.fits
  have whole : m.memory.bytes.toList.length ≤ m.layout.programSize + m.layout.stackSize +
      (m.layout.memorySize - (m.layout.programSize + m.layout.stackSize)) := by
    rw [Array.length_toList, ← Memory.size]
    omega
  simp only [program, stack, heap, Memory.segment_eq, Layout.program, Layout.stack, Layout.heap,
    List.drop_zero, Nat.sub_zero, Nat.add_sub_cancel_left]
  rw [← List.take_add, ← List.take_add, List.take_of_length_le whole]

/-- What clients and execution rely on. -/
structure Safe (m : Machine) : Prop where
  size : m.memory.size = m.layout.memorySize
  segments : m.program ++ m.stack ++ m.heap = m.memory.bytes.toList
  program : m.memory.slice m.layout.program.start m.layout.program.stop = .ok m.program
  stack : m.memory.slice m.layout.stack.start m.layout.stack.stop = .ok m.stack
  heap : m.memory.slice m.layout.heap.start m.layout.heap.stop = .ok m.heap
  setting : ∀ operation reply n, m.apply operation = some (reply, n) → m.SameSetting n
  /-- No step of any run breaks off. -/
  step : ∀ k n, Steps k m n → n.count < Checked.maxCount → Checked.next n = Checked.lift n.next
  run : ∀ limit, m.count + limit ≤ Checked.maxCount →
    Checked.run m limit = Checked.lift ((m.run limit).1.map fun _ => (m.run limit).2)

/-- Whatever a client does with machines, each of them is safe. -/
theorem live_safe (live : Live m) : m.Safe := by
  have sized := live.sized
  have fits := m.layout.fits
  refine
    { size := sized
      segments := segments_append sized
      program := if_pos ?_
      stack := if_pos ?_
      heap := if_pos ?_
      setting := ?_
      step := ?_
      run := ?_ }
  · simp only [Layout.program]
    omega
  · simp only [Layout.stack]
    omega
  · simp only [Layout.heap]
    omega
  · intro operation reply n applied
    exact .reachable (.after .refl applied)
  · intro k n steps room
    exact Checked.next_eq (live.steps steps).sized room
  · intro limit room
    exact Checked.run_eq sized room

/-- A machine put back to where a larger one has been, whose stack pointer is
then set to the top of the address space, reports that and nothing worse. -/
theorem restored_safe :
    let small : Image := ⟨none, [], Instruction.encode ⟨.halt, .none, rfl⟩, fun _ => rfl, by decide⟩
    let large : Image :=
      ⟨none, [], Instruction.encode ⟨.push, .reg .r1, rfl⟩, fun _ => rfl, by decide⟩
    ∃ a b, ofImage small ⟨8, 4, true, true⟩ = .ok a ∧ ofImage large ⟨32, 8, true, true⟩ = .ok b ∧
      let m := (a.restore b.snapshot).set .sp 0xFFFE
      m.Safe ∧ Checked.next m = .error (.error (.stackOverflow 0xFFFE)) := by
  intro small large
  obtain ⟨a, builtA⟩ : ∃ a, ofImage small ⟨8, 4, true, true⟩ = .ok a := ⟨_, rfl⟩
  obtain ⟨b, builtB⟩ : ∃ b, ofImage large ⟨32, 8, true, true⟩ = .ok b := ⟨_, rfl⟩
  refine ⟨a, b, builtA, builtB, ?_⟩
  intro m
  have changed : (a.restore b.snapshot).apply (.set .sp 0xFFFE) = some (.ok .done, m) := rfl
  have live : Live m := .after (.restored (.built builtA) (.built builtB)) changed
  have safe := live_safe live
  have stepped : m.next = .error (.stackOverflow 0xFFFE) := by
    cases builtB
    rfl
  have uncounted : m.count = 0 := by
    cases builtB
    rfl
  have checked := safe.step 0 m (.zero m) (by rw [uncounted]; decide)
  rw [stepped] at checked
  exact ⟨safe, checked⟩

end Machine

end WordMachine
