import WordMachine.Machine.Snapshot
import WordMachine.Proofs.Machine.Safety

/-! Resumption. Nothing a client can do with a machine depends on the header of
its image, and a snapshot is everything else. So a machine put back to where
another one has been, whatever it was before, replies to every operation as that
one would have, and the two stay alike in all but their headers. -/
namespace WordMachine.Machine

variable {m n : Machine} {header : Header}

/-- The machine with the header of another image. -/
def withHeader (m : Machine) (header : Header) : Machine := { m with header }

theorem effect_withHeader (m : Machine) (header : Header) (pc : Word) (i : Instruction) :
    (m.withHeader header).effect pc i = m.effect pc i := rfl

theorem withHeader_apply (m : Machine) (header : Header) (c : Change) :
    c.apply (m.withHeader header) = (c.apply m).withHeader header := by
  cases c with
  | memory address w =>
    simp only [Change.apply, withHeader]
    cases m.memory.writeWord address w <;> rfl
  | _ => rfl

theorem withHeader_applyAll (m : Machine) (header : Header) (changes : List Change) :
    (m.withHeader header).applyAll changes = (m.applyAll changes).withHeader header := by
  induction changes generalizing m with
  | nil => rfl
  | cons c rest ih =>
    have rest := ih (c.apply m)
    rw [← withHeader_apply] at rest
    exact rest

theorem withHeader_after (m : Machine) (header : Header) (i : Instruction) (e : Effect) :
    (m.withHeader header).after i e = (m.after i e).withHeader header := by
  rw [after, after, withHeader_applyAll]
  cases e.flow <;> rfl

/-- A step is taken in the same way under any header. -/
theorem next_withHeader (m : Machine) (header : Header) :
    (m.withHeader header).next = m.next.map (·.withHeader header) := by
  have halts : (m.withHeader header).isHalted = m.isHalted := rfl
  have fetches : (m.withHeader header).fetch (m.withHeader header).pc = m.fetch m.pc := rfl
  rw [next, next, halts, fetches]
  cases m.isHalted with
  | true => rfl
  | false =>
    cases m.fetch m.pc with
    | error fault => rfl
    | ok i =>
      simp only [Bool.false_eq_true, if_false, Except.bind, effect_withHeader]
      have counts : (m.withHeader header).pc = m.pc := rfl
      rw [counts]
      cases m.effect m.pc i with
      | error fault => rfl
      | ok e => simp only [Except.map, withHeader_after]

theorem step_withHeader (m : Machine) (header : Header) :
    (m.withHeader header).step = (m.step.1, m.step.2.withHeader header) := by
  rw [step_eq, step_eq, next_withHeader]
  cases m.next <;> rfl

theorem run_withHeader (m : Machine) (header : Header) (limit : Nat) :
    (m.withHeader header).run limit = ((m.run limit).1, (m.run limit).2.withHeader header) := by
  induction limit generalizing m with
  | zero => rfl
  | succ limit ih =>
    have halts : (m.withHeader header).isHalted = m.isHalted := rfl
    rw [run_succ, run_succ, halts, next_withHeader]
    cases m.isHalted with
    | true => rfl
    | false =>
      cases m.next with
      | error fault => rfl
      | ok n => simp only [Bool.false_eq_true, if_false, Except.map, ih]

theorem Steps.withHeader {k : Nat} (steps : Steps k m n) (header : Header) :
    Steps k (m.withHeader header) (n.withHeader header) := by
  induction steps with
  | zero => exact .zero _
  | succ running one _ ih =>
    refine .succ running ?_ ih
    rw [next_withHeader, one]
    rfl

/-- A run to the halt that ends does so under any header. -/
theorem runToHalt_withHeader_of_ends {reply : Except Fault Unit}
    (ends : m.runToHalt = some (reply, n)) (header : Header) :
    (m.withHeader header).runToHalt = some (reply, n.withHeader header) := by
  obtain ⟨k, steps, last⟩ := runToHalt_cases ends
  have halts : (n.withHeader header).isHalted = n.isHalted := rfl
  rw [(steps.withHeader header).runToHalt_eq, runToHalt_eq, halts, next_withHeader]
  rcases last with ⟨rfl, halted⟩ | ⟨fault, rfl, running, failed⟩
  · rw [halted]
    rfl
  · rw [running, failed]
    rfl

theorem runToHalt_withHeader (m : Machine) (header : Header) :
    (m.withHeader header).runToHalt =
      m.runToHalt.map fun (reply, n) => (reply, n.withHeader header) := by
  cases ends : m.runToHalt with
  | some outcome => exact runToHalt_withHeader_of_ends ends header
  | none =>
    -- The machine has its own header back under `m.header`, so neither run ends.
    cases other : (m.withHeader header).runToHalt with
    | none => rfl
    | some outcome =>
      have back : m.runToHalt = some (outcome.1, outcome.2.withHeader m.header) :=
        runToHalt_withHeader_of_ends other m.header
      rw [ends] at back
      cases back

theorem apply_withHeader (m : Machine) (header : Header) (operation : Operation) :
    (m.withHeader header).apply operation =
      (m.apply operation).map fun (reply, n) => (reply, n.withHeader header) := by
  cases operation with
  | step =>
    rw [apply, step_withHeader]
    rfl
  | run limit =>
    rw [apply, run_withHeader]
    rfl
  | runToHalt =>
    simp only [apply, runToHalt_withHeader, Option.map_map]
    rfl
  | set r w => rfl

/-- The replies to operations one after the other, and the machine after them,
if all of them end. -/
def serve (m : Machine) : List Operation → Option (List (Except Fault Reply) × Machine)
  | [] => some ([], m)
  | operation :: rest =>
    (m.apply operation).bind fun (reply, n) =>
      (n.serve rest).map fun (replies, o) => (reply :: replies, o)

theorem serve_withHeader (m : Machine) (header : Header) (operations : List Operation) :
    (m.withHeader header).serve operations =
      (m.serve operations).map fun (replies, n) => (replies, n.withHeader header) := by
  induction operations generalizing m with
  | nil => rfl
  | cons operation rest ih =>
    rw [serve, serve, apply_withHeader]
    cases m.apply operation with
    | none => rfl
    | some outcome =>
      simp only [Option.map_some, Option.bind_some, ih, Option.map_map]
      rfl

/-- A machine put back to a snapshot of another has that snapshot, and replies to
operations as the other does, failures included. A run that is interrupted, put
aside and taken up again ends like one that is not. -/
theorem restore_resumes (a b : Machine) :
    (b.restore a.snapshot).snapshot = a.snapshot ∧
      (∀ operations, (b.restore a.snapshot).serve operations =
        (a.serve operations).map fun (replies, n) => (replies, n.withHeader b.header)) ∧
      ∀ first later elsewhere, let halfway := (a.run first).2
        let back := elsewhere.restore halfway.snapshot
        (a.run (first + later)).1 =
            ((a.run first).1.bind fun k => (back.run later).1.map (k + ·)) ∧
          (back.run later).2 = (a.run (first + later)).2.withHeader elsewhere.header ∧
          (halfway.Reachable elsewhere → (back.run later).2 = (a.run (first + later)).2) := by
  refine ⟨rfl, fun operations => serve_withHeader a b.header operations, ?_⟩
  intro first later elsewhere halfway back
  have resumed : back.run later =
      ((halfway.run later).1, (halfway.run later).2.withHeader elsewhere.header) :=
    run_withHeader halfway elsewhere.header later
  have whole := run_add a first later
  refine ⟨?_, ?_, fun reach => ?_⟩
  · rw [resumed, whole]
  · rw [resumed, whole]
  · have kept : elsewhere.header = halfway.header := (SameSetting.reachable reach).header
    have ran : (halfway.run later).2.header = halfway.header :=
      (SameSetting.reachable (.after .refl (show halfway.apply (.run later) = _ from rfl))).header
    rw [resumed, whole, kept, ← ran]
    rfl

end WordMachine.Machine
