import WordMachine.Proofs.Machine.Effect

/-! Runs, step by step. Both kinds of run repeat the step of `Machine.next`, and
a machine is reached from another by the operations a client has: steps, runs
and setting registers. What a step and a set register keep, every operation
keeps. -/
namespace WordMachine

namespace Exec

variable {σ : Type} (watch : Observer σ)

theorem runFrom_apply (done limit : Nat) (s : Session σ) :
    runFrom watch done limit s =
      match runFrom watch 0 limit s with
      | .ok n t => .ok (done + n) t
      | .error fault t => .error fault t := by
  induction limit generalizing done s with
  | zero => rfl
  | succ limit ih =>
    simp only [runFrom, bind_apply, machine_apply, ite_apply]
    by_cases halted : s.machine.isHalted = true
    · simp only [halted, if_true, pure_apply, Nat.add_zero]
    · simp only [halted, Bool.false_eq_true, if_false]
      cases step watch s with
      | error fault t => rfl
      | ok status t =>
        simp only [ih (done + 1), ih (0 + 1)]
        cases runFrom watch 0 limit t with
        | error fault u => rfl
        | ok n u => simp only [Nat.zero_add, Nat.add_assoc]

section Rounds

variable {watch} {s u : Session σ} {fault : Fault} {status : Status}
  {r : EStateM.Result Fault (Session σ) Unit}
  (t : {t // ∀ r, Ends watch t r → Ends watch s r})

theorem round_halted (halted : t.1.machine.isHalted = true) :
    round t = .inr (some ⟨.ok () t.1, t.2 _ (.halted halted)⟩) := by
  unfold round
  split
  · rfl
  · next running => cases halted.symm.trans running

theorem round_fault (running : t.1.machine.isHalted = false)
    (failed : step watch t.1 = .error fault u) :
    round t = .inr (some ⟨.error fault u, t.2 _ (.fault running failed)⟩) := by
  unfold round
  split
  · next halted => cases running.symm.trans halted
  · split
    · next again => cases failed.symm.trans again; rfl
    · next stepped => cases failed.symm.trans stepped

theorem round_step (running : t.1.machine.isHalted = false)
    (stepped : step watch t.1 = .ok status u) :
    round t = .inl ⟨u, fun r ends => t.2 r (.step running stepped ends)⟩ := by
  unfold round
  split
  · next halted => cases running.symm.trans halted
  · split
    · next failed => cases stepped.symm.trans failed
    · next again => cases stepped.symm.trans again; rfl

theorem repeat_round :
    repeatM (fun t => some (round t)) t =
      match round t with
      | .inl u => repeatM (fun t => some (round t)) u
      | .inr found => some found := by
  rw [repeatM_eq_of_monadTail, repeatM.body]
  cases round t <;> rfl

theorem Ends.found {t : Session σ} (ends : Ends watch t r)
    (leads : ∀ r, Ends watch t r → Ends watch s r) :
    repeatM (fun t => some (round t)) ⟨t, leads⟩ = some (some ⟨r, leads r ends⟩) := by
  induction ends with
  | halted halted => rw [repeat_round, round_halted _ halted]
  | fault running failed => rw [repeat_round, round_fault _ running failed]
  | step running stepped _ ih =>
    rw [repeat_round, round_step _ running stepped]
    exact ih _

/-- The run to the halt finds the end of the run, and nothing if there is none. -/
theorem runToHalt_eq_some : runToHalt watch s = some r ↔ Ends watch s r := by
  rw [runToHalt, Option.map_eq_some_iff]
  constructor
  · rintro ⟨found, _, rfl⟩
    exact found.2
  · intro ends
    rw [ends.found fun _ => id]
    exact ⟨_, rfl, rfl⟩

theorem runToHalt_eq (s : Session σ) :
    runToHalt watch s =
      if s.machine.isHalted then some (.ok () s)
      else match step watch s with
        | .error fault t => some (.error fault t)
        | .ok _ t => runToHalt watch t := by
  cases halted : s.machine.isHalted with
  | true => exact runToHalt_eq_some.mpr (.halted halted)
  | false =>
    simp only [Bool.false_eq_true, if_false]
    cases stepped : step watch s with
    | error fault t => exact runToHalt_eq_some.mpr (.fault halted stepped)
    | ok status t =>
      apply Option.ext
      intro r
      rw [runToHalt_eq_some, runToHalt_eq_some]
      refine ⟨fun ends => ?_, .step halted stepped⟩
      cases ends with
      | halted now => cases halted.symm.trans now
      | fault _ failed => cases stepped.symm.trans failed
      | step _ again rest =>
        cases stepped.symm.trans again
        exact rest

end Rounds

end Exec

namespace Machine

variable {m n : Machine}

@[simp] theorem run_zero (m : Machine) : m.run 0 = (.ok 0, m) := rfl

theorem run_succ (m : Machine) (limit : Nat) :
    m.run (limit + 1) =
      if m.isHalted then (.ok 0, m)
      else match m.next with
        | .error fault => (.error fault, m)
        | .ok n => ((n.run limit).1.map (1 + ·), (n.run limit).2) := by
  simp only [run, perform, EStateM.run, Exec.run, Exec.runFrom, Exec.bind_apply,
    Exec.machine_apply, Exec.ite_apply, step_blind]
  by_cases halted : m.isHalted = true
  · simp only [halted, if_true, Exec.pure_apply, ended]
  · simp only [halted, Bool.false_eq_true, if_false]
    cases m.next with
    | error fault => rfl
    | ok n =>
      simp only [Exec.runFrom_apply Observer.blind (0 + 1)]
      cases Exec.runFrom Observer.blind 0 limit ⟨n, ()⟩ <;> rfl

theorem run_of_halted (halted : m.isHalted = true) (limit : Nat) : m.run limit = (.ok 0, m) := by
  cases limit with
  | zero => rfl
  | succ limit => simp only [run_succ, halted, if_true]

theorem run_of_next (running : m.isHalted = false) (one : m.next = .ok n) (limit : Nat) :
    m.run (limit + 1) = ((n.run limit).1.map (1 + ·), (n.run limit).2) := by
  simp only [run_succ, running, Bool.false_eq_true, if_false, one]

theorem run_of_next_error {fault : Fault} (running : m.isHalted = false)
    (one : m.next = .error fault) (limit : Nat) : m.run (limit + 1) = (.error fault, m) := by
  simp only [run_succ, running, Bool.false_eq_true, if_false, one]

theorem runToHalt_eq (m : Machine) :
    m.runToHalt =
      if m.isHalted then some (.ok (), m)
      else match m.next with
        | .error fault => some (.error fault, m)
        | .ok n => n.runToHalt := by
  simp only [runToHalt]
  rw [Exec.runToHalt_eq]
  by_cases halted : m.isHalted = true
  · simp only [halted, if_true, Option.map_some, ended]
  · simp only [halted, Bool.false_eq_true, if_false, step_blind]
    cases m.next <;> rfl

/-- So many steps one after the other, none of which faults or finds the machine
halted. -/
inductive Steps : Nat → Machine → Machine → Prop
  | zero (m : Machine) : Steps 0 m m
  | succ {k : Nat} {m n o : Machine} :
      m.isHalted = false → m.next = .ok n → Steps k n o → Steps (k + 1) m o

theorem Steps.keeps {holds : Machine → Prop} {k : Nat} (steps : Steps k m n)
    (step : ∀ m n, holds m → m.isHalted = false → m.next = .ok n → holds n)
    (start : holds m) : holds n := by
  induction steps with
  | zero => exact start
  | succ running one _ ih => exact ih (step _ _ start running one)

/-- A run that begins with some steps is those steps and then a shorter run. -/
theorem Steps.run_add {k : Nat} (steps : Steps k m n) (limit : Nat) :
    m.run (k + limit) = ((n.run limit).1.map (k + ·), (n.run limit).2) := by
  induction steps with
  | zero m =>
    rw [Nat.zero_add]
    cases h : m.run limit with
    | mk reply o => cases reply <;> simp [Except.map]
  | @succ k m n o running one _ ih =>
    rw [Nat.add_right_comm, run_of_next running one, ih]
    cases h : o.run limit with
    | mk reply p =>
      cases reply with
      | error f => rfl
      | ok done =>
        have sum : 1 + (k + done) = k + 1 + done := by omega
        simp only [Except.map, sum]

/-- A run takes some steps and then stops at its limit, a halt or a fault. -/
theorem run_cases (m : Machine) (limit : Nat) :
    ∃ k n, Steps k m n ∧
      (m.run limit = (.ok k, n) ∧ k ≤ limit ∧ (k = limit ∨ n.isHalted = true) ∨
        ∃ fault, m.run limit = (.error fault, n) ∧ k < limit ∧ n.isHalted = false ∧
          n.next = .error fault) := by
  induction limit generalizing m with
  | zero => exact ⟨0, m, .zero m, Or.inl ⟨rfl, Nat.le_refl 0, Or.inl rfl⟩⟩
  | succ limit ih =>
    cases halted : m.isHalted with
    | true => exact ⟨0, m, .zero m, Or.inl ⟨run_of_halted halted _, Nat.zero_le _, Or.inr halted⟩⟩
    | false =>
      cases one : m.next with
      | error fault =>
        exact ⟨0, m, .zero m,
          Or.inr ⟨fault, run_of_next_error halted one limit, Nat.succ_pos limit, halted, one⟩⟩
      | ok o =>
        have whole := run_of_next halted one limit
        obtain ⟨k, n, steps, ⟨ended, short, last⟩ | ⟨fault, ended, short, running, last⟩⟩ := ih o
        · refine ⟨k + 1, n, .succ halted one steps, Or.inl ⟨?_, by omega, ?_⟩⟩
          · rw [whole, ended, Nat.add_comm k 1]
            rfl
          · exact last.imp (by omega) id
        · refine ⟨k + 1, n, .succ halted one steps, Or.inr ⟨fault, ?_, by omega, running, last⟩⟩
          rw [whole, ended]
          rfl

/-- A run is as many shorter runs one after the other, the last of which ends as
it does; what has failed fails again. -/
theorem run_add (m : Machine) (first later : Nat) :
    m.run (first + later) =
      ((m.run first).1.bind fun k => ((m.run first).2.run later).1.map (k + ·),
        ((m.run first).2.run later).2) := by
  obtain ⟨k, n, steps, ⟨ended, short, last⟩ | ⟨fault, ended, short, running, failed⟩⟩ :=
    run_cases m first
  · rw [ended]
    rcases last with rfl | halted
    · exact steps.run_add later
    · have rest : first + later = k + (first - k + later) := by omega
      rw [rest, steps.run_add, run_of_halted halted, run_of_halted halted]
      rfl
  · have again := run_of_next_error running failed
    have rest : first + later = k + (first - k - 1 + later + 1) := by omega
    rw [ended, rest, steps.run_add, again]
    cases later with
    | zero => rfl
    | succ limit =>
      rw [again]
      rfl

theorem Steps.runToHalt_eq {k : Nat} (steps : Steps k m n) : m.runToHalt = n.runToHalt := by
  induction steps with
  | zero m => rfl
  | succ running one _ ih =>
    rw [Machine.runToHalt_eq]
    simp only [running, Bool.false_eq_true, if_false, one, ih]

/-- A run to the halt that ends takes some steps and then halts or faults. -/
theorem runToHalt_cases {reply : Except Fault Unit} (h : m.runToHalt = some (reply, n)) :
    ∃ k, Steps k m n ∧
      (reply = .ok () ∧ n.isHalted = true ∨
        ∃ fault, reply = .error fault ∧ n.isHalted = false ∧ n.next = .error fault) := by
  obtain ⟨r, hr, hn⟩ := Option.map_eq_some_iff.mp h
  have ends := Exec.runToHalt_eq_some.mp hr
  clear h hr
  generalize start : (⟨m, ()⟩ : Session Unit) = s at ends
  -- The induction follows the run, one step after the other.
  induction ends generalizing m with
  | halted halted =>
    subst start
    cases hn
    exact ⟨0, .zero m, Or.inl ⟨rfl, halted⟩⟩
  | fault running failed =>
    subst start
    rw [step_blind] at failed
    cases one : m.next with
    | error cause =>
      rw [one] at failed
      cases failed
      cases hn
      exact ⟨0, .zero m, Or.inr ⟨_, rfl, running, one⟩⟩
    | ok o =>
      rw [one] at failed
      cases failed
  | step running stepped _ ih =>
    subst start
    rw [step_blind] at stepped
    cases one : m.next with
    | error cause =>
      rw [one] at stepped
      cases stepped
    | ok o =>
      rw [one] at stepped
      cases stepped
      obtain ⟨k, steps, last⟩ := ih hn rfl
      exact ⟨k + 1, .succ running one steps, last⟩

/-- What a client can do with a machine. -/
inductive Operation where
  | step
  | run (limit : Nat)
  | runToHalt
  | set (r : Register) (w : Word)
  deriving DecidableEq, Repr

/-- What an operation gives back. -/
inductive Reply where
  | status (status : Status)
  | count (count : Nat)
  | done
  deriving DecidableEq, Repr

/-- The reply to an operation and the machine after it, if it ends. -/
def apply (m : Machine) : Operation → Option (Except Fault Reply × Machine)
  | .step => some (m.step.1.map .status, m.step.2)
  | .run limit => some ((m.run limit).1.map .count, (m.run limit).2)
  | .runToHalt => m.runToHalt.map fun (reply, n) => (reply.map fun _ => .done, n)
  | .set r w => some (.ok .done, m.set r w)

/-- Some operations lead from one machine to the other, whether they fail or not. -/
inductive Reachable (start : Machine) : Machine → Prop
  | refl : Reachable start start
  | after {m n : Machine} {operation : Operation} {reply : Except Fault Reply} :
      Reachable start m → m.apply operation = some (reply, n) → Reachable start n

/-- A step that changes the machine is one of a running machine. -/
theorem step_cases (m : Machine) :
    m.isHalted = false ∧ m.next = .ok m.step.2 ∨ m.step.2 = m := by
  rw [step_eq]
  cases halted : m.isHalted with
  | true => rw [next_of_halted halted]; exact Or.inr rfl
  | false =>
    cases m.next with
    | ok n => exact Or.inl ⟨rfl, rfl⟩
    | error fault => exact Or.inr rfl

/-- What steps and set registers keep holds of every machine that is reached. -/
theorem Reachable.keeps {holds : Machine → Prop} {start : Machine} (reach : Reachable start m)
    (step : ∀ m n, holds m → m.isHalted = false → m.next = .ok n → holds n)
    (set : ∀ m r w, holds m → holds (m.set r w)) (first : holds start) : holds m := by
  induction reach with
  | refl => exact first
  | @after m n operation reply _ h ih =>
    cases operation with
    | step =>
      obtain rfl : m.step.2 = n := by injection h with h; injection h
      rcases step_cases m with ⟨running, one⟩ | same
      · exact step m _ ih running one
      · rw [same]
        exact ih
    | run limit =>
      obtain rfl : (m.run limit).2 = n := by injection h with h; injection h
      obtain ⟨k, o, steps, ⟨ended, _⟩ | ⟨fault, ended, _⟩⟩ := run_cases m limit
      · rw [ended]
        exact steps.keeps step ih
      · rw [ended]
        exact steps.keeps step ih
    | runToHalt =>
      simp only [apply, Option.map_eq_some_iff, Prod.mk.injEq] at h
      obtain ⟨⟨ended, o⟩, hr, _, rfl⟩ := h
      obtain ⟨k, steps, _⟩ := runToHalt_cases hr
      exact steps.keeps step ih
    | set r w =>
      injection h with h
      injection h with _ h
      exact h ▸ set m r w ih

end Machine

end WordMachine
