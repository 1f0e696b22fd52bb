import WordMachine.Proofs.Machine.Atomicity
import WordMachine.Proofs.Machine.Tracing

/-! Runs one after the other. Two bounded runs are one, wherever a halt or a fault
falls between them, and a run to the halt is any bounded run that is long enough
to halt or to fault. -/
namespace WordMachine

namespace Exec

variable {σ : Type} (watch : Observer σ)

/-- Whoever watches, a run is as many shorter runs one after the other. -/
theorem run_add (first later : Nat) :
    run watch (first + later) = do
      let k ← run watch first
      let l ← run watch later
      return k + l := by
  funext s
  simp only [bind_apply, pure_apply]
  induction first generalizing s with
  | zero =>
    rw [Nat.zero_add]
    simp only [run, runFrom, pure_apply, Nat.zero_add]
    cases runFrom watch 0 later s <;> rfl
  | succ first ih =>
    rw [Nat.add_right_comm]
    simp only [run, runFrom, bind_apply, machine_apply, ite_apply] at ih ⊢
    by_cases halted : s.machine.isHalted = true
    · cases later with
      | zero => simp only [runFrom, halted, if_true, pure_apply, Nat.add_zero]
      | succ later =>
        simp only [runFrom, bind_apply, machine_apply, ite_apply, halted, if_true, pure_apply,
          Nat.add_zero]
    · simp only [halted, Bool.false_eq_true, if_false]
      cases step watch s with
      | error fault t => rfl
      | ok status t =>
        simp only [runFrom_apply watch (0 + 1), ih t]
        cases runFrom watch 0 first t with
        | error fault u => rfl
        | ok k u => cases last : runFrom watch 0 later u <;> simp only [last, Nat.add_assoc]

end Exec

namespace Machine

variable {m n : Machine} {fault : Fault}

/-- The run of at most so many steps halts or faults. -/
def Stops (m : Machine) (limit : Nat) : Prop :=
  (m.run limit).2.isHalted = true ∨ ∃ fault, (m.run limit).1 = .error fault

theorem stops_of_next (running : m.isHalted = false) (one : m.next = .ok n) (limit : Nat) :
    m.Stops (limit + 1) ↔ n.Stops limit := by
  rw [Stops, Stops, run_of_next running one]
  cases (n.run limit).1 <;> simp [Except.map]

/-- A reply to a run without the number of steps. -/
def uncounted (reply : Except Fault Nat) : Except Fault Unit := reply.map fun _ => ()

@[simp] theorem uncounted_map (f : Nat → Nat) (reply : Except Fault Nat) :
    uncounted (reply.map f) = uncounted reply := by
  cases reply <;> rfl

section Watched

variable {σ : Type} (watch : Observer σ)

/-- What a run leads to when it is watched, however many steps it was. -/
def concluded (m : Machine) (record : σ) (limit : Nat) : EStateM.Result Fault (Session σ) Unit :=
  Exec.conclude ⟨(m.run limit).2, Exec.tell watch (m.runEvents limit) record⟩
    (uncounted (m.run limit).1)

theorem concluded_of_next (running : m.isHalted = false) (one : m.next = .ok n) (record : σ)
    (limit : Nat) :
    m.concluded watch record (limit + 1) =
      n.concluded watch (Exec.tell watch m.stepEvents record) limit := by
  rw [concluded, run_of_next running one, runEvents_of_next running one, Exec.tell_append,
    uncounted_map, concluded]

theorem concluded_of_next_error (running : m.isHalted = false) (failed : m.next = .error fault)
    (record : σ) (limit : Nat) :
    m.concluded watch record (limit + 1) =
      .error fault ⟨m, Exec.tell watch m.stepEvents record⟩ := by
  rw [concluded, run_of_next_error running failed, runEvents_of_next_error running failed]
  rfl

variable {watch}

/-- A run that ends stops within some number of steps. -/
theorem stops_of_ends {record : σ} {r : EStateM.Result Fault (Session σ) Unit}
    (ends : Exec.Ends watch ⟨m, record⟩ r) :
    ∃ limit, m.Stops limit ∧ m.concluded watch record limit = r := by
  generalize start : (⟨m, record⟩ : Session σ) = s at ends
  induction ends generalizing m record with
  | halted halted =>
    subst start
    exact ⟨0, Or.inl halted, rfl⟩
  | fault running failed =>
    subst start
    rw [step_watched, step_eq] at failed
    cases one : m.next with
    | ok n =>
      rw [one] at failed
      cases failed
    | error cause =>
      rw [one] at failed
      cases failed
      exact ⟨1, Or.inr ⟨_, congrArg Prod.fst (run_of_next_error running one 0)⟩,
        concluded_of_next_error watch running one record 0⟩
  | step running stepped _ ih =>
    subst start
    rw [step_watched, step_eq] at stepped
    cases one : m.next with
    | error cause =>
      rw [one] at stepped
      cases stepped
    | ok n =>
      rw [one] at stepped
      cases stepped
      obtain ⟨limit, stops, rfl⟩ := ih rfl
      exact ⟨limit + 1, (stops_of_next running one limit).mpr stops,
        concluded_of_next watch running one record limit⟩

theorem ends_of_stops {limit : Nat} (stops : m.Stops limit) (record : σ) :
    Exec.Ends watch ⟨m, record⟩ (m.concluded watch record limit) := by
  induction limit generalizing m record with
  | zero =>
    rcases stops with halted | ⟨fault, failed⟩
    · exact .halted halted
    · cases failed
  | succ limit ih =>
    cases halted : m.isHalted with
    | true =>
      rw [concluded, run_of_halted halted, runEvents_of_halted halted]
      exact .halted halted
    | false =>
      have stepped := step_watched watch m record
      rw [step_eq] at stepped
      cases one : m.next with
      | error fault =>
        rw [one] at stepped
        rw [concluded_of_next_error watch halted one]
        exact .fault halted stepped
      | ok n =>
        rw [one] at stepped
        rw [concluded_of_next watch halted one]
        exact .step halted stepped (ih ((stops_of_next halted one limit).mp stops) _)

/-- A run to the halt is any bounded run that stops, whoever watches. -/
theorem runToHalt_watched {record : σ} {r : EStateM.Result Fault (Session σ) Unit} :
    Exec.runToHalt watch ⟨m, record⟩ = some r ↔
      ∃ limit, m.Stops limit ∧ m.concluded watch record limit = r := by
  rw [Exec.runToHalt_eq_some]
  constructor
  · exact stops_of_ends
  · rintro ⟨limit, stops, rfl⟩
    exact ends_of_stops stops record

end Watched

theorem discard_run {σ : Type} (watch : Observer σ) (m : Machine) (record : σ) (limit : Nat) :
    discard (Exec.run watch limit) ⟨m, record⟩ = m.concluded watch record limit := by
  simp only [discard, Functor.mapConst, Function.comp, EStateM.map, run_watched, concluded]
  cases (m.run limit).1 <;> rfl

theorem ended_concluded (m : Machine) (limit : Nat) :
    ended (m.concluded Observer.blind () limit) = (uncounted (m.run limit).1, (m.run limit).2) := by
  rw [concluded]
  cases uncounted (m.run limit).1 <;> rfl

theorem runToHalt_eq_some {r : Except Fault Unit × Machine} :
    m.runToHalt = some r ↔
      ∃ limit, m.Stops limit ∧ (uncounted (m.run limit).1, (m.run limit).2) = r := by
  rw [runToHalt, Option.map_eq_some_iff]
  constructor
  · rintro ⟨s, found, rfl⟩
    obtain ⟨limit, stops, rfl⟩ := runToHalt_watched.mp found
    exact ⟨limit, stops, (ended_concluded m limit).symm⟩
  · rintro ⟨limit, stops, rfl⟩
    exact ⟨_, runToHalt_watched.mpr ⟨limit, stops, rfl⟩, ended_concluded m limit⟩

/-- Nothing is executed once the machine has halted, and nobody sees anything. -/
theorem halted_rests (halted : m.isHalted = true) {σ : Type} (watch : Observer σ) (record : σ) :
    Exec.step watch ⟨m, record⟩ = .ok .halted ⟨m, record⟩ ∧
      ∀ limit, Exec.run watch limit ⟨m, record⟩ = .ok 0 ⟨m, record⟩ := by
  refine ⟨?_, fun limit => ?_⟩
  · rw [Exec.step_apply, if_pos halted]
  · rw [run_watched, run_of_halted halted, runEvents_of_halted halted]
    rfl

theorem run_append (m : Machine) (first later : Nat) :
    m.run (first + later) =
      match m.run first with
      | (.error fault, n) => (.error fault, n)
      | (.ok k, n) => ((n.run later).1.map (k + ·), (n.run later).2) := by
  simp only [run, perform, EStateM.run, Exec.run_add, Exec.bind_apply, Exec.pure_apply]
  cases Exec.run Observer.blind first ⟨m, ()⟩ with
  | error fault s => rfl
  | ok k s =>
    simp only [ended]
    cases Exec.run Observer.blind later s <;> rfl

/-- Two runs one after the other are one run. A run counts its successful steps. A
halted machine rests, and a run to the halt is any bounded run that halts or faults,
if there is one; all this whoever watches. -/
theorem runs_compose (m : Machine) :
    (∀ first later, m.run (first + later) =
      match m.run first with
      | (.error fault, n) => (.error fault, n)
      | (.ok k, n) => ((n.run later).1.map (k + ·), (n.run later).2)) ∧
    (∀ limit, ∃ k n, Steps k m n ∧ k ≤ limit ∧ n.count = m.count + k ∧
      (m.run limit = (.ok k, n) ∧ (k = limit ∨ n.isHalted = true) ∨
        ∃ fault, m.run limit = (.error fault, n) ∧ n.step = (.error fault, n))) ∧
    (m.isHalted = true → m.step = (.ok .halted, m) ∧ ∀ limit, m.run limit = (.ok 0, m)) ∧
    (∀ r, m.runToHalt = some r ↔
      ∃ limit, m.Stops limit ∧ (uncounted (m.run limit).1, (m.run limit).2) = r) ∧
    ∀ (σ : Type) (watch : Observer σ),
      (∀ first later, Exec.run watch (first + later) = do
        let k ← Exec.run watch first
        let l ← Exec.run watch later
        return k + l) ∧
      (m.isHalted = true → ∀ record, Exec.step watch ⟨m, record⟩ = .ok .halted ⟨m, record⟩ ∧
        ∀ limit, Exec.run watch limit ⟨m, record⟩ = .ok 0 ⟨m, record⟩) ∧
      ∀ record r, Exec.runToHalt watch ⟨m, record⟩ = some r ↔
        ∃ limit, m.Stops limit ∧ discard (Exec.run watch limit) ⟨m, record⟩ = r := by
  refine ⟨run_append m, fun limit => ?_, fun halted => ⟨?_, run_of_halted halted⟩,
    fun r => runToHalt_eq_some,
    fun σ watch => ⟨Exec.run_add watch, fun halted => halted_rests halted watch, ?_⟩⟩
  · obtain ⟨k, n, steps, ⟨ended, short, last⟩ | ⟨fault, ended, short, _, failed⟩⟩ :=
      run_cases m limit
    · exact ⟨k, n, steps, short, steps.count, Or.inl ⟨ended, last⟩⟩
    · exact ⟨k, n, steps, Nat.le_of_lt short, steps.count,
        Or.inr ⟨fault, ended, step_of_next_error failed⟩⟩
  · rw [step_eq, next_of_halted halted]
    exact congrArg (Except.ok ·, m) (isHalted_iff.mp halted)
  · intro record r
    rw [runToHalt_watched]
    refine exists_congr fun limit => and_congr_right fun _ => ?_
    rw [discard_run]

/-- A program that pushes a word and halts, run in two parts. -/
theorem runs_compose_halt :
    let image : Image := ⟨none, [], Instruction.encode ⟨.pushImm, .imm 0x1234, rfl⟩ ++
      Instruction.encode ⟨.halt, .none, rfl⟩, fun _ => rfl, by decide⟩
    ∃ m n o, ofImage image ⟨16, 4, true, true⟩ = .ok m ∧ m.run 1 = (.ok 1, n) ∧
      m.run 9 = ((n.run 8).1.map (1 + ·), (n.run 8).2) ∧ m.run 9 = (.ok 2, o) ∧
      m.count = 0 ∧ o.count = 2 ∧ m.runToHalt = some (.ok (), o) ∧
      o.step = (.ok .halted, o) ∧ o.run 5 = (.ok 0, o) := by
  intro image
  obtain ⟨m, built⟩ : ∃ m, ofImage image ⟨16, 4, true, true⟩ = .ok m := ⟨_, rfl⟩
  have first : m.run 1 = (.ok 1, (m.run 1).2) := by
    cases built
    exact Prod.ext (Result.eq_ok_of_toOption (by decide +kernel)) rfl
  have whole : (m.run 9).1 = .ok 2 ∧ (m.run 9).2.isHalted = true ∧ m.count = 0 := by
    cases built
    exact ⟨Result.eq_ok_of_toOption (by decide +kernel), by decide +kernel, rfl⟩
  obtain ⟨done, halted, fresh⟩ := whole
  obtain ⟨append, counts, _, halts, _⟩ := runs_compose m
  obtain ⟨_, _, rests, _⟩ := runs_compose (m.run 9).2
  obtain ⟨step, run⟩ := rests halted
  have parts := append 1 8
  rw [first] at parts
  obtain ⟨k, o, _, _, count, ⟨ended, _⟩ | ⟨fault, failed, _⟩⟩ := counts 9
  · rw [ended] at done halted step run
    cases done
    refine ⟨m, (m.run 1).2, o, built, first, parts, ended, fresh, ?_, ?_, step, run 5⟩
    · rw [count, fresh]
    · refine (halts _).mpr ⟨9, Or.inl (by rw [ended]; exact halted), ?_⟩
      rw [ended]
      rfl
  · rw [failed] at done
    cases done

end Machine

end WordMachine
