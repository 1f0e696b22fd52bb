import WordMachine.Proofs.Machine.Footprint
import WordMachine.Proofs.Machine.Relaxation

/-! Tracing. What a run shows is settled by the machine alone, and nothing that
an observer does with it comes back to the machine. The events are enough to make
all changes again, except that the program counter moves on unseen. Every
instruction is shown before it is executed, so one that faults has been shown and
is not counted. -/
namespace WordMachine

/-- Registers and memory as they are known from events. -/
structure Replica where
  registers : RegisterFile
  memory : Memory
  deriving DecidableEq

namespace Event

def isInstruction : Event → Bool
  | instruction _ _ => true
  | _ => false

/-- Makes the change that an event is about, if it is about one. -/
def redo (p : Replica) : Event → Except Fault Replica
  | registerWrite r w => .ok { p with registers := p.registers.set r w }
  | memoryWrite address w =>
    (p.memory.writeWord address.toNat w).map fun written => { p with memory := written }
  | comparison _ _ f => .ok { p with registers := p.registers.set .flags f.bits }
  | _ => .ok p

theorem redo_of_isBranch {event : Event} (branch : event.isBranch = true) (p : Replica) :
    event.redo p = .ok p := by
  cases event with
  | jump | call | ret => rfl
  | _ => cases branch

end Event

/-- Makes the changes again that events are about, in order. -/
def replay : List Event → Replica → Except Fault Replica
  | [], p => .ok p
  | event :: rest, p => (event.redo p).bind (replay rest)

theorem replay_append {first later : List Event} {p q : Replica} (h : replay first p = .ok q) :
    replay (first ++ later) p = replay later q := by
  induction first generalizing p with
  | nil =>
    cases h
    rfl
  | cons event rest ih =>
    obtain ⟨o, redone, rested⟩ := Result.bind_eq_ok.mp h
    rw [List.cons_append, replay, redone]
    exact ih rested

namespace Exec

variable {σ α : Type} (watch : Observer σ)

/-- What an observer has recorded after it has seen some events. -/
def tell (events : List Event) (record : σ) : σ :=
  events.foldl (fun record event => watch event record) record

theorem tell_append (first later : List Event) (record : σ) :
    tell watch (first ++ later) record = tell watch later (tell watch first record) :=
  List.foldl_append

theorem observe_eq_tell (changes : List Change) (record : σ) :
    observe watch changes record = tell watch (changes.map Change.event) record := by
  rw [observe, tell, List.foldl_map]

theorem tell_recorder (events record : List Event) :
    tell Observer.recorder events record = events.reverse ++ record :=
  List.foldl_flip_cons_eq_append'

/-- A reply together with the session it ends in. -/
def conclude (s : Session σ) : Except Fault α → EStateM.Result Fault (Session σ) α
  | .ok a => .ok a s
  | .error fault => .error fault s

end Exec

namespace Machine

variable {m n : Machine} {i : Instruction} {e : Effect}

/-- What the next step shows, whether it succeeds or not. -/
def stepEvents (m : Machine) : List Event :=
  if m.isHalted then []
  else
    match m.fetch m.pc with
    | .error _ => []
    | .ok i =>
      .instruction m.pc i ::
        match m.effect m.pc i with
        | .error _ => []
        | .ok e => e.changes.map Change.event

/-- What a run of at most so many steps shows. -/
def runEvents (m : Machine) : (limit : Nat) → List Event
  | 0 => []
  | limit + 1 =>
    if m.isHalted then []
    else
      m.stepEvents ++
        match m.next with
        | .error _ => []
        | .ok n => n.runEvents limit

theorem runEvents_of_halted (halted : m.isHalted = true) (limit : Nat) : m.runEvents limit = [] := by
  cases limit with
  | zero => rfl
  | succ limit => simp only [runEvents, halted, if_true]

theorem runEvents_of_next (running : m.isHalted = false) (one : m.next = .ok n) (limit : Nat) :
    m.runEvents (limit + 1) = m.stepEvents ++ n.runEvents limit := by
  simp only [runEvents, running, Bool.false_eq_true, if_false, one]

theorem runEvents_of_next_error {fault : Fault} (running : m.isHalted = false)
    (failed : m.next = .error fault) (limit : Nat) : m.runEvents (limit + 1) = m.stepEvents := by
  simp only [runEvents, running, Bool.false_eq_true, if_false, failed, List.append_nil]

/-- A step ends the same whoever watches it. -/
theorem step_watched {σ : Type} (watch : Observer σ) (m : Machine) (record : σ) :
    Exec.step watch ⟨m, record⟩ =
      Exec.conclude ⟨m.step.2, Exec.tell watch m.stepEvents record⟩ m.step.1 := by
  rw [Exec.step_apply, step_eq, next, stepEvents]
  cases halted : m.isHalted with
  | true =>
    have status : m.status = .halted := isHalted_iff.mp halted
    simp only [if_true, status]
    rfl
  | false =>
    simp only [Bool.false_eq_true, if_false]
    cases m.fetch m.pc with
    | error fault => rfl
    | ok i =>
      simp only [Except.bind]
      cases m.effect m.pc i with
      | error fault => rfl
      | ok e =>
        simp only [Exec.observe_eq_tell]
        rfl

/-- A run ends the same whoever watches it. -/
theorem run_watched {σ : Type} (watch : Observer σ) (m : Machine) (limit : Nat) (record : σ) :
    Exec.run watch limit ⟨m, record⟩ =
      Exec.conclude ⟨(m.run limit).2, Exec.tell watch (m.runEvents limit) record⟩
        (m.run limit).1 := by
  induction limit generalizing m record with
  | zero => rfl
  | succ limit ih =>
    rw [Exec.run, Exec.runFrom, run_succ, runEvents, Exec.bind_apply, Exec.machine_apply]
    simp only [Exec.ite_apply, Exec.bind_apply, step_watched, step_eq]
    cases m.isHalted with
    | true => rfl
    | false =>
      simp only [Bool.false_eq_true, if_false]
      cases m.next with
      | error fault =>
        rw [List.append_nil]
        rfl
      | ok n =>
        have rest := ih n (Exec.tell watch m.stepEvents record)
        rw [Exec.run] at rest
        simp only [Exec.conclude, Exec.runFrom_apply watch (0 + 1), rest, Exec.tell_append]
        cases (n.run limit).1 <;> rfl

end Machine

/-- A replica shows all of a machine but its program counter. -/
structure Replica.Mirrors (p : Replica) (m : Machine) : Prop where
  memory : p.memory = m.memory
  registers : ∀ r, r ≠ .pc → p.registers.get r = m.get r

namespace Machine

variable {m n : Machine} {i : Instruction} {e : Effect} {p : Replica}

theorem mirrors_set (mirrors : p.Mirrors m) (r : Register) (w : Word) :
    Replica.Mirrors { p with registers := p.registers.set r w } (m.set r w) := by
  refine ⟨mirrors.memory, fun s other => ?_⟩
  rw [get_set, RegisterFile.get_set, mirrors.registers s other]

/-- To redo the event of a change is to make the change. -/
theorem mirrors_change {c : Change} (mirrors : p.Mirrors m)
    (inside : ∀ address ∈ c.address?, address + 1 < m.memory.bytes.size ∧ address < 0x10000)
    (branch : ∀ event, c = .notice event → event.isBranch = true) :
    ∃ q, c.event.redo p = .ok q ∧ q.Mirrors (c.apply m) := by
  cases c with
  | register r w => exact ⟨_, rfl, mirrors_set mirrors r w⟩
  | memory address w =>
    obtain ⟨fits, short⟩ := inside address rfl
    have same : (UInt16.ofNat address).toNat = address := UInt16.toNat_ofNat_of_lt' short
    have written : m.memory.writeWord address w = .ok (m.memory.setWord address w fits) :=
      dif_pos fits
    refine ⟨{ p with memory := m.memory.setWord address w fits }, ?_, ?_⟩
    · simp only [Change.event, Event.redo, same, mirrors.memory, written]
      rfl
    · simp only [Change.apply, written]
      exact ⟨rfl, mirrors.registers⟩
  | flags left right f => exact ⟨_, rfl, mirrors_set mirrors .flags f.bits⟩
  | refuse address w => exact ⟨p, rfl, mirrors.memory, mirrors.registers⟩
  | halt pc => exact ⟨p, rfl, mirrors.memory, mirrors.registers⟩
  | notice event => exact ⟨p, Event.redo_of_isBranch (branch event rfl) p, mirrors⟩

theorem mirrors_applyAll {changes : List Change} (mirrors : p.Mirrors m)
    (inside : ∀ c ∈ changes, ∀ address ∈ c.address?,
      address + 1 < m.memory.bytes.size ∧ address < 0x10000)
    (branch : ∀ event, Change.notice event ∈ changes → event.isBranch = true) :
    ∃ q, replay (changes.map Change.event) p = .ok q ∧ q.Mirrors (m.applyAll changes) := by
  induction changes generalizing m p with
  | nil => exact ⟨p, rfl, mirrors⟩
  | cons c rest ih =>
    have size : (c.apply m).memory.bytes.size = m.memory.bytes.size := (SameSetting.change m c).size
    obtain ⟨o, redone, first⟩ := mirrors_change mirrors (inside c List.mem_cons_self)
      fun event same => branch event (same ▸ List.mem_cons_self)
    obtain ⟨q, replayed, later⟩ := ih first
      (fun d hd => size ▸ inside d (List.mem_cons_of_mem c hd))
      (fun event seen => branch event (List.mem_cons_of_mem c seen))
    refine ⟨q, ?_, later⟩
    rw [List.map_cons, replay, redone]
    exact replayed

/-- A replica stays one when the events of an instruction are replayed: the
addresses in them are whole, since memory is no larger than a word can address. -/
theorem mirrors_after (live : m.Live) (mirrors : p.Mirrors m) (h : m.effect m.pc i = .ok e) :
    ∃ q, replay (e.changes.map Change.event) p = .ok q ∧ q.Mirrors (m.after i e) := by
  have sized : m.memory.bytes.size = m.layout.memorySize := live.sized
  have small : m.layout.memorySize ≤ 0x10000 := m.layout.memory_le
  obtain ⟨q, replayed, changed⟩ := mirrors_applyAll mirrors
    (fun c hc address ha => by
      have inside := ((within_effect h).memory c hc address ha).1
      omega)
    (follows_effect h).notices
  refine ⟨q, replayed, ?_, fun r other => ?_⟩
  · rw [memory_after, changed.memory]
  · rw [get_after m i e other, changed.registers r other]

theorem countP_changes (h : m.effect m.pc i = .ok e) :
    (e.changes.map Change.event).countP Event.isInstruction = 0 := by
  rw [List.countP_eq_zero]
  intro event seen
  obtain ⟨c, hc, rfl⟩ := List.mem_map.mp seen
  cases c with
  | notice event =>
    have branch := (follows_effect h).notices event hc
    cases event with
    | instruction pc j => cases branch
    | _ => exact Bool.false_ne_true
  | _ => exact Bool.false_ne_true

/-- There is no instruction to execute when none is fetched. -/
theorem fetch_error (live : m.Live) {pc : Word} {fault : Fault} (h : m.fetch pc = .error fault) :
    fault.inExecution = false := by
  have sized := live.sized
  have fits := m.layout.fits
  by_cases inside : (m.layout.executable m.config.restrictExecution).contains pc.toNat = true
  · have below := (Layout.contains_executable.mp inside).2
    have sliced : m.memory.slice pc.toNat
        (min (pc.toNat + Instruction.maxSize) m.layout.programSize) = .ok _ := if_pos (by omega)
    rw [fetch, if_pos inside] at h
    simp only [Layout.executable, sliced] at h
    obtain ⟨cause, _, rfl⟩ := Result.mapError_eq_error.mp h
    cases cause <;> rfl
  · rw [fetch, if_neg inside] at h
    cases h
    rfl

/-- Instructions that have been shown and are not counted. -/
def unfinished {α : Type} : Except Fault α → Nat
  | .ok _ => 0
  | .error fault => if fault.inExecution then 1 else 0

@[simp] theorem unfinished_map {α β : Type} (f : α → β) (reply : Except Fault α) :
    unfinished (reply.map f) = unfinished reply := by
  cases reply <;> rfl

/-- The events between two machines account for what is different, except for the
program counter. -/
structure Accounts (events : List Event) (pending : Nat) (m n : Machine) : Prop where
  mirrors : ∀ p : Replica, p.Mirrors m → ∃ q, replay events p = .ok q ∧ q.Mirrors n
  count : n.count + pending = m.count + events.countP Event.isInstruction

theorem Accounts.refl (m : Machine) : Accounts [] 0 m m := ⟨fun p mirrors => ⟨p, rfl, mirrors⟩, rfl⟩

theorem Accounts.trans {first later : List Event} {pending : Nat} {o : Machine}
    (left : Accounts first 0 m n) (right : Accounts later pending n o) :
    Accounts (first ++ later) pending m o := by
  have counted := left.count
  have countedLater := right.count
  refine ⟨fun p mirrors => ?_, by rw [List.countP_append]; omega⟩
  obtain ⟨q, replayed, between⟩ := left.mirrors p mirrors
  obtain ⟨r, replayedLater, after⟩ := right.mirrors q between
  exact ⟨r, (replay_append replayed).trans replayedLater, after⟩

theorem accounts_step (live : m.Live) (running : m.isHalted = false) :
    Accounts m.stepEvents (unfinished m.step.1) m m.step.2 := by
  rw [step_eq, next, stepEvents]
  simp only [running, Bool.false_eq_true, if_false]
  cases fetched : m.fetch m.pc with
  | error fault =>
    have early := fetch_error live fetched
    simp only [Except.bind, unfinished, early, Bool.false_eq_true, if_false]
    exact .refl m
  | ok i =>
    simp only [Except.bind]
    cases effected : m.effect m.pc i with
    | error fault =>
      have late := effect_error effected
      simp only [Except.map, unfinished, late, if_true]
      exact ⟨fun p mirrors => ⟨p, rfl, mirrors⟩, rfl⟩
    | ok e =>
      simp only [Except.map]
      refine ⟨fun p mirrors => mirrors_after live mirrors effected, ?_⟩
      rw [List.countP_cons, countP_changes effected, count_after]
      rfl

theorem accounts_run (live : m.Live) (limit : Nat) :
    Accounts (m.runEvents limit) (unfinished (m.run limit).1) m (m.run limit).2 := by
  induction limit generalizing m with
  | zero => exact .refl m
  | succ limit ih =>
    cases halted : m.isHalted with
    | true =>
      rw [run_of_halted halted, runEvents_of_halted halted]
      exact .refl m
    | false =>
      have first := accounts_step live halted
      rw [step_eq] at first
      cases one : m.next with
      | error fault =>
        rw [one] at first
        rw [run_of_next_error halted one, runEvents_of_next_error halted one]
        exact first
      | ok n =>
        have after : n.Live := live.steps (.succ halted one (.zero n))
        rw [one] at first
        rw [run_of_next halted one, runEvents_of_next halted one, unfinished_map]
        exact first.trans (ih after)

/-- A run shows the same events to whoever watches it and ends as the run that
nobody watches. From the events come the memory and the registers it ends with,
the program counter apart; they show the instructions that were executed, and the
one that faulted as it was executed. -/
theorem trace_faithful (live : m.Live) (limit : Nat) :
    ∃ events : List Event,
      Exec.run Observer.recorder limit ⟨m, []⟩ =
          Exec.conclude ⟨(m.run limit).2, events.reverse⟩ (m.run limit).1 ∧
        (∀ (σ : Type) (watch : Observer σ) (record : σ),
          Exec.run watch limit ⟨m, record⟩ =
            Exec.conclude ⟨(m.run limit).2, Exec.tell watch events record⟩ (m.run limit).1) ∧
        (∃ p, replay events ⟨m.registers, m.memory⟩ = .ok p ∧ p.Mirrors (m.run limit).2) ∧
        ∃ executed, (m.run limit).2.count = m.count + executed ∧
          (∀ k, (m.run limit).1 = .ok k → k = executed) ∧
          events.countP Event.isInstruction = executed + unfinished (m.run limit).1 := by
  have accounts := accounts_run live limit
  obtain ⟨k, n, steps, ended⟩ := run_cases m limit
  have machine : (m.run limit).2 = n := by
    rcases ended with ⟨ended, _⟩ | ⟨fault, ended, _⟩ <;> rw [ended]
  have executed : (m.run limit).2.count = m.count + k := by rw [machine, steps.count]
  have counted := accounts.count
  refine ⟨m.runEvents limit, ?_, fun σ watch => run_watched watch m limit, ?_, k, executed, ?_, ?_⟩
  · rw [run_watched, Exec.tell_recorder, List.append_nil]
  · exact accounts.mirrors ⟨m.registers, m.memory⟩ ⟨rfl, fun _ _ => rfl⟩
  · intro count reply
    rcases ended with ⟨ended, _⟩ | ⟨fault, ended, _⟩
    · rw [ended] at reply
      exact (Except.ok.inj reply).symm
    · rw [ended] at reply
      cases reply
  · omega

/-- A program that pushes a word, compares and divides by zero. -/
theorem trace_faithful_division :
    let image : Image := ⟨none, [], Instruction.encode ⟨.pushImm, .imm 0x1234, rfl⟩ ++
      Instruction.encode ⟨.compareRegReg, .regReg .r1 .sp, rfl⟩ ++
      Instruction.encode ⟨.binary (.arith .unsigned .div), .regReg .r1 .r2, rfl⟩,
      fun _ => rfl, by decide⟩
    ∃ m n events p, ofImage image ⟨16, 4, true, true⟩ = .ok m ∧
      Exec.run Observer.recorder 9 ⟨m, []⟩ = .error (.divisionByZero 6) ⟨n, events.reverse⟩ ∧
      n.count = 2 ∧ events.countP Event.isInstruction = 3 ∧
      replay events ⟨m.registers, m.memory⟩ = .ok p ∧ p.memory = n.memory ∧
      p.memory.readWord 9 = .ok 0x1234 ∧ p.registers.get .flags = 2 := by
  intro image
  obtain ⟨m, built⟩ : ∃ m, ofImage image ⟨16, 4, true, true⟩ = .ok m := ⟨_, rfl⟩
  have faulted : (m.run 9).1 = .error (.divisionByZero 6) := by
    cases built
    exact Result.eq_error_of_match (by decide +kernel)
  have counted : m.count = 0 ∧ (m.run 9).2.count = 2 := by
    cases built
    exact ⟨rfl, by decide +kernel⟩
  have pushed : (m.run 9).2.memory.readWord 9 = .ok 0x1234 := by
    cases built
    exact Result.eq_ok_of_toOption (by decide +kernel)
  have compared : (m.run 9).2.get .flags = 2 := by
    cases built
    decide +kernel
  obtain ⟨events, recorded, _, ⟨p, replayed, mirrors⟩, executed, count, _, shown⟩ :=
    trace_faithful (.built built) 9
  have two : executed = 2 := by omega
  rw [faulted] at recorded shown
  refine ⟨m, _, events, p, built, recorded, counted.2, ?_, replayed, mirrors.memory, ?_, ?_⟩
  · rw [shown, two]
    rfl
  · rw [mirrors.memory, pushed]
  · rw [mirrors.registers .flags (by decide), compared]

end Machine

end WordMachine
