import WordMachine.Machine.Step

/-! Runs. A bounded run ends early when the machine halts or faults, so any
number of runs one after the other is one longer run. A run to the halt has no
bound, and no result when the machine neither halts nor faults. -/
namespace WordMachine.Exec

variable {σ : Type} (watch : Observer σ)

/-- Takes at most `limit` steps, and counts on from `done`. -/
def runFrom (done : Nat) : (limit : Nat) → Exec σ Nat
  | 0 => return done
  | limit + 1 => do
    if (← machine).isHalted then return done
    else do
      let _ ← step watch
      runFrom (done + 1) limit

/-- Takes at most `limit` steps and says how many. -/
def run (limit : Nat) : Exec σ Nat := runFrom watch 0 limit

/-- The machine halts or faults after some steps. -/
inductive Ends : Session σ → EStateM.Result Fault (Session σ) Unit → Prop
  | halted {s : Session σ} : s.machine.isHalted = true → Ends s (.ok () s)
  | fault {s t : Session σ} {fault : Fault} :
      s.machine.isHalted = false → step watch s = .error fault t → Ends s (.error fault t)
  | step {s t : Session σ} {status : Status} {r : EStateM.Result Fault (Session σ) Unit} :
      s.machine.isHalted = false → step watch s = .ok status t → Ends t r → Ends s r

variable {watch} in
/-- One round of the run from `s`: an end of it, or where it goes on. -/
def round {s : Session σ} (t : {t // ∀ r, Ends watch t r → Ends watch s r}) :
    {t // ∀ r, Ends watch t r → Ends watch s r} ⊕ Option {r // Ends watch s r} :=
  match halted : t.1.machine.isHalted with
  | true => .inr (some ⟨.ok () t.1, t.2 _ (.halted halted)⟩)
  | false =>
    match stepped : step watch t.1 with
    | .error fault u => .inr (some ⟨.error fault u, t.2 _ (.fault halted stepped)⟩)
    | .ok _ u => .inl ⟨u, fun r ends => t.2 r (.step halted stepped ends)⟩

/-- Takes steps until the machine halts or faults. Whatever is found is an end of
the run, so a run that never ends has no result. -/
def runToHalt (s : Session σ) : Option (EStateM.Result Fault (Session σ) Unit) :=
  let found : Option (Option {r // Ends watch s r}) :=
    repeatM (fun t => some (round t)) ⟨s, fun _ => id⟩
  found.join.map Subtype.val

end WordMachine.Exec

namespace WordMachine.Machine

/-- How a computation ended, and the machine after it. -/
def ended {α : Type} : EStateM.Result Fault (Session Unit) α → Except Fault α × Machine
  | .ok a s => (.ok a, s.machine)
  | .error fault s => (.error fault, s.machine)

/-- Performs a computation that nobody watches. -/
def perform {α : Type} (m : Machine) (action : Exec Unit α) : Except Fault α × Machine :=
  ended (EStateM.run action ⟨m, ()⟩)

def step (m : Machine) : Except Fault Status × Machine := m.perform (Exec.step Observer.blind)

def run (m : Machine) (limit : Nat) : Except Fault Nat × Machine :=
  m.perform (Exec.run Observer.blind limit)

/-- The run to the halt, if it ends. -/
def runToHalt (m : Machine) : Option (Except Fault Unit × Machine) :=
  (Exec.runToHalt Observer.blind ⟨m, ()⟩).map ended

end WordMachine.Machine
