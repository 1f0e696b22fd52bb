import WordMachine.Proofs.Machine.Runs

/-! Failed steps are atomic: a step that faults leaves the whole machine as it
was, so the next step faults alike, and a run that faults ends where its last
successful step did. Nothing is assumed of the machine. -/
namespace WordMachine

theorem Exec.step_fault {σ : Type} {watch : Observer σ} {s t : Session σ} {fault : Fault}
    (h : Exec.step watch s = .error fault t) : t.machine = s.machine := by
  rw [Exec.step_apply] at h
  split at h
  · cases h
  · cases hi : s.machine.fetch s.machine.pc with
    | error cause =>
      simp only [hi] at h
      cases h
      rfl
    | ok i =>
      cases he : s.machine.effect s.machine.pc i with
      | error cause =>
        simp only [hi, he] at h
        cases h
        rfl
      | ok e =>
        simp only [hi, he] at h
        cases h

namespace Machine

variable {m n : Machine} {fault : Fault}

theorem step_of_next_error (h : m.next = .error fault) : m.step = (.error fault, m) := by
  rw [step_eq, h]

theorem next_of_step_error (h : m.step = (.error fault, n)) :
    n = m ∧ m.next = .error fault := by
  rw [step_eq] at h
  cases one : m.next with
  | ok o => simp [one] at h
  | error cause =>
    simp only [one, Prod.mk.injEq, Except.error.injEq] at h
    exact ⟨h.2.symm, congrArg Except.error h.1⟩

theorem Steps.run_eq {k : Nat} (steps : Steps k m n) : m.run k = (.ok k, n) := by
  have whole := steps.run_add 0
  simpa only [Nat.add_zero, run_zero, Except.map] using whole

/-- Whoever watches, a failed step changes nothing and fails again; a failed run
leaves the machine that its successful steps led to, where a step fails alike. -/
theorem fault_changes_nothing (m : Machine) :
    (∀ (σ : Type) (watch : Observer σ) (record : σ) (fault : Fault) (t : Session σ),
      Exec.step watch ⟨m, record⟩ = .error fault t → t.machine = m) ∧
    (∀ fault n, m.step = (.error fault, n) → n = m ∧ n.step = (.error fault, n)) ∧
    (∀ limit fault n, m.run limit = (.error fault, n) →
      ∃ k, k < limit ∧ m.run k = (.ok k, n) ∧ n.step = (.error fault, n)) ∧
    (∀ fault n, m.runToHalt = some (.error fault, n) →
      ∃ k, m.run k = (.ok k, n) ∧ n.step = (.error fault, n)) := by
  refine ⟨fun σ watch record fault t h => Exec.step_fault h, ?_, ?_, ?_⟩
  · intro fault n h
    obtain ⟨rfl, one⟩ := next_of_step_error h
    exact ⟨rfl, step_of_next_error one⟩
  · intro limit fault n h
    obtain ⟨k, o, steps, ⟨ended, _⟩ | ⟨cause, ended, short, _, last⟩⟩ := run_cases m limit
    · rw [ended] at h
      cases h
    · rw [ended] at h
      cases h
      exact ⟨k, short, steps.run_eq, step_of_next_error last⟩
  · intro fault n h
    obtain ⟨k, steps, ⟨ended, _⟩ | ⟨cause, ended, _, last⟩⟩ := runToHalt_cases h
    · cases ended
    · cases ended
      exact ⟨k, steps.run_eq, step_of_next_error last⟩

end Machine

end WordMachine
