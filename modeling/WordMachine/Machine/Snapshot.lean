import WordMachine.Machine.Basic

/-! Snapshots: all that decides how a machine goes on. The header of the image
is not part of it, so a machine keeps its own when a snapshot is put back. -/
namespace WordMachine

structure Snapshot where
  registers : RegisterFile
  memory : Memory
  layout : Layout
  config : Config
  status : Status
  count : Nat
  deriving DecidableEq

namespace Machine

def snapshot (m : Machine) : Snapshot :=
  ⟨m.registers, m.memory, m.layout, m.config, m.status, m.count⟩

def restore (m : Machine) (s : Snapshot) : Machine :=
  { m with
    registers := s.registers
    memory := s.memory
    layout := s.layout
    config := s.config
    status := s.status
    count := s.count }

@[simp] theorem snapshot_restore (m : Machine) (s : Snapshot) : (m.restore s).snapshot = s := rfl

@[simp] theorem restore_snapshot (m : Machine) : m.restore m.snapshot = m := rfl

end Machine

end WordMachine
