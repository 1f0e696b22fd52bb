import WordMachine.Instruction.Basic
import WordMachine.Instruction.Flags

/-! Events: what an observer of a machine gets to see, in the order it happens. -/
namespace WordMachine

inductive Event where
  /-- Before the instruction at `pc` is executed. -/
  | instruction (pc : Word) (i : Instruction)
  | registerWrite (register : Register) (value : Word)
  | memoryWrite (address value : Word)
  /-- A store into the read-only program was dropped. -/
  | refusedWrite (address value : Word)
  /-- After a comparison set the flags. -/
  | comparison (left right : Word) (flags : Flags)
  /-- After a jump was decided. -/
  | jump (target : Word) (taken : Bool)
  | call (target returnAddress : Word)
  | ret (returnAddress : Word)
  | halt (pc : Word)
  deriving DecidableEq, Repr

end WordMachine
