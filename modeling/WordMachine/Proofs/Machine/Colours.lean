import WordMachine.Machine.Report
import WordMachine.Machine.Trace
import WordMachine.Proofs.Listing.Colours
import WordMachine.Proofs.Machine.Composition

/-! Coloured traces and summaries. Whoever prints the events of a run in colour
prints lines that decorate those of whoever prints them plainly, and neither comes
back to the machine, so both see the same run. -/
namespace WordMachine

open Palette (Decorates)

namespace Exec

variable {σ τ α : Type}

/-- A result with what was recorded put in another form. -/
def rerecord (f : σ → τ) :
    EStateM.Result Fault (Session σ) α → EStateM.Result Fault (Session τ) α
  | .ok a s => .ok a ⟨s.machine, f s.record⟩
  | .error fault s => .error fault ⟨s.machine, f s.record⟩

theorem rerecord_conclude (f : σ → τ) (s : Session σ) (reply : Except Fault α) :
    rerecord f (conclude s reply) = conclude ⟨s.machine, f s.record⟩ reply := by
  cases reply <;> rfl

end Exec

namespace Machine

section Records

variable {σ τ : Type} {watch : Observer σ} {other : Observer τ} {f : σ → τ}
  (same : ∀ events record, f (Exec.tell watch events record) = Exec.tell other events (f record))

include same

/-- Observers whose records correspond are left with such records by a run. -/
theorem rerecord_run (m : Machine) (limit : Nat) (record : σ) :
    Exec.rerecord f (Exec.run watch limit ⟨m, record⟩) = Exec.run other limit ⟨m, f record⟩ := by
  rw [run_watched, run_watched, Exec.rerecord_conclude, same]

theorem rerecord_runToHalt (m : Machine) (record : σ) :
    (Exec.runToHalt watch ⟨m, record⟩).map (Exec.rerecord f) =
      Exec.runToHalt other ⟨m, f record⟩ := by
  have concludes : ∀ limit, Exec.rerecord f (m.concluded watch record limit) =
      m.concluded other (f record) limit := by
    intro limit
    rw [concluded, concluded, Exec.rerecord_conclude, same]
  apply Option.ext
  intro r
  rw [Option.map_eq_some_iff, runToHalt_watched]
  constructor
  · rintro ⟨s, found, rfl⟩
    obtain ⟨limit, stops, rfl⟩ := runToHalt_watched.mp found
    exact ⟨limit, stops, (concludes limit).symm⟩
  · rintro ⟨limit, stops, rfl⟩
    exact ⟨_, runToHalt_watched.mpr ⟨limit, stops, rfl⟩, concludes limit⟩

end Records

end Machine

/-- Prints the line of every event below those it has printed. -/
def Observer.printer (p : Palette) (verbosity : Verbosity) : Observer (List String) :=
  fun event lines => lines ++ (event.line? p verbosity).toList

/-- What is printed as events happen is the trace of them. -/
theorem Exec.tell_printer (p : Palette) (verbosity : Verbosity) (events : List Event)
    (lines : List String) :
    tell (Observer.printer p verbosity) events lines = lines ++ traceLines p verbosity events := by
  induction events generalizing lines with
  | nil => exact (List.append_nil lines).symm
  | cons event rest ih =>
    rw [tell, List.foldl_cons, ← tell, ih, Observer.printer, List.append_assoc, traceLines,
      traceLines, List.filterMap_cons]
    cases event.line? p verbosity <;> rfl

namespace Instruction

theorem decorates_operandText (operands : Operands) :
    List.Forall₂ Decorates (operandText operands) (operandText operands) := by
  have memory : ∀ w, Decorates ("$" ++ Hex.word w) ("$" ++ Hex.word w) :=
    fun w => .append (.self (by decide)) (.word w)
  cases operands with
  | none => exact .nil
  | imm w => exact .cons (.word w) .nil
  | reg r => exact .cons (decorates_register r) .nil
  | regImm r w => exact .cons (decorates_register r) (.cons (.word w) .nil)
  | regReg r s => exact .cons (decorates_register r) (.cons (decorates_register s) .nil)
  | regMem r w => exact .cons (decorates_register r) (.cons (memory w) .nil)
  | memReg w r => exact .cons (memory w) (.cons (decorates_register r) .nil)

theorem decorates_text (i : Instruction) : Decorates i.text i.text :=
  .intercalate (.self (by decide))
    (.cons (decorates_mnemonic i.opcode) (decorates_operandText i.operands))

end Instruction

theorem Flags.decorates_text (f : Flags) : Decorates f.text f.text := by
  refine .append (.append (.self (by decide)) ?_) (.self (by decide))
  refine .self ?_
  rw [names]
  cases f.equal <;> cases f.less <;> cases f.greater <;> cases f.interrupt <;> decide

namespace Event

theorem decorates_detail (verbosity : Verbosity) {text : String} (plain : Decorates text text) :
    List.Forall₂ Decorates (detail .ansi verbosity text).toList
      (detail .plain verbosity text).toList := by
  cases verbosity with
  | default => exact .nil
  | verbose =>
    have indent : Decorates indentation indentation := .self (by decide)
    exact .cons (((indent.append .dim).append plain).append .reset) .nil

theorem decorates_line? (verbosity : Verbosity) (event : Event) :
    List.Forall₂ Decorates (event.line? .ansi verbosity).toList
      (event.line? .plain verbosity).toList := by
  have indent : Decorates indentation indentation := .self (by decide)
  cases event with
  | instruction pc i =>
    refine .cons (.append (.appendBare ?_ (by decide)) i.decorates_text) .nil
    exact (Decorates.dim.append (.word pc)).append .reset
  | registerWrite r w =>
    refine decorates_detail verbosity (.append ?_ (.word w))
    exact (Instruction.decorates_register r).appendBare (by decide)
  | memoryWrite address w =>
    refine decorates_detail verbosity (.append (.appendBare ?_ (by decide)) (.word w))
    exact .append (.self (by decide)) (.word address)
  | refusedWrite address w =>
    refine .cons (.append (.appendBare (.append ?_ (.word address)) (by decide)) .reset) .nil
    exact (((indent.append .alarm).appendBare (by decide)).append (.word w)).appendBare (by decide)
  | comparison left right flags =>
    refine decorates_detail verbosity (.append (.appendBare ?_ (by decide)) flags.decorates_text)
    refine .append (.appendBare ?_ (by decide)) (.word right)
    exact .append (.self (by decide)) (.word left)
  | jump target taken =>
    refine decorates_detail verbosity (.append (.append (.self (by decide)) (.word target)) ?_)
    cases taken <;> exact .self (by decide)
  | call target returnAddress =>
    refine .cons (.appendBare (.append (.appendBare ?_ (by decide)) (.word returnAddress))
      (by decide)) .nil
    exact (((indent.append .label).appendBare (by decide)).append (.word target)).append .reset
  | ret returnAddress =>
    refine .cons (.append (.append ?_ (.word returnAddress)) .reset) .nil
    exact (indent.append .label).appendBare (by decide)
  | halt pc =>
    exact .cons (((Decorates.literal.appendBare (by decide)).append (.word pc)).append .reset) .nil

end Event

/-- A trace without its colours is the plain one, line by line. -/
theorem uncoloured_traceLines (verbosity : Verbosity) (events : List Event) :
    (traceLines .ansi verbosity events).map Palette.uncoloured =
      traceLines .plain verbosity events := by
  rw [traceLines, traceLines, List.filterMap_eq_flatMap_toList, List.filterMap_eq_flatMap_toList]
  exact Decorates.map_uncoloured
    (Decorates.flatMap fun event _ => event.decorates_line? verbosity)

theorem uncoloured_tell (verbosity : Verbosity) (events : List Event) (lines : List String) :
    (Exec.tell (Observer.printer .ansi verbosity) events lines).map Palette.uncoloured =
      Exec.tell (Observer.printer .plain verbosity) events (lines.map Palette.uncoloured) := by
  rw [Exec.tell_printer, Exec.tell_printer, List.map_append, uncoloured_traceLines]

namespace Machine

theorem decorates_padRight (width : Nat) {text : String} (plain : Decorates text text) :
    Decorates (padRight width text) (padRight width text) := by
  refine plain.append (.ofList fun c hc => ?_)
  rw [List.eq_of_mem_replicate hc]
  decide

theorem decorates_summaryCell (m : Machine) (r : Register) :
    Decorates (summaryCell .ansi m r) (summaryCell .plain m r) := by
  have name := decorates_padRight 5 (Instruction.decorates_register r)
  exact (((Decorates.dim.append name).append .reset).appendBare (by decide)).append (.word (m.get r))

theorem decorates_summaryLines (m : Machine) :
    List.Forall₂ Decorates (summaryLines .ansi m) (summaryLines .plain m) := by
  refine List.rel_append (List.rel_append ?_ (Decorates.map fun row _ => ?_)) ?_
  · have status : ∀ halted : Bool, '\x1b' ∉ (if halted then "halted" else "stopped").toList := by
      decide
    refine .cons (.append (.appendBare (.append (.appendBare ?_ (by decide)) (.repr m.count))
      (by decide)) (.word m.pc)) .nil
    exact (Decorates.literal.appendBare (status m.isHalted)).append .reset
  · exact .intercalate (.self (by decide)) (Decorates.map fun r _ => m.decorates_summaryCell r)
  · refine .cons (.append (.appendBare ?_ (by decide)) m.flags.decorates_text) .nil
    exact (Decorates.dim.appendBare (by decide)).append .reset

theorem decorates_summary (m : Machine) : Decorates (m.summary .ansi) (m.summary .plain) :=
  .joinLines m.decorates_summaryLines

end Machine

/-- Without its colours a listing is the plain listing, which has no escape character.
A run that is printed in colour prints the lines of one that is printed plainly, and
ends alike, and a summary without its colours is the plain summary. -/
theorem colours_only_decorate :
    (∀ image l, Listing.ofImage image = .ok l → ∀ implicitStart addresses,
      Palette.uncoloured (l.text ⟨implicitStart, addresses, .ansi⟩) =
          l.text ⟨implicitStart, addresses, .plain⟩ ∧
        '\x1b' ∉ (l.text ⟨implicitStart, addresses, .plain⟩).toList) ∧
    (∀ verbosity events, (traceLines .ansi verbosity events).map Palette.uncoloured =
      traceLines .plain verbosity events) ∧
    (∀ (m : Machine) (verbosity : Verbosity) (lines : List String),
      (∀ limit,
        Exec.rerecord (List.map Palette.uncoloured)
            (Exec.run (Observer.printer .ansi verbosity) limit ⟨m, lines⟩) =
          Exec.run (Observer.printer .plain verbosity) limit ⟨m, lines.map Palette.uncoloured⟩) ∧
      (Exec.runToHalt (Observer.printer .ansi verbosity) ⟨m, lines⟩).map
          (Exec.rerecord (List.map Palette.uncoloured)) =
        Exec.runToHalt (Observer.printer .plain verbosity) ⟨m, lines.map Palette.uncoloured⟩) ∧
    ∀ m : Machine, Palette.uncoloured (m.summary .ansi) = m.summary .plain := by
  refine ⟨?_, uncoloured_traceLines, fun m verbosity lines => ⟨fun limit => ?_, ?_⟩, ?_⟩
  · intro image l listed implicitStart addresses
    have decorates := Listing.decorates_text listed implicitStart addresses
    exact ⟨decorates.uncoloured, decorates.bare⟩
  · exact Machine.rerecord_run (uncoloured_tell verbosity) m limit lines
  · exact Machine.rerecord_runToHalt (uncoloured_tell verbosity) m lines
  · exact fun m => m.decorates_summary.uncoloured

/-- A listing with a text, a label and an address in colour. -/
theorem colours_only_decorate_jump :
    let image : Image := ⟨some 0, [1, 0x41], [0x20, 2, 0], nofun, by decide⟩
    ∃ l, Listing.ofImage image = .ok l ∧
      l.text ⟨false, true, .ansi⟩ = ".STATIC\n$S0000: \x1b[32m\"A\"\x1b[0m\n\x1b[34m_START\x1b[0m:\n" ++
        "\x1b[34m_LABEL_0\x1b[0m:\n    JUMP \x1b[34m_LABEL_0\x1b[0m  \x1b[2m// 0x0002\x1b[0m\n" ∧
      Palette.uncoloured (l.text ⟨false, true, .ansi⟩) = ".STATIC\n$S0000: \"A\"\n_START:\n" ++
        "_LABEL_0:\n    JUMP _LABEL_0  // 0x0002\n" := by
  intro image
  let l : Listing := ⟨.texts [(0, "A")], [(2, ⟨.jump .always, .imm 2, rfl⟩)], [2], 5⟩
  have listed : Listing.ofImage image = .ok l := Result.eq_ok_of_toOption (by decide +kernel)
  have plain : l.text ⟨false, true, .plain⟩ = ".STATIC\n$S0000: \"A\"\n_START:\n" ++
      "_LABEL_0:\n    JUMP _LABEL_0  // 0x0002\n" := by decide +kernel
  refine ⟨l, listed, by decide +kernel, ?_⟩
  rw [(colours_only_decorate.1 image l listed false true).1, plain]

end WordMachine
