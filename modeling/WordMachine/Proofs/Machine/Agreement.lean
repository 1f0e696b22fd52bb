import WordMachine.Proofs.Listing.Lines
import WordMachine.Proofs.Listing.Stream
import WordMachine.Proofs.Machine.Colours
import WordMachine.Proofs.Machine.Forward

/-! Listings and traces side by side. The line of an instruction in a plain listing
holds its text, with the name of a label in place of its target if it has one. A
machine that holds the program of the image fetches at a listed address what is listed
there, so what a trace shows at such an address is what the listing shows. -/
namespace WordMachine

namespace Listing

variable {image : Image} {l : Listing} {style : Style}

section Texts

/-- What a plain listing may show of an instruction: its text, or, if its target has a
label, the name of the label where the text has the target. -/
inductive Shows (l : Listing) (i : Instruction) : String → Prop
  | text : (∀ t ∈ i.target?, l.label? t.toNat = none) → Shows l i i.text
  | label {t : Word} {name : String} : i.target? = some t → l.label? t.toNat = some name →
      i.text = i.opcode.mnemonic ++ " " ++ Hex.word t →
      Shows l i (i.opcode.mnemonic ++ " " ++ name)

theorem text_of_target {i : Instruction} {t : Word} (aimed : i.target? = some t) :
    i.text = i.opcode.mnemonic ++ " " ++ Hex.word t := by
  rw [Instruction.text, (Instruction.target?_eq_some.mp aimed).1]
  simp [Instruction.operandText]

/-- Both renderers write an operand alike unless it is the target of a label. -/
theorem operandTexts_unlabelled {i : Instruction} (unlabelled : l.targetLabel? i = none) :
    operandTexts .plain l i = Instruction.operandText i.operands := by
  rw [operandTexts_plain, written, unlabelled]
  cases i.operands <;> rfl

theorem shows_instructionText (l : Listing) (i : Instruction) :
    l.Shows i (instructionText .plain l i) := by
  cases labelled : l.targetLabel? i with
  | none =>
    have same : instructionText .plain l i = i.text := by
      rw [instructionText, operandTexts_unlabelled labelled, Instruction.text]
    rw [same]
    refine .text fun t aimed => ?_
    rw [targetLabel?, aimed] at labelled
    exact labelled
  | some name =>
    obtain ⟨t, aimed, named⟩ := Option.bind_eq_some_iff.mp labelled
    have shown : instructionText .plain l i = i.opcode.mnemonic ++ " " ++ name := by
      rw [instructionText, operandTexts_plain, written, labelled,
        (Instruction.target?_eq_some.mp aimed).1]
      simp
    rw [shown]
    exact .label aimed named (text_of_target aimed)

/-- The address behind an instruction, if the style asks for it. -/
def note (style : Style) (address : Nat) : String :=
  if style.addresses then "  // 0x" ++ Hex.address address else ""

/-- The line holds the instruction, perhaps indented and perhaps with its address. -/
def Holds (style : Style) (l : Listing) (line : String) (e : Nat × Instruction) : Prop :=
  ∃ pad body, (pad = "" ∨ pad = indentation) ∧ l.Shows e.2 body ∧ line = pad ++ body ++ note style e.1

theorem holds_lineOf (plain : style.palette = .plain) (l : Listing) (e : Nat × Instruction) :
    Holds style l (l.lineOf style e) e := by
  refine ⟨if (indentedFrom? style l).any (· ≤ e.1) then indentation else "",
    instructionText .plain l e.2, ?_, shows_instructionText l e.2, ?_⟩
  · split
    · exact Or.inr rfl
    · exact Or.inl rfl
  · rw [lineOf, instructionLine, plain, note]
    cases style.addresses <;> simp [Palette.plain]

/-- The lines of instructions in a plain text hold those of the listing, one by one. -/
theorem holds_lines (listed : ofImage image = .ok l) (plain : style.palette = .plain) :
    List.Forall₂ (Holds style l) ((Text.lines (l.text style)).filter isInstructionLine)
      l.instructions := by
  rw [@lines_text _ _ _ false listed plain, @filter_lines _ false plain, List.forall₂_map_left_iff,
    List.forall₂_same]
  exact fun e _ => holds_lineOf plain l e

end Texts

section Decoding

/-- What is listed at an address decodes from the payload there. -/
theorem decode_of_mem (listed : ofImage image = .ok l) {e : Nat × Instruction}
    (mem : e ∈ l.instructions) : Instruction.decode (image.payload.drop e.1) = .ok e.2 := by
  obtain ⟨is, code, _, instructions, _⟩ := parts_of_ofImage listed
  rw [instructions] at mem
  obtain ⟨k, found⟩ := List.getElem?_of_mem mem
  rw [getElem?_place, Option.map_eq_some_iff] at found
  obtain ⟨i, here, rfl⟩ := found
  have tail : Tail image.codeOffset is (image.codeOffset + span (is.take k)) (i :: is.drop (k + 1)) := by
    refine ⟨is.take k, ?_, rfl⟩
    obtain ⟨short, rfl⟩ := List.getElem?_eq_some_iff.mp here
    rw [← List.drop_eq_getElem_cons short, List.take_append_drop]
  rw [Machine.Intact.drop_payload code tail, List.flatMap_cons]
  exact Instruction.decode_encode_append i _

/-- At a listed address nothing else decodes. -/
theorem mem_of_decode (listed : ofImage image = .ok l) {address : Nat} {i : Instruction}
    (place : address ∈ l.instructions.map Prod.fst)
    (decoded : Instruction.decode (image.payload.drop address) = .ok i) :
    (address, i) ∈ l.instructions := by
  obtain ⟨⟨_, j⟩, mem, rfl⟩ := List.mem_map.mp place
  obtain rfl : j = i := Except.ok.inj ((decode_of_mem listed mem).symm.trans decoded)
  exact mem

end Decoding

end Listing

namespace Machine

variable {m : Machine} {image : Image} {l : Listing} {limit : Nat} {pc : Word} {i : Instruction}

/-- A step shows the instruction it has fetched. -/
theorem fetch_of_stepEvents (running : m.isHalted = false)
    (shown : .instruction pc i ∈ m.stepEvents) : m.pc = pc ∧ m.fetch pc = .ok i := by
  have mem : (pc.toNat, i) ∈ executed m.stepEvents := List.mem_filterMap.mpr ⟨_, shown, rfl⟩
  rw [executed_stepEvents running] at mem
  cases fetched : m.fetch m.pc with
  | error fault =>
    rw [fetched] at mem
    cases mem
  | ok j =>
    rw [fetched] at mem
    obtain ⟨address, rfl⟩ := Prod.mk.inj (List.mem_singleton.mp mem)
    obtain rfl := UInt16.toNat_inj.mp address
    exact ⟨rfl, fetched⟩

/-- Every instruction that a run shows was fetched by a machine on its way. -/
theorem fetch_of_runEvents (shown : .instruction pc i ∈ m.runEvents limit) :
    ∃ k n, k < limit ∧ Steps k m n ∧ n.pc = pc ∧ n.fetch pc = .ok i := by
  -- The induction is on the limit, one step after the other from `m` on.
  induction limit generalizing m with
  | zero => cases shown
  | succ limit ih =>
    cases halted : m.isHalted with
    | true =>
      rw [runEvents_of_halted halted] at shown
      cases shown
    | false =>
      have now : .instruction pc i ∈ m.stepEvents →
          ∃ k n, k < limit + 1 ∧ Steps k m n ∧ n.pc = pc ∧ n.fetch pc = .ok i := by
        intro first
        exact ⟨0, m, Nat.succ_pos limit, .zero m, fetch_of_stepEvents halted first⟩
      cases one : m.next with
      | error fault =>
        rw [runEvents_of_next_error halted one] at shown
        exact now shown
      | ok o =>
        rw [runEvents_of_next halted one] at shown
        rcases List.mem_append.mp shown with first | later
        · exact now first
        · obtain ⟨k, n, short, steps, fetched⟩ := ih later
          exact ⟨k + 1, n, by omega, .succ halted one steps, fetched⟩

/-- A machine that holds the payload of an image executes what its listing lists. -/
theorem listed_of_runEvents (listed : Listing.ofImage image = .ok l) (live : m.Live)
    (unmodified : ∀ k n, k < limit → Steps k m n → n.program = image.payload)
    (shown : .instruction pc i ∈ m.runEvents limit)
    (place : pc.toNat ∈ l.instructions.map Prod.fst) : (pc.toNat, i) ∈ l.instructions := by
  obtain ⟨k, n, short, steps, _, fetched⟩ := fetch_of_runEvents shown
  have decoded := decode_of_fetch (live.steps steps).sized fetched
  rw [unmodified k n short steps] at decoded
  exact Listing.mem_of_decode listed place decoded

/-- Whoever prints a run prints the trace of its events below the lines before. -/
theorem printed_run (p : Palette) (verbosity : Verbosity) (m : Machine) (lines : List String)
    (limit : Nat) :
    Exec.run (Observer.printer p verbosity) limit ⟨m, lines⟩ =
      Exec.conclude ⟨(m.run limit).2, lines ++ traceLines p verbosity (m.runEvents limit)⟩
        (m.run limit).1 := by
  rw [run_watched, Exec.tell_printer]

theorem printed_runToHalt (p : Palette) (verbosity : Verbosity) (m : Machine) (lines : List String)
    (r : EStateM.Result Fault (Session (List String)) Unit) :
    Exec.runToHalt (Observer.printer p verbosity) ⟨m, lines⟩ = some r ↔
      ∃ limit, m.Stops limit ∧
        Exec.conclude ⟨(m.run limit).2, lines ++ traceLines p verbosity (m.runEvents limit)⟩
          (uncounted (m.run limit).1) = r := by
  rw [runToHalt_watched]
  simp only [concluded, Exec.tell_printer]

/-- A plain trace and the plain text of a listing show the instruction at `pc` alike: a
line of the trace holds its address and its text, and the line in the text that has its
place among those of instructions holds the same instruction. -/
structure ShownAlike (l : Listing) (pc : Word) (i : Instruction) : Prop where
  traced : ∀ verbosity, (Event.instruction pc i).line? .plain verbosity =
    some (Hex.word pc ++ "  " ++ i.text)
  listed : ∀ style, style.palette = .plain → ∃ (k : Nat) (line : String),
    l.instructions[k]? = some (pc.toNat, i) ∧
    ((Text.lines (l.text style)).filter Listing.isInstructionLine)[k]? = some line ∧
    Listing.Holds style l line (pc.toNat, i)

theorem shownAlike (listed : Listing.ofImage image = .ok l) (mem : (pc.toNat, i) ∈ l.instructions) :
    ShownAlike l pc i := by
  constructor
  · intro verbosity
    simp [Event.line?, Palette.plain]
  · intro style plain
    obtain ⟨k, found⟩ := List.getElem?_of_mem mem
    have lines := Listing.holds_lines listed plain
    generalize (Text.lines (l.text style)).filter Listing.isInstructionLine = shown at lines
    obtain ⟨short, same⟩ := List.getElem?_eq_some_iff.mp found
    have inside : k < shown.length := lines.length_eq ▸ short
    refine ⟨k, shown[k], found, List.getElem?_eq_getElem inside, ?_⟩
    rw [← same]
    exact lines.get inside short

/-- Listed instructions are those that decode at their addresses, and the lines of
instructions in a plain text hold them one by one. What is printed of a run is the trace
of its events; and when a machine keeps the payload of the image for a program, every
event that shows an instruction at a listed address shows the one that is listed there. -/
theorem listing_and_trace_agree (listed : Listing.ofImage image = .ok l) :
    (∀ e ∈ l.instructions, Instruction.decode (image.payload.drop e.1) = .ok e.2) ∧
    (∀ style, style.palette = Palette.plain →
      List.Forall₂ (Listing.Holds style l)
        ((Text.lines (l.text style)).filter Listing.isInstructionLine) l.instructions) ∧
    (∀ m verbosity lines,
      (∀ limit, Exec.run (Observer.printer .plain verbosity) limit ⟨m, lines⟩ =
        Exec.conclude ⟨(m.run limit).2, lines ++ traceLines .plain verbosity (m.runEvents limit)⟩
          (m.run limit).1) ∧
      ∀ r, Exec.runToHalt (Observer.printer .plain verbosity) ⟨m, lines⟩ = some r ↔
        ∃ limit, m.Stops limit ∧
          Exec.conclude ⟨(m.run limit).2, lines ++ traceLines .plain verbosity (m.runEvents limit)⟩
            (uncounted (m.run limit).1) = r) ∧
    ∀ m limit, m.Live → (∀ k n, k < limit → Steps k m n → n.program = image.payload) →
      ∀ pc i, .instruction pc i ∈ m.runEvents limit → pc.toNat ∈ l.instructions.map Prod.fst →
        ShownAlike l pc i := by
  refine ⟨fun e mem => Listing.decode_of_mem listed mem,
    fun style plain => Listing.holds_lines listed plain, fun m verbosity lines => ⟨?_, ?_⟩, ?_⟩
  · exact printed_run .plain verbosity m lines
  · exact printed_runToHalt .plain verbosity m lines
  · intro m limit live unmodified pc i shown place
    exact shownAlike listed (listed_of_runEvents listed live unmodified shown place)

/-- A jump forth to a jump back, each shown with a label in the one text and with its
target in the other. -/
theorem listing_and_trace_agree_back :
    let image : Image := ⟨none, [], [0x20, 4, 0, 1, 0x20, 3, 0], fun _ => rfl, by decide⟩
    let back : Instruction := ⟨.jump .always, .imm 3, rfl⟩
    ∃ l start, Listing.ofImage image = .ok l ∧
      ofImage image ⟨16, 4, true, false⟩ = .ok start ∧
      "0x0004  JUMP 0x0003" ∈ traceLines .plain .default (start.runEvents 3) ∧
      ∃ (k : Nat) (line : String), l.instructions[k]? = some (4, back) ∧
        ((Text.lines (l.text ⟨true, true, .plain⟩)).filter Listing.isInstructionLine)[k]? = some line ∧
        Listing.Holds ⟨true, true, .plain⟩ l line (4, back) ∧ l.Shows back "JUMP _LABEL_1" := by
  intro image back
  let l : Listing := ⟨.empty,
    [(0, ⟨.jump .always, .imm 4, rfl⟩), (3, ⟨.halt, .none, rfl⟩), (4, back)], [4, 3], 7⟩
  have listed : Listing.ofImage image = .ok l := Result.eq_ok_of_toOption (by decide +kernel)
  obtain ⟨start, built⟩ : ∃ start, ofImage image ⟨16, 4, true, false⟩ = .ok start := ⟨_, rfl⟩
  have shown : .instruction 4 back ∈ start.runEvents 3 := by
    cases built
    decide +kernel
  have unmodified : ∀ k n, k < 3 → Steps k start n → n.program = image.payload := by
    intro k n _ steps
    have intact := steps.keeps (fun _ _ intact => Intact.next intact rfl) (Intact.ofImage built)
    exact intact.program
  have alike := (listing_and_trace_agree listed).2.2.2 start 3 (.built built) unmodified 4 back shown
    (by decide)
  obtain ⟨k, line, found, written, holds⟩ := alike.listed ⟨true, true, .plain⟩ rfl
  refine ⟨l, start, listed, built, ?_, k, line, found, written, holds, ?_⟩
  · rw [traceLines, List.mem_filterMap]
    refine ⟨_, shown, (alike.traced .default).trans ?_⟩
    decide +kernel
  · have joined : back.opcode.mnemonic ++ " " ++ "_LABEL_1" = "JUMP _LABEL_1" := by decide +kernel
    have named : l.label? 3 = some "_LABEL_1" := by decide +kernel
    rw [← joined]
    exact @Listing.Shows.label l back 3 _ rfl named (Listing.text_of_target rfl)

end Machine

end WordMachine
