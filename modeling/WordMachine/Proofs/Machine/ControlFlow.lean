import WordMachine.Proofs.Assembly.Link
import WordMachine.Proofs.Machine.Integrity

/-! Control flow. When every jump and call leads to a place where the code splits
into instructions, and nothing but a call writes the return address, a machine
stays at such places: the code it executes is the code of the listing. The one
other address it can come to is 0, by a return before any call. -/
namespace WordMachine

open Listing (Boundary Tail)

/-- Where an instruction leads that does not name the program counter for its result. -/
theorem Machine.pc_after_cases {m : Machine} {i : Instruction} {e : Effect}
    (effected : m.effect m.pc i = .ok e) (apart : i.destination? ≠ some .pc) :
    (m.after i e).pc = m.pc + UInt16.ofNat i.size ∨ e.flow = .stop ∧ (m.after i e).pc = m.pc ∨
      i.target? = some (m.after i e).pc ∨
      i.opcode = .ret ∧ (m.after i e).pc = m.get Register.returnAddress := by
  have within := within_effect effected
  have still : (m.applyAll e.changes).pc = m.pc :=
    get_applyAll_of_within within apart i.opcode.not_mem_writes.1
  rcases within.flow with flow | flow | ⟨target, aimed, flow⟩ | ⟨returns, flow⟩
  · exact Or.inl (by simp only [pc_after, flow, still])
  · exact Or.inr (Or.inl ⟨flow, by simp only [pc_after, flow, still]⟩)
  · have there : (m.after i e).pc = target := by simp only [pc_after, flow]
    rw [there]
    exact Or.inr (Or.inr (Or.inl aimed))
  · exact Or.inr (Or.inr (Or.inr ⟨returns, by simp only [pc_after, flow]⟩))

namespace Machine.Intact

variable {image : Image} {config : Config} {m : Machine} {is : List Instruction} {pc : Word}

/-- The bytes at a place where the code splits are those of the instructions left. -/
theorem drop_payload (code : image.code = is.flatMap Instruction.encode) {k : Nat}
    {rest : List Instruction} (tail : Tail image.codeOffset is k rest) :
    image.payload.drop k = rest.flatMap Instruction.encode := by
  rw [Image.payload, code]
  exact tail.drop rfl

theorem fetch_tail (intact : m.Intact image config) (code : image.code = is.flatMap Instruction.encode)
    {i : Instruction} {rest : List Instruction}
    (tail : Tail image.codeOffset is pc.toNat (i :: rest)) : m.fetch pc = .ok i := by
  refine intact.fetch_iff.mpr ⟨?_, fun _ => tail.le.1⟩
  rw [drop_payload code tail, List.flatMap_cons]
  exact Instruction.decode_encode_append i _

/-- What is fetched where the code splits is the instruction that lies there. -/
theorem tail_of_fetch (intact : m.Intact image config)
    (code : image.code = is.flatMap Instruction.encode)
    (boundary : Boundary image.codeOffset is pc.toNat) {i : Instruction}
    (fetched : m.fetch pc = .ok i) : ∃ rest, Tail image.codeOffset is pc.toNat (i :: rest) := by
  obtain ⟨decoded, _⟩ := intact.fetch_iff.mp fetched
  obtain ⟨rest, tail⟩ := boundary
  rw [drop_payload code tail] at decoded
  cases rest with
  | nil => cases decoded
  | cons j rest =>
    rw [List.flatMap_cons, Instruction.decode_encode_append] at decoded
    cases decoded
    exact ⟨rest, tail⟩

/-- The address behind an instruction does not wrap around. -/
theorem toNat_pc_add (code : image.code = is.flatMap Instruction.encode) {i : Instruction}
    {rest : List Instruction} (tail : Tail image.codeOffset is pc.toNat (i :: rest)) :
    (pc + UInt16.ofNat i.size).toNat = pc.toNat + i.size := by
  have small := image.fits
  have stop := tail.le.2
  rw [code, Listing.length_flatMap_encode] at small
  simp only [maxPayload, Image.codeOffset, Listing.span_cons] at small stop
  rw [UInt16.toNat_add, UInt16.toNat_ofNat']
  omega

theorem boundary_next (code : image.code = is.flatMap Instruction.encode) {i : Instruction}
    {rest : List Instruction} (tail : Tail image.codeOffset is pc.toNat (i :: rest)) :
    Boundary image.codeOffset is (pc + UInt16.ofNat i.size).toNat := by
  rw [toNat_pc_add code tail]
  exact ⟨rest, tail.next⟩

/-- A machine starts at the first byte of the code. -/
theorem pc_ofImage (built : Machine.ofImage image config = .ok m) :
    m.pc.toNat = image.codeOffset := by
  have first : m.pc = UInt16.ofNat image.codeOffset := by
    obtain ⟨static, _⟩ := Layout.ofImage_ok (ofImage built).layout
    unfold Machine.ofImage at built
    split at built
    · cases built
    · cases built
      rw [← static]
      exact RegisterFile.get_set_self _ _ _
  have small := image.fits
  rw [first, UInt16.toNat_ofNat', Nat.mod_eq_of_lt]
  simp only [maxPayload, Image.codeOffset] at small ⊢
  omega

end Machine.Intact

/-- Code whose control stays within it: its jumps and calls lead to places where
it splits, and only calls write the return address. -/
structure Listing.Closed (start : Nat) (is : List Instruction) : Prop where
  target : ∀ i ∈ is, ∀ t ∈ i.target?, Boundary start is t.toNat
  pc : ∀ i ∈ is, i.destination? ≠ some .pc
  back : ∀ i ∈ is, i.destination? ≠ some Register.returnAddress

/-- Control may pass to this address. -/
def Listing.Known (start : Nat) (is : List Instruction) (w : Word) : Prop :=
  Boundary start is w.toNat ∨ w = 0

theorem Listing.Known.boundary {start : Nat} {is : List Instruction} {w : Word}
    (known : Known start is w) (above : start ≤ w.toNat) : Boundary start is w.toNat := by
  rcases known with boundary | zero
  · exact boundary
  · rw [zero] at above ⊢
    obtain rfl : start = 0 := Nat.le_zero.mp above
    exact ⟨is, Tail.first 0 is⟩

/-- A machine with closed code that has come to a known address and has one to
return to. -/
structure Machine.OnCourse (image : Image) (config : Config) (is : List Instruction)
    (m : Machine) : Prop where
  intact : m.Intact image config
  pc : Listing.Known image.codeOffset is m.pc
  back : Listing.Known image.codeOffset is (m.get Register.returnAddress)

namespace Machine.OnCourse

variable {image : Image} {config : Config} {m n : Machine} {is : List Instruction}

/-- The instruction a machine fetches is at its address in the code. -/
theorem tail_of_fetch (course : m.OnCourse image config is)
    (code : image.code = is.flatMap Instruction.encode) (restricted : config.restrictExecution = true)
    {i : Instruction} (fetched : m.fetch m.pc = .ok i) :
    ∃ rest, Tail image.codeOffset is m.pc.toNat (i :: rest) := by
  obtain ⟨_, entered⟩ := course.intact.fetch_iff.mp fetched
  exact course.intact.tail_of_fetch code (course.pc.boundary (entered restricted)) fetched

/-- A machine on course has an instruction to execute, or has left the code. -/
theorem fetch_error (course : m.OnCourse image config is)
    (code : image.code = is.flatMap Instruction.encode) (restricted : config.restrictExecution = true)
    {fault : Fault} (failed : m.fetch m.pc = .error fault) : fault.isDecoding = false := by
  obtain ⟨static, size⟩ := Layout.ofImage_ok course.intact.layout
  cases inside : (m.layout.executable m.config.restrictExecution).contains m.pc.toNat with
  | false =>
    simp only [fetch, inside, Bool.false_eq_true, if_false] at failed
    cases failed
    rfl
  | true =>
    -- Inside of the code a known address is a split, and not the last one.
    rw [course.intact.config_eq] at inside
    simp only [Segment.contains, Layout.executable, restricted, if_true, static, size,
      Bool.and_eq_true, decide_eq_true_eq] at inside
    obtain ⟨rest, tail⟩ := course.pc.boundary inside.1
    cases rest with
    | nil =>
      have stop := tail.le.2
      rw [Image.length_payload, code, Listing.length_flatMap_encode] at inside
      simp only [Listing.span_nil, Image.codeOffset] at stop
      omega
    | cons i rest =>
      rw [course.intact.fetch_tail code tail] at failed
      cases failed

theorem ofImage (is : List Instruction)
    (built : Machine.ofImage image config = .ok m) : m.OnCourse image config is := by
  have intact := Intact.ofImage built
  have fresh : m.get Register.returnAddress = 0 := by
    unfold Machine.ofImage at built
    split at built
    · cases built
    · cases built
      rfl
  refine ⟨intact, Or.inl ?_, Or.inr fresh⟩
  rw [Intact.pc_ofImage built]
  exact ⟨is, Tail.first _ _⟩

/-- Every step of a machine on course keeps it there. -/
theorem next (course : m.OnCourse image config is)
    (code : image.code = is.flatMap Instruction.encode)
    (closed : Listing.Closed image.codeOffset is) (readonly : config.readonlyProgram = true)
    (restricted : config.restrictExecution = true) (running : m.isHalted = false)
    (h : m.next = .ok n) : n.OnCourse image config is := by
  have intact := course.intact.next readonly running h
  obtain ⟨i, e, fetched, effected, rfl⟩ := next_ok running h
  obtain ⟨rest, tail⟩ := course.tail_of_fetch code restricted fetched
  refine ⟨intact, ?_, ?_⟩
  · rcases pc_after_cases effected (closed.pc i tail.mem) with behind | ⟨_, here⟩ | aimed | ⟨_, back⟩
    · rw [behind]
      exact Or.inl (Intact.boundary_next code tail)
    · rw [here]
      exact course.pc
    · exact Or.inl (closed.target i tail.mem _ aimed)
    · rw [back]
      exact course.back
  · rw [get_after m i e (by decide)]
    by_cases call : i.opcode = .call
    · rw [returnAddress_of_call effected call]
      exact Or.inl (Intact.boundary_next code tail)
    · rw [get_applyAll_of_within (within_effect effected) (closed.back i tail.mem)
        (i.opcode.not_mem_writes.2 call)]
      exact course.back

/-- A step of a machine on course fails only for reasons of the instruction, or
outside of the code. -/
theorem step_error (course : m.OnCourse image config is)
    (code : image.code = is.flatMap Instruction.encode) (restricted : config.restrictExecution = true)
    {fault : Fault} (failed : m.step.1 = .error fault) : fault.isDecoding = false := by
  have failed : m.next = .error fault := by
    rw [step_eq] at failed
    cases one : m.next with
    | ok n => simp [one] at failed
    | error cause =>
      simp only [one, Except.error.injEq] at failed
      rw [failed]
  unfold Machine.next at failed
  split at failed
  · cases failed
  · rcases Result.bind_eq_error.mp failed with failed | ⟨i, _, failed⟩
    · exact course.fetch_error code restricted failed
    · exact Fault.isDecoding_of_inExecution (effect_error (Result.map_eq_error.mp failed))

end Machine.OnCourse

namespace Chunk

/-- A jump or a call goes to a label, and no other instruction writes the program
counter or the return address. -/
def Disciplined (c : Chunk) : Prop :=
  ∀ i ∈ c.instruction?,
    (i.opcode.takesLabel = true → c.relocation.isSome = true) ∧
      i.destination? ≠ some .pc ∧ i.destination? ≠ some Register.returnAddress

instance (c : Chunk) : Decidable c.Disciplined :=
  inferInstanceAs (Decidable (∀ i ∈ c.instruction?, _))

end Chunk

/-- Every instruction of the source keeps to labels and to its own registers. -/
def Assembly.Disciplined (a : Assembly) : Prop := ∀ s ∈ a.sections, ∀ c ∈ s.body, c.Disciplined

instance (a : Assembly) : Decidable a.Disciplined :=
  inferInstanceAs (Decidable (∀ s ∈ a.sections, ∀ c ∈ s.body, c.Disciplined))

theorem Instruction.destination?_of_takesLabel {i : Instruction}
    (takes : i.opcode.takesLabel = true) : i.destination? = none := by
  cases i using Instruction.byOpcode with
  | jump condition target => rfl
  | call target => rfl
  | _ => cases takes

/-- Linking closes the code of a disciplined assembly. -/
theorem Listing.closed_of_linked {sections : List (Section Chunk)} {base : Nat}
    {is : List Instruction} (sound : ∀ s ∈ sections, ∀ c ∈ s.body, c.Sound)
    (disciplined : ∀ s ∈ sections, ∀ c ∈ s.body, c.Disciplined)
    (linked : (sections.flatMap Section.body).map
      (Chunk.linked? ((Section.addresses base sections).lookup ·)) = is.map some)
    (fits : base + span is ≤ maxPayload) : Closed base is := by
  have each : ∀ i ∈ is, (∀ t ∈ i.target?, Boundary base is t.toNat) ∧
      i.destination? ≠ some .pc ∧ i.destination? ≠ some Register.returnAddress := by
    intro i hi
    have mem : some i ∈ is.map some := List.mem_map_of_mem hi
    rw [← linked] at mem
    obtain ⟨c, hc, placed⟩ := List.mem_map.mp mem
    obtain ⟨s, hs, hc⟩ := List.mem_flatMap.mp hc
    rcases (sound s hs c hc).linked_cases placed with
      ⟨plain, single, _⟩ | ⟨j, label, address, rfl, takes, found, rfl⟩
    · obtain ⟨labelled, registers⟩ := disciplined s hs c hc i single
      refine ⟨fun t ht => ?_, registers⟩
      have absent := labelled (Instruction.target?_eq_some.mp ht).2
      rw [plain] at absent
      cases absent
    · have takes : (j.withTarget address).opcode.takesLabel = true := by
        rw [Instruction.opcode_withTarget]
        exact takes
      rw [Instruction.destination?_of_takesLabel takes, Instruction.target?_withTarget]
      refine ⟨?_, nofun, nofun⟩
      intro t ht
      obtain ⟨_, _, rfl⟩ := Option.map_eq_some_iff.mp ht
      obtain ⟨before, after, table, _⟩ := List.lookup_eq_some_iff.mp found
      have mem : (label, address) ∈ Section.addresses base sections := by
        rw [table]
        exact List.mem_append_right before List.mem_cons_self
      exact Section.boundary_addresses sound linked fits mem
  exact ⟨fun i hi => (each i hi).1, fun i hi => (each i hi).2.1, fun i hi => (each i hi).2.2⟩

namespace Machine

variable {source : String} {assembly : Assembly} {bytes : List UInt8} {image : Image}
  {config : Config} {start : Machine}

/-- The code of an assembled image is that of its linked instructions. -/
theorem linked_of_assembled (parsed : Assembly.ofSource source = .ok assembly)
    (assembled : assemble source = .ok bytes) (loaded : Image.ofBytes bytes = .ok image) :
    ∃ is, image.code = is.flatMap Instruction.encode ∧
      (assembly.sections.flatMap Section.body).map (Chunk.linked?
        ((Section.addresses image.codeOffset assembly.sections).lookup ·)) = is.map some ∧
      image.codeOffset + Listing.span is ≤ maxPayload := by
  simp only [assemble, parsed] at assembled
  split at assembled
  · cases assembled
  · next program linked =>
    cases assembled
    obtain ⟨is, filled, fits, rfl⟩ :=
      (LinkedProgram.link_eq_ok (Assembly.sound_ofSource parsed)).mp linked
    have small := fits
    rw [← Listing.length_flatMap_encode] at small
    rw [LinkedProgram.ofBytes_toBytes _ small] at loaded
    cases loaded
    exact ⟨is, rfl, filled, fits⟩

/-- The code of an assembled image is closed when the source is disciplined. -/
theorem closed_of_assembled (parsed : Assembly.ofSource source = .ok assembly)
    (disciplined : assembly.Disciplined) (assembled : assemble source = .ok bytes)
    (loaded : Image.ofBytes bytes = .ok image) :
    ∃ is, image.code = is.flatMap Instruction.encode ∧ Listing.Closed image.codeOffset is := by
  obtain ⟨is, code, linked, fits⟩ := linked_of_assembled parsed assembled loaded
  exact ⟨is, code,
    Listing.closed_of_linked (Assembly.sound_ofSource parsed) disciplined linked fits⟩

/-- However long the program of a disciplined source runs, it is at an instruction
of its listing, at the end of the code or at 0; it executes what the listing has
at its address, and never fails to decode. -/
theorem control_flow_integrity (parsed : Assembly.ofSource source = .ok assembly)
    (disciplined : assembly.Disciplined) (assembled : assemble source = .ok bytes)
    (loaded : Image.ofBytes bytes = .ok image) (built : Machine.ofImage image config = .ok start)
    (readonly : config.readonlyProgram = true) (restricted : config.restrictExecution = true) :
    ∃ listing, Listing.ofImage image = .ok listing ∧
      ∀ steps m, m = (start.run steps).2 →
        (m.pc.toNat ∈ listing.instructions.map Prod.fst ∨ m.pc.toNat = listing.stop ∨ m.pc = 0) ∧
        (∀ i, m.Executes i → listing.instructions.lookup m.pc.toNat = some i) ∧
        ∀ fault, m.step.1 = .error fault → fault.isDecoding = false := by
  obtain ⟨is, code, closed⟩ := closed_of_assembled parsed disciplined assembled loaded
  refine ⟨_, Listing.ofImage_of_code code, ?_⟩
  rintro steps m rfl
  have course : (start.run steps).2.OnCourse image config is := by
    obtain ⟨k, n, taken, ⟨ended, _⟩ | ⟨fault, ended, _⟩⟩ := run_cases start steps
    all_goals
      rw [ended]
      refine taken.keeps ?_ (OnCourse.ofImage is built)
      intro m n course running h
      exact course.next code closed readonly restricted running h
  refine ⟨?_, ?_, ?_⟩
  · rcases course.pc with boundary | zero
    · rw [code, Listing.length_flatMap_encode]
      exact (Listing.boundary_iff.mp boundary).imp_right Or.inl
    · exact Or.inr (Or.inr zero)
  · rintro i ⟨_, fetched⟩
    obtain ⟨rest, tail⟩ := course.tail_of_fetch code restricted fetched
    exact tail.lookup
  · intro fault failed
    exact course.step_error code restricted failed

/-- A call and its return never leave the three instructions of their program. -/
theorem call_control_flow :
    ∃ image start listing, assemble "CALL F\nHALT\nF:\nRET" = .ok image.toBytes ∧
      Machine.ofImage image ⟨16, 4, true, true⟩ = .ok start ∧
      Listing.ofImage image = .ok listing ∧
      ∀ steps, let m := (start.run steps).2
        (m.pc.toNat ∈ listing.instructions.map Prod.fst ∨ m.pc.toNat = listing.stop ∨ m.pc = 0) ∧
        ∀ fault, m.step.1 = .error fault → fault.isDecoding = false := by
  let call : Chunk := .toLabel ⟨.call, .imm 0, rfl⟩ "F"
  let halt : Chunk := .ofInstruction ⟨.halt, .none, rfl⟩
  let ret : Chunk := .ofInstruction ⟨.ret, .none, rfl⟩
  let assembly : Assembly := ⟨⟨[]⟩, [⟨"_START", [call, halt]⟩, ⟨"F", [ret]⟩]⟩
  let image : Image := ⟨some 0, [], [0x27, 4, 0, 1, 2], fun _ => rfl, by decide⟩
  have parsed : Assembly.ofSource "CALL F\nHALT\nF:\nRET" = .ok assembly :=
    Result.eq_ok_of_toOption (by decide +kernel)
  have disciplined : assembly.Disciplined := by decide +kernel
  have assembled : assemble "CALL F\nHALT\nF:\nRET" = .ok image.toBytes :=
    Result.eq_ok_of_toOption (by decide +kernel)
  have loaded : Image.ofBytes image.toBytes = .ok image :=
    Result.eq_ok_of_toOption (by decide +kernel)
  obtain ⟨start, built⟩ : ∃ start, Machine.ofImage image ⟨16, 4, true, true⟩ = .ok start :=
    ⟨_, rfl⟩
  obtain ⟨listing, listed, holds⟩ :=
    control_flow_integrity parsed disciplined assembled loaded built rfl rfl
  refine ⟨image, start, listing, assembled, built, listed, fun steps => ?_⟩
  exact ⟨(holds steps _ rfl).1, (holds steps _ rfl).2.2⟩

end Machine

end WordMachine
