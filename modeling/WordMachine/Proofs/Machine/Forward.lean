import Mathlib.Data.List.Perm.Subperm
import WordMachine.Proofs.Assembly.Layout
import WordMachine.Proofs.Machine.Composition
import WordMachine.Proofs.Machine.ControlFlow

/-! Programs that only go forward. When every label names a section that is linked
behind the one that refers to it, and nothing but such jumps and calls moves the
program counter, a step leads to a higher address or halts the machine. So a run
ends, and no instruction is executed twice. -/
namespace WordMachine

open Listing (Boundary Tail)

/-- The instruction that an event shows, with its address. -/
def Event.executed? : Event → Option (Nat × Instruction)
  | instruction pc i => some (pc.toNat, i)
  | _ => none

/-- The instructions that events show, the one that faulted among them. -/
def executed (events : List Event) : List (Nat × Instruction) :=
  events.filterMap Event.executed?

theorem length_executed (events : List Event) :
    (executed events).length = events.countP Event.isInstruction := by
  have same : (fun event => (Event.executed? event).isSome) = Event.isInstruction := by
    funext event
    cases event <;> rfl
  rw [executed, List.length_filterMap_eq_countP, same]

theorem executed_nil : executed [] = [] := rfl

theorem executed_append (first later : List Event) :
    executed (first ++ later) = executed first ++ executed later := List.filterMap_append ..

/-- A step shows one instruction if it fetches one. -/
theorem Machine.executed_stepEvents {m : Machine} (running : m.isHalted = false) :
    executed m.stepEvents =
      match m.fetch m.pc with
      | .error _ => []
      | .ok i => [(m.pc.toNat, i)] := by
  simp only [stepEvents, running, Bool.false_eq_true, if_false]
  cases m.fetch m.pc with
  | error fault => rfl
  | ok i =>
    cases effected : m.effect m.pc i with
    | error fault => simp [executed, Event.executed?, effected]
    | ok e =>
      have others : executed (e.changes.map Change.event) = [] := by
        rw [← List.length_eq_zero_iff, length_executed, countP_changes effected]
      simp only [effected, executed, List.filterMap_cons, Event.executed?] at others ⊢
      rw [others]

/-- Code that only goes forward: its jumps and calls lead to higher addresses where
it splits, and nothing else moves the program counter. -/
def Listing.Forward (start : Nat) (is : List Instruction) : Prop :=
  ∀ k i rest, Tail start is k (i :: rest) →
    (∀ t ∈ i.target?, k < t.toNat ∧ Boundary start is t.toNat) ∧
      i.destination? ≠ some .pc ∧ i.opcode ≠ .ret

/-- A machine that is where its code splits into instructions. -/
structure Machine.InCode (image : Image) (config : Config) (is : List Instruction)
    (m : Machine) : Prop where
  intact : m.Intact image config
  pc : Boundary image.codeOffset is m.pc.toNat

namespace Machine.InCode

variable {image : Image} {config : Config} {m n : Machine} {is : List Instruction}

theorem ofImage (is : List Instruction) (built : Machine.ofImage image config = .ok m) :
    m.InCode image config is := by
  refine ⟨Intact.ofImage built, ?_⟩
  rw [Intact.pc_ofImage built]
  exact ⟨is, Tail.first _ _⟩

section Forward

variable (code : image.code = is.flatMap Instruction.encode)
  (forward : Listing.Forward image.codeOffset is) (readonly : config.readonlyProgram = true)

include code

/-- A step executes the instruction at the program counter and no other. -/
theorem executed_step (inCode : m.InCode image config is) (running : m.isHalted = false) :
    (∀ p ∈ executed m.stepEvents, p.1 = m.pc.toNat ∧ p ∈ Listing.place image.codeOffset is) ∧
      ((executed m.stepEvents).map Prod.fst).Pairwise (· < ·) := by
  rw [executed_stepEvents running]
  cases fetched : m.fetch m.pc with
  | error fault => exact ⟨fun p hp => absurd hp List.not_mem_nil, .nil⟩
  | ok i =>
    obtain ⟨rest, tail⟩ := inCode.intact.tail_of_fetch code inCode.pc fetched
    refine ⟨fun p hp => ?_, List.pairwise_singleton _ _⟩
    obtain rfl := List.mem_singleton.mp hp
    exact ⟨rfl, tail.mem_place⟩

include forward readonly

/-- A step in forward code leads to a higher address, or halts the machine. -/
theorem next (inCode : m.InCode image config is) (running : m.isHalted = false)
    (h : m.next = .ok n) :
    n.InCode image config is ∧ (n.isHalted = true ∨ m.pc.toNat < n.pc.toNat) := by
  have intact := inCode.intact.next readonly running h
  obtain ⟨i, e, fetched, effected, rfl⟩ := next_ok running h
  obtain ⟨rest, tail⟩ := inCode.intact.tail_of_fetch code inCode.pc fetched
  obtain ⟨onward, apart, proceeds⟩ := forward _ i rest tail
  rcases pc_after_cases effected apart with behind | ⟨stop, here⟩ | aimed | ⟨returns, _⟩
  · have sized := i.size_pos
    refine ⟨⟨intact, ?_⟩, Or.inr ?_⟩
    · rw [behind]
      exact Intact.boundary_next code tail
    · rw [behind, Intact.toNat_pc_add code tail]
      omega
  · refine ⟨⟨intact, here ▸ inCode.pc⟩, Or.inl ?_⟩
    rw [isHalted_iff, status_after, (follows_effect effected).stop stop]
  · obtain ⟨above, boundary⟩ := onward _ aimed
    exact ⟨⟨intact, boundary⟩, Or.inr above⟩
  · exact absurd returns proceeds

/-- A run executes instructions of the code from the program counter on, each at a
higher address than the one before. -/
theorem executed_run (inCode : m.InCode image config is) (limit : Nat) :
    (∀ p ∈ executed (m.runEvents limit),
      m.pc.toNat ≤ p.1 ∧ p ∈ Listing.place image.codeOffset is) ∧
      ((executed (m.runEvents limit)).map Prod.fst).Pairwise (· < ·) := by
  induction limit generalizing m with
  | zero =>
    rw [runEvents, executed_nil]
    exact ⟨fun p hp => absurd hp List.not_mem_nil, .nil⟩
  | succ limit ih =>
    cases halted : m.isHalted with
    | true =>
      rw [runEvents_of_halted halted, executed_nil]
      exact ⟨fun p hp => absurd hp List.not_mem_nil, .nil⟩
    | false =>
      obtain ⟨one, alone⟩ := inCode.executed_step code halted
      cases next : m.next with
      | error fault =>
        rw [runEvents_of_next_error halted next]
        exact ⟨fun p hp => ⟨Nat.le_of_eq (one p hp).1.symm, (one p hp).2⟩, alone⟩
      | ok n =>
        obtain ⟨there, leads⟩ := inCode.next code forward readonly halted next
        obtain ⟨later, increasing⟩ := ih there
        -- A machine that has halted executes nothing more.
        have beyond : ∀ p ∈ executed (n.runEvents limit), m.pc.toNat < p.1 := by
          intro p hp
          rcases leads with stopped | above
          · rw [runEvents_of_halted stopped, executed_nil] at hp
            exact absurd hp List.not_mem_nil
          · exact Nat.lt_of_lt_of_le above (later p hp).1
        rw [runEvents_of_next halted next, executed_append]
        constructor
        · intro p hp
          rcases List.mem_append.mp hp with hp | hp
          · exact ⟨Nat.le_of_eq (one p hp).1.symm, (one p hp).2⟩
          · exact ⟨Nat.le_of_lt (beyond p hp), (later p hp).2⟩
        · rw [List.map_append, List.pairwise_append]
          refine ⟨alone, increasing, fun a ha b hb => ?_⟩
          obtain ⟨p, hp, rfl⟩ := List.mem_map.mp ha
          obtain ⟨q, hq, rfl⟩ := List.mem_map.mp hb
          rw [(one p hp).1]
          exact beyond q hq

/-- A run in forward code executes no more instructions than there are. -/
theorem length_executed_run (inCode : m.InCode image config is) (limit : Nat) :
    (executed (m.runEvents limit)).length ≤ is.length := by
  obtain ⟨listed, increasing⟩ := inCode.executed_run code forward readonly limit
  have once : (executed (m.runEvents limit)).Nodup :=
    increasing.of_map Prod.fst fun p q less same => Nat.ne_of_lt less (congrArg Prod.fst same)
  rw [← Listing.length_place image.codeOffset is]
  exact (once.subperm fun p hp => (listed p hp).2).length_le

/-- A run in forward code is over once it could have executed all of it. -/
theorem stops (inCode : m.InCode image config is) (live : m.Live) : m.Stops (is.length + 1) := by
  have few := inCode.length_executed_run code forward readonly (is.length + 1)
  have counted := (accounts_run live (is.length + 1)).count
  rw [← length_executed] at counted
  obtain ⟨k, n, steps, ⟨ended, _, last⟩ | ⟨fault, ended, _⟩⟩ := run_cases m (is.length + 1)
  · rcases last with whole | halted
    · have taken := steps.count
      rw [ended] at counted
      simp only at counted
      omega
    · exact Or.inl (by rw [ended]; exact halted)
  · exact Or.inr ⟨fault, by rw [ended]⟩

end Forward

end Machine.InCode

namespace Chunk

/-- A jump or a call goes to one of these labels; no instruction returns, and none
writes the program counter. -/
def Forward (labels : List String) (c : Chunk) : Prop :=
  ∀ i ∈ c.instruction?,
    (i.opcode.takesLabel = true → ∃ label ∈ labels, c.relocation.map Relocation.label = some label) ∧
      i.destination? ≠ some .pc ∧ i.opcode ≠ .ret

instance (labels : List String) (c : Chunk) : Decidable (c.Forward labels) :=
  inferInstanceAs (Decidable (∀ i ∈ c.instruction?, _))

theorem Forward.linked {addressOf : String → Option Word} {labels : List String} {c : Chunk}
    {i : Instruction} (forward : c.Forward labels) (sound : c.Sound)
    (linked : c.linked? addressOf = some i) :
    (∀ t ∈ i.target?, ∃ label ∈ labels, addressOf label = some t) ∧
      i.destination? ≠ some .pc ∧ i.opcode ≠ .ret := by
  rcases sound.linked_cases linked with
    ⟨plain, single, _⟩ | ⟨j, label, address, rfl, takes, found, rfl⟩
  · obtain ⟨labelled, registers⟩ := forward i single
    refine ⟨fun t ht => ?_, registers⟩
    obtain ⟨label, _, named⟩ := labelled (Instruction.target?_eq_some.mp ht).2
    rw [plain] at named
    cases named
  · obtain ⟨labelled, _, proceeds⟩ := forward j (instruction?_toLabel j label)
    have same := Instruction.opcode_withTarget j address
    have none : (j.withTarget address).destination? = none :=
      Instruction.destination?_of_takesLabel (by rw [same]; exact takes)
    refine ⟨fun t ht => ?_, by rw [none]; exact nofun, by rw [same]; exact proceeds⟩
    rw [Instruction.target?_withTarget] at ht
    obtain ⟨_, _, rfl⟩ := Option.map_eq_some_iff.mp ht
    obtain ⟨_, mem, ⟨⟩⟩ := labelled takes
    exact ⟨label, mem, found⟩

end Chunk

namespace Section

/-- The labels in every section name sections linked behind it. -/
def Forward : List (Section Chunk) → Prop
  | [] => True
  | s :: rest => (∀ c ∈ s.body, c.Forward (rest.map name)) ∧ Forward rest

instance decidableForward : (sections : List (Section Chunk)) → Decidable (Forward sections)
  | [] => .isTrue trivial
  | s :: rest =>
    @instDecidableAnd (∀ c ∈ s.body, c.Forward (rest.map name)) (Forward rest) _
      (decidableForward rest)

variable {addressOf : String → Option Word}

/-- Linking makes forward code of sections whose labels name sections behind them. -/
theorem Forward.linked {sections : List (Section Chunk)} {base : Nat} {is : List Instruction}
    (forward : Forward sections) (sound : ∀ s ∈ sections, ∀ c ∈ s.body, c.Sound)
    (table : ∀ e ∈ addresses base sections, addressOf e.1 = some e.2)
    (linked : (sections.flatMap body).map (Chunk.linked? addressOf) = is.map some)
    (fits : base + Listing.span is ≤ maxPayload) : Listing.Forward base is := by
  induction sections generalizing base is with
  | nil =>
    rw [List.map_eq_nil_iff.mp linked.symm]
    rintro k i rest ⟨done, split, _⟩
    simp at split
  | cons s later ih =>
    obtain ⟨own, behind⟩ := forward
    have parts := linked
    rw [List.flatMap_cons, List.map_append] at parts
    obtain ⟨first, others, rfl, linkedOwn, linkedOthers⟩ := List.map_eq_append_iff.mp parts.symm
    have soundLater : ∀ t ∈ later, ∀ c ∈ t.body, c.Sound :=
      fun t ht => sound t (List.mem_cons_of_mem s ht)
    have size : s.size = Listing.span first :=
      Chunk.sum_size_of_linked (sound s List.mem_cons_self) linkedOwn.symm
    have sizes : (later.map Section.size).sum = Listing.span others := by
      rw [← sum_size_flatMap]
      exact Chunk.sum_size_of_linked (List.forall_mem_flatMap.mpr soundLater) linkedOthers.symm
    have room := fits
    rw [Listing.span_append, ← Nat.add_assoc] at room
    have rest : Listing.Forward (base + Listing.span first) others := by
      refine ih behind soundLater (fun e he => ?_) linkedOthers.symm room
      rw [← size] at he
      exact table e (List.mem_cons_of_mem _ he)
    intro k i following tail
    rcases tail.append_cases with ⟨mem, inside⟩ | tail
    · -- A label of this section has an address behind all of it.
      have mem : some i ∈ first.map some := List.mem_map_of_mem mem
      rw [linkedOwn] at mem
      obtain ⟨c, hc, placed⟩ := List.mem_map.mp mem
      obtain ⟨targets, registers⟩ := (own c hc).linked (sound s List.mem_cons_self c hc) placed
      refine ⟨fun t ht => ?_, registers⟩
      obtain ⟨label, named, found⟩ := targets t ht
      rw [← map_fst_addresses (base + s.size)] at named
      obtain ⟨e, he, rfl⟩ := List.mem_map.mp named
      have listed : e ∈ addresses base (s :: later) := List.mem_cons_of_mem _ he
      have same : e.2 = t := Option.some.inj ((table e listed).symm.trans found)
      subst same
      refine ⟨?_, boundary_addresses sound linked fits listed⟩
      have above := (addresses_increase (by omega)).1 e he
      have sized := i.size_pos
      omega
    · obtain ⟨targets, registers⟩ := rest k i following tail
      refine ⟨fun t ht => ⟨(targets t ht).1, ?_⟩, registers⟩
      obtain ⟨after, there⟩ := (targets t ht).2
      exact ⟨after, there.behind⟩

end Section

/-- Jumps and calls go to labels of sections behind, and nothing else moves the
program counter. -/
def Assembly.Forward (a : Assembly) : Prop := Section.Forward a.sections

instance (a : Assembly) : Decidable a.Forward := Section.decidableForward a.sections

namespace Machine

variable {source : String} {assembly : Assembly} {bytes : List UInt8} {image : Image}
  {config : Config} {start : Machine}

theorem count_ofImage (built : Machine.ofImage image config = .ok start) : start.count = 0 := by
  unfold Machine.ofImage at built
  split at built
  · cases built
  · cases built
    rfl

theorem forward_of_assembled (parsed : Assembly.ofSource source = .ok assembly)
    (forward : assembly.Forward) (assembled : assemble source = .ok bytes)
    (loaded : Image.ofBytes bytes = .ok image) :
    ∃ is, image.code = is.flatMap Instruction.encode ∧ Listing.Forward image.codeOffset is := by
  obtain ⟨is, code, linked, fits⟩ := linked_of_assembled parsed assembled loaded
  refine ⟨is, code, forward.linked (Assembly.sound_ofSource parsed) ?_ linked fits⟩
  have once := (Assembly.names_ofSource parsed).1
  rw [← Section.map_fst_addresses image.codeOffset] at once
  exact fun e he => (Section.lookup_iff_mem once).mpr he

/-- The program of a source whose labels all lie ahead runs to a halt or a fault
when it cannot be overwritten, whether or not execution is restricted to code. It
executes instructions of its listing, each once at most and in their order. -/
theorem forward_terminates (parsed : Assembly.ofSource source = .ok assembly)
    (forward : assembly.Forward) (assembled : assemble source = .ok bytes)
    (loaded : Image.ofBytes bytes = .ok image) (built : Machine.ofImage image config = .ok start)
    (readonly : config.readonlyProgram = true) :
    ∃ listing reply final events, Listing.ofImage image = .ok listing ∧
      start.runToHalt = some (reply, final) ∧
      (final.isHalted = true ∨ ∃ fault, reply = .error fault) ∧
      (∀ (σ : Type) (watch : Observer σ) (record : σ),
        Exec.runToHalt watch ⟨start, record⟩ =
          some (Exec.conclude ⟨final, Exec.tell watch events record⟩ reply)) ∧
      (∀ p ∈ executed events, p ∈ listing.instructions) ∧
      ((executed events).map Prod.fst).Pairwise (· < ·) ∧
      final.count + unfinished reply = (executed events).length ∧
      (executed events).length ≤ listing.instructions.length := by
  obtain ⟨is, code, ahead⟩ := forward_of_assembled parsed forward assembled loaded
  have inCode := InCode.ofImage is built
  have stops := inCode.stops code ahead readonly (.built built)
  have counted := (accounts_run (.built built) (is.length + 1)).count
  rw [count_ofImage built, Nat.zero_add, ← length_executed] at counted
  obtain ⟨listed, increasing⟩ := inCode.executed_run code ahead readonly (is.length + 1)
  refine ⟨_, _, _, start.runEvents (is.length + 1), Listing.ofImage_of_code code,
    runToHalt_eq_some.mpr ⟨_, stops, rfl⟩, ?_, ?_, fun p hp => (listed p hp).2, increasing, ?_, ?_⟩
  · refine stops.imp_right ?_
    rintro ⟨fault, failed⟩
    exact ⟨fault, by rw [failed]; rfl⟩
  · intro σ watch record
    exact runToHalt_watched.mpr ⟨_, stops, rfl⟩
  · rw [uncounted, unfinished_map, counted]
  · rw [Listing.length_place]
    exact inCode.length_executed_run code ahead readonly (is.length + 1)

/-- A call and a jump pass an empty section and an instruction each. -/
theorem forward_terminates_call :
    ∃ image start listing reply final,
      assemble "CALL F\nNOOP\nE:\nF:\nJUMP G\nNOOP\nG:\nHALT" = .ok image.toBytes ∧
        Machine.ofImage image ⟨16, 4, true, true⟩ = .ok start ∧
        Listing.ofImage image = .ok listing ∧ start.runToHalt = some (reply, final) ∧
        listing.instructions.length = 5 ∧ final.count ≤ 5 := by
  let call : Chunk := .toLabel ⟨.call, .imm 0, rfl⟩ "F"
  let jump : Chunk := .toLabel ⟨.jump .always, .imm 0, rfl⟩ "G"
  let noop : Chunk := .ofInstruction ⟨.noop, .none, rfl⟩
  let halt : Chunk := .ofInstruction ⟨.halt, .none, rfl⟩
  let assembly : Assembly :=
    ⟨⟨[]⟩, [⟨"_START", [call, noop]⟩, ⟨"E", []⟩, ⟨"F", [jump, noop]⟩, ⟨"G", [halt]⟩]⟩
  let image : Image :=
    ⟨some 0, [], [0x27, 4, 0, 0, 0x20, 8, 0, 0, 1], fun _ => rfl, by decide⟩
  have parsed : Assembly.ofSource
      "CALL F\nNOOP\nE:\nF:\nJUMP G\nNOOP\nG:\nHALT" = .ok assembly :=
    Result.eq_ok_of_toOption (by decide +kernel)
  have forward : assembly.Forward := by decide +kernel
  have assembled : assemble
      "CALL F\nNOOP\nE:\nF:\nJUMP G\nNOOP\nG:\nHALT" = .ok image.toBytes :=
    Result.eq_ok_of_toOption (by decide +kernel)
  have loaded : Image.ofBytes image.toBytes = .ok image :=
    Result.eq_ok_of_toOption (by decide +kernel)
  obtain ⟨start, built⟩ : ∃ start, Machine.ofImage image ⟨16, 4, true, true⟩ = .ok start :=
    ⟨_, rfl⟩
  obtain ⟨listing, reply, final, events, listed, ended, _, _, _, _, counted, few⟩ :=
    forward_terminates parsed forward assembled loaded built rfl
  have five : listing.instructions.length = 5 := by
    have whole : (Listing.ofImage image).toOption.map (·.instructions.length) = some 5 := by
      decide +kernel
    rw [listed] at whole
    exact Option.some.inj whole
  exact ⟨image, start, listing, reply, final, assembled, built, listed, ended, five, by omega⟩

end Machine

end WordMachine
