import WordMachine.Proofs.Instruction.Stream
import WordMachine.Proofs.Machine.Frame
import WordMachine.Proofs.Machine.Runs

/-! Integrity of the program. Stores go to the address an instruction names or
to the top of the stack: the first are refused when they touch a read-only
program, the second lie above it whatever the registers hold. So the program of
a machine stays the payload of its image, and what it executes is what the
payload says. -/
namespace WordMachine

theorem Layout.ofImage_ok {image : Image} {config : Config} {l : Layout}
    (h : Layout.ofImage image config = .ok l) :
    l.staticSize = image.codeOffset ∧ l.programSize = image.payload.length := by
  unfold Layout.ofImage at h
  split at h
  · cases h
  · split at h
    · cases h
      exact ⟨rfl, rfl⟩
    · cases h

theorem Layout.ofImage_sizes {image : Image} {config : Config} {l : Layout}
    (h : Layout.ofImage image config = .ok l) :
    l.stackSize = config.stackSize ∧ l.memorySize = config.memorySize := by
  unfold Layout.ofImage at h
  split at h
  · cases h
  · split at h
    · cases h
      exact ⟨rfl, rfl⟩
    · cases h

theorem Layout.contains_executable {l : Layout} {restrict : Bool} {address : Nat} :
    (l.executable restrict).contains address = true ↔
      (restrict = true → l.staticSize ≤ address) ∧ address < l.programSize := by
  rw [Segment.contains, Layout.executable, Bool.and_eq_true, decide_eq_true_eq, decide_eq_true_eq]
  cases restrict <;> simp

namespace Memory

theorem segment_eq (m : Memory) (s : Segment) :
    m.segment s = (m.bytes.toList.drop s.start).take (s.stop - s.start) := by
  simp only [segment, Array.toList_extract, List.extract_eq_take_drop]

/-- The two bytes of a word in memory. -/
theorem segment_word {m : Memory} {address : Nat} (low : address < m.bytes.size)
    (inside : address + 1 < m.bytes.size) :
    m.segment ⟨address, address + 2⟩ = [m.bytes[address], m.bytes[address + 1]] := by
  rw [segment_eq, Nat.add_sub_cancel_left,
    List.drop_eq_getElem_cons (by simpa using low),
    List.drop_eq_getElem_cons (by simpa using inside)]
  rfl

/-- A store leaves the bytes outside of its word as they are. -/
theorem getElem?_writeWord {m n : Memory} {address k : Nat} {w : Word}
    (h : m.writeWord address w = .ok n) (outside : k < address ∨ address + 2 ≤ k) :
    n.bytes[k]? = m.bytes[k]? := by
  unfold writeWord at h
  split at h
  · cases h
    have apart : address ≠ k ∧ address + 1 ≠ k := by omega
    rw [setWord, Array.getElem?_set_ne _ apart.2, Array.getElem?_set_ne _ apart.1]
  · cases h

theorem segment_writeWord {m n : Memory} {s : Segment} {address : Nat} {w : Word}
    (h : m.writeWord address w = .ok n) (apart : s.stop ≤ address ∨ address + 2 ≤ s.start) :
    n.segment s = m.segment s := by
  simp only [segment_eq]
  apply List.ext_getElem?
  intro k
  simp only [List.getElem?_take, List.getElem?_drop, Array.getElem?_toList]
  by_cases inside : k < s.stop - s.start
  · simp only [inside, if_true]
    exact getElem?_writeWord h (by omega)
  · simp only [inside, if_false]

/-- The program is loaded at address 0. -/
theorem segment_load (image : Image) (layout : Layout)
    (size : layout.programSize = image.payload.length) :
    (load image layout).segment layout.program = image.payload := by
  simp [segment_eq, load, Layout.program, size]

end Memory

/-- A machine fetches what decodes from its memory inside the executable region. -/
theorem Machine.fetch_eq_ok {m : Machine} {pc : Word} {i : Instruction} :
    m.fetch pc = .ok i ↔
      ((m.config.restrictExecution = true → m.layout.staticSize ≤ pc.toNat) ∧
          pc.toNat < m.layout.programSize) ∧
        ∃ window, m.memory.slice pc.toNat
            (min (pc.toNat + Instruction.maxSize) m.layout.programSize) = .ok window ∧
          Instruction.decode window = .ok i := by
  rw [← Layout.contains_executable, fetch]
  by_cases inside : (m.layout.executable m.config.restrictExecution).contains pc.toNat = true
  · rw [if_pos inside, and_iff_right inside]
    simp only [Layout.executable]
    cases m.memory.slice pc.toNat (min (pc.toNat + Instruction.maxSize) m.layout.programSize) with
    | error fault => simp
    | ok window => simp [Result.mapError_eq_ok]
  · rw [if_neg inside]
    exact ⟨nofun, fun h => absurd h.1 inside⟩

/-- The bytes a machine decodes at an address are those of its program. -/
theorem Machine.slice_program {m : Machine} (sized : m.memory.size = m.layout.memorySize) {pc : Nat}
    (inside : pc ≤ m.layout.programSize) :
    m.memory.slice pc (min (pc + Instruction.maxSize) m.layout.programSize) =
      .ok ((m.program.drop pc).take Instruction.maxSize) := by
  have fits := m.layout.fits
  have bounds : pc ≤ min (pc + Instruction.maxSize) m.layout.programSize ∧
      min (pc + Instruction.maxSize) m.layout.programSize ≤ m.memory.size := by
    omega
  have program : m.program = m.memory.bytes.toList.take m.layout.programSize := by
    simp only [Machine.program, Memory.segment_eq, Layout.program, List.drop_zero, Nat.sub_zero]
  simp only [Memory.slice, bounds, and_self, if_true, Memory.segment_eq]
  rw [program, List.drop_take, List.take_take]
  congr 2
  omega

/-- What a machine fetches is what its program holds at the address. -/
theorem Machine.decode_of_fetch {m : Machine} (sized : m.memory.size = m.layout.memorySize)
    {pc : Word} {i : Instruction} (fetched : m.fetch pc = .ok i) :
    Instruction.decode (m.program.drop pc.toNat) = .ok i := by
  obtain ⟨⟨_, inside⟩, window, sliced, decoded⟩ := fetch_eq_ok.mp fetched
  rw [slice_program sized (Nat.le_of_lt inside)] at sliced
  cases sliced
  exact Instruction.decode_take_iff.mp decoded

/-- The second machine has the program of the first, in the same place. -/
structure Machine.SameProgram (m n : Machine) : Prop where
  layout : n.layout = m.layout
  config : n.config = m.config
  size : n.memory.size = m.memory.size
  program : n.program = m.program

namespace Machine.SameProgram

variable {m n o : Machine}

theorem refl (m : Machine) : SameProgram m m := ⟨rfl, rfl, rfl, rfl⟩

theorem trans (left : SameProgram m n) (right : SameProgram n o) : SameProgram m o :=
  ⟨right.layout.trans left.layout, right.config.trans left.config, right.size.trans left.size,
    right.program.trans left.program⟩

theorem change {c : Change} (clear : ∀ address ∈ c.address?, m.layout.programSize ≤ address) :
    SameProgram m (c.apply m) := by
  cases c with
  | register r w => exact ⟨rfl, rfl, rfl, rfl⟩
  | memory address w =>
    have above : m.layout.programSize ≤ address := clear address rfl
    cases h : m.memory.writeWord address w with
    | error fault =>
      simp only [Change.apply, h]
      exact refl m
    | ok written =>
      simp only [Change.apply, h]
      exact ⟨rfl, rfl, Memory.size_writeWord h, Memory.segment_writeWord h (Or.inl above)⟩
  | flags left right f => exact ⟨rfl, rfl, rfl, rfl⟩
  | refuse address w => exact ⟨rfl, rfl, rfl, rfl⟩
  | halt pc => exact ⟨rfl, rfl, rfl, rfl⟩
  | notice event => exact refl m

theorem changes {changes : List Change}
    (clear : ∀ c ∈ changes, ∀ address ∈ c.address?, m.layout.programSize ≤ address) :
    SameProgram m (m.applyAll changes) := by
  induction changes generalizing m with
  | nil => exact refl m
  | cons c rest ih =>
    have first : SameProgram m (c.apply m) := change (clear c List.mem_cons_self)
    refine first.trans (ih fun d hd => ?_)
    rw [first.layout]
    exact clear d (List.mem_cons_of_mem c hd)

theorem follow (m : Machine) (i : Instruction) (flow : Flow) : SameProgram m (m.follow i flow) := by
  cases flow <;> exact ⟨rfl, rfl, rfl, rfl⟩

/-- No step of a machine with a read-only program touches it. -/
theorem next (readonly : m.config.readonlyProgram = true) (running : m.isHalted = false)
    (h : m.next = .ok n) : SameProgram m n := by
  obtain ⟨i, e, _, he, rfl⟩ := next_ok running h
  have changed : SameProgram m (m.applyAll e.changes) :=
    changes fun c hc address ha => ((within_effect he).memory c hc address ha).2 readonly
  exact (changed.trans (follow _ i e.flow)).trans ⟨rfl, rfl, rfl, rfl⟩

end Machine.SameProgram

/-- The machine was built from an image, and has its payload for a program. -/
structure Machine.Intact (image : Image) (config : Config) (m : Machine) : Prop where
  layout : Layout.ofImage image config = .ok m.layout
  config_eq : m.config = config
  size : m.memory.size = m.layout.memorySize
  program : m.program = image.payload

namespace Machine.Intact

variable {image : Image} {config : Config} {start m n : Machine}

theorem ofImage (built : Machine.ofImage image config = .ok m) : m.Intact image config := by
  unfold Machine.ofImage at built
  split at built
  · cases built
  · next layout h =>
    cases built
    exact ⟨h, rfl, Memory.size_load image config layout h,
      Memory.segment_load image layout (Layout.ofImage_ok h).2⟩

theorem transport (intact : m.Intact image config) (same : SameProgram m n) :
    n.Intact image config := by
  refine ⟨?_, ?_, ?_, ?_⟩
  · rw [same.layout]
    exact intact.layout
  · rw [same.config]
    exact intact.config_eq
  · rw [same.size, same.layout]
    exact intact.size
  · rw [same.program]
    exact intact.program

theorem next (intact : m.Intact image config) (readonly : config.readonlyProgram = true)
    (running : m.isHalted = false) (h : m.next = .ok n) : n.Intact image config :=
  intact.transport (SameProgram.next (by rw [intact.config_eq]; exact readonly) running h)

theorem reachable (built : Machine.ofImage image config = .ok start)
    (readonly : config.readonlyProgram = true) (reach : start.Reachable m) :
    m.Intact image config := by
  refine reach.keeps ?_ ?_ (ofImage built)
  · intro m n intact running h
    exact intact.next readonly running h
  · intro m r w intact
    exact intact.transport ⟨rfl, rfl, rfl, rfl⟩

/-- The bytes a machine decodes at an address are those of the payload. -/
theorem slice_payload (intact : m.Intact image config) {pc : Nat}
    (inside : pc < image.payload.length) :
    m.memory.slice pc (min (pc + Instruction.maxSize) m.layout.programSize) =
      .ok ((image.payload.drop pc).take Instruction.maxSize) := by
  have size := (Layout.ofImage_ok intact.layout).2
  rw [← intact.program]
  exact slice_program intact.size (by omega)

/-- What a machine fetches is what decodes from the payload. -/
theorem fetch_iff (intact : m.Intact image config) {pc : Word} {i : Instruction} :
    m.fetch pc = .ok i ↔
      Instruction.decode (image.payload.drop pc.toNat) = .ok i ∧
        (config.restrictExecution = true → image.codeOffset ≤ pc.toNat) := by
  obtain ⟨static, size⟩ := Layout.ofImage_ok intact.layout
  rw [fetch_eq_ok, intact.config_eq, static]
  constructor
  · rintro ⟨⟨above, inside⟩, window, sliced, decoded⟩
    rw [intact.slice_payload (size ▸ inside)] at sliced
    cases sliced
    exact ⟨Instruction.decode_take_iff.mp decoded, above⟩
  · rintro ⟨decoded, above⟩
    have inside : pc.toNat < image.payload.length := by
      refine Nat.lt_of_not_le fun past => ?_
      rw [List.drop_eq_nil_of_le past] at decoded
      cases decoded
    exact ⟨⟨above, size ▸ inside⟩, _, intact.slice_payload inside,
      Instruction.decode_take_iff.mpr decoded⟩

end Machine.Intact

namespace Machine

variable {image : Image} {config : Config} {start m n : Machine}

/-- The next step of the machine executes this instruction. -/
def Executes (m : Machine) (i : Instruction) : Prop := m.isHalted = false ∧ m.fetch m.pc = .ok i

theorem step_of_executes {i : Instruction} (h : m.Executes i) :
    m.step =
      match m.effect m.pc i with
      | .ok e => (.ok (m.after i e).status, m.after i e)
      | .error fault => (.error fault, m) := by
  obtain ⟨running, fetched⟩ := h
  rw [step_eq, next]
  simp only [running, Bool.false_eq_true, if_false, fetched, Except.bind]
  cases m.effect m.pc i <;> rfl

/-- A step that succeeds makes the effect of its instruction. -/
theorem effect_of_step {i : Instruction} (h : m.Executes i) {status : Status}
    (stepped : m.step = (.ok status, n)) : ∃ e, m.effect m.pc i = .ok e ∧ n = m.after i e := by
  rw [step_of_executes h] at stepped
  cases effected : m.effect m.pc i with
  | error fault => simp [effected] at stepped
  | ok e =>
    simp only [effected, Prod.mk.injEq] at stepped
    exact ⟨e, rfl, stepped.2.symm⟩

theorem step_error_iff {i : Instruction} (h : m.Executes i) {fault : Fault} :
    m.step.1 = .error fault ↔ m.effect m.pc i = .error fault := by
  rw [step_of_executes h]
  cases m.effect m.pc i <;> simp

theorem code_of_executes {i : Instruction} (h : m.Executes i) : 0 < m.layout.programSize :=
  Nat.zero_lt_of_lt (fetch_eq_ok.mp h.2).1.2

theorem executes_unique {i j : Instruction} (left : m.Executes i) (right : m.Executes j) : i = j :=
  Except.ok.inj (left.2.symm.trans right.2)

/-- The instruction a machine executes ends with the program or before. -/
theorem end_of_executes {i : Instruction} (executes : m.Executes i) :
    m.pc.toNat + i.size ≤ m.layout.programSize := by
  obtain ⟨⟨_, inside⟩, window, sliced, decoded⟩ := fetch_eq_ok.mp executes.2
  have short := Instruction.size_le_of_decode decoded
  rw [Memory.slice] at sliced
  split at sliced
  · cases sliced
    rw [Memory.segment_eq, List.length_take] at short
    simp only at short
    omega
  · cases sliced

/-- Whatever is done to a machine with a read-only program, it keeps the payload
of its image and executes what decodes from it, and nothing else. -/
theorem program_integrity (built : Machine.ofImage image config = .ok start)
    (readonly : config.readonlyProgram = true) (reach : start.Reachable m) :
    m.program = image.payload ∧
      (∀ i, m.Executes i ↔ m.isHalted = false ∧
        Instruction.decode (image.payload.drop m.pc.toNat) = .ok i ∧
          (config.restrictExecution = true → image.codeOffset ≤ m.pc.toNat)) ∧
      ∀ i, m.Executes i → m.pc.toNat + i.size ≤ image.payload.length := by
  have intact := Intact.reachable built readonly reach
  refine ⟨intact.program, fun i => and_congr_right fun _ => intact.fetch_iff, ?_⟩
  rintro i ⟨_, fetched⟩
  have short := Instruction.size_le_of_decode (intact.fetch_iff.mp fetched).1
  have sized := i.size_pos
  rw [List.length_drop] at short
  omega

/-- A program that stores into itself is stopped, and is as it was. -/
theorem self_store_integrity :
    let image : Image :=
      ⟨none, [], Instruction.encode ⟨.moveMemReg, .memReg 0 .r1, rfl⟩, fun _ => rfl, by decide⟩
    ∃ start, Machine.ofImage image ⟨8, 4, true, true⟩ = .ok start ∧
      start.step.1 = .ok .halted ∧ start.step.2.program = image.payload := by
  intro image
  obtain ⟨start, built⟩ : ∃ start, Machine.ofImage image ⟨8, 4, true, true⟩ = .ok start := ⟨_, rfl⟩
  have halts : start.step.1 = .ok .halted := by cases built; rfl
  have reach : start.Reachable start.step.2 :=
    .after .refl (show start.apply .step = some (_, start.step.2) from rfl)
  exact ⟨start, built, halts, (program_integrity built rfl reach).1⟩

end Machine

end WordMachine
