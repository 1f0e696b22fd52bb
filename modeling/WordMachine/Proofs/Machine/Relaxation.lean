import WordMachine.Proofs.Machine.Safety

/-! Relaxed settings. A machine with more memory, a larger stack and fewer
restrictions goes the same way as one without, as long as the latter meets no
fault and no store of it is refused. Nothing the machine addresses depends on
the sizes that differ: the two memories agree up to zeros at the end. -/
namespace WordMachine

/-- The first configuration allows whatever the second does. -/
structure Config.Relaxes (wide narrow : Config) : Prop where
  memory : narrow.memorySize ≤ wide.memorySize
  stack : narrow.stackSize ≤ wide.stackSize
  readonly : wide.readonlyProgram = true → narrow.readonlyProgram = true
  restrict : wide.restrictExecution = true → narrow.restrictExecution = true

/-- The same program with no less room for the stack. -/
structure Layout.Relaxes (wide narrow : Layout) : Prop where
  static : wide.staticSize = narrow.staticSize
  program : wide.programSize = narrow.programSize
  stack : narrow.stackSize ≤ wide.stackSize

namespace Memory

variable {m n : Memory} {extra : Nat}

/-- The memory with zeros behind it. -/
def pad (m : Memory) (extra : Nat) : Memory := ⟨m.bytes ++ Array.replicate extra 0⟩

@[simp] theorem size_pad (m : Memory) (extra : Nat) : (m.pad extra).size = m.size + extra := by
  simp [pad, size]

theorem size_le_pad (m : Memory) (extra : Nat) : m.bytes.size ≤ (m.pad extra).bytes.size := by
  simp [pad]

theorem getElem_pad {i : Nat} (h : i < m.bytes.size) (wide : i < (m.pad extra).bytes.size) :
    (m.pad extra).bytes[i] = m.bytes[i] :=
  Array.getElem_append_left h

theorem segment_pad {s : Segment} (ordered : s.start ≤ s.stop) (inside : s.stop ≤ m.size) :
    (m.pad extra).segment s = m.segment s := by
  have length : m.bytes.toList.length = m.size := Array.length_toList
  rw [segment_eq, segment_eq, pad, Array.toList_append,
    List.drop_append_of_le_length (by omega), List.take_append_of_le_length]
  rw [List.length_drop]
  omega

theorem slice_pad {start stop : Nat} {bytes : List UInt8} (h : m.slice start stop = .ok bytes) :
    (m.pad extra).slice start stop = .ok bytes := by
  rw [slice] at h
  split at h
  · next bounds =>
    have inside : start ≤ stop ∧ stop ≤ (m.pad extra).size := by
      rw [size_pad]
      omega
    rw [slice, if_pos inside, segment_pad bounds.1 bounds.2, h]
  · cases h

theorem readWord_pad {address : Nat} {w : Word} (h : m.readWord address = .ok w) :
    (m.pad extra).readWord address = .ok w := by
  rw [readWord] at h
  split at h
  · next inside =>
    have wide := Nat.lt_of_lt_of_le inside (m.size_le_pad extra)
    rw [readWord, dif_pos wide, getElem_pad (Nat.lt_of_succ_lt inside), getElem_pad inside, h]
  · cases h

theorem setWord_pad {address : Nat} {w : Word} (inside : address + 1 < m.bytes.size)
    (wide : address + 1 < (m.pad extra).bytes.size) :
    (m.pad extra).setWord address w wide = (m.setWord address w inside).pad extra := by
  have first := Nat.lt_of_succ_lt inside
  simp [setWord, pad, first, inside]

theorem writeWord_pad {address : Nat} {w : Word} (h : m.writeWord address w = .ok n) :
    (m.pad extra).writeWord address w = .ok (n.pad extra) := by
  rw [writeWord] at h
  split at h
  · next inside =>
    have wide := Nat.lt_of_lt_of_le inside (m.size_le_pad extra)
    cases h
    rw [writeWord, dif_pos wide, setWord_pad inside]
  · cases h

/-- A larger memory is loaded with more zeros behind the program. -/
theorem load_pad {image : Image} {wide narrow : Layout}
    (program : wide.programSize = narrow.programSize)
    (memory : narrow.memorySize ≤ wide.memorySize) :
    load image wide = (load image narrow).pad (wide.memorySize - narrow.memorySize) := by
  have fits := narrow.fits
  have zeros : wide.memorySize - wide.programSize =
      narrow.memorySize - narrow.programSize + (wide.memorySize - narrow.memorySize) := by
    omega
  rw [load, load, pad, zeros, ← List.replicate_append_replicate, ← List.append_assoc]
  simp

end Memory

namespace Machine

/-- The machine with another layout and configuration and more memory. -/
def relax (m : Machine) (layout : Layout) (config : Config) (extra : Nat) : Machine :=
  { m with memory := m.memory.pad extra, layout, config }

section

variable {m : Machine} {layout : Layout} {config : Config} {extra : Nat}

/-- A machine fetches the same instruction from a larger region. -/
theorem fetch_relax (room : layout.Relaxes m.layout) (free : config.Relaxes m.config) {pc : Word}
    {i : Instruction} (h : m.fetch pc = .ok i) :
    (m.relax layout config extra).fetch pc = .ok i := by
  obtain ⟨⟨above, below⟩, window, sliced, decoded⟩ := fetch_eq_ok.mp h
  rw [← room.program] at below sliced
  rw [← room.static] at above
  exact fetch_eq_ok.mpr ⟨⟨fun restricted => above (free.restrict restricted), below⟩, window,
    Memory.slice_pad sliced, decoded⟩

theorem peek_relax (room : layout.Relaxes m.layout) {depth w : Word} (h : m.peek depth = .ok w) :
    (m.relax layout config extra).peek depth = .ok w := by
  obtain ⟨deep, low, read⟩ := peek_eq_ok.mp h
  have start : layout.stack.start = m.layout.stack.start := room.program
  rw [← start] at read
  exact peek_eq_ok.mpr ⟨deep, Nat.le_trans low room.stack, Memory.readWord_pad read⟩

theorem push_relax (room : layout.Relaxes m.layout) {w : Word} {changes : List Change}
    (h : m.push w = .ok changes) : (m.relax layout config extra).push w = .ok changes := by
  have start : layout.stack.start = m.layout.stack.start := room.program
  rw [push_eq_ok, ← start] at h
  obtain ⟨space, inside, same⟩ := h
  exact push_eq_ok.mpr ⟨Nat.le_trans space room.stack,
    Nat.lt_of_lt_of_le inside (m.memory.size_le_pad extra), same⟩

theorem load_relax {address w : Word} (h : m.load address = .ok w) :
    (m.relax layout config extra).load address = .ok w :=
  Memory.readWord_pad h

/-- A store that is not refused is not refused with fewer restrictions either. -/
theorem store_relax (room : layout.Relaxes m.layout) (free : config.Relaxes m.config)
    {address w : Word} {e : Effect} (h : m.store address w = .ok e)
    (accepted : ∀ a v, Change.refuse a v ∉ e.changes) :
    (m.relax layout config extra).store address w = .ok e := by
  obtain ⟨inside, ⟨_, _, rfl⟩ | ⟨clear, rfl⟩⟩ := store_ok h
  · exact absurd List.mem_cons_self (accepted address w)
  · have within : ¬(m.memory.pad extra).size < address.toNat + 2 := by
      rw [Memory.size_pad]
      omega
    have open_ : (config.readonlyProgram && layout.overlapsProgram address.toNat 2) = false := by
      cases readonly : config.readonlyProgram with
      | false => rfl
      | true =>
        have above := clear (free.readonly readonly)
        rw [Bool.true_and, Layout.overlapsProgram, room.program, Bool.and_eq_false_iff]
        exact Or.inl (decide_eq_false (by omega))
    simp only [store, relax, within, open_, if_false, Bool.false_eq_true]

/-- What an instruction does, it does with relaxed settings. -/
theorem effect_relax (room : layout.Relaxes m.layout) (free : config.Relaxes m.config) {pc : Word}
    {i : Instruction} {e : Effect} (h : m.effect pc i = .ok e)
    (accepted : ∀ a v, Change.refuse a v ∉ e.changes) :
    (m.relax layout config extra).effect pc i = .ok e := by
  cases i using Instruction.byOpcode with
  | dup =>
    simp only [effect, Result.map_eq_ok, Result.bind_eq_ok] at h ⊢
    obtain ⟨changes, ⟨top, peeked, pushed⟩, rfl⟩ := h
    exact ⟨changes, ⟨top, peek_relax room peeked, push_relax room pushed⟩, rfl⟩
  | compareTop =>
    simp only [effect, Result.map_eq_ok, Result.bind_eq_ok] at h ⊢
    obtain ⟨left, first, right, second, rfl⟩ := h
    exact ⟨left, peek_relax room first, right, peek_relax room second, rfl⟩
  | pushImm w =>
    simp only [effect, Result.map_eq_ok] at h ⊢
    obtain ⟨changes, pushed, rfl⟩ := h
    exact ⟨changes, push_relax room pushed, rfl⟩
  | push r =>
    simp only [effect, Result.map_eq_ok] at h ⊢
    obtain ⟨changes, pushed, rfl⟩ := h
    exact ⟨changes, push_relax room pushed, rfl⟩
  | pop r =>
    simp only [effect, Result.map_eq_ok] at h ⊢
    obtain ⟨w, peeked, rfl⟩ := h
    exact ⟨w, peek_relax room peeked, rfl⟩
  | moveRegMem r address =>
    simp only [effect, Result.map_eq_ok] at h ⊢
    obtain ⟨w, loaded, rfl⟩ := h
    exact ⟨w, load_relax loaded, rfl⟩
  | moveMemReg address r => exact store_relax room free h accepted
  | compareRegMem r address =>
    simp only [effect, Result.map_eq_ok] at h ⊢
    obtain ⟨w, loaded, rfl⟩ := h
    exact ⟨w, load_relax loaded, rfl⟩
  | compareMemReg address r =>
    simp only [effect, Result.map_eq_ok] at h ⊢
    obtain ⟨w, loaded, rfl⟩ := h
    exact ⟨w, load_relax loaded, rfl⟩
  -- The other operations read registers only, and those are the same.
  | _ => exact h

theorem relax_apply {c : Change}
    (inside : ∀ address ∈ c.address?, address + 1 < m.memory.bytes.size) :
    c.apply (m.relax layout config extra) = (c.apply m).relax layout config extra := by
  cases c with
  | memory address w =>
    have written : m.memory.writeWord address w =
        .ok (m.memory.setWord address w (inside address rfl)) := dif_pos _
    have padded := @Memory.writeWord_pad _ _ extra _ _ written
    simp only [Change.apply, relax, written, padded]
  | _ => rfl

/-- Changes that find memory for their words commute with relaxing. -/
theorem relax_applyAll {changes : List Change}
    (inside : ∀ c ∈ changes, ∀ address ∈ c.address?, address + 1 < m.memory.bytes.size) :
    (m.relax layout config extra).applyAll changes =
      (m.applyAll changes).relax layout config extra := by
  induction changes generalizing m with
  | nil => rfl
  | cons c rest ih =>
    have size := (SameSetting.change m c).size
    have first := @relax_apply m layout config extra c (inside c List.mem_cons_self)
    have rest := @ih (c.apply m) fun d hd address ha => by
      rw [← Memory.size, size]
      exact inside d (List.mem_cons_of_mem c hd) address ha
    rw [← first] at rest
    exact rest

theorem relax_after {i : Instruction} {e : Effect}
    (inside : ∀ c ∈ e.changes, ∀ address ∈ c.address?, address + 1 < m.memory.bytes.size) :
    (m.relax layout config extra).after i e = (m.after i e).relax layout config extra := by
  rw [after, after, relax_applyAll inside]
  cases e.flow <;> rfl

end

end Machine

/-- Keeps all events, the last one first. -/
def Observer.recorder : Observer (List Event) := fun event events => event :: events

def Event.isRefusal : Event → Bool
  | refusedWrite _ _ => true
  | _ => false

/-- No store was refused. -/
def Accepted (events : List Event) : Prop := ∀ e ∈ events, e.isRefusal = false

instance (events : List Event) : Decidable (Accepted events) :=
  inferInstanceAs (Decidable (∀ e ∈ events, e.isRefusal = false))

namespace Exec

open Machine

/-- So many steps one after the other, whether the machine has halted or not. -/
def steps {σ : Type} (watch : Observer σ) : (number : Nat) → Exec σ Unit
  | 0 => return ()
  | number + 1 => do
    let _ ← step watch
    steps watch number

theorem observe_recorder (changes : List Change) (events : List Event) :
    observe Observer.recorder changes events =
      (changes.map Change.event).reverse ++ events := by
  induction changes generalizing events with
  | nil => rfl
  | cons c rest ih =>
    rw [observe, List.foldl_cons, ← observe, ih, List.map_cons, List.reverse_cons,
      List.append_assoc]
    rfl

/-- What has been recorded stays recorded. -/
theorem step_grows {status : Status} {s t : Session (List Event)}
    (h : step Observer.recorder s = .ok status t) :
    SameSetting s.machine t.machine ∧ s.record ⊆ t.record := by
  rcases (step_eq_ok _).mp h with ⟨_, _, rfl⟩ | ⟨_, i, e, _, _, _, rfl⟩
  · exact ⟨.refl _, List.Subset.refl _⟩
  · refine ⟨.after _ i e, ?_⟩
    rw [observe_recorder]
    exact List.subset_append_of_subset_right _ (List.subset_cons_self _ _)

theorem steps_grows {number : Nat} {s t : Session (List Event)}
    (h : steps Observer.recorder number s = .ok () t) :
    SameSetting s.machine t.machine ∧ s.record ⊆ t.record := by
  induction number generalizing s with
  | zero =>
    cases h
    exact ⟨.refl _, List.Subset.refl _⟩
  | succ number ih =>
    rw [steps, bind_apply] at h
    cases first : step Observer.recorder s with
    | error fault u =>
      rw [first] at h
      cases h
    | ok status u =>
      rw [first] at h
      obtain ⟨same, grows⟩ := step_grows first
      obtain ⟨later, growsLater⟩ := ih h
      exact ⟨same.trans later, List.Subset.trans grows growsLater⟩

/-- The same session with relaxed settings. -/
def relax (s : Session (List Event)) (layout : Layout) (config : Config) (extra : Nat) :
    Session (List Event) :=
  ⟨s.machine.relax layout config extra, s.record⟩

variable {layout : Layout} {config : Config} {extra : Nat}

/-- A step that refuses no store is taken with relaxed settings as well. -/
theorem step_relax {s t : Session (List Event)} {status : Status}
    (room : layout.Relaxes s.machine.layout) (free : config.Relaxes s.machine.config)
    (h : step Observer.recorder s = .ok status t) (accepted : Accepted t.record) :
    step Observer.recorder (relax s layout config extra) =
      .ok status (relax t layout config extra) := by
  rcases (step_eq_ok _).mp h with
    ⟨halted, status, rfl⟩ | ⟨running, i, e, fetched, effected, status, rfl⟩
  · exact (step_eq_ok _).mpr (Or.inl ⟨halted, status, rfl⟩)
  · have unrefused : ∀ a v, Change.refuse a v ∉ e.changes := by
      intro a v mem
      have seen : (Change.refuse a v).event ∈ observe Observer.recorder e.changes
          (Observer.recorder (.instruction s.machine.pc i) s.record) := by
        rw [observe_recorder, List.mem_append, List.mem_reverse]
        exact Or.inl (List.mem_map_of_mem mem)
      exact Bool.noConfusion (accepted _ seen)
    have inside : ∀ c ∈ e.changes, ∀ address ∈ c.address?,
        address + 1 < s.machine.memory.bytes.size :=
      fun c hc address ha => ((within_effect effected).memory c hc address ha).1
    refine (step_eq_ok _).mpr (Or.inr ⟨running, i, e, fetch_relax room free fetched,
      effect_relax room free effected unrefused, ?_, ?_⟩)
    · rw [relax, relax_after inside]
      exact status
    · simp only [relax, relax_after inside]
      rfl

/-- Steps that refuse no store are taken with relaxed settings as well. -/
theorem steps_relax {number : Nat} {s t : Session (List Event)}
    (room : layout.Relaxes s.machine.layout) (free : config.Relaxes s.machine.config)
    (h : steps Observer.recorder number s = .ok () t) (accepted : Accepted t.record) :
    steps Observer.recorder number (relax s layout config extra) =
      .ok () (relax t layout config extra) := by
  induction number generalizing s with
  | zero =>
    cases h
    rfl
  | succ number ih =>
    rw [steps, bind_apply] at h ⊢
    cases first : step Observer.recorder s with
    | error fault u =>
      rw [first] at h
      cases h
    | ok status u =>
      rw [first] at h
      have same := (step_grows first).1
      have unrefused : Accepted u.record := fun e mem => accepted e ((steps_grows h).2 mem)
      rw [step_relax room free first unrefused]
      exact ih (by rw [same.layout]; exact room) (by rw [same.config]; exact free) h

end Exec

namespace Machine

variable {image : Image} {config config' : Config} {start start' m : Machine}

/-- Two machines built from one image differ in their settings and in the zeros
at the end of their memory. -/
theorem relax_ofImage (built : ofImage image config = .ok start)
    (built' : ofImage image config' = .ok start') (relaxes : config'.Relaxes config) :
    start' = start.relax start'.layout config' (config'.memorySize - config.memorySize) ∧
      start'.layout.Relaxes start.layout ∧ config'.Relaxes start.config ∧
      start.memory.size = config.memorySize := by
  unfold ofImage at built built'
  split at built
  · cases built
  · next narrow laid =>
    split at built'
    · cases built'
    · next wide laid' =>
      obtain ⟨static, program⟩ := Layout.ofImage_ok laid
      obtain ⟨static', program'⟩ := Layout.ofImage_ok laid'
      obtain ⟨stack, memory⟩ := Layout.ofImage_sizes laid
      obtain ⟨stack', memory'⟩ := Layout.ofImage_sizes laid'
      cases built
      cases built'
      have more := relaxes.memory
      have padded : Memory.load image wide =
          (Memory.load image narrow).pad (config'.memorySize - config.memorySize) := by
        rw [← memory, ← memory'] at more ⊢
        exact Memory.load_pad (program'.trans program.symm) more
      have room : wide.Relaxes narrow :=
        ⟨static'.trans static.symm, program'.trans program.symm, by
          rw [stack, stack']
          exact relaxes.stack⟩
      refine ⟨?_, room, relaxes, (Memory.size_load image config narrow laid).trans memory⟩
      simp only [relax, padded, static, static']

/-- Steps that meet no fault and no refusal are the same with more memory, a
larger stack and fewer restrictions. -/
theorem relaxed_steps (built : ofImage image config = .ok start)
    (built' : ofImage image config' = .ok start') (relaxes : config'.Relaxes config) {number : Nat}
    {events : List Event}
    (taken : Exec.steps Observer.recorder number ⟨start, []⟩ = .ok () ⟨m, events⟩)
    (accepted : Accepted events) :
    ∃ m', Exec.steps Observer.recorder number ⟨start', []⟩ = .ok () ⟨m', events⟩ ∧
      m'.registers = m.registers ∧ m'.status = m.status ∧ m'.count = m.count ∧
      m.memory.size = config.memorySize ∧
      m'.memory.bytes.toList = m.memory.bytes.toList ++
        List.replicate (config'.memorySize - config.memorySize) 0 := by
  obtain ⟨wide, room, free, size⟩ := relax_ofImage built built' relaxes
  have followed := @Exec.steps_relax _ _ (config'.memorySize - config.memorySize) number
    ⟨start, []⟩ ⟨m, events⟩ room free taken accepted
  have same := (Exec.steps_grows taken).1
  rw [Exec.relax, ← wide] at followed
  refine ⟨_, followed, rfl, rfl, rfl, same.size.trans size, ?_⟩
  simp [relax, Memory.pad]

/-- A program that pushes a word, stores one above its stack and halts does so in
the larger memory too. -/
theorem relaxed_steps_store :
    let image : Image := ⟨none, [], Instruction.encode ⟨.pushImm, .imm 0x1234, rfl⟩ ++
      Instruction.encode ⟨.moveMemReg, .memReg 14 .sp, rfl⟩ ++
      Instruction.encode ⟨.halt, .none, rfl⟩, fun _ => rfl, by decide⟩
    ∃ start start' m m' events,
      ofImage image ⟨16, 4, true, true⟩ = .ok start ∧
      ofImage image ⟨24, 8, false, false⟩ = .ok start' ∧
      Exec.steps Observer.recorder 5 ⟨start, []⟩ = .ok () ⟨m, events⟩ ∧
      Exec.steps Observer.recorder 5 ⟨start', []⟩ = .ok () ⟨m', events⟩ ∧
      m.isHalted = true ∧ m'.memory.bytes.toList = m.memory.bytes.toList ++ List.replicate 8 0 := by
  intro image
  obtain ⟨start, built⟩ : ∃ start, ofImage image ⟨16, 4, true, true⟩ = .ok start := ⟨_, rfl⟩
  obtain ⟨start', built'⟩ : ∃ start', ofImage image ⟨24, 8, false, false⟩ = .ok start' := ⟨_, rfl⟩
  have relaxes : Config.Relaxes ⟨24, 8, false, false⟩ ⟨16, 4, true, true⟩ :=
    ⟨by decide, by decide, nofun, nofun⟩
  have ends : (match Exec.steps Observer.recorder 5 ⟨start, []⟩ with
      | .ok _ t => t.machine.isHalted && decide (Accepted t.record)
      | .error _ _ => false) = true := by
    cases built
    decide +kernel
  cases taken : Exec.steps Observer.recorder 5 ⟨start, []⟩ with
  | error fault t =>
    rw [taken] at ends
    cases ends
  | ok _ t =>
    obtain ⟨m, events⟩ := t
    simp only [taken, Bool.and_eq_true, decide_eq_true_eq] at ends
    obtain ⟨halted, accepted⟩ := ends
    obtain ⟨m', followed, _, _, _, _, memory⟩ := relaxed_steps built built' relaxes taken accepted
    exact ⟨start, start', m, m', events, built, built', taken, followed, halted, memory⟩

end Machine

end WordMachine
