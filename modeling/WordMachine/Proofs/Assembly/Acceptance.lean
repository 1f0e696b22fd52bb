import WordMachine.Proofs.Assembly.Declaration
import WordMachine.Proofs.Assembly.Line
import WordMachine.Proofs.Assembly.Link
import WordMachine.Proofs.Assembly.Order

/-! Acceptance. A source is assembled when its declarations are in order, no name
is declared twice, every line compiles, everything fits and every label is a
name. When it is not, the fault is reported of the first of these that fails, in
that order, and in the first place where it fails. -/
namespace WordMachine

namespace Statement

/-- The lines compile to these chunks. -/
def Compiles (lines : List Line) (chunks : List Chunk) : Prop :=
  ∃ parts : List (List Chunk),
    lines.map (fun line => compile line.text) = parts.map .ok ∧ parts.flatten = chunks

/-- The first line that does not compile, and why. -/
def FirstFault (lines : List Line) (e : SyntaxError) : Prop :=
  ∃ before after chunks, lines = before ++ e.line :: after ∧ Compiles before chunks ∧
    compile e.line.text = .error e.fault

theorem mapM_compileLine {lines : List Line} {parts : List (List Chunk)} :
    lines.mapM compileLine = .ok parts ↔
      lines.map (fun line => compile line.text) = parts.map .ok := by
  rw [Result.mapM_eq_ok]
  induction lines generalizing parts with
  | nil => simp
  | cons line rest ih =>
    cases parts with
    | nil => exact ⟨nofun, nofun⟩
    | cons part parts =>
      simp only [List.map_cons, List.cons.injEq, ih, compileLine, Result.mapError_eq_ok]

theorem mapM_compileLine_flatten {lines : List Line} {chunks : List Chunk} :
    (lines.mapM compileLine).map List.flatten = .ok chunks ↔ Compiles lines chunks := by
  rw [Result.map_eq_ok]
  simp only [mapM_compileLine, Compiles]

theorem mapM_compileLine_error {lines : List Line} {e : SyntaxError} :
    lines.mapM compileLine = .error e ↔ FirstFault lines e := by
  rw [Result.mapM_eq_error]
  constructor
  · rintro ⟨before, line, after, rfl, ⟨parts, done⟩, failed⟩
    obtain ⟨fault, cause, rfl⟩ := Result.mapError_eq_error.mp failed
    exact ⟨before, after, _, rfl, ⟨parts, mapM_compileLine.mp done, rfl⟩, cause⟩
  · rintro ⟨before, after, chunks, rfl, ⟨parts, done, _⟩, failed⟩
    exact ⟨before, e.line, after, rfl, ⟨parts, mapM_compileLine.mpr done⟩,
      Result.mapError_eq_error.mpr ⟨e.fault, failed, rfl⟩⟩

end Statement

namespace Assembly

/-- Sections are compiled as their lines are, one after the other. -/
theorem mapM_compileSection (sections : List (Section Line)) :
    (sections.mapM compileSection).map (·.flatMap Section.body) =
      ((sections.flatMap Section.body).mapM Statement.compileLine).map List.flatten := by
  induction sections with
  | nil => rfl
  | cons s rest ih =>
    rw [List.mapM_cons, List.flatMap_cons, List.mapM_append, compileSection]
    cases s.body.mapM Statement.compileLine with
    | error e => rfl
    | ok parts =>
      cases compiled : rest.mapM compileSection with
      | error e =>
        rw [compiled] at ih
        have failed := Result.map_eq_error.mp ih.symm
        simp [bind, Except.bind, failed, Except.map]
      | ok others =>
        rw [compiled] at ih
        obtain ⟨more, done, same⟩ := Result.map_eq_ok.mp ih.symm
        simp [bind, Except.bind, done, Except.map, pure, Except.pure, same]

theorem mapM_compileSection_error {sections : List (Section Line)} {e : SyntaxError} :
    sections.mapM compileSection = .error e ↔
      Statement.FirstFault (sections.flatMap Section.body) e := by
  rw [← Statement.mapM_compileLine_error, ← Result.map_eq_error, mapM_compileSection,
    Result.map_eq_error]

theorem mapM_compileSection_ok {sections : List (Section Line)} {chunks : List Chunk} :
    (∃ compiled, sections.mapM compileSection = .ok compiled ∧
        compiled.flatMap Section.body = chunks) ↔
      Statement.Compiles (sections.flatMap Section.body) chunks := by
  rw [← Statement.mapM_compileLine_flatten, ← mapM_compileSection, Result.map_eq_ok]

end Assembly

/-- What keeps items and chunks from being linked: their size, or else the first
label that is none of the names. -/
inductive Unlinkable (names : List String) (items : List (String × List UInt8))
    (chunks : List Chunk) : LinkError → Prop
  | statics : maxPayload < StaticData.itemsSize items →
      Unlinkable names items chunks (.staticSegmentTooLarge (StaticData.itemsSize items))
  | program : StaticData.itemsSize items ≤ maxPayload →
      maxPayload < StaticData.itemsSize items + (chunks.map Chunk.size).sum →
      Unlinkable names items chunks
        (.programTooLarge (StaticData.itemsSize items + (chunks.map Chunk.size).sum))
  | label {before after : List String} {label : String} :
      StaticData.itemsSize items + (chunks.map Chunk.size).sum ≤ maxPayload →
      Chunk.labels chunks = before ++ label :: after → (∀ l ∈ before, l ∈ names) →
      label ∉ names → Unlinkable names items chunks (.undefinedLabel label)

namespace Separation

/-- The lines declare these items and sections of distinct names, and compile to
these chunks in link order. -/
structure Read (s : Separation) (items : List (String × List UInt8)) (chunks : List Chunk) :
    Prop where
  declared : StaticData.Declares s.declarations items
  named : (Section.declaredNames s.code).Nodup
  compiled : Statement.Compiles (Section.linkOrder s.code) chunks

/-- What is wrong first with lines that cannot be read. -/
inductive Misread (s : Separation) : AssemblyError → Prop
  | declaration {e : SyntaxError} :
      StaticData.FirstObjection s.declarations e → s.Misread (.inLine e)
  | name {items : List (String × List UInt8)} {name : String} :
      StaticData.Declares s.declarations items →
      Section.FirstRepeat (Section.declaredNames s.code) name →
      s.Misread (.inProgram (.duplicateSection name))
  | statement {items : List (String × List UInt8)} {e : SyntaxError} :
      StaticData.Declares s.declarations items → (Section.declaredNames s.code).Nodup →
      Statement.FirstFault (Section.linkOrder s.code) e → s.Misread (.inLine e)

/-- The lines can be read and what is read of them can be linked. -/
structure Accepted (s : Separation) (items : List (String × List UInt8)) (chunks : List Chunk) :
    Prop extends s.Read items chunks where
  statics : StaticData.itemsSize items ≤ maxPayload
  fits : StaticData.itemsSize items + (chunks.map Chunk.size).sum ≤ maxPayload
  labels : ∀ label ∈ Chunk.labels chunks, label ∈ Section.declaredNames s.code

/-- The lines cannot be read, or what is read of them cannot be linked. -/
inductive Rejected (s : Separation) : AssemblyError → Prop
  | reading {e : AssemblyError} : s.Misread e → s.Rejected e
  | linking {items : List (String × List UInt8)} {chunks : List Chunk} {e : LinkError} :
      s.Read items chunks → Unlinkable (Section.declaredNames s.code) items chunks e →
      s.Rejected (.inProgram e)

end Separation

namespace Assembly

variable {source : String} {a : Assembly} {items : List (String × List UInt8)}
  {chunks : List Chunk}

/-- The lines of a source, told apart. -/
def linesOf (source : String) : Separation := Separation.ofLines (Line.normalize source)

theorem ofSource_eq (source : String) :
    ofSource source =
      (((linesOf source).declarations.foldlM StaticData.declare .empty).mapError .inLine).bind
        fun statics => ((Section.partition (linesOf source).code).mapError .inProgram).bind
          fun sections => ((sections.mapM compileSection).mapError .inLine).map
            fun compiled => ⟨statics, compiled⟩ := by
  simp only [ofSource, linesOf]
  cases (Separation.ofLines (Line.normalize source)).declarations.foldlM StaticData.declare
      .empty with
  | error e => rfl
  | ok statics =>
    cases Section.partition (Separation.ofLines (Line.normalize source)).code with
    | error e => rfl
    | ok sections =>
      simp only [Result.mapError_ok, Except.bind]
      cases sections.mapM compileSection <;> rfl

/-- The assembly has these items, names and chunks. -/
structure Matches (a : Assembly) (names : List String) (items : List (String × List UInt8))
    (chunks : List Chunk) : Prop where
  statics : a.statics.toBytes.length = StaticData.itemsSize items
  names : ∀ name, name ∈ a.sections.map Section.name ↔ name ∈ names
  chunks : a.sections.flatMap Section.body = chunks

theorem names_compiled {lines : List Line} {compiled : List (Section Chunk)}
    (h : (Section.startFirst (Section.inOrder lines)).mapM compileSection = .ok compiled)
    (name : String) :
    name ∈ compiled.map Section.name ↔ name ∈ Section.declaredNames lines := by
  rw [← Section.map_name_of_compiled (Result.mapM_eq_ok.mp h), ← Section.map_name_inOrder]
  exact ((Section.startFirst_perm (Section.inOrder lines)).map Section.name).mem_iff

/-- A source is compiled to what is read of its lines. -/
theorem read_of_ofSource (h : ofSource source = .ok a) :
    ∃ items chunks, (linesOf source).Read items chunks ∧
      a.Matches (Section.declaredNames (linesOf source).code) items chunks := by
  simp only [ofSource_eq, Result.bind_eq_ok, Result.mapError_eq_ok, Result.map_eq_ok] at h
  obtain ⟨statics, declared, sections, partitioned, compiled, done, rfl⟩ := h
  obtain ⟨items, declares, rfl⟩ := StaticData.declare_all_eq_ok.mp declared
  obtain ⟨once, rfl⟩ := Section.partition_ok_iff.mp partitioned
  have compiles := mapM_compileSection_ok.mp ⟨compiled, done, rfl⟩
  rw [Section.flatMap_body_startFirst] at compiles
  refine ⟨items, _, ⟨declares, once, compiles⟩, ?_, names_compiled done, rfl⟩
  rw [StaticData.length_toBytes_foldl]
  exact Nat.zero_add _

theorem exists_ofSource (read : (linesOf source).Read items chunks) :
    ∃ a, ofSource source = .ok a ∧
      a.Matches (Section.declaredNames (linesOf source).code) items chunks := by
  have declared := StaticData.declare_all_eq_ok.mpr ⟨items, read.declared, rfl⟩
  have partitioned := Section.partition_ok_iff.mpr ⟨read.named, rfl⟩
  have compiles := read.compiled
  rw [← Section.flatMap_body_startFirst] at compiles
  obtain ⟨compiled, done, body⟩ := mapM_compileSection_ok.mpr compiles
  refine ⟨⟨items.foldl StaticData.add .empty, compiled⟩, ?_, ?_, names_compiled done, body⟩
  · simp only [ofSource_eq, Result.bind_eq_ok, Result.mapError_eq_ok, Result.map_eq_ok]
    exact ⟨_, declared, _, partitioned, compiled, done, rfl⟩
  · rw [StaticData.length_toBytes_foldl]
    exact Nat.zero_add _

theorem ofSource_eq_error {e : AssemblyError} :
    ofSource source = .error e ↔ (linesOf source).Misread e := by
  simp only [ofSource_eq, Result.bind_eq_error, Result.mapError_eq_error, Result.mapError_eq_ok,
    Result.map_eq_error, StaticData.declare_all_eq_error, StaticData.declare_all_eq_ok,
    Section.partition_error_iff, Section.partition_ok_iff, mapM_compileSection_error]
  constructor
  · rintro (⟨e, objection, rfl⟩ | ⟨_, ⟨items, declares, rfl⟩, bad⟩)
    · exact .declaration objection
    · rcases bad with ⟨_, ⟨name, again, rfl⟩, rfl⟩ | ⟨_, ⟨once, rfl⟩, e, failed, rfl⟩
      · exact .name declares again
      · rw [Section.flatMap_body_startFirst] at failed
        exact .statement declares once failed
  · rintro (⟨objection⟩ | ⟨declares, again⟩ | ⟨declares, once, failed⟩)
    · exact Or.inl ⟨_, objection, rfl⟩
    · exact Or.inr ⟨_, ⟨_, declares, rfl⟩, Or.inl ⟨_, ⟨_, again, rfl⟩, rfl⟩⟩
    · rw [← Section.flatMap_body_startFirst] at failed
      exact Or.inr ⟨_, ⟨_, declares, rfl⟩, Or.inr ⟨_, ⟨once, rfl⟩, _, failed, rfl⟩⟩

theorem Matches.link_eq_error {names : List String} (same : a.Matches names items chunks)
    (sound : ∀ s ∈ a.sections, ∀ c ∈ s.body, c.Sound) {e : LinkError} :
    a.link = .error e ↔ Unlinkable names items chunks e := by
  rw [link, LinkedProgram.link_eq_error (List.forall_mem_flatMap.mpr sound), same.statics,
    ← Section.sum_size_flatMap, same.chunks]
  simp only [same.names]
  constructor
  · rintro (⟨excess, rfl⟩ | ⟨small, ⟨excess, rfl⟩ | ⟨fits, before, label, after, all, known, new, rfl⟩⟩)
    · exact .statics excess
    · exact .program small excess
    · exact .label fits all known new
  · rintro (excess | ⟨small, excess⟩ | ⟨fits, all, known, new⟩)
    · exact Or.inl ⟨excess, rfl⟩
    · exact Or.inr ⟨small, Or.inl ⟨excess, rfl⟩⟩
    · refine Or.inr ⟨?_, Or.inr ⟨fits, _, _, _, all, known, new, rfl⟩⟩
      omega

theorem Matches.exists_link {names : List String} (same : a.Matches names items chunks)
    (sound : ∀ s ∈ a.sections, ∀ c ∈ s.body, c.Sound) :
    (∃ p, a.link = .ok p) ↔
      StaticData.itemsSize items + (chunks.map Chunk.size).sum ≤ maxPayload ∧
        ∀ label ∈ Chunk.labels chunks, label ∈ names := by
  simp only [link]
  rw [LinkedProgram.exists_link (List.forall_mem_flatMap.mpr sound), same.statics,
    ← Section.sum_size_flatMap, same.chunks]
  simp only [same.names]

theorem assemble_eq (source : String) :
    assemble source =
      (ofSource source).bind fun a => (a.link.mapError .inProgram).map LinkedProgram.toBytes := by
  rw [assemble]
  cases ofSource source with
  | error e => rfl
  | ok a =>
    simp only [Except.bind]
    cases a.link <;> rfl

theorem exists_assemble :
    (∃ bytes, assemble source = .ok bytes) ↔
      ∃ items chunks, (linesOf source).Accepted items chunks := by
  simp only [assemble_eq, Result.bind_eq_ok, Result.map_eq_ok, Result.mapError_eq_ok]
  constructor
  · rintro ⟨_, a, parsed, p, linked, rfl⟩
    obtain ⟨items, chunks, read, same⟩ := read_of_ofSource parsed
    obtain ⟨fits, labels⟩ := (same.exists_link (sound_ofSource parsed)).mp ⟨p, linked⟩
    exact ⟨items, chunks, read, Nat.le_of_add_right_le fits, fits, labels⟩
  · rintro ⟨items, chunks, read, _, fits, labels⟩
    obtain ⟨a, parsed, same⟩ := exists_ofSource read
    obtain ⟨p, linked⟩ := (same.exists_link (sound_ofSource parsed)).mpr ⟨fits, labels⟩
    exact ⟨_, a, parsed, p, linked, rfl⟩

theorem assemble_eq_error {e : AssemblyError} :
    assemble source = .error e ↔ (linesOf source).Rejected e := by
  simp only [assemble_eq, Result.bind_eq_error, Result.map_eq_error, Result.mapError_eq_error,
    ofSource_eq_error]
  constructor
  · rintro (misread | ⟨a, parsed, e, failed, rfl⟩)
    · exact .reading misread
    · obtain ⟨items, chunks, read, same⟩ := read_of_ofSource parsed
      exact .linking read ((same.link_eq_error (sound_ofSource parsed)).mp failed)
  · rintro (misread | ⟨read, unlinkable⟩)
    · exact Or.inl misread
    · obtain ⟨a, parsed, same⟩ := exists_ofSource read
      exact Or.inr
        ⟨a, parsed, _, (same.link_eq_error (sound_ofSource parsed)).mpr unlinkable, rfl⟩

/-- A line that is reported is a line of the source. -/
theorem standsIn_of_misread {e : SyntaxError} (h : (linesOf source).Misread (.inLine e)) :
    e.line.StandsIn source := by
  refine Line.mem_normalize.mp (Separation.mem_of_ofLines ?_)
  rcases h with ⟨before, after, items, all, _⟩ | _ | ⟨_, _, before, after, chunks, all, _⟩
  · refine Or.inl ?_
    rw [← linesOf, all]
    exact List.mem_append_right before List.mem_cons_self
  · have moved : e.line ∈ Section.linkOrder (linesOf source).code := by
      rw [all]
      exact List.mem_append_right before List.mem_cons_self
    exact Or.inr (Section.mem_linkOrder.mp moved).1

/-- Assembly accepts the sources whose lines are accepted, and of all others it
reports what is wrong first. -/
theorem acceptance (source : String) :
    ((∃ bytes, assemble source = .ok bytes) ↔
        ∃ items chunks, (linesOf source).Accepted items chunks) ∧
      (∀ e, assemble source = .error e ↔ (linesOf source).Rejected e) ∧
      (Section.linkOrder (linesOf source).code).Perm
        ((linesOf source).code.filter fun line => (Section.labelName? line.text).isNone) ∧
      ∀ e, assemble source = .error (.inLine e) → e.line.StandsIn source := by
  refine ⟨exists_assemble, fun e => assemble_eq_error, Section.linkOrder_perm _, ?_⟩
  intro e failed
  rcases assemble_eq_error.mp failed with misread | _
  exact standsIn_of_misread misread

/-- The start section is compiled first, wherever it stands. -/
theorem acceptance_start_first :
    let error : SyntaxError := ⟨⟨4, "BAR"⟩, .unknownMnemonic "BAR"⟩
    assemble "A:\nFOO\n_start: // begins here\n BAR" = .error (.inLine error) ∧
      (linesOf "A:\nFOO\n_start: // begins here\n BAR").Rejected (.inLine error) ∧
      error.line.StandsIn "A:\nFOO\n_start: // begins here\n BAR" := by
  intro error
  have failed : assemble "A:\nFOO\n_start: // begins here\n BAR" = .error (.inLine error) :=
    Result.eq_error_of_match (by decide +kernel)
  obtain ⟨_, rejects, _, stands⟩ := acceptance "A:\nFOO\n_start: // begins here\n BAR"
  exact ⟨failed, (rejects _).mp failed, stands _ failed⟩

end Assembly

end WordMachine
