import Mathlib.Data.List.Forall2
import WordMachine.Proofs.Assembly.Acceptance
import WordMachine.Proofs.Assembly.Reading

/-! Lines that mean the same. Of a line it counts whether it is a marker, whether
it begins with a dollar sign, what it declares and what its tokens say. Sources
that agree in this line by line assemble to the same bytes. In a source that
assembles every line means something. -/
namespace WordMachine

namespace Line

/-- The second text means at least what the first does. -/
structure Alike (s t : String) : Prop where
  marker : Text.sameLetters s Separation.marker = Text.sameLetters t Separation.marker
  dollar : (s.toList.head? == some '$') = (t.toList.head? == some '$')
  declared : ∀ item, StaticData.readDeclaration s = .ok item → StaticData.readDeclaration t = .ok item
  words : Token.words s = Token.words t

theorem Alike.refl (s : String) : Alike s s := ⟨rfl, rfl, fun _ => id, rfl⟩

/-- The lines are alike, wherever they stand. -/
def Same (line line' : Line) : Prop := Alike line.text line'.text

end Line

variable {lines lines' : List Line}

namespace Separation

theorem read_same (same : List.Forall₂ Line.Same lines lines') (inBlock : Bool)
    {ds ds' cs cs' : List Line} (declared : List.Forall₂ Line.Same ds ds')
    (coded : List.Forall₂ Line.Same cs cs') :
    List.Forall₂ Line.Same (read inBlock ds cs lines).declarations
        (read inBlock ds' cs' lines').declarations ∧
      List.Forall₂ Line.Same (read inBlock ds cs lines).code (read inBlock ds' cs' lines').code := by
  induction same generalizing inBlock ds ds' cs cs' with
  | nil => exact ⟨List.rel_reverse declared, List.rel_reverse coded⟩
  | @cons line line' _ _ alike _ ih =>
    have marks : isMarker line = isMarker line' := alike.marker
    have declares : isDeclaration line = isDeclaration line' := alike.dollar
    simp only [read, marks, declares]
    split
    · exact ih true declared coded
    · split
      · exact ih true (declared.cons alike) coded
      · exact ih false declared (coded.cons alike)

/-- No line is lost but the markers. -/
theorem mem_read {inBlock : Bool} {declarations code : List Line} {line : Line}
    (h : line ∈ declarations ∨ line ∈ code ∨ line ∈ lines) :
    isMarker line = true ∨ line ∈ (read inBlock declarations code lines).declarations ∨
      line ∈ (read inBlock declarations code lines).code := by
  induction lines generalizing inBlock declarations code with
  | nil =>
    simp only [read, List.mem_reverse]
    grind
  | cons first rest ih =>
    simp only [read]
    split
    · next marked =>
      by_cases new : line = first
      · exact Or.inl (new ▸ marked)
      · exact ih (by grind)
    · split
      · exact ih (by grind)
      · exact ih (by grind)

end Separation

theorem StaticData.foldlM_declare_same (same : List.Forall₂ Line.Same lines lines')
    {d more : StaticData} (h : lines.foldlM declare d = .ok more) :
    lines'.foldlM declare d = .ok more := by
  induction same generalizing d with
  | nil => exact h
  | cons alike _ ih =>
    rw [List.foldlM_cons] at h ⊢
    obtain ⟨next, first, later⟩ := Result.bind_eq_ok.mp h
    obtain ⟨item, read, fresh, rfl⟩ := declare_eq_ok.mp first
    have again := declare_eq_ok.mpr ⟨item, alike.declared item read, fresh, rfl⟩
    exact Result.bind_eq_ok.mpr ⟨_, again, ih later⟩

/-- Computations that succeed alike do so one after the other. -/
theorem Result.mapM_of_forall₂ {ε α β : Type} {f : α → Except ε β} {xs ys : List α} {bs : List β}
    (each : List.Forall₂ (fun x y => ∀ b, f x = .ok b → f y = .ok b) xs ys)
    (h : xs.mapM f = .ok bs) : ys.mapM f = .ok bs := by
  induction each generalizing bs with
  | nil => exact h
  | cons first _ ih =>
    obtain ⟨b, more, rfl, own, others⟩ := List.map_eq_cons_iff.mp (mapM_eq_ok.mp h).symm
    rw [mapM_eq_ok, List.map_cons, List.map_cons, first b own.symm,
      mapM_eq_ok.mp (ih (mapM_eq_ok.mpr others.symm))]

namespace Section

/-- Sections of one name whose lines are alike. -/
structure Same (s t : Section Line) : Prop where
  name : s.name = t.name
  body : List.Forall₂ Line.Same s.body t.body

theorem gather_same (same : List.Forall₂ Line.Same lines lines') :
    List.Forall₂ Line.Same (gather lines).1 (gather lines').1 ∧
      List.Forall₂ Same (gather lines).2 (gather lines').2 := by
  induction same with
  | nil => exact ⟨.nil, .nil⟩
  | @cons line line' _ _ alike _ ih =>
    obtain ⟨leads, sections⟩ := ih
    have named : labelName? line.text = labelName? line'.text := labelName?_congr alike.words
    rw [gather_cons, gather_cons, named]
    split
    · exact ⟨.nil, sections.cons ⟨rfl, leads⟩⟩
    · exact ⟨leads.cons alike, sections⟩

theorem inOrder_same (same : List.Forall₂ Line.Same lines lines') :
    List.Forall₂ Same (inOrder lines) (inOrder lines') := by
  obtain ⟨leads, sections⟩ := gather_same same
  have both : (gather lines).1.isEmpty = (gather lines').1.isEmpty := by
    rw [Bool.eq_iff_iff, List.isEmpty_iff_length_eq_zero, leads.length_eq,
      List.isEmpty_iff_length_eq_zero]
  simp only [inOrder, both]
  split
  · exact sections
  · exact sections.cons ⟨rfl, leads⟩

theorem partition_same (same : List.Forall₂ Line.Same lines lines')
    {sections : List (Section Line)} (h : partition lines = .ok sections) :
    ∃ sections', partition lines' = .ok sections' ∧ List.Forall₂ Same sections sections' := by
  have ordered := inOrder_same same
  have names : (inOrder lines).map Section.name = (inOrder lines').map Section.name := by
    refine List.forall₂_eq_eq_eq ▸ ?_
    rw [List.forall₂_map_left_iff, List.forall₂_map_right_iff]
    exact ordered.imp fun _ _ alike => alike.name
  obtain ⟨once, rfl⟩ := partition_ok_iff.mp h
  rw [← map_name_inOrder, names, map_name_inOrder] at once
  refine ⟨_, partition_ok_iff.mpr ⟨once, rfl⟩, ?_⟩
  simp only [startFirst, List.partition_eq_filter_filter]
  refine List.rel_append (List.rel_filter ?_ ordered) (List.rel_filter ?_ ordered)
  · intro s t alike
    simp only [alike.name]
  · intro s t alike
    simp only [Function.comp, alike.name]

theorem compileSection_same {s t : Section Line} (same : Same s t) {compiled : Section Chunk}
    (h : Assembly.compileSection s = .ok compiled) : Assembly.compileSection t = .ok compiled := by
  unfold Assembly.compileSection at h ⊢
  split at h
  · cases h
  · next parts done =>
    have again : t.body.mapM Statement.compileLine = .ok parts := by
      refine Result.mapM_of_forall₂ (same.body.imp fun line line' alike chunks own => ?_) done
      rw [Statement.compileLine, Result.mapError_eq_ok] at own ⊢
      rw [← Statement.compile_congr alike.words, own]
    cases h
    simp only [again, same.name]

end Section

namespace Assembly

variable {source source' : String} {bytes : List UInt8}

/-- Sources with the same declarations and like code assemble to the same bytes. -/
theorem assemble_of_separation
    (declared : ∀ statics, (linesOf source).declarations.foldlM StaticData.declare .empty = .ok statics →
      (linesOf source').declarations.foldlM StaticData.declare .empty = .ok statics)
    (coded : List.Forall₂ Line.Same (linesOf source).code (linesOf source').code)
    (h : assemble source = .ok bytes) : assemble source' = .ok bytes := by
  rw [assemble_eq] at h ⊢
  obtain ⟨a, parsed, linked⟩ := Result.bind_eq_ok.mp h
  refine Result.bind_eq_ok.mpr ⟨a, ?_, linked⟩
  simp only [ofSource_eq, Result.bind_eq_ok, Result.mapError_eq_ok, Result.map_eq_ok] at parsed ⊢
  obtain ⟨statics, own, sections, partitioned, compiled, done, whole⟩ := parsed
  obtain ⟨sections', again, alike⟩ := Section.partition_same coded partitioned
  refine ⟨statics, declared statics own, sections', again, compiled, ?_, whole⟩
  exact Result.mapM_of_forall₂ (alike.imp fun s t both _ => Section.compileSection_same both) done

/-- Sources with like lines assemble to the same bytes. -/
theorem assemble_same (same : List.Forall₂ Line.Same (Line.normalize source) (Line.normalize source'))
    (h : assemble source = .ok bytes) : assemble source' = .ok bytes := by
  obtain ⟨declarations, code⟩ := Separation.read_same same false .nil .nil
  exact assemble_of_separation (fun _ => StaticData.foldlM_declare_same declarations) code h

end Assembly

/-- A text that is a line of some source. -/
inductive Line.Meaningful (text : String) : Prop
  | marker : Text.sameLetters text Separation.marker = true → Meaningful text
  | declaration {item : String × List UInt8} :
      StaticData.readDeclaration text = .ok item → Meaningful text
  | label {name : String} : Section.labelName? text = some name → Meaningful text
  | statement {chunks : List Chunk} : Statement.compile text = .ok chunks → Meaningful text

/-- Code of a source that assembles is labels and statements. -/
theorem Assembly.coded_of_assemble {source : String} {bytes : List UInt8}
    (h : assemble source = .ok bytes) :
    ∀ line ∈ (linesOf source).code, (∃ name, Section.labelName? line.text = some name) ∨
      ∃ chunks, Statement.compile line.text = .ok chunks := by
  obtain ⟨items, chunks, accepted⟩ := exists_assemble.mp ⟨bytes, h⟩
  intro line coded
  cases named : Section.labelName? line.text with
  | some name => exact Or.inl ⟨name, rfl⟩
  | none =>
    obtain ⟨parts, compiled, _⟩ := accepted.compiled
    have linked := Section.mem_linkOrder.mpr ⟨coded, named⟩
    have read := List.mem_map_of_mem (f := fun line => Statement.compile line.text) linked
    rw [compiled] at read
    obtain ⟨part, _, same⟩ := List.mem_map.mp read
    exact Or.inr ⟨part, same.symm⟩

/-- Every line of a source that assembles means something. -/
theorem Assembly.meaningful_of_assemble {source : String} {bytes : List UInt8}
    (h : assemble source = .ok bytes) :
    ∀ line ∈ Line.normalize source, Line.Meaningful line.text := by
  obtain ⟨items, chunks, accepted⟩ := exists_assemble.mp ⟨bytes, h⟩
  intro line mem
  have told : Separation.isMarker line = true ∨ line ∈ (linesOf source).declarations ∨
      line ∈ (linesOf source).code := Separation.mem_read (Or.inr (Or.inr mem))
  rcases told with marked | declared | coded
  · exact .marker marked
  · have read := List.mem_map_of_mem (f := fun line => StaticData.readDeclaration line.text) declared
    rw [accepted.declared.read] at read
    obtain ⟨item, _, same⟩ := List.mem_map.mp read
    exact .declaration same.symm
  · rcases coded_of_assemble h line coded with ⟨name, named⟩ | ⟨chunks, compiled⟩
    · exact .label named
    · exact .statement compiled

/-- A line that is no declaration is made of plain characters. -/
theorem Line.Meaningful.declared_or_plain {text : String} (h : Meaningful text) :
    (∃ item, StaticData.readDeclaration text = .ok item) ∨
      ∀ c ∈ text.toList, Token.isPlain c.toUpper = true := by
  have capital : (∀ d ∈ (Text.upper text).toList, Token.isPlain d = true) →
      ∀ c ∈ text.toList, Token.isPlain c.toUpper = true := by
    intro plain c hc
    refine plain c.toUpper ?_
    rw [Text.toList_upper]
    exact List.mem_map_of_mem hc
  cases h with
  | marker marked =>
    refine Or.inr (capital ?_)
    rw [Text.sameLetters_iff.mp marked]
    exact List.all_eq_true.mp (by decide)
  | declaration read => exact Or.inl ⟨_, read⟩
  | label named => exact Or.inr (capital (Token.plain_of_words (Section.clean_of_labelName? named)))
  | statement compiled =>
    exact Or.inr (capital (Token.plain_of_words (Statement.clean_of_compile compiled)))

end WordMachine
