import WordMachine.Assembly.Basic
import WordMachine.Proofs.Result

/-! Sections of lines that hold one instruction each. Such lines are told apart
from declarations; gathering them and compiling the sections gives what is
gathered from the instructions; and when names do not repeat and the section
`_START` comes first, sections stay in the order of the lines. -/
namespace WordMachine

namespace Separation

/-- Lines that are neither markers nor declarations are code. -/
theorem read_code {lines : List Line}
    (plain : ∀ line ∈ lines, isMarker line = false ∧ isDeclaration line = false)
    (inBlock : Bool) (declarations code : List Line) :
    read inBlock declarations code lines = ⟨declarations.reverse, code.reverse ++ lines⟩ := by
  induction lines generalizing inBlock code with
  | nil => rw [read, List.append_nil]
  | cons line rest ih =>
    obtain ⟨unmarked, undeclared⟩ := plain line List.mem_cons_self
    have ih := ih (fun l hl => plain l (List.mem_cons_of_mem line hl)) false (line :: code)
    simp only [read, unmarked, undeclared, Bool.and_false, Bool.false_eq_true, if_false, ih,
      List.reverse_cons, List.append_assoc, List.singleton_append]

theorem read_declarations {lines : List Line}
    (declared : ∀ line ∈ lines, isMarker line = false ∧ isDeclaration line = true)
    (declarations code rest : List Line) :
    read true declarations code (lines ++ rest) =
      read true (lines.reverse ++ declarations) code rest := by
  induction lines generalizing declarations with
  | nil => rfl
  | cons line lines ih =>
    obtain ⟨unmarked, dollar⟩ := declared line List.mem_cons_self
    have ih := ih (fun l hl => declared l (List.mem_cons_of_mem line hl)) (line :: declarations)
    simp only [List.cons_append, read, unmarked, dollar, Bool.and_true, Bool.false_eq_true,
      if_false, if_true, ih, List.reverse_cons, List.append_assoc, List.nil_append]

/-- A block of declarations ends at the first line of code. -/
theorem ofLines_block {marker : Line} {declarations code : List Line}
    (marked : isMarker marker = true)
    (declared : ∀ line ∈ declarations, isMarker line = false ∧ isDeclaration line = true)
    (plain : ∀ line ∈ code, isMarker line = false ∧ isDeclaration line = false) :
    ofLines (marker :: (declarations ++ code)) = ⟨declarations, code⟩ := by
  rw [ofLines, read, if_pos marked, read_declarations declared, read_code plain, List.append_nil,
    List.reverse_reverse]
  rfl

theorem mem_of_read {inBlock : Bool} {declarations code lines : List Line} {line : Line}
    (h : line ∈ (read inBlock declarations code lines).declarations ∨
      line ∈ (read inBlock declarations code lines).code) :
    line ∈ declarations ∨ line ∈ code ∨ line ∈ lines := by
  induction lines generalizing inBlock declarations code with
  | nil =>
    simp only [read, List.mem_reverse] at h
    exact h.imp_right Or.inl
  | cons first rest ih =>
    simp only [read] at h
    -- A line is a marker, or it is added to one of the two lists.
    split at h
    · exact (ih h).imp_right (Or.imp_right (List.mem_cons_of_mem first))
    · split at h
      · have mem := ih h
        grind
      · have mem := ih h
        grind

/-- Lines that are told apart are lines of the source. -/
theorem mem_of_ofLines {lines : List Line} {line : Line}
    (h : line ∈ (ofLines lines).declarations ∨ line ∈ (ofLines lines).code) : line ∈ lines := by
  rcases mem_of_read h with old | old | new
  · cases old
  · cases old
  · exact new

end Separation

/-- What a line of code is read as. -/
inductive CodeItem where
  | label (name : String)
  | chunk (c : Chunk)

/-- A text that is read as this item. -/
def CodeItem.Reads : CodeItem → String → Prop
  | label name, text => Section.labelName? text = some name
  | chunk c, text => Section.labelName? text = none ∧ Statement.compile text = .ok [c]

namespace Section

/-- The chunks before the first label, and the section of every label. -/
def collect (items : List CodeItem) : List Chunk × List (Section Chunk) :=
  items.foldr
    (fun item (lead, sections) =>
      match item with
      | .label name => ([], ⟨name, lead⟩ :: sections)
      | .chunk c => (c :: lead, sections))
    ([], [])

@[simp] theorem collect_nil : collect [] = ([], []) := rfl

@[simp] theorem collect_label (name : String) (items : List CodeItem) :
    collect (.label name :: items) =
      ([], ⟨name, (collect items).1⟩ :: (collect items).2) := rfl

@[simp] theorem collect_chunk (c : Chunk) (items : List CodeItem) :
    collect (.chunk c :: items) = (c :: (collect items).1, (collect items).2) := rfl

/-- All sections in the order of the items. -/
def ordered (items : List CodeItem) : List (Section Chunk) :=
  let (lead, sections) := collect items
  if lead.isEmpty then sections else ⟨startName, lead⟩ :: sections

theorem compileSection_eq {name : String} {body : List Line} {chunks : List Chunk}
    (compiled : body.map Statement.compileLine = chunks.map fun c => .ok [c]) :
    Assembly.compileSection ⟨name, body⟩ = .ok ⟨name, chunks⟩ := by
  have whole : body.mapM Statement.compileLine = .ok (chunks.map fun c => [c]) := by
    rw [Result.mapM_eq_ok, compiled, List.map_map]
    rfl
  have flat : (chunks.map fun c => [c]).flatten = chunks := by
    rw [← List.flatMap_def, List.flatMap_singleton']
  simp only [Assembly.compileSection, whole, flat]

theorem gather_cons (line : Line) (rest : List Line) :
    gather (line :: rest) =
      match labelName? line.text with
      | some name => ([], ⟨name, (gather rest).1⟩ :: (gather rest).2)
      | none => (line :: (gather rest).1, (gather rest).2) := rfl

/-- Lines are gathered as the items they are read as. -/
theorem compile_gather {lines : List Line} {rows : List (CodeItem × String)}
    (each : ∀ row ∈ rows, row.1.Reads row.2) (texts : lines.map Line.text = rows.map Prod.snd) :
    (gather lines).1.map Statement.compileLine =
        (collect (rows.map Prod.fst)).1.map (fun c => .ok [c]) ∧
      (gather lines).2.map Assembly.compileSection =
        (collect (rows.map Prod.fst)).2.map .ok := by
  induction rows generalizing lines with
  | nil =>
    rw [List.map_eq_nil_iff.mp texts]
    exact ⟨rfl, rfl⟩
  | cons row rest ih =>
    obtain ⟨line, more, rfl, text, texts⟩ := List.map_eq_cons_iff.mp texts
    obtain ⟨leads, sections⟩ := ih (fun r hr => each r (List.mem_cons_of_mem row hr)) texts
    have reads := each row List.mem_cons_self
    obtain ⟨item, written⟩ := row
    cases item with
    | label name =>
      have named : labelName? line.text = some name := by
        rw [text]
        exact reads
      have opened : gather (line :: more) = ([], ⟨name, (gather more).1⟩ :: (gather more).2) := by
        rw [gather_cons, named]
      rw [opened]
      refine ⟨rfl, ?_⟩
      rw [List.map_cons, compileSection_eq leads, sections]
      rfl
    | chunk c =>
      obtain ⟨unnamed, compiled⟩ := reads
      rw [← text] at unnamed compiled
      have added : gather (line :: more) = (line :: (gather more).1, (gather more).2) := by
        rw [gather_cons, unnamed]
      have chunked : Statement.compileLine line = .ok [c] := by
        rw [Statement.compileLine, compiled]
        rfl
      rw [added]
      refine ⟨?_, sections⟩
      rw [List.map_cons, leads, chunked]
      rfl

theorem compile_inOrder {lines : List Line} {rows : List (CodeItem × String)}
    (each : ∀ row ∈ rows, row.1.Reads row.2) (texts : lines.map Line.text = rows.map Prod.snd) :
    (inOrder lines).map Assembly.compileSection = (ordered (rows.map Prod.fst)).map .ok := by
  obtain ⟨leads, sections⟩ := compile_gather each texts
  have both : (gather lines).1.isEmpty = (collect (rows.map Prod.fst)).1.isEmpty := by
    have same := congrArg List.isEmpty leads
    rwa [List.isEmpty_map, List.isEmpty_map] at same
  simp only [inOrder, ordered, both]
  split
  · exact sections
  · rw [List.map_cons, compileSection_eq leads, sections]
    rfl

theorem name_compileSection {s : Section Line} {t : Section Chunk}
    (h : Assembly.compileSection s = .ok t) : t.name = s.name := by
  unfold Assembly.compileSection at h
  split at h
  · cases h
  · cases h
    rfl

theorem map_name_of_compiled {sources : List (Section Line)} {compiled : List (Section Chunk)}
    (h : sources.map Assembly.compileSection = compiled.map .ok) :
    sources.map name = compiled.map name := by
  induction sources generalizing compiled with
  | nil =>
    rw [List.map_eq_nil_iff.mp h.symm]
    rfl
  | cons s rest ih =>
    obtain ⟨t, others, rfl, first, more⟩ := List.map_eq_cons_iff.mp h.symm
    rw [List.map_cons, List.map_cons, ih more.symm, name_compileSection first.symm]

theorem firstRepeat?_eq_none {seen names : List String} (once : names.Nodup)
    (fresh : ∀ n ∈ names, n ∉ seen) : firstRepeat? seen names = none := by
  induction names generalizing seen with
  | nil => rfl
  | cons n rest ih =>
    obtain ⟨absent, once⟩ := List.nodup_cons.mp once
    rw [firstRepeat?, if_neg (fresh n List.mem_cons_self)]
    refine ih once fun m hm mem => ?_
    rcases List.mem_cons.mp mem with rfl | mem
    · exact absent hm
    · exact fresh m (List.mem_cons_of_mem n hm) mem

/-- The start section moves only from behind another section. -/
theorem startFirst_eq {α : Type} {sections : List (Section α)}
    (first : ∀ s ∈ sections.tail, s.name ≠ startName) : startFirst sections = sections := by
  cases sections with
  | nil => rfl
  | cons s rest =>
    have absent : rest.filter (·.name == startName) = [] :=
      List.filter_eq_nil_iff.mpr fun t ht => by simpa using first t ht
    have present : rest.filter (not ∘ (·.name == startName)) = rest :=
      List.filter_eq_self.mpr fun t ht => by simpa using first t ht
    rw [startFirst, List.partition_eq_filter_filter]
    by_cases start : s.name = startName <;> simp [start, absent, present]

/-- Sections with distinct names, the start section in front, are linked in order. -/
theorem partition_eq_ok {lines : List Line} {rows : List (CodeItem × String)}
    (each : ∀ row ∈ rows, row.1.Reads row.2) (texts : lines.map Line.text = rows.map Prod.snd)
    (once : ((ordered (rows.map Prod.fst)).map name).Nodup)
    (first : startName ∉ ((ordered (rows.map Prod.fst)).map name).tail) :
    ∃ sections, partition lines = .ok sections ∧
      sections.mapM Assembly.compileSection = .ok (ordered (rows.map Prod.fst)) := by
  have compiled := compile_inOrder each texts
  have names := map_name_of_compiled compiled
  rw [← names] at once first
  have unmoved : startFirst (inOrder lines) = inOrder lines := by
    apply startFirst_eq
    intro s hs same
    apply first
    rw [← List.map_tail]
    exact List.mem_map.mpr ⟨s, hs, same⟩
  refine ⟨inOrder lines, ?_, Result.mapM_eq_ok.mpr compiled⟩
  simp only [partition, firstRepeat?_eq_none once (fun _ _ => List.not_mem_nil), unmoved]

end Section

end WordMachine
