import WordMachine.Proofs.Listing.Colours
import WordMachine.Proofs.Listing.Raw

/-! The text of a listing line by line. No line of it holds a line feed, in colour or
not, so the text comes apart into the lines it is made of. The line of an instruction
is known by the capital letter behind its indentation: other lines begin with an
underscore, a dot, a dollar sign, a slash or an escape sequence. -/
namespace WordMachine

/-- The lines of a text in which every line ends in a line feed. -/
def Text.lines (text : String) : List String :=
  ((Line.split text.toList).map String.ofList).dropLast

theorem Text.lines_join {lines : List String} (single : ∀ s ∈ lines, '\n' ∉ s.toList) :
    Text.lines (String.join (lines.map (· ++ "\n"))) = lines := by
  have same : (lines.map String.toList).map String.ofList = lines := by
    simp [Function.comp_def]
  rw [Text.lines, Line.split_join single, List.map_append, same]
  exact List.dropLast_concat

namespace Palette

/-- No line feed is deleted unless it is among the characters left of a sequence. -/
theorem feed_mem_delete {left : Nat} {cs : List Char} (clear : '\n' ∉ cs.take left)
    (feed : '\n' ∈ cs) : '\n' ∈ delete left cs := by
  have single : ∀ s ∈ sequences, s ≠ [] ∧ '\n' ∉ s := by decide
  fun_induction delete left cs with
  | case1 => cases feed
  | case2 left c rest ih =>
    rw [List.take_succ_cons, List.mem_cons, not_or] at clear
    rcases List.mem_cons.mp feed with same | later
    · exact absurd same clear.1
    · exact ih clear.2 later
  | case3 c rest s found ih =>
    obtain ⟨filled, unbroken⟩ := single s (List.mem_of_find?_eq_some found)
    have starts : s.isPrefixOf (c :: rest) = true := by simpa using List.find?_some found
    obtain ⟨more, whole⟩ := List.isPrefixOf_iff_prefix.mp starts
    obtain ⟨d, others, rfl⟩ := List.exists_cons_of_ne_nil filled
    rw [List.cons_append, List.cons.injEq] at whole
    obtain ⟨rfl, rfl⟩ := whole
    rw [List.mem_cons, not_or] at unbroken
    rcases List.mem_cons.mp feed with same | later
    · exact absurd same unbroken.1
    · -- What is left to delete of the sequence has no line feed either.
      refine ih ?_ later
      rw [List.length_cons, Nat.add_sub_cancel, List.take_left]
      exact unbroken.2
  | case4 c rest _ ih =>
    rcases List.mem_cons.mp feed with same | later
    · exact List.mem_cons.mpr (Or.inl same)
    · exact List.mem_cons_of_mem c (ih List.not_mem_nil later)

/-- Colours bring no line feed with them. -/
theorem Decorates.single {s t : String} (d : Decorates s t) (single : '\n' ∉ t.toList) :
    '\n' ∉ s.toList := by
  intro feed
  have deleted := d.deleted []
  rw [List.append_nil, delete, List.append_nil] at deleted
  apply single
  rw [← deleted]
  exact feed_mem_delete List.not_mem_nil feed

theorem Decorates.single_lines {ss ts : List String} (each : List.Forall₂ Decorates ss ts)
    (single : ∀ t ∈ ts, '\n' ∉ t.toList) : ∀ s ∈ ss, '\n' ∉ s.toList := by
  induction each with
  | nil => exact List.forall_mem_nil _
  | cons first _ ih =>
    obtain ⟨here, later⟩ := List.forall_mem_cons.mp single
    exact List.forall_mem_cons.mpr ⟨first.single here, ih later⟩

end Palette

namespace Listing

variable {image : Image} {l : Listing} {style : Style} {coloured : Bool}

section Single

theorem single_staticLines (listed : ofImage image = .ok l) :
    ∀ s ∈ staticLines .plain l.statics, '\n' ∉ s.toList := by
  obtain ⟨_, _, statics, _⟩ := parts_of_ofImage listed
  by_cases readable : ∃ texts, StaticListing.Printable texts ∧
      image.statics = StaticListing.pack texts
  · obtain ⟨texts, printable, packed⟩ := readable
    have fits : (StaticListing.pack texts).length ≤ maxPayload := by
      have small := image.fits
      rw [packed] at small
      omega
    rw [statics, packed, staticLines_pack printable fits]
    intro s hs
    split at hs
    · cases hs
    · rcases List.mem_cons.mp hs with rfl | hs
      · decide
      · obtain ⟨_, _, _, _, _, single, _⟩ := mem_headLines printable fits hs
        exact single
  · rw [statics, (StaticListing.ofBytes_raw readable).2]
    exact fun s hs => (content_staticLines _ s hs).1

theorem single_lines_plain (listed : ofImage image = .ok l) (plain : style.palette = .plain) :
    ∀ s ∈ l.lines style, '\n' ∉ s.toList := by
  rw [lines_eq plain]
  intro s hs
  rcases List.mem_append.mp hs with static | code
  · exact single_staticLines listed s static
  · exact (filled_rows plain s code).1

theorem single_lines (listed : ofImage image = .ok l)
    (palette : style.palette = .ofChoice coloured) : ∀ s ∈ l.lines style, '\n' ∉ s.toList := by
  obtain ⟨implicitStart, addresses, _⟩ := style
  cases palette
  cases coloured with
  | false => exact single_lines_plain listed rfl
  | true =>
    obtain ⟨_, _, statics, _⟩ := parts_of_ofImage listed
    refine Palette.Decorates.single_lines (decorates_lines (fun items same => ?_) ..)
      (single_lines_plain listed rfl)
    exact StaticListing.decorates_of_ofBytes (statics.symm.trans same)

/-- The text of a listing comes apart into its lines. -/
theorem lines_text (listed : ofImage image = .ok l)
    (palette : style.palette = .ofChoice coloured) : Text.lines (l.text style) = l.lines style :=
  Text.lines_join (single_lines listed palette)

end Single

section Kinds

/-- Behind its indentation the line begins with a capital letter. -/
def isInstructionLine (line : String) : Bool :=
  (line.toList.dropWhile (· == ' ')).head?.any Char.isUpper

/-- A text with no blank and no capital letter in front is not the line of an instruction. -/
theorem not_instructionLine {line : String} {c : Char} (first : line.toList.head? = some c)
    (solid : c ≠ ' ') (other : c.isUpper = false) : isInstructionLine line = false := by
  obtain ⟨rest, chars⟩ := List.head?_eq_some_iff.mp first
  rw [isInstructionLine, chars, List.dropWhile_cons_of_neg (by simpa using solid)]
  exact other

/-- The line of an instruction at its address, as the listing has it. -/
def lineOf (style : Style) (l : Listing) (e : Nat × Instruction) : String :=
  instructionLine style l ((indentedFrom? style l).any (· ≤ e.1)) e.1 e.2

theorem isInstructionLine_lineOf (style : Style) (l : Listing) (e : Nat × Instruction) :
    isInstructionLine (l.lineOf style e) = true := by
  have letters : ∀ op ∈ Opcode.all, ∃ c rest, op.mnemonic.toList = c :: rest ∧
      c ≠ ' ' ∧ c.isUpper = true := by
    have first : ∀ op ∈ Opcode.all, op.mnemonic.toList.head?.any
        (fun c => c != ' ' && c.isUpper) = true := by decide
    intro op hop
    have fits := first op hop
    cases chars : op.mnemonic.toList with
    | nil => simp [chars] at fits
    | cons c rest => simpa [chars] using fits
  obtain ⟨c, rest, chars, solid, upper⟩ := letters e.2.opcode e.2.opcode.mem_all
  obtain ⟨more, text⟩ : ∃ more, (instructionText style.palette l e.2).toList = c :: more := by
    rw [instructionText, String.toList_intercalate]
    cases operandTexts style.palette l e.2 with
    | nil => exact ⟨_, by simp [List.intercalate, chars]; rfl⟩
    | cons s others => exact ⟨_, by simp [List.intercalate, chars]; rfl⟩
  rw [isInstructionLine, lineOf, instructionLine, String.toList_append, String.toList_append, text]
  cases (indentedFrom? style l).any (· ≤ e.1) <;> simp [indentation, solid, upper]

/-- The lines before those of the code. -/
def opening (style : Style) (l : Listing) : List String :=
  staticLines style.palette l.statics ++
    if style.implicitStart then [] else [labelLine style.palette Section.startName]

/-- The lines of an instruction: its own behind the one of the label at its address. -/
def block (style : Style) (l : Listing) (e : Nat × Instruction) : List String :=
  labelLines style l e.1 ++ [l.lineOf style e]

theorem lines_eq_blocks (style : Style) (l : Listing) :
    l.lines style =
      opening style l ++ l.instructions.flatMap (block style l) ++ labelLines style l l.stop := rfl

theorem head?_labelName (n : Nat) : (labelName n).toList.head? = some '_' := by
  simp [labelName]

/-- Other lines of a listing are not taken for lines of instructions. -/
theorem isInstructionLine_labelLine {name : String} (first : name.toList.head? = some '_') :
    isInstructionLine (labelLine (.ofChoice coloured) name) = false := by
  cases coloured with
  | false =>
    refine @not_instructionLine _ '_' ?_ (by decide) (by decide)
    simp [labelLine, Palette.ofChoice, Palette.plain, first]
  | true =>
    refine @not_instructionLine _ '\x1b' ?_ (by decide) (by decide)
    simp [labelLine, Palette.ofChoice, Palette.ansi]

theorem isInstructionLine_labelLines (palette : style.palette = .ofChoice coloured) (l : Listing)
    (address : Nat) : ∀ s ∈ labelLines style l address, isInstructionLine s = false := by
  intro s hs
  rw [labelLines, palette, Option.mem_toList, Option.map_eq_some_iff] at hs
  obtain ⟨name, named, rfl⟩ := hs
  obtain ⟨_, rfl⟩ := label?_eq_some named
  exact isInstructionLine_labelLine (head?_labelName _)

theorem last_reset {text : String} {c : Char} (last : text.toList.getLast? = some c)
    (other : c ≠ ':') :
    (text ++ (Palette.ofChoice coloured).reset).toList.getLast? ≠ some ':' := by
  cases coloured with
  | false => simp [Palette.ofChoice, Palette.plain, last, other]
  | true => simp [Palette.ofChoice, Palette.ansi]

/-- Static lines are neither lines of instructions nor of labels, which end in a colon. -/
theorem kind_staticLines (coloured : Bool) (statics : StaticListing) :
    ∀ s ∈ staticLines (.ofChoice coloured) statics,
      isInstructionLine s = false ∧ s.toList.getLast? ≠ some ':' := by
  intro s hs
  cases statics with
  | empty => cases hs
  | texts items =>
    rcases List.mem_cons.mp hs with rfl | hs
    · decide
    · obtain ⟨⟨offset, text⟩, _, rfl⟩ := List.mem_map.mp hs
      constructor
      · refine @not_instructionLine _ '$' ?_ (by decide) (by decide)
        simp
      · refine @last_reset _ _ '"' ?_ (by decide)
        rw [String.toList_append]
        exact List.getLast?_concat
  | raw size =>
    obtain rfl := List.mem_singleton.mp hs
    constructor
    · cases coloured with
      | false =>
        refine @not_instructionLine _ '/' ?_ (by decide) (by decide)
        simp [Palette.ofChoice, Palette.plain]
      | true =>
        refine @not_instructionLine _ '\x1b' ?_ (by decide) (by decide)
        simp [Palette.ofChoice, Palette.ansi]
    · refine @last_reset _ _ 'm' ?_ (by decide)
      rw [String.toList_append, List.getLast?_append_of_ne_nil _ (by decide)]
      decide

theorem isInstructionLine_opening (palette : style.palette = .ofChoice coloured) (l : Listing) :
    ∀ s ∈ opening style l, isInstructionLine s = false := by
  intro s hs
  rw [opening, palette] at hs
  rcases List.mem_append.mp hs with static | start
  · exact (kind_staticLines coloured l.statics s static).1
  · split at start
    · cases start
    · obtain rfl := List.mem_singleton.mp start
      exact @isInstructionLine_labelLine coloured _ (by decide)

theorem filter_others {lines : List String} (others : ∀ s ∈ lines, isInstructionLine s = false) :
    lines.filter isInstructionLine = [] := by
  rw [List.filter_eq_nil_iff]
  intro s hs
  rw [others s hs]
  exact Bool.false_ne_true

theorem filter_blocks (palette : style.palette = .ofChoice coloured) (l : Listing)
    (placed : List (Nat × Instruction)) :
    (placed.flatMap (block style l)).filter isInstructionLine = placed.map (l.lineOf style) := by
  induction placed with
  | nil => rfl
  | cons e rest ih =>
    have labels := filter_others (isInstructionLine_labelLines palette l e.1)
    rw [List.flatMap_cons, List.filter_append, ih, block, List.filter_append, labels,
      List.filter_cons_of_pos (isInstructionLine_lineOf style l e)]
    rfl

/-- The lines of instructions are those of the instructions of the listing, in order. -/
theorem filter_lines (palette : style.palette = .ofChoice coloured) (l : Listing) :
    (l.lines style).filter isInstructionLine = l.instructions.map (l.lineOf style) := by
  have opened := filter_others (isInstructionLine_opening palette l)
  have closed := filter_others (isInstructionLine_labelLines palette l l.stop)
  rw [lines_eq_blocks, List.filter_append, List.filter_append, opened, closed,
    filter_blocks palette, List.nil_append, List.append_nil]

end Kinds

end Listing

end WordMachine
