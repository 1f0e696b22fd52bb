import WordMachine.Proofs.Assembly.Link
import WordMachine.Proofs.Assembly.Section
import WordMachine.Proofs.Listing.Compile

/-! The code of a listing line by line. Every line without colours is read as the
label or the instruction it was written for, whether it is indented and whether
it ends in a comment. -/
namespace WordMachine

/-- A line of a listing that is read as this item. -/
structure CodeItem.Row (item : CodeItem) (raw : String) : Prop where
  single : '\n' ∉ raw.toList
  read : ∃ text : String, Line.content raw.toList = text.toList ∧ item.Reads text ∧
    ∃ c rest, text.toList = c :: rest ∧ Token.isNameStart c = true

namespace Listing

theorem labelName?_label {name : String} (named : Token.IsName name.toList) :
    Section.labelName? (name ++ ":") = some name := by
  have written : (name ++ ":").toList = name.toList ++ [':'] := String.toList_append
  have same : Text.upper (name ++ ":") = name ++ ":" := by
    rw [← String.toList_inj, Text.toList_upper, written, List.map_append, ← Text.toList_upper,
      named.upper]
    rfl
  have word : Token.IsWord .label (Text.upper (name ++ ":")).toList := by
    rw [same, written]
    exact named.isWord_label
  have undotted : (name.toList ++ [':']).dropWhile (· == '.') = name.toList ++ [':'] := by
    obtain ⟨c, rest, chars, first, _⟩ := named.cons
    rw [chars, List.cons_append, List.dropWhile_cons_of_neg]
    rw [beq_iff_eq]
    rintro rfl
    cases first
  have uncoloned : ∀ c ∈ name.toList, (c != ':') = true := by
    intro c hc
    rw [bne_iff_ne]
    rintro rfl
    cases List.all_eq_true.mp named.parts ':' hc
  rw [Section.labelName?_eq, Token.words_word word]
  simp only [if_true, same, written, undotted]
  rw [List.takeWhile_append_of_pos uncoloned, List.takeWhile_cons_of_neg (by decide),
    List.append_nil, String.ofList_toList]

theorem row_label {name : String} (named : Token.IsName name.toList) :
    (CodeItem.label name).Row (labelLine .plain name) := by
  have raw : labelLine .plain name = name ++ ":" := by
    simp only [labelLine, Palette.plain, String.empty_append, String.append_empty]
  have written : (name ++ ":").toList = name.toList ++ [':'] := String.toList_append
  have solid : ∀ c ∈ (name ++ ":").toList, Line.Solid c := by
    intro c hc
    rw [written] at hc
    rcases List.mem_append.mp hc with hc | hc
    · exact named.solid c hc
    · rw [List.mem_singleton.mp hc]
      decide
  have words : Line.SolidWords [(name ++ ":").toList] := by
    intro w hw
    rw [List.mem_singleton.mp hw]
    refine ⟨?_, solid⟩
    rw [written]
    exact List.concat_ne_nil _ _
  have content := Line.content_words (List.cons_ne_nil _ _) words [] []
    (List.forall_mem_nil _) (Or.inl rfl)
  have alone : [' '].intercalate [(name ++ ":").toList] = (name ++ ":").toList := by
    simp [List.intercalate]
  rw [alone, List.nil_append, List.append_nil] at content
  obtain ⟨c, rest, chars, first, _⟩ := named.cons
  rw [raw]
  refine ⟨Line.single_of_solid solid, name ++ ":", content, labelName?_label named, c,
    rest ++ [':'], ?_, first⟩
  rw [written, chars, List.cons_append]

/-- Solid characters of an instruction, word by word. -/
theorem solid_instruction (l : Listing) (i : Instruction) :
    Line.SolidWords ((i.opcode.mnemonic :: operandTexts .plain l i).map String.toList) := by
  rw [operandTexts_plain]
  intro w hw
  obtain ⟨s, hs, rfl⟩ := List.mem_map.mp hw
  rcases List.mem_cons.mp hs with rfl | hs
  · have named := i.opcode.mnemonic_word.1
    obtain ⟨c, rest, chars, _⟩ := named.cons
    refine ⟨?_, named.solid⟩
    rw [chars]
    exact List.cons_ne_nil c rest
  · obtain ⟨o, ho, rfl⟩ := List.mem_map.mp hs
    have written := l.written_each i o ho
    refine ⟨fun empty => ?_, written.solid⟩
    obtain ⟨c, rest, text, _⟩ := written.word.piece
    rw [Text.toList_upper, empty] at text
    cases text

/-- What stands before and after an instruction on its line. -/
theorem frame_instruction (style : Style) (plain : style.palette = .plain) (l : Listing)
    (indented : Bool) (address : Nat) (i : Instruction) :
    ∃ before after,
      (instructionLine style l indented address i).toList =
        before ++ (instructionText .plain l i).toList ++ after ∧
      (∀ c ∈ before, c = ' ') ∧ (after = [] ∨ ∃ more, after = ' ' :: ' ' :: '/' :: '/' :: more) ∧
      '\n' ∉ after := by
  refine ⟨if indented then [' ', ' ', ' ', ' '] else [],
    if style.addresses then
      ' ' :: ' ' :: '/' :: '/' :: ' ' :: '0' :: 'x' :: (Hex.address address).toList
    else [], ?_, ?_, ?_, ?_⟩
  · rw [instructionLine, plain]
    cases indented <;> cases style.addresses <;> simp [indentation, Palette.plain]
  · cases indented <;> simp
  · cases style.addresses with
    | false => exact Or.inl rfl
    | true => exact Or.inr ⟨_, rfl⟩
  · cases style.addresses with
    | false => exact List.not_mem_nil
    | true =>
      intro feed
      simp only [if_true, Hex.address, String.toList_ofList, List.mem_cons, Char.reduceEq,
        false_or] at feed
      exact Line.single_of_solid (fun c hc => (Hex.digit_of_mem hc).2.2) feed

theorem row_instruction (style : Style) (plain : style.palette = .plain) (l : Listing)
    (indented : Bool) (address : Nat) (i : Instruction) :
    (CodeItem.chunk (l.chunk i)).Row (instructionLine style l indented address i) := by
  have solid := solid_instruction l i
  have text : (instructionText .plain l i).toList =
      [' '].intercalate ((i.opcode.mnemonic :: operandTexts .plain l i).map String.toList) := by
    rw [instructionText, String.toList_intercalate]
    rfl
  obtain ⟨before, after, raw, indent, comment, unbroken⟩ :=
    frame_instruction style plain l indented address i
  refine ⟨?_, instructionText .plain l i, ?_, ?_, ?_⟩
  · rw [raw, text]
    intro feed
    rcases List.mem_append.mp feed with feed | feed
    · rcases List.mem_append.mp feed with feed | feed
      · exact absurd (indent _ feed) (by decide)
      · rcases Line.mem_intercalate feed with bad | ⟨w, hw, feed⟩
        · exact absurd bad (by decide)
        · exact Line.single_of_solid (solid w hw).2 feed
    · exact unbroken feed
  · rw [raw, text]
    exact Line.content_words (List.cons_ne_nil _ _) solid before after indent comment
  · refine ⟨?_, compile_instructionText l i⟩
    rw [instructionText, operandTexts_plain]
    exact Statement.labelName?_written (l.written_each i)
  · obtain ⟨c, rest, chars, first, _⟩ := i.opcode.mnemonic_word.1.cons
    obtain ⟨more, joined⟩ : ∃ more, [' '].intercalate
        ((i.opcode.mnemonic :: operandTexts .plain l i).map String.toList) =
          i.opcode.mnemonic.toList ++ more := by
      cases operandTexts .plain l i with
      | nil => exact ⟨[], by simp [List.intercalate]⟩
      | cons s rest => exact ⟨_, rfl⟩
    exact ⟨c, rest ++ more, by rw [text, joined, chars]; rfl, first⟩

/-- The line of the label at an address, if there is one. -/
def labelRows (l : Listing) (address : Nat) : List (CodeItem × String) :=
  ((l.label? address).map fun name => (CodeItem.label name, labelLine .plain name)).toList

/-- The lines of a listing behind its static texts, with what they are read as. -/
def rows (style : Style) (l : Listing) : List (CodeItem × String) :=
  (if style.implicitStart then []
    else [(CodeItem.label Section.startName, labelLine .plain Section.startName)]) ++
  (l.instructions.flatMap fun (address, i) =>
    labelRows l address ++
      [(CodeItem.chunk (l.chunk i),
        instructionLine style l ((indentedFrom? style l).any (· ≤ address)) address i)]) ++
  labelRows l l.stop

theorem map_snd_labelRows {style : Style} (plain : style.palette = .plain) (l : Listing)
    (address : Nat) : (labelRows l address).map Prod.snd = labelLines style l address := by
  rw [labelRows, labelLines, plain]
  cases l.label? address <;> rfl

theorem lines_eq {style : Style} (plain : style.palette = .plain) (l : Listing) :
    l.lines style = staticLines .plain l.statics ++ (rows style l).map Prod.snd := by
  have start : ((if style.implicitStart then []
      else [(CodeItem.label Section.startName, labelLine .plain Section.startName)]).map Prod.snd) =
      if style.implicitStart then [] else [labelLine .plain "_START"] := by
    cases style.implicitStart <;> rfl
  simp only [lines, rows, List.map_append, List.map_flatMap, map_snd_labelRows plain, start,
    List.map_cons, List.map_nil, plain, List.append_assoc]

theorem row_start : (CodeItem.label Section.startName).Row (labelLine .plain Section.startName) :=
  row_label ⟨by decide, by decide⟩

theorem row_of_labelRows {l : Listing} {address : Nat} {row : CodeItem × String}
    (h : row ∈ labelRows l address) : row.1.Row row.2 := by
  rw [labelRows, Option.mem_toList, Option.map_eq_some_iff] at h
  obtain ⟨name, named, rfl⟩ := h
  obtain ⟨_, rfl⟩ := label?_eq_some named
  exact row_label (isName_labelName _)

/-- Every line of code is read as what it was written for. -/
theorem row_of_rows {style : Style} (plain : style.palette = .plain) {l : Listing}
    {row : CodeItem × String} (h : row ∈ rows style l) : row.1.Row row.2 := by
  rw [rows] at h
  rcases List.mem_append.mp h with h | last
  · rcases List.mem_append.mp h with start | h
    · cases implicit : style.implicitStart with
      | true =>
        rw [implicit] at start
        cases start
      | false =>
        rw [implicit] at start
        cases List.mem_singleton.mp start
        exact row_start
    · obtain ⟨⟨address, i⟩, _, h⟩ := List.mem_flatMap.mp h
      rcases List.mem_append.mp h with label | own
      · exact row_of_labelRows label
      · cases List.mem_singleton.mp own
        exact row_instruction style plain l _ address i
  · exact row_of_labelRows last

/-- The label items at an address. -/
def labelItems (l : Listing) (address : Nat) : List CodeItem :=
  ((l.label? address).map CodeItem.label).toList

theorem map_fst_labelRows (l : Listing) (address : Nat) :
    (labelRows l address).map Prod.fst = labelItems l address := by
  rw [labelRows, labelItems]
  cases l.label? address <;> rfl

theorem map_fst_rows (style : Style) (l : Listing) :
    (rows style l).map Prod.fst =
      (if style.implicitStart then [] else [CodeItem.label Section.startName]) ++
        ((l.instructions.flatMap fun (address, i) =>
          labelItems l address ++ [CodeItem.chunk (l.chunk i)]) ++ labelItems l l.stop) := by
  have start : ((if style.implicitStart then []
      else [(CodeItem.label Section.startName, labelLine .plain Section.startName)]).map Prod.fst) =
      if style.implicitStart then [] else [CodeItem.label Section.startName] := by
    cases style.implicitStart <;> rfl
  simp only [rows, List.map_append, List.map_flatMap, map_fst_labelRows, start, List.map_cons,
    List.map_nil, List.append_assoc]

/-- The size of a chunk is the size of its instruction. -/
theorem size_chunk (l : Listing) (i : Instruction) : (l.chunk i).size = i.size := by
  rw [chunk]
  split
  · have size := Instruction.length_encode (i.withTarget 0)
    rw [Instruction.size, Instruction.opcode_withTarget] at size
    exact size
  · exact Instruction.length_encode i

/-- Places of a listing, those of its instructions and its end. -/
def places (start : Nat) (is : List Instruction) : List Nat :=
  (place start is).map Prod.fst ++ [start + span is]

theorem places_cons (start : Nat) (i : Instruction) (rest : List Instruction) :
    places start (i :: rest) = start :: places (start + i.size) rest := by
  rw [places, places, place, span_cons, ← Nat.add_assoc, List.map_cons, List.cons_append]

/-- Sections of a listing hold its instructions in order, and every label has the
address it was written for. -/
theorem collect_items (l : Listing) (start : Nat) (is : List Instruction) :
    let collected := Section.collect
      (((place start is).flatMap fun (address, i) =>
        labelItems l address ++ [CodeItem.chunk (l.chunk i)]) ++ labelItems l (start + span is))
    collected.1 ++ collected.2.flatMap Section.body = is.map l.chunk ∧
      Section.addresses (start + (collected.1.map Chunk.size).sum) collected.2 =
        (places start is).filterMap fun address =>
          (l.label? address).map fun name => (name, UInt16.ofNat address) := by
  induction is generalizing start with
  | nil =>
    simp only [place, places, span_nil, Nat.add_zero, List.flatMap_nil, List.nil_append, List.map_nil]
    rw [labelItems]
    cases named : l.label? start with
    | none => simp [Section.addresses, named]
    | some name => simp [Section.addresses, named]
  | cons i rest ih =>
    obtain ⟨bodies, table⟩ := ih (start + i.size)
    have stop : start + span (i :: rest) = start + i.size + span rest := by
      rw [span_cons, Nat.add_assoc]
    rw [places_cons, stop, place]
    simp only [List.flatMap_cons, List.append_assoc]
    generalize ((place (start + i.size) rest).flatMap fun (address, i) =>
      labelItems l address ++ [CodeItem.chunk (l.chunk i)]) ++
        labelItems l (start + i.size + span rest) = items at bodies table ⊢
    have base : start + ((l.chunk i).size + ((Section.collect items).1.map Chunk.size).sum) =
        start + i.size + ((Section.collect items).1.map Chunk.size).sum := by
      rw [size_chunk, Nat.add_assoc]
    rw [labelItems]
    cases named : l.label? start with
    | none =>
      constructor
      · simpa using bodies
      · simpa [named, base] using table
    | some name =>
      constructor
      · simpa using bodies
      · simpa [named, Section.addresses, Section.size_eq, base] using table

end Listing

end WordMachine
