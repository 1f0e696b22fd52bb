import WordMachine.Proofs.Listing.Rows
import WordMachine.Proofs.Listing.Texts

/-! From an image to its listing and back. The text of a listing without colours
is a source, and the image of that source has the static segment and the code
the listing was made of, so it has the same listing. -/
namespace WordMachine

namespace Listing

theorem labelName_injective {m n : Nat} (h : labelName m = labelName n) : m = n := by
  have chars := congrArg String.toList h
  rw [labelName, labelName, String.toList_append, String.toList_append] at chars
  have same := List.append_cancel_left chars
  rw [Nat.toList_repr, Nat.toList_repr] at same
  rw [← Nat.ofDigitChars_ten_toDigits (n := m), same, Nat.ofDigitChars_ten_toDigits]

theorem labelName_ne_start (n : Nat) : labelName n ≠ Section.startName := by
  intro same
  have chars := congrArg (fun s => s.toList[1]?) same
  have first : (labelName n).toList = '_' :: 'L' :: ("ABEL_".toList ++ n.repr.toList) := by
    simp [labelName]
  have start : Section.startName.toList[1]? = some 'S' := by decide
  rw [first, start] at chars
  exact absurd (Option.some.inj chars) (by decide)

/-- A name stands for one address. -/
theorem label?_injective {l : Listing} {a b : Nat} {name : String} (ha : l.label? a = some name)
    (hb : l.label? b = some name) : a = b := by
  obtain ⟨mema, rfl⟩ := label?_eq_some ha
  obtain ⟨memb, same⟩ := label?_eq_some hb
  have place := labelName_injective same
  rw [← List.getElem_idxOf (List.idxOf_lt_length_of_mem mema),
    ← List.getElem_idxOf (List.idxOf_lt_length_of_mem memb)]
  simp only [place]

theorem lookup_label {l : Listing} {addresses : List Nat} {address : Nat} {name : String}
    (mem : address ∈ addresses) (named : l.label? address = some name) :
    (addresses.filterMap fun a => (l.label? a).map fun n => (n, UInt16.ofNat a)).lookup name =
      some (UInt16.ofNat address) := by
  induction addresses with
  | nil => cases mem
  | cons a rest ih =>
    cases here : l.label? a with
    | none =>
      have later : address ∈ rest := by
        rcases List.mem_cons.mp mem with rfl | later
        · rw [named] at here
          cases here
        · exact later
      simpa [here] using ih later
    | some other =>
      by_cases same : name = other
      · rw [← same] at here
        rw [label?_injective named here]
        simp [here]
      · have later : address ∈ rest := by
          rcases List.mem_cons.mp mem with rfl | later
          · rw [named] at here
            cases here
            exact absurd rfl same
          · exact later
        have apart : (name == other) = false := beq_eq_false_iff_ne.mpr same
        simpa [here, List.lookup_cons, apart] using ih later

theorem lt_of_mem_place {start k : Nat} {is : List Instruction}
    (h : k ∈ (place start is).map Prod.fst) : start ≤ k ∧ k < start + span is := by
  obtain ⟨i, rest, tail⟩ := mem_map_place.mp h
  have sized := i.size_pos
  have bounds := tail.le
  rw [span_cons] at bounds
  omega

/-- Addresses of a listing increase. -/
theorem places_increasing (start : Nat) (is : List Instruction) :
    (places start is).Pairwise (· < ·) := by
  induction is generalizing start with
  | nil => exact List.pairwise_singleton _ _
  | cons i rest ih =>
    have sized := i.size_pos
    rw [places_cons, List.pairwise_cons]
    refine ⟨fun k hk => ?_, ih (start + i.size)⟩
    rcases List.mem_append.mp hk with inside | stop
    · have above := (lt_of_mem_place inside).1
      omega
    · rw [List.mem_singleton.mp stop]
      omega

theorem labels_nodup (l : Listing) (start : Nat) (is : List Instruction) :
    ((places start is).filterMap l.label?).Nodup := by
  refine List.Pairwise.filterMap l.label? ?_ (places_increasing start is)
  intro a b less m hm n hn same
  rw [same] at hm
  have equal := label?_injective hm hn
  omega

/-- The sections read back from a listing: its instructions in order, at the
addresses of its labels, perhaps behind a start section. -/
theorem ordered_rows {style : Style} {l : Listing} {start : Nat} {is : List Instruction}
    (instructions : l.instructions = place start is) (stop : l.stop = start + span is) :
    let sections := Section.ordered ((rows style l).map Prod.fst)
    sections.flatMap Section.body = is.map l.chunk ∧
      ∃ opening, (opening = [] ∨ opening = [(Section.startName, UInt16.ofNat start)]) ∧
        Section.addresses start sections = opening ++ (places start is).filterMap fun address =>
          (l.label? address).map fun name => (name, UInt16.ofNat address) := by
  obtain ⟨bodies, table⟩ := collect_items l start is
  rw [map_fst_rows, instructions, stop]
  generalize ((place start is).flatMap fun p =>
    labelItems l p.1 ++ [CodeItem.chunk (l.chunk p.2)]) ++ labelItems l (start + span is) =
      items at bodies table ⊢
  cases style.implicitStart with
  | false =>
    have opened : Section.ordered ([CodeItem.label Section.startName] ++ items) =
        ⟨Section.startName, (Section.collect items).1⟩ :: (Section.collect items).2 := rfl
    simp only [Bool.false_eq_true, if_false, opened]
    exact ⟨bodies, [(Section.startName, UInt16.ofNat start)], Or.inr rfl,
      by rw [← table]; rfl⟩
  | true =>
    simp only [if_true, List.nil_append, Section.ordered]
    cases empty : (Section.collect items).1.isEmpty with
    | true =>
      rw [List.isEmpty_iff.mp empty] at bodies table
      exact ⟨bodies, [], Or.inl rfl, table⟩
    | false =>
      exact ⟨bodies, [(Section.startName, UInt16.ofNat start)], Or.inr rfl, by rw [← table]; rfl⟩

/-- What a listed instruction compiles to is one instruction. -/
theorem sound_chunk (l : Listing) (i : Instruction) : (l.chunk i).Sound := by
  rw [chunk]
  split
  · next name labelled =>
    obtain ⟨t, aimed, _⟩ := Option.bind_eq_some_iff.mp labelled
    refine .toLabel name ?_
    rw [Instruction.opcode_withTarget]
    exact (Instruction.target?_eq_some.mp aimed).2
  · exact .ofInstruction i

/-- The instruction with its target, if that has a label, sent elsewhere. -/
def retarget (l : Listing) (f : Word → Word) (i : Instruction) : Instruction :=
  match i.target? with
  | some t => if (l.label? t.toNat).isSome then i.withTarget (f t) else i
  | none => i

theorem retarget_eq_self {l : Listing} {f : Word → Word} {i : Instruction} :
    l.retarget f i = i ↔ ∀ t ∈ i.target?, (l.label? t.toNat).isSome = true → f t = t := by
  rw [retarget]
  cases aimed : i.target? with
  | none => simp
  | some t =>
    simp only [Option.mem_def, Option.some.injEq, forall_eq']
    cases (l.label? t.toNat).isSome with
    | false => simp
    | true =>
      simp only [if_true, forall_const]
      constructor
      · intro same
        have target := i.target?_withTarget (f t)
        rw [same, aimed] at target
        exact (Option.some.inj target).symm
      · intro fixed
        rw [fixed]
        obtain ⟨operands, takes⟩ := Instruction.target?_eq_some.mp aimed
        obtain ⟨opcode, _, fits⟩ := i
        subst operands
        simp only [Instruction.withTarget, takes, if_true]

/-- The code of a listing with its labelled targets sent elsewhere. -/
def codeTo (l : Listing) (f : Word → Word) : List UInt8 :=
  l.instructions.flatMap fun e => (l.retarget f e.2).encode

theorem codeTo_place {l : Listing} {start : Nat} {is : List Instruction}
    (instructions : l.instructions = place start is) (f : Word → Word) :
    l.codeTo f = (is.map (l.retarget f)).flatMap Instruction.encode := by
  rw [codeTo, instructions, flatMap_place fun i => (l.retarget f i).encode, List.flatMap_map]

theorem opcode_retarget (l : Listing) (f : Word → Word) (i : Instruction) :
    (l.retarget f i).opcode = i.opcode := by
  rw [retarget]
  split
  · split
    · exact Instruction.opcode_withTarget i _
    · rfl
  · rfl

theorem span_retarget (l : Listing) (f : Word → Word) (is : List Instruction) :
    span (is.map (l.retarget f)) = span is := by
  rw [span, span, List.map_map]
  congr 1
  apply List.map_congr_left
  intro i _
  rw [Function.comp, Instruction.size, opcode_retarget, Instruction.size]

/-- Linked at other addresses of the labels, a chunk is the instruction that
leads there. -/
theorem linked_chunk {l : Listing} {addressOf : String → Option Word} (f : Word → Word)
    (i : Instruction)
    (resolved : ∀ t ∈ i.target?, ∀ name ∈ l.label? t.toNat, addressOf name = some (f t)) :
    (l.chunk i).linked? addressOf = some (l.retarget f i) := by
  rw [chunk]
  split
  · next name labelled =>
    obtain ⟨t, aimed, named⟩ := Option.bind_eq_some_iff.mp labelled
    obtain ⟨operands, takes⟩ := Instruction.target?_eq_some.mp aimed
    rw [Chunk.linked?_toLabel, resolved t aimed name named, Option.map_some, retarget, aimed]
    obtain ⟨opcode, _, fits⟩ := i
    subst operands
    simp only [Instruction.withTarget, takes, if_true, named, Option.isSome_some]
  · next unlabelled =>
    rw [Chunk.linked?_ofInstruction, retarget]
    cases aimed : i.target? with
    | none => rfl
    | some t =>
      have absent : l.label? t.toNat = none := by
        simpa [targetLabel?, aimed] using unlabelled
      simp only [absent, Option.isSome_none, Bool.false_eq_true, if_false]

/-- Section names of a listing differ, and the start section is the first if any. -/
theorem names_rows {style : Style} {l : Listing} {start : Nat} {is : List Instruction}
    (instructions : l.instructions = place start is) (stop : l.stop = start + span is) :
    let names := (Section.ordered ((rows style l).map Prod.fst)).map Section.name
    names.Nodup ∧ Section.startName ∉ names.tail := by
  obtain ⟨_, opening, opened, table⟩ := @ordered_rows style l start is instructions stop
  have labels : ((places start is).filterMap fun address =>
      (l.label? address).map fun name => (name, UInt16.ofNat address)).map Prod.fst =
        (places start is).filterMap l.label? := by
    rw [List.map_filterMap]
    congr 1
    funext address
    cases l.label? address <;> rfl
  have unstarted : Section.startName ∉ (places start is).filterMap l.label? := by
    intro mem
    obtain ⟨address, _, named⟩ := List.mem_filterMap.mp mem
    exact labelName_ne_start _ (label?_eq_some named).2.symm
  have once := labels_nodup l start is
  intro names
  have listed : names = opening.map Prod.fst ++ (places start is).filterMap l.label? := by
    rw [← labels, ← List.map_append, ← table, Section.map_fst_addresses]
  rw [listed]
  rcases opened with rfl | rfl
  · exact ⟨once, fun mem => unstarted (List.mem_of_mem_tail mem)⟩
  · exact ⟨List.nodup_cons.mpr ⟨unstarted, once⟩, unstarted⟩

/-- A target with a label is a place of the listing. -/
theorem mem_places_of_label {image : Image} {l : Listing} {is : List Instruction}
    (listed : l.labels = findLabels (place image.codeOffset is) (image.codeOffset + span is))
    {address : Nat} {name : String} (named : l.label? address = some name) :
    address ∈ places image.codeOffset is := by
  have mem := (label?_eq_some named).1
  rw [listed] at mem
  rw [places, List.mem_append, List.mem_singleton]
  exact (mem_findLabels.mp mem).2

/-- Where a word leads once the code it points into, behind static data of size
`old`, lies behind static data of size `new`. -/
def relocate (old new : Nat) (t : Word) : Word := t - UInt16.ofNat old + UInt16.ofNat new

theorem relocate_self (size : Nat) (t : Word) : relocate size size t = t :=
  UInt16.sub_add_cancel t _

theorem relocate_add (old new base : Nat) :
    relocate old new (UInt16.ofNat (old + base)) = UInt16.ofNat (new + base) := by
  rw [relocate, UInt16.ofNat_add, UInt16.ofNat_add, UInt16.add_comm (.ofNat old),
    UInt16.add_sub_cancel, UInt16.add_comm]

/-- Linked behind other static data, every label has moved by the difference in size. -/
theorem addresses_relocate (old new base : Nat) (sections : List (Section Chunk)) :
    Section.addresses (new + base) sections =
      (Section.addresses (old + base) sections).map fun e => (e.1, relocate old new e.2) := by
  induction sections generalizing base with
  | nil => rfl
  | cons s rest ih =>
    rw [Section.addresses, Section.addresses, List.map_cons, relocate_add, Nat.add_assoc,
      Nat.add_assoc, ih]

theorem lookup_relocate {old new : Nat} {name : String} {t : Word} (table : List (String × Word))
    (found : table.lookup name = some t) :
    (table.map fun e => (e.1, relocate old new e.2)).lookup name = some (relocate old new t) := by
  induction table with
  | nil => cases found
  | cons e rest ih =>
    rw [List.lookup_cons] at found
    rw [List.map_cons, List.lookup_cons]
    cases same : name == e.1 with
    | true =>
      rw [same] at found
      cases found
      rfl
    | false =>
      rw [same] at found
      exact ih found

/-- A label of a listing is linked at the address it stands for. -/
theorem lookup_rows (style : Style) {image : Image} {l : Listing} (listed : ofImage image = .ok l)
    {t : Word} {name : String} (named : l.label? t.toNat = some name) :
    (Section.addresses image.codeOffset
      (Section.ordered ((rows style l).map Prod.fst))).lookup name = some t := by
  obtain ⟨is, _, _, instructions, stop, labels⟩ := parts_of_ofImage listed
  obtain ⟨_, opening, opened, table⟩ := @ordered_rows style l image.codeOffset is instructions stop
  have found := lookup_label (mem_places_of_label labels named) named
  rw [UInt16.ofNat_toNat] at found
  have start : (name == Section.startName) = false := by
    rw [beq_eq_false_iff_ne, (label?_eq_some named).2]
    exact labelName_ne_start _
  rw [table]
  rcases opened with rfl | rfl
  · exact found
  · rw [List.singleton_append, List.lookup_cons, start]
    exact found

/-- Linking the sections of a listing behind some static data gives its code with
every labelled target moved by as much as the code has moved. -/
theorem link_rows (style : Style) {image : Image} {l : Listing} (listed : ofImage image = .ok l)
    (statics : List UInt8) (fits : statics.length + image.code.length ≤ maxPayload) :
    LinkedProgram.link statics (Section.ordered ((rows style l).map Prod.fst)) =
      .ok ⟨statics, l.codeTo (relocate image.statics.length statics.length),
        Section.addresses statics.length (Section.ordered ((rows style l).map Prod.fst))⟩ := by
  obtain ⟨is, code, _, instructions, stop, _⟩ := parts_of_ofImage listed
  obtain ⟨bodies, _⟩ := @ordered_rows style l image.codeOffset is instructions stop
  have sound : ∀ s ∈ Section.ordered ((rows style l).map Prod.fst), ∀ c ∈ s.body, c.Sound := by
    intro s hs c hc
    have mem : c ∈ is.map l.chunk := by
      rw [← bodies]
      exact List.mem_flatMap.mpr ⟨s, hs, hc⟩
    obtain ⟨i, _, rfl⟩ := List.mem_map.mp mem
    exact sound_chunk l i
  generalize moved : relocate image.statics.length statics.length = f
  refine (LinkedProgram.link_eq_ok sound).mpr
    ⟨is.map (l.retarget f), ?_, ?_, by rw [codeTo_place instructions]⟩
  · rw [bodies, List.map_map, List.map_map]
    apply List.map_congr_left
    intro i _
    refine linked_chunk f i fun t _ name named => ?_
    have table := addresses_relocate image.statics.length statics.length 0
      (Section.ordered ((rows style l).map Prod.fst))
    rw [Nat.add_zero, Nat.add_zero] at table
    rw [table, ← moved]
    exact lookup_relocate _ (lookup_rows style listed named)
  · rw [span_retarget, ← length_flatMap_encode, ← code]
    exact fits

/-- Code is the same if every instruction of it is. -/
theorem codeTo_eq_code {image : Image} {l : Listing} (listed : ofImage image = .ok l)
    {f : Word → Word} :
    l.codeTo f = image.code ↔ ∀ e ∈ l.instructions, l.retarget f e.2 = e.2 := by
  obtain ⟨is, code, _, instructions, _⟩ := parts_of_ofImage listed
  have each : is.map (l.retarget f) = is.map id ↔ ∀ i ∈ is, l.retarget f i = id i :=
    List.map_inj_left
  have listedAll : (∀ i ∈ is, l.retarget f i = i) ↔ ∀ e ∈ l.instructions, l.retarget f e.2 = e.2 := by
    rw [instructions, ← map_snd_place image.codeOffset is, List.forall_mem_map, map_snd_place]
  rw [List.map_id] at each
  rw [← listedAll, codeTo_place instructions, code]
  exact ⟨fun same => each.mp (flatMap_encode_injective same),
    fun fixed => congrArg _ (each.mpr fixed)⟩

theorem length_codeTo {image : Image} {l : Listing} (listed : ofImage image = .ok l)
    (f : Word → Word) : (l.codeTo f).length = image.code.length := by
  obtain ⟨is, code, _, instructions, _⟩ := parts_of_ofImage listed
  rw [codeTo_place instructions, code, length_flatMap_encode, length_flatMap_encode, span_retarget]

/-- Behind the same static data nothing has moved. -/
theorem codeTo_unmoved {image : Image} {l : Listing} (listed : ofImage image = .ok l) (size : Nat) :
    l.codeTo (relocate size size) = image.code :=
  (codeTo_eq_code listed).mpr fun _ _ => retarget_eq_self.mpr fun t _ _ => relocate_self size t

/-- A line that begins with a name is code. -/
theorem code_of_name {line : Line} {c : Char} {rest : List Char}
    (chars : line.text.toList = c :: rest) (first : Token.isNameStart c = true) :
    Separation.isMarker line = false ∧ Separation.isDeclaration line = false := by
  have part : Token.isNamePart c = true := by
    rw [Token.isNamePart, first, Bool.true_or]
  constructor
  · rw [Separation.isMarker, ← Bool.not_eq_true, Text.sameLetters_iff, ← String.toList_inj,
      Text.toList_upper, chars, List.map_cons, Token.toUpper_of_isNamePart part]
    intro same
    cases (List.cons.inj same).1
    cases first
  · rw [Separation.isDeclaration, chars, List.head?_cons, beq_eq_false_iff_ne]
    intro same
    cases Option.some.inj same
    cases first

theorem declaration_of_text {line : Line} {offset : Nat} (small : offset < 0x10000) {text : String}
    (written : line.text = StaticData.declaration offset text) :
    Separation.isMarker line = false ∧ Separation.isDeclaration line = true := by
  have chars := StaticData.toList_declaration small text
  rw [← written] at chars
  constructor
  · rw [Separation.isMarker, ← Bool.not_eq_true, Text.sameLetters_iff, ← String.toList_inj,
      Text.toList_upper, chars, List.map_cons]
    intro same
    exact absurd (List.cons.inj same).1 (by decide)
  · rw [Separation.isDeclaration, chars, List.head?_cons]
    decide

/-- Of every line of code its content is left. -/
def contents (style : Style) (l : Listing) : List (CodeItem × String) :=
  (rows style l).map fun row => (row.1, String.ofList (Line.content row.2.toList))

theorem reads_contents {style : Style} (plain : style.palette = .plain) {l : Listing}
    {row : CodeItem × String} (h : row ∈ contents style l) :
    row.1.Reads row.2 ∧ ∃ c rest, row.2.toList = c :: rest ∧ Token.isNameStart c = true := by
  obtain ⟨raw, hraw, rfl⟩ := List.mem_map.mp h
  obtain ⟨text, content, reads, named⟩ := (row_of_rows plain hraw).read
  rw [content, String.ofList_toList]
  exact ⟨reads, named⟩

theorem offset_lt_of_place {start offset : Nat} {texts : List (List UInt8)} {t : List UInt8}
    (h : (offset, t) ∈ StaticListing.place start texts) :
    offset < start + (StaticListing.pack texts).length ∧ t ∈ texts := by
  induction texts generalizing start with
  | nil => cases h
  | cons u rest ih =>
    rw [StaticListing.pack, List.flatMap_cons, List.cons_append, List.length_cons,
      List.length_append]
    rcases List.mem_cons.mp h with first | later
    · cases first
      exact ⟨by omega, List.mem_cons_self⟩
    · obtain ⟨before, mem⟩ := ih later
      rw [StaticListing.pack] at before
      exact ⟨by omega, List.mem_cons_of_mem u mem⟩

/-- The static lines of a listing that has texts. -/
def headLines (texts : List (List UInt8)) : List String :=
  (StaticListing.place 0 texts).map fun (o, t) => StaticData.declaration o (StaticListing.textOf t)

theorem staticLines_pack {texts : List (List UInt8)} (printable : StaticListing.Printable texts)
    (fits : (StaticListing.pack texts).length ≤ maxPayload) :
    staticLines .plain (StaticListing.ofBytes (StaticListing.pack texts)) =
      if texts = [] then [] else Separation.marker :: headLines texts := by
  rw [StaticListing.ofBytes_pack printable]
  split
  · rfl
  · simp only [staticLines, headLines, List.map_map, Separation.marker, List.cons.injEq, true_and]
    apply List.map_congr_left
    intro placed mem
    have small : placed.1 < 0x10000 := by
      have before := (offset_lt_of_place mem).1
      simp only [maxPayload] at fits
      omega
    simp [StaticData.declaration, Palette.plain, Nat.mod_eq_of_lt small]

theorem mem_headLines {texts : List (List UInt8)} (printable : StaticListing.Printable texts)
    (fits : (StaticListing.pack texts).length ≤ maxPayload) {s : String} (h : s ∈ headLines texts) :
    ∃ offset t, offset < 0x10000 ∧ t ∈ texts ∧
      s = StaticData.declaration offset (StaticListing.textOf t) ∧
      '\n' ∉ s.toList ∧ Line.content s.toList = s.toList := by
  obtain ⟨⟨offset, t⟩, placed, rfl⟩ := List.mem_map.mp h
  obtain ⟨before, mem⟩ := offset_lt_of_place placed
  have small : offset < 0x10000 := by
    simp only [maxPayload] at fits
    omega
  obtain ⟨_, chars⟩ := StaticListing.textOf_chars (printable t mem).2
  exact ⟨offset, t, small, mem, rfl,
    StaticData.single_declaration small fun c hc => (chars c hc).2.2,
    StaticData.content_declaration small fun c hc => (chars c hc).2.1⟩

theorem filled_rows {style : Style} (plain : style.palette = .plain) {l : Listing} :
    ∀ s ∈ (rows style l).map Prod.snd, '\n' ∉ s.toList ∧ Line.content s.toList ≠ [] := by
  intro s hs
  obtain ⟨row, hrow, rfl⟩ := List.mem_map.mp hs
  obtain ⟨text, content, _, c, rest, chars, _⟩ := (row_of_rows plain hrow).read
  refine ⟨(row_of_rows plain hrow).single, ?_⟩
  rw [content, chars]
  exact List.cons_ne_nil _ _

/-- What is left of the text of a listing: its declarations, then its code. -/
theorem normalize_text {style : Style} (plain : style.palette = .plain) {l : Listing}
    {texts : List (List UInt8)} (printable : StaticListing.Printable texts)
    (fits : (StaticListing.pack texts).length ≤ maxPayload)
    (statics : l.statics = StaticListing.ofBytes (StaticListing.pack texts)) :
    (Line.normalize (l.text style)).map Line.text =
      (if texts = [] then [] else Separation.marker :: headLines texts) ++
        (contents style l).map Prod.snd := by
  have written := lines_eq plain l
  rw [statics, staticLines_pack printable fits] at written
  have head : ∀ s ∈ (if texts = [] then [] else Separation.marker :: headLines texts),
      '\n' ∉ s.toList ∧ Line.content s.toList = s.toList ∧ s.toList ≠ [] := by
    intro s hs
    split at hs
    · cases hs
    · rcases List.mem_cons.mp hs with rfl | hs
      · decide
      · obtain ⟨offset, t, small, _, rfl, single, content⟩ := mem_headLines printable fits hs
        refine ⟨single, content, ?_⟩
        rw [StaticData.toList_declaration small]
        exact List.cons_ne_nil _ _
  have code := filled_rows plain (l := l)
  rw [text, written, Line.map_text_normalize_filled, List.map_append]
  · congr 1
    · have same : ∀ s ∈ (if texts = [] then [] else Separation.marker :: headLines texts),
          String.ofList (Line.content s.toList) = s := by
        intro s hs
        rw [(head s hs).2.1, String.ofList_toList]
      rw [List.map_congr_left same, List.map_id']
    · rw [contents, List.map_map, List.map_map]
      rfl
  · intro s hs
    rcases List.mem_append.mp hs with hs | hs
    · exact (head s hs).1
    · exact (code s hs).1
  · intro s hs
    rcases List.mem_append.mp hs with hs | hs
    · rw [(head s hs).2.1]
      exact (head s hs).2.2
    · exact (code s hs).2

/-- Lines that hold the code of a listing are read as code. -/
theorem code_of_contents {style : Style} (plain : style.palette = .plain) {l : Listing}
    {lines : List Line} (same : lines.map Line.text = (contents style l).map Prod.snd) :
    ∀ line ∈ lines, Separation.isMarker line = false ∧ Separation.isDeclaration line = false := by
  intro line hline
  have mem : line.text ∈ (contents style l).map Prod.snd := by
    rw [← same]
    exact List.mem_map_of_mem hline
  obtain ⟨row, hrow, text⟩ := List.mem_map.mp mem
  obtain ⟨_, c, rest, chars, first⟩ := reads_contents plain hrow
  rw [text] at chars
  exact code_of_name chars first

/-- Without declarations all lines are code. -/
theorem separate_contents {style : Style} (plain : style.palette = .plain) {l : Listing}
    (left : (Line.normalize (l.text style)).map Line.text = (contents style l).map Prod.snd) :
    Separation.ofLines (Line.normalize (l.text style)) =
      ⟨[], Line.normalize (l.text style)⟩ := by
  rw [Separation.ofLines, Separation.read_code (code_of_contents plain left)]
  rfl

/-- The text of a listing told apart into its declarations and its code. -/
theorem separate_text {style : Style} (plain : style.palette = .plain) {l : Listing}
    {texts : List (List UInt8)} (printable : StaticListing.Printable texts)
    (fits : (StaticListing.pack texts).length ≤ maxPayload)
    (statics : l.statics = StaticListing.ofBytes (StaticListing.pack texts)) :
    let separated := Separation.ofLines (Line.normalize (l.text style))
    separated.declarations.map Line.text = headLines texts ∧
      separated.code.map Line.text = (contents style l).map Prod.snd := by
  have left := normalize_text plain printable fits statics
  by_cases empty : texts = []
  · subst empty
    rw [if_pos rfl, List.nil_append] at left
    rw [separate_contents plain left]
    exact ⟨rfl, left⟩
  · rw [if_neg empty, List.cons_append] at left
    obtain ⟨marker, others, split, marked, texts_eq⟩ := List.map_eq_cons_iff.mp left
    obtain ⟨declarations, code, rfl, declared, coded⟩ := List.map_eq_append_iff.mp texts_eq
    have isMarker : Separation.isMarker marker = true := by
      rw [Separation.isMarker, marked]
      decide
    have isDeclared : ∀ line ∈ declarations,
        Separation.isMarker line = false ∧ Separation.isDeclaration line = true := by
      intro line hline
      have mem : line.text ∈ headLines texts := by
        rw [← declared]
        exact List.mem_map_of_mem hline
      obtain ⟨offset, t, small, _, written, _⟩ := mem_headLines printable fits mem
      exact declaration_of_text small written
    rw [split, Separation.ofLines_block isMarker isDeclared (code_of_contents plain coded)]
    exact ⟨declared, coded⟩

/-- The source a listing is, once its declarations are told apart from its code. -/
theorem ofSource_separated {style : Style} (plain : style.palette = .plain) {image : Image}
    {l : Listing} (listed : ofImage image = .ok l) {declarations code : List Line}
    (separated : Separation.ofLines (Line.normalize (l.text style)) = ⟨declarations, code⟩)
    {statics : StaticData}
    (declared : declarations.foldlM StaticData.declare StaticData.empty = .ok statics)
    (coded : code.map Line.text = (contents style l).map Prod.snd) :
    Assembly.ofSource (l.text style) =
      .ok ⟨statics, Section.ordered ((rows style l).map Prod.fst)⟩ := by
  obtain ⟨is, _, _, instructions, stop, _⟩ := parts_of_ofImage listed
  have items : (contents style l).map Prod.fst = (rows style l).map Prod.fst := by
    rw [contents, List.map_map]
    rfl
  obtain ⟨once, first⟩ := @names_rows style l image.codeOffset is instructions stop
  rw [← items] at once first
  obtain ⟨sections, partitioned, compiled⟩ := Section.partition_eq_ok
    (fun row hrow => (reads_contents plain hrow).1) coded once first
  rw [items] at compiled
  simp only [Assembly.ofSource, separated, declared, partitioned, compiled]

/-- The source a listing is: its texts by name, its code section by section. -/
theorem ofSource_text {style : Style} (plain : style.palette = .plain) {image : Image}
    {l : Listing} (listed : ofImage image = .ok l) {texts : List (List UInt8)}
    (printable : StaticListing.Printable texts) (packed : image.statics = StaticListing.pack texts) :
    Assembly.ofSource (l.text style) =
      .ok ⟨⟨(StaticListing.place 0 texts).map fun (o, t) => (StaticData.nameAt o, t)⟩,
        Section.ordered ((rows style l).map Prod.fst)⟩ := by
  obtain ⟨_, _, statics, _⟩ := parts_of_ofImage listed
  have fits : (StaticListing.pack texts).length ≤ maxPayload := by
    have small := image.fits
    rw [packed] at small
    omega
  rw [packed] at statics
  obtain ⟨declared, coded⟩ := separate_text plain printable fits statics
  have entries := @StaticData.foldlM_declare texts 0 [] _ printable (by omega) nofun declared
  exact ofSource_separated plain listed rfl entries coded

/-- Assembling the text of an image without colours gives an image with a header
without options, the same static segment and the same code, and so the same text. -/
theorem assemble_text {style : Style} (plain : style.palette = .plain) {image : Image}
    {source : String} (written : (ofImage image).map (text style) = .ok source)
    (readable : ∃ texts, StaticListing.Printable texts ∧
      image.statics = StaticListing.pack texts) :
    ∃ bytes again, assemble source = .ok bytes ∧ Image.ofBytes bytes = .ok again ∧
      again.statics = image.statics ∧ again.code = image.code ∧ again.hasHeader = true ∧
      again.header = Header.sound 0 (UInt16.ofNat image.statics.length) ∧
      (ofImage again).map (text style) = .ok source := by
  obtain ⟨l, listed, rfl⟩ := Result.map_eq_ok.mp written
  obtain ⟨texts, printable, packed⟩ := readable
  have parsed := ofSource_text plain listed printable packed
  have linked := link_rows style listed image.statics image.fits
  rw [codeTo_unmoved listed] at linked
  generalize Section.ordered ((rows style l).map Prod.fst) = sections at parsed linked
  have assembled : assemble (l.text style) = .ok (LinkedProgram.toBytes
      ⟨image.statics, image.code, Section.addresses image.statics.length sections⟩) := by
    rw [packed] at linked ⊢
    simp only [assemble, parsed, Assembly.link, StaticData.toBytes_place, linked]
  -- a listing depends on the two segments only, and these are the same
  exact ⟨_, _, assembled, LinkedProgram.ofBytes_toBytes _ image.fits, rfl, rfl, rfl, rfl, written⟩

/-- A jump to the end of the code, behind a text that holds a comment sign. -/
theorem assemble_text_jump :
    let image : Image := ⟨some 7, [2, 0x2F, 0x2F, 0],
      Instruction.encode ⟨.jump .always, .imm 7, rfl⟩, nofun, by decide⟩
    let source := ".STATIC\n$S0000: \"//\"\n$S0003: \"\"\n_START:\n" ++
      "    JUMP _LABEL_0  // 0x0004\n_LABEL_0:\n"
    (ofImage image).map (text ⟨false, true, .plain⟩) = .ok source ∧
      ∃ bytes again, assemble source = .ok bytes ∧ Image.ofBytes bytes = .ok again ∧
        again.code = image.code ∧ again.header = Header.sound 0 4 := by
  intro image source
  have written : (ofImage image).map (text ⟨false, true, .plain⟩) = .ok source :=
    Result.eq_ok_of_toOption (by decide +kernel)
  have readable : ∃ texts, StaticListing.Printable texts ∧
      image.statics = StaticListing.pack texts := by
    refine ⟨[[0x2F, 0x2F], []], ?_, rfl⟩
    unfold StaticListing.Printable
    decide
  obtain ⟨bytes, again, assembled, read, _, code, _, header, _⟩ :=
    assemble_text rfl written readable
  exact ⟨written, bytes, again, assembled, read, code, header⟩

end Listing

end WordMachine
