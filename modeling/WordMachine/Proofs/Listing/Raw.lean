import WordMachine.Proofs.Listing.RoundTrip

/-! Listings that leave static data out. A segment that is not made of printable
texts is only mentioned in a comment, so the text of the listing is a source
without static data. Its code is linked from address 0 on, and every label of it
has come down by the size of the segment. -/
namespace WordMachine

namespace Listing

/-- The line that mentions static data has no content. -/
theorem content_staticLines (size : Nat) :
    ∀ s ∈ staticLines .plain (.raw size), '\n' ∉ s.toList ∧ Line.content s.toList = [] := by
  intro s hs
  obtain rfl := List.mem_singleton.mp hs
  have chars : (Palette.plain.dim ++ "// static segment: " ++ size.repr ++
      " bytes with no string-literal form" ++ Palette.plain.reset).toList =
      "// static segment: ".toList ++ size.repr.toList ++
        " bytes with no string-literal form".toList := by
    simp [Palette.plain]
  rw [chars]
  refine ⟨?_, rfl⟩
  simp only [List.mem_append, not_or]
  refine ⟨⟨by decide, fun feed => ?_⟩, by decide⟩
  rw [Nat.toList_repr] at feed
  exact absurd (Nat.isDigit_of_mem_toDigits (by decide) (by decide) feed) (by decide)

/-- Of a listing that mentions its static data only the code is left. -/
theorem normalize_text_raw {style : Style} (plain : style.palette = .plain) {l : Listing}
    {size : Nat} (raw : l.statics = .raw size) :
    (Line.normalize (l.text style)).map Line.text = (contents style l).map Prod.snd := by
  have written := lines_eq plain l
  rw [raw] at written
  have comment := content_staticLines size
  have code := filled_rows plain (l := l)
  have dropped : ((staticLines .plain (.raw size)).map fun s =>
      Line.content s.toList).filter (!·.isEmpty) = [] := by
    rw [List.filter_eq_nil_iff]
    intro text htext
    obtain ⟨s, hs, rfl⟩ := List.mem_map.mp htext
    simp [(comment s hs).2]
  have kept : (((rows style l).map Prod.snd).map fun s =>
      Line.content s.toList).filter (!·.isEmpty) =
        ((rows style l).map Prod.snd).map fun s => Line.content s.toList := by
    rw [List.filter_eq_self]
    intro text htext
    obtain ⟨s, hs, rfl⟩ := List.mem_map.mp htext
    simpa using (code s hs).2
  rw [text, written, Line.map_text_normalize, List.map_append, List.filter_append, dropped, kept,
    List.nil_append, contents]
  · simp only [List.map_map]
    rfl
  · intro s hs
    rcases List.mem_append.mp hs with hs | hs
    · exact (comment s hs).1
    · exact (code s hs).1

/-- Such a listing is a source without static data. -/
theorem ofSource_text_raw {style : Style} (plain : style.palette = .plain) {image : Image}
    {l : Listing} (listed : ofImage image = .ok l) {size : Nat} (raw : l.statics = .raw size) :
    Assembly.ofSource (l.text style) =
      .ok ⟨StaticData.empty, Section.ordered ((rows style l).map Prod.fst)⟩ := by
  have left := normalize_text_raw plain raw
  exact ofSource_separated plain listed (separate_contents plain left) rfl left

/-- A target has a label if it is the start of an instruction or the end of the code. -/
theorem isSome_label {image : Image} {l : Listing} (listed : ofImage image = .ok l)
    {e : Nat × Instruction} (mem : e ∈ l.instructions) {t : Word} (aimed : e.2.target? = some t) :
    (l.label? t.toNat).isSome = true ↔
      t.toNat ∈ l.instructions.map Prod.fst ∨ t.toNat = l.stop := by
  obtain ⟨is, _, _, instructions, stop, labels⟩ := parts_of_ofImage listed
  rw [← instructions, ← stop] at labels
  rw [isSome_label?_iff, labels, mem_findLabels]
  exact and_iff_right (mem_targets.mpr ⟨e, mem, t, aimed, rfl⟩)

/-- Nothing stays where it is when code moves by part of the address space. -/
theorem relocate_ne {size : Nat} (moves : 0 < size) (small : size < 0x10000) (t : Word) :
    relocate size 0 t ≠ t := by
  intro same
  have values := congrArg UInt16.toNat same
  have range := t.toNat_lt
  rw [relocate, UInt16.toNat_add, UInt16.toNat_sub, UInt16.toNat_ofNat', UInt16.toNat_ofNat']
    at values
  omega

/-- Static data without a string form is left out of the text of an image, and
assembling the text gives the code with every labelled target lower by the size
of that data. So the code is the same only if no jump and no call leads into it. -/
theorem assemble_text_raw {style : Style} (plain : style.palette = .plain) {image : Image}
    {l : Listing} (listed : ofImage image = .ok l)
    (unreadable : ¬∃ texts, StaticListing.Printable texts ∧
      image.statics = StaticListing.pack texts) :
    ∃ bytes again, assemble (l.text style) = .ok bytes ∧ Image.ofBytes bytes = .ok again ∧
      again.statics = [] ∧ again.code = l.codeTo (relocate image.statics.length 0) ∧
      (again.code = image.code ↔ ∀ e ∈ l.instructions, ∀ t ∈ e.2.target?,
        t.toNat ∉ l.instructions.map Prod.fst ∧ t.toNat ≠ l.stop) := by
  obtain ⟨_, _, statics, _⟩ := parts_of_ofImage listed
  obtain ⟨filled, raw⟩ := StaticListing.ofBytes_raw unreadable
  rw [raw] at statics
  have parsed := ofSource_text_raw plain listed statics
  have fits := image.fits
  have room : ([] : List UInt8).length + image.code.length ≤ maxPayload := by
    rw [List.length_nil]
    omega
  have linked := link_rows style listed [] room
  rw [← length_codeTo listed (relocate image.statics.length 0)] at room
  have assembled : assemble (l.text style) = .ok (LinkedProgram.toBytes
      ⟨[], l.codeTo (relocate image.statics.length 0), Section.addresses 0
        (Section.ordered ((rows style l).map Prod.fst))⟩) := by
    have nothing : StaticData.empty.toBytes = [] := rfl
    simp only [assemble, parsed, Assembly.link, nothing, linked, List.length_nil]
  refine ⟨_, _, assembled, LinkedProgram.ofBytes_toBytes _ room, rfl, rfl, ?_⟩
  have moved : ∀ t, relocate image.statics.length 0 t ≠ t := by
    refine relocate_ne (List.length_pos_iff.mpr filled) ?_
    simp only [maxPayload] at fits
    omega
  rw [codeTo_eq_code listed]
  refine forall₂_congr fun e he => retarget_eq_self.trans (forall₂_congr fun t aimed => ?_)
  rw [isSome_label listed he aimed, ← not_or]
  exact imp_congr_right fun _ => iff_of_false (moved t) id

/-- A jump to a number that is no place of the code survives. -/
theorem assemble_text_raw_number :
    let image : Image := ⟨some 0, [5], Instruction.encode ⟨.jump .always, .imm 0x0200, rfl⟩,
      nofun, by decide⟩
    ∃ l bytes again, ofImage image = .ok l ∧ assemble (l.text ⟨true, false, .plain⟩) = .ok bytes ∧
      Image.ofBytes bytes = .ok again ∧ again.code = image.code := by
  intro image
  have listed : ofImage image = .ok ⟨.raw 1, [(1, ⟨.jump .always, .imm 0x0200, rfl⟩)], [], 4⟩ :=
    Result.eq_ok_of_toOption (by decide +kernel)
  have unreadable : ¬∃ texts, StaticListing.Printable texts ∧
      image.statics = StaticListing.pack texts :=
    (@StaticListing.readTexts_eq_none 0 [] image.statics).mp (by decide +kernel)
  obtain ⟨bytes, again, assembled, read, _, _, same⟩ :=
    @assemble_text_raw ⟨true, false, .plain⟩ rfl image _ listed unreadable
  refine ⟨_, bytes, again, listed, assembled, read, same.mpr fun e he t aimed => ?_⟩
  cases List.mem_singleton.mp he
  cases aimed
  decide

/-- A jump to itself does not, since the code has come down to address 0. -/
theorem assemble_text_raw_moved :
    let image : Image := ⟨some 0, [5], Instruction.encode ⟨.jump .always, .imm 1, rfl⟩,
      nofun, by decide⟩
    (¬∃ texts, StaticListing.Printable texts ∧ image.statics = StaticListing.pack texts) ∧
      ∃ l bytes again, ofImage image = .ok l ∧
        assemble (l.text ⟨false, false, .plain⟩) = .ok bytes ∧ Image.ofBytes bytes = .ok again ∧
        again.code = Instruction.encode ⟨.jump .always, .imm 0, rfl⟩ ∧
        again.code ≠ image.code := by
  intro image
  have listed : ofImage image = .ok ⟨.raw 1, [(1, ⟨.jump .always, .imm 1, rfl⟩)], [1], 4⟩ :=
    Result.eq_ok_of_toOption (by decide +kernel)
  have assembled : assemble (text ⟨false, false, .plain⟩
      ⟨.raw 1, [(1, ⟨.jump .always, .imm 1, rfl⟩)], [1], 4⟩) =
        .ok (LinkedProgram.toBytes ⟨[], [0x20, 0, 0], []⟩) :=
    Result.eq_ok_of_toOption (by decide +kernel)
  exact ⟨(@StaticListing.readTexts_eq_none 0 [] image.statics).mp (by decide +kernel), _, _, _,
    listed, assembled, LinkedProgram.ofBytes_toBytes _ (by decide), by decide, by decide⟩

end Listing

end WordMachine
