import Mathlib.Data.List.Forall2
import WordMachine.Proofs.Assembly.Link
import WordMachine.Proofs.Assembly.Naming

/-! The layout of a linked program. Sections lie one after the other behind the
static segment, so the address of each is the number of bytes before it, and the
code is that of the compiled instructions with nothing but the addresses of
labels filled in. -/
namespace WordMachine

namespace Section

/-- The address of a section is where the sections before it end. -/
theorem getElem?_addresses {base k : Nat} {sections : List (Section Chunk)} {s : Section Chunk}
    (h : sections[k]? = some s) :
    (addresses base sections)[k]? =
      some (s.name, UInt16.ofNat (base + ((sections.take k).map size).sum)) := by
  induction sections generalizing base k with
  | nil => cases h
  | cons t rest ih =>
    cases k with
    | zero =>
      cases h
      rfl
    | succ k =>
      rw [List.getElem?_cons_succ] at h
      rw [addresses, List.getElem?_cons_succ, ih h, List.take_succ_cons, List.map_cons,
        List.sum_cons, Nat.add_assoc]

theorem sum_size_take_le (k : Nat) (sections : List (Section Chunk)) :
    ((sections.take k).map size).sum ≤ (sections.map size).sum := by
  conv => rhs; rw [← List.take_append_drop k sections]
  rw [List.map_append, List.sum_append]
  exact Nat.le_add_right _ _

/-- Addresses never decrease, and sixteen bits hold them all. -/
theorem addresses_increase {base : Nat} {sections : List (Section Chunk)}
    (fits : base + (sections.map size).sum ≤ maxPayload) :
    (∀ e ∈ addresses base sections, base ≤ e.2.toNat) ∧
      (addresses base sections).Pairwise fun s t => s.2 ≤ t.2 := by
  induction sections generalizing base with
  | nil => exact ⟨nofun, List.Pairwise.nil⟩
  | cons s rest ih =>
    rw [List.map_cons, List.sum_cons, ← Nat.add_assoc] at fits
    obtain ⟨later, increasing⟩ := ih fits
    have first : (UInt16.ofNat base).toNat = base := by
      rw [UInt16.toNat_ofNat', Nat.mod_eq_of_lt]
      simp only [maxPayload] at fits
      omega
    constructor
    · intro e he
      rcases List.mem_cons.mp he with rfl | he
      · exact Nat.le_of_eq first.symm
      · have above := later e he
        omega
    · refine List.pairwise_cons.mpr ⟨fun e he => ?_, increasing⟩
      have above := later e he
      rw [UInt16.le_iff_toNat_le, first]
      omega

/-- Of sections with distinct names, each is found by its own. -/
theorem lookup_iff_mem {table : List (String × Word)} (once : (table.map Prod.fst).Nodup)
    {name : String} {w : Word} : table.lookup name = some w ↔ (name, w) ∈ table := by
  constructor
  · intro found
    obtain ⟨before, after, rfl, _⟩ := List.lookup_eq_some_iff.mp found
    exact List.mem_append_right before List.mem_cons_self
  · intro mem
    obtain ⟨before, after, rfl⟩ := List.append_of_mem mem
    refine List.lookup_eq_some_iff.mpr ⟨before, after, rfl, fun e he => ?_⟩
    rw [bne_iff_ne]
    intro same
    rw [List.map_append, List.map_cons, List.nodup_append] at once
    exact once.2.2 e.1 (List.mem_map_of_mem he) name List.mem_cons_self same.symm

end Section

namespace Chunk

/-- The instruction a chunk has become when labels have these addresses. -/
structure Filled (offsets : List (String × Word)) (c : Chunk) (i : Instruction) : Prop where
  size : i.encode.length = c.bytes.length
  target : ∀ r ∈ c.relocation, ∃ w, offsets.lookup r.label = some w ∧ i.operands = .imm w
  /-- A byte that does not belong to an address. -/
  byte : ∀ k, (∀ r ∈ c.relocation, k ≠ r.offset ∧ k ≠ r.offset + 1) → i.encode[k]? = c.bytes[k]?

variable {offsets : List (String × Word)}

theorem Sound.filled {c : Chunk} (sound : c.Sound) {i : Instruction}
    (linked : c.linked? (offsets.lookup ·) = some i) : c.Filled offsets i := by
  cases sound with
  | ofInstruction j =>
    rw [linked?_ofInstruction] at linked
    cases linked
    exact ⟨rfl, nofun, fun _ _ => rfl⟩
  | @toLabel j label takes =>
    rw [linked?_toLabel, Option.map_eq_some_iff] at linked
    obtain ⟨address, found, rfl⟩ := linked
    obtain ⟨long, encoded⟩ := Instruction.encode_withTarget takes address
    refine ⟨?_, ?_, ?_⟩
    · rw [Instruction.length_encode, Instruction.size, Instruction.opcode_withTarget]
      exact (Instruction.length_encode j).symm
    · rintro r ⟨⟩
      refine ⟨address, found, ?_⟩
      cases j using Instruction.byOpcode with
      | jump condition target => rfl
      | call target => rfl
      | _ => cases takes
    · intro k outside
      obtain ⟨low, high⟩ : k ≠ 1 ∧ k ≠ 2 := outside _ rfl
      rw [encoded]
      by_cases first : k = 0
      · subst first
        cases j using Instruction.byOpcode with
        | jump condition target => rfl
        | call target => rfl
        | _ => cases takes
      · have behind : 3 ≤ k := by omega
        have skipped : (j.encode.take 1 ++ address.toBytes).length = 3 := by
          rw [List.length_append, List.length_take, Word.length_toBytes]
          omega
        rw [List.getElem?_append_right (by omega), skipped, List.getElem?_drop,
          Nat.add_sub_cancel' behind]
        rfl

theorem filled_of_linked {chunks : List Chunk} {is : List Instruction}
    (sound : ∀ c ∈ chunks, c.Sound)
    (linked : chunks.map (linked? (offsets.lookup ·)) = is.map some) :
    List.Forall₂ (Filled offsets) chunks is := by
  induction chunks generalizing is with
  | nil =>
    rw [List.map_eq_nil_iff.mp linked.symm]
    exact .nil
  | cons c rest ih =>
    obtain ⟨i, is, rfl, first, others⟩ := List.map_eq_cons_iff.mp linked.symm
    exact .cons ((sound c List.mem_cons_self).filled first.symm)
      (ih (fun d hd => sound d (List.mem_cons_of_mem c hd)) others.symm)

end Chunk

/-- Linking compiled sections reports their size or a label. -/
theorem LinkedProgram.link_error {statics : List UInt8} {sections : List (Section Chunk)}
    (sound : ∀ s ∈ sections, ∀ c ∈ s.body, c.Sound) {e : LinkError}
    (h : link statics sections = .error e) :
    e = .staticSegmentTooLarge statics.length ∨
      e = .programTooLarge (statics.length + (sections.map Section.size).sum) ∨
      ∃ label, e = .undefinedLabel label := by
  rcases (link_eq_error (List.forall_mem_flatMap.mpr sound)).mp h with
    ⟨_, rfl⟩ | ⟨_, ⟨_, rfl⟩ | ⟨_, _, label, _, _, _, _, rfl⟩⟩
  · exact Or.inl rfl
  · exact Or.inr (Or.inl rfl)
  · exact Or.inr (Or.inr ⟨label, rfl⟩)

namespace Assembly

/-- The program of an assembly is laid out as it says: section by section, each
with its instructions, all labels filled in. -/
structure LaidOut (a : Assembly) (p : LinkedProgram) : Prop where
  statics : p.statics = a.statics.toBytes
  names : p.offsets.map Prod.fst = a.sections.map Section.name
  base : ∀ k s, a.sections[k]? = some s → ∃ w, p.offsets[k]? = some (s.name, w) ∧
    w.toNat = p.statics.length + ((a.sections.take k).map Section.size).sum
  increasing : p.offsets.Pairwise fun s t => s.2 ≤ t.2
  first : ∀ e ∈ p.offsets.head?, e.2.toNat = p.statics.length
  code : ∃ is, List.Forall₂ (Chunk.Filled p.offsets) (a.sections.flatMap Section.body) is ∧
    Listing.sweep p.statics.length [] p.code = .ok (Listing.place p.statics.length is) ∧
    Listing.span is = p.code.length
  offsetOf : ∀ name w, p.offsetOf? name = some w ↔
    ∃ e ∈ p.offsets, Text.sameLetters e.1 name = true ∧ e.2 = w
  image : ∃ image, Image.ofBytes p.toBytes = .ok image ∧
    Image.compose p.statics p.code = .ok image

variable {source : String} {a : Assembly}

theorem laidOut_of_link (parsed : ofSource source = .ok a) {p : LinkedProgram}
    (linked : a.link = .ok p) : a.LaidOut p := by
  have sound := sound_ofSource parsed
  obtain ⟨once, capital⟩ := names_ofSource parsed
  obtain ⟨is, filled, fits, rfl⟩ := (LinkedProgram.link_eq_ok sound).mp linked
  have whole : ∀ c ∈ a.sections.flatMap Section.body, c.Sound :=
    List.forall_mem_flatMap.mpr sound
  have room : a.statics.toBytes.length + (a.sections.map Section.size).sum ≤ maxPayload := by
    rw [← Section.sum_size_flatMap, Chunk.sum_size_of_linked whole filled]
    exact fits
  have size := Listing.length_flatMap_encode is
  have loaded : a.statics.toBytes.length + (is.flatMap Instruction.encode).length ≤ maxPayload := by
    rw [size]
    exact fits
  have names := Section.map_fst_addresses a.statics.toBytes.length a.sections
  refine
    { statics := rfl
      names
      base := ?_
      increasing := (Section.addresses_increase room).2
      first := ?_
      code := ⟨is, Chunk.filled_of_linked whole filled, Listing.sweep_flatMap_encode _ [] is,
        size.symm⟩
      offsetOf := ?_
      image := ⟨_, LinkedProgram.ofBytes_toBytes _ loaded, dif_pos loaded⟩ }
  · intro k s hs
    refine ⟨_, Section.getElem?_addresses hs, ?_⟩
    have below := Section.sum_size_take_le k a.sections
    rw [UInt16.toNat_ofNat', Nat.mod_eq_of_lt]
    simp only [maxPayload] at room
    omega
  · intro e he
    cases sections : a.sections with
    | nil =>
      rw [sections] at he
      cases he
    | cons s rest =>
      rw [sections] at he
      cases he
      rw [UInt16.toNat_ofNat', Nat.mod_eq_of_lt]
      simp only [maxPayload] at room
      omega
  · intro name w
    rw [← names] at once capital
    rw [LinkedProgram.offsetOf?, Section.lookup_iff_mem once]
    constructor
    · intro mem
      refine ⟨_, mem, ?_, rfl⟩
      rw [Text.sameLetters_iff, Text.upper_upper]
    · rintro ⟨⟨n, v⟩, mem, same, rfl⟩
      have upper : Text.upper n = n := capital n (List.mem_map_of_mem mem)
      rw [Text.sameLetters_iff, upper] at same
      rw [← same]
      exact mem

/-- Whatever a source says, linking it misplaces no address, and what it makes
is laid out as the source says. -/
theorem link_laidOut (parsed : ofSource source = .ok a) :
    (∀ label offset, a.link ≠ .error (.misplacedRelocation label offset)) ∧
      ∀ p, a.link = .ok p → a.LaidOut p := by
  refine ⟨fun label offset failed => ?_, fun p linked => laidOut_of_link parsed linked⟩
  rcases LinkedProgram.link_error (sound_ofSource parsed) failed with bad | bad | ⟨_, bad⟩
  · cases bad
  · cases bad
  · cases bad

/-- An empty section shares its address with the one behind it, and a jump goes
back to the start section, which is linked first wherever it stands. -/
theorem link_laidOut_back :
    ∃ a p, ofSource ".STATIC\n$M: \"hi\"\nA:\nB:\nJUMP _start\n_START:\nCALL a\nHALT" = .ok a ∧
      a.link = .ok p ∧ p.code = [0x27, 7, 0, 1, 0x20, 3, 0] ∧
      p.offsets = [("_START", 3), ("A", 7), ("B", 7)] ∧ a.LaidOut p := by
  let call : Chunk := .toLabel ⟨.call, .imm 0, rfl⟩ "A"
  let halt : Chunk := .ofInstruction ⟨.halt, .none, rfl⟩
  let back : Chunk := .toLabel ⟨.jump .always, .imm 0, rfl⟩ "_START"
  let a : Assembly :=
    ⟨⟨[("M", [0x68, 0x69])]⟩, [⟨"_START", [call, halt]⟩, ⟨"A", []⟩, ⟨"B", [back]⟩]⟩
  let p : LinkedProgram :=
    ⟨[2, 0x68, 0x69], [0x27, 7, 0, 1, 0x20, 3, 0], [("_START", 3), ("A", 7), ("B", 7)]⟩
  have parsed : ofSource
      ".STATIC\n$M: \"hi\"\nA:\nB:\nJUMP _start\n_START:\nCALL a\nHALT" = .ok a :=
    Result.eq_ok_of_toOption (by decide +kernel)
  have linked : a.link = .ok p := Result.eq_ok_of_toOption (by decide +kernel)
  exact ⟨a, p, parsed, linked, rfl, rfl, (link_laidOut parsed).2 p linked⟩

end Assembly

end WordMachine
