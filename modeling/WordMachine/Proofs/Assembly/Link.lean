import Mathlib.Logic.Basic
import WordMachine.Proofs.Assembly.Chunk
import WordMachine.Proofs.Image.Codec
import WordMachine.Proofs.Instruction.Cases
import WordMachine.Proofs.Listing.Sweep

/-! What linking makes. Code is the encoding of the instructions of all chunks in
order, each with the address of its label filled in. The address of a section is
a place where these instructions split, and the bytes of a linked program are
read back as the image of its two segments. -/
namespace WordMachine

namespace Instruction

/-- The address of a jump or a call follows its opcode. -/
theorem encode_withTarget {i : Instruction} (takes : i.opcode.takesLabel = true) (address : Word) :
    3 ≤ i.encode.length ∧
      (i.withTarget address).encode = i.encode.take 1 ++ address.toBytes ++ i.encode.drop 3 := by
  cases i using Instruction.byOpcode with
  | jump condition target => exact ⟨Nat.le_refl 3, rfl⟩
  | call target => exact ⟨Nat.le_refl 3, rfl⟩
  | _ => cases takes

theorem opcode_withTarget (i : Instruction) (address : Word) :
    (i.withTarget address).opcode = i.opcode := by
  obtain ⟨opcode, operands, fits⟩ := i
  cases operands with
  | imm value => cases takes : opcode.takesLabel <;> simp [withTarget, takes]
  | _ => rfl

end Instruction

namespace Chunk

/-- The instruction of a chunk when labels have these addresses. -/
def linked? (addressOf : String → Option Word) (c : Chunk) : Option Instruction :=
  c.instruction?.bind fun i =>
    match c.relocation with
    | none => some i
    | some r => (addressOf r.label).map i.withTarget

variable {addressOf : String → Option Word} {c : Chunk}

@[simp] theorem linked?_ofInstruction (i : Instruction) :
    (ofInstruction i).linked? addressOf = some i := by
  rw [linked?, instruction?_ofInstruction]
  rfl

@[simp] theorem linked?_toLabel (i : Instruction) (label : String) :
    (toLabel i label).linked? addressOf = (addressOf label).map i.withTarget := by
  rw [linked?, instruction?_toLabel]
  rfl

theorem resolve_toLabel {i : Instruction} (takes : i.opcode.takesLabel = true) (label : String) :
    (toLabel i label).resolve addressOf =
      match addressOf label with
      | none => .error (.undefinedLabel label)
      | some address => .ok (i.withTarget address).encode := by
  simp only [resolve, toLabel]
  cases addressOf label with
  | none => rfl
  | some address =>
    obtain ⟨long, encoded⟩ := Instruction.encode_withTarget takes address
    simp only [Nat.reduceAdd, long, if_true, encoded]

theorem Sound.resolve_eq_ok (sound : c.Sound) {bytes : List UInt8} :
    c.resolve addressOf = .ok bytes ↔
      ∃ i, c.linked? addressOf = some i ∧ bytes = i.encode := by
  cases sound with
  | ofInstruction i =>
    have resolved : (Chunk.ofInstruction i).resolve addressOf = .ok i.encode := rfl
    simp only [resolved, linked?_ofInstruction, Except.ok.injEq, Option.some.injEq,
      exists_eq_left']
    exact eq_comm
  | toLabel label takes =>
    rw [resolve_toLabel takes, linked?_toLabel]
    cases addressOf label with
    | none => simp
    | some address =>
      simp only [Except.ok.injEq, Option.map_some, Option.some.injEq, exists_eq_left']
      exact eq_comm

/-- Linking fills in the target of a jump or a call, and leaves the rest. -/
theorem Sound.linked_cases (sound : c.Sound) {i : Instruction}
    (linked : c.linked? addressOf = some i) :
    c.relocation = none ∧ c.instruction? = some i ∧ c.size = i.size ∨
      ∃ j label address, c = Chunk.toLabel j label ∧ j.opcode.takesLabel = true ∧
        addressOf label = some address ∧ i = j.withTarget address := by
  cases sound with
  | ofInstruction j =>
    rw [linked?_ofInstruction] at linked
    cases linked
    exact Or.inl ⟨rfl, instruction?_ofInstruction i, Instruction.length_encode i⟩
  | @toLabel j label takes =>
    rw [linked?_toLabel, Option.map_eq_some_iff] at linked
    obtain ⟨address, found, rfl⟩ := linked
    exact Or.inr ⟨j, label, address, rfl, takes, found, rfl⟩

theorem Sound.size_linked (sound : c.Sound) {i : Instruction}
    (linked : c.linked? addressOf = some i) : c.size = i.size := by
  rcases sound.linked_cases linked with ⟨_, _, same⟩ | ⟨j, label, address, rfl, _, _, rfl⟩
  · exact same
  · rw [Instruction.size, Instruction.opcode_withTarget]
    exact Instruction.length_encode j

theorem mapM_resolve {chunks : List Chunk} (sound : ∀ c ∈ chunks, c.Sound)
    {parts : List (List UInt8)} :
    chunks.mapM (resolve addressOf) = .ok parts ↔
      ∃ is : List Instruction, chunks.map (linked? addressOf) = is.map some ∧
        parts = is.map Instruction.encode := by
  rw [Result.mapM_eq_ok]
  induction chunks generalizing parts with
  | nil =>
    constructor
    · intro h
      exact ⟨[], rfl, List.map_eq_nil_iff.mp h.symm⟩
    · rintro ⟨is, linked, rfl⟩
      rw [List.map_eq_nil_iff.mp linked.symm]
      rfl
  | cons c rest ih =>
    have ih := @ih fun d hd => sound d (List.mem_cons_of_mem c hd)
    have head := @Sound.resolve_eq_ok addressOf c (sound c List.mem_cons_self)
    constructor
    · intro h
      obtain ⟨bytes, more, rfl, resolved, others⟩ := List.map_eq_cons_iff.mp h.symm
      obtain ⟨i, linked, rfl⟩ := head.mp resolved.symm
      obtain ⟨is, linkeds, rfl⟩ := ih.mp others.symm
      exact ⟨i :: is, by rw [List.map_cons, linked, linkeds, List.map_cons], rfl⟩
    · rintro ⟨is, linked, rfl⟩
      obtain ⟨i, is, rfl, first, others⟩ := List.map_eq_cons_iff.mp linked.symm
      rw [List.map_cons, head.mpr ⟨i, first.symm, rfl⟩, ih.mpr ⟨is, others.symm, rfl⟩]
      rfl

/-- The labels that chunks refer to, in order. -/
def labels (chunks : List Chunk) : List String :=
  chunks.filterMap fun c => c.relocation.map Relocation.label

theorem Sound.resolve_eq_error (sound : c.Sound) {e : LinkError} :
    c.resolve addressOf = .error e ↔
      ∃ label, c.relocation.map Relocation.label = some label ∧ addressOf label = none ∧
        .undefinedLabel label = e := by
  cases sound with
  | ofInstruction i => exact ⟨nofun, fun ⟨_, named, _⟩ => nomatch named⟩
  | @toLabel i label takes =>
    have named : (Chunk.toLabel i label).relocation.map Relocation.label = some label := rfl
    rw [resolve_toLabel takes, named]
    cases found : addressOf label with
    | none =>
      constructor
      · rintro ⟨⟩
        exact ⟨label, rfl, found, rfl⟩
      · rintro ⟨_, ⟨⟩, _, rfl⟩
        rfl
    | some address =>
      constructor
      · rintro ⟨⟩
      · rintro ⟨_, ⟨⟩, missing, _⟩
        rw [found] at missing
        cases missing

/-- Every label has an address if all chunks are resolved. -/
theorem exists_mapM_resolve {chunks : List Chunk} (sound : ∀ c ∈ chunks, c.Sound) :
    (∃ parts, chunks.mapM (resolve addressOf) = .ok parts) ↔
      ∀ label ∈ labels chunks, addressOf label ≠ none := by
  rw [Result.exists_mapM_eq_ok]
  constructor
  · intro resolved label hlabel missing
    obtain ⟨c, hc, named⟩ := List.mem_filterMap.mp hlabel
    obtain ⟨bytes, done⟩ := resolved c hc
    rw [(sound c hc).resolve_eq_error.mpr ⟨label, named, missing, rfl⟩] at done
    cases done
  · intro addressed c hc
    cases done : c.resolve addressOf with
    | ok bytes => exact ⟨bytes, rfl⟩
    | error e =>
      obtain ⟨label, named, missing, _⟩ := (sound c hc).resolve_eq_error.mp done
      exact absurd missing (addressed label (List.mem_filterMap.mpr ⟨c, hc, named⟩))

/-- The first label without an address is reported. -/
theorem mapM_resolve_error {chunks : List Chunk} (sound : ∀ c ∈ chunks, c.Sound)
    {e : LinkError} :
    chunks.mapM (resolve addressOf) = .error e ↔
      ∃ before label after, labels chunks = before ++ label :: after ∧
        (∀ l ∈ before, addressOf l ≠ none) ∧ addressOf label = none ∧
          .undefinedLabel label = e := by
  rw [Result.mapM_eq_error]
  constructor
  · rintro ⟨first, c, rest, rfl, resolved, failed⟩
    have own := sound c (List.mem_append_right first List.mem_cons_self)
    obtain ⟨label, named, missing, rfl⟩ := own.resolve_eq_error.mp failed
    refine ⟨labels first, label, labels rest, ?_, ?_, missing, rfl⟩
    · simp only [labels, List.filterMap_append, List.filterMap_cons, named]
    · exact (exists_mapM_resolve fun d hd => sound d (List.mem_append_left _ hd)).mp resolved
  · rintro ⟨before, label, after, all, addressed, missing, rfl⟩
    obtain ⟨first, others, rfl, rfl, tail⟩ := List.filterMap_eq_append_iff.mp all
    obtain ⟨skipped, c, rest, rfl, unnamed, named, rfl⟩ := List.filterMap_eq_cons_iff.mp tail
    have own := sound c
      (List.mem_append_right first (List.mem_append_right skipped List.mem_cons_self))
    refine ⟨first ++ skipped, c, rest, (List.append_assoc ..).symm, ?_,
      own.resolve_eq_error.mpr ⟨label, named, missing, rfl⟩⟩
    refine (exists_mapM_resolve fun d hd => sound d ?_).mpr ?_
    · rw [← List.append_assoc]
      exact List.mem_append_left _ hd
    · rw [labels, List.filterMap_append, List.filterMap_eq_nil_iff.mpr unnamed, List.append_nil]
      exact addressed

theorem sum_size_of_linked {chunks : List Chunk} {is : List Instruction}
    (sound : ∀ c ∈ chunks, c.Sound) (linked : chunks.map (linked? addressOf) = is.map some) :
    (chunks.map size).sum = Listing.span is := by
  induction chunks generalizing is with
  | nil =>
    rw [List.map_eq_nil_iff.mp linked.symm]
    rfl
  | cons c rest ih =>
    obtain ⟨i, is, rfl, first, others⟩ := List.map_eq_cons_iff.mp linked.symm
    rw [List.map_cons, List.sum_cons, Listing.span_cons,
      (sound c List.mem_cons_self).size_linked first.symm,
      ih (fun d hd => sound d (List.mem_cons_of_mem c hd)) others.symm]

end Chunk

namespace Section

theorem size_eq (s : Section Chunk) : s.size = (s.body.map Chunk.size).sum := rfl

theorem sum_size_flatMap (sections : List (Section Chunk)) :
    ((sections.flatMap body).map Chunk.size).sum = (sections.map size).sum := by
  induction sections with
  | nil => rfl
  | cons s rest ih =>
    rw [List.flatMap_cons, List.map_append, List.sum_append, ih]
    rfl

theorem map_fst_addresses (base : Nat) (sections : List (Section Chunk)) :
    (addresses base sections).map Prod.fst = sections.map name := by
  induction sections generalizing base with
  | nil => rfl
  | cons s rest ih => rw [addresses, List.map_cons, List.map_cons, ih]

theorem lookup_addresses_eq_none {base : Nat} {sections : List (Section Chunk)} {label : String} :
    (addresses base sections).lookup label = none ↔ label ∉ sections.map name := by
  rw [← map_fst_addresses base, List.lookup_eq_none_iff, List.mem_map]
  simp only [bne_iff_ne, ne_eq]
  constructor
  · rintro absent ⟨e, he, same⟩
    exact absent e he same.symm
  · intro absent e he same
    exact absent ⟨e, he, same.symm⟩

/-- Every section begins where an instruction does, or where the code ends. -/
theorem boundary_addresses {addressOf : String → Option Word} {sections : List (Section Chunk)}
    {base : Nat} {is : List Instruction} {name : String} {address : Word}
    (sound : ∀ s ∈ sections, ∀ c ∈ s.body, c.Sound)
    (linked : (sections.flatMap body).map (Chunk.linked? addressOf) = is.map some)
    (fits : base + Listing.span is ≤ maxPayload) (h : (name, address) ∈ addresses base sections) :
    Listing.Boundary base is address.toNat := by
  induction sections generalizing base is with
  | nil => cases h
  | cons s rest ih =>
    rw [List.flatMap_cons, List.map_append] at linked
    obtain ⟨own, others, rfl, linkedOwn, linkedOthers⟩ := List.map_eq_append_iff.mp linked.symm
    have size : s.size = Listing.span own :=
      Chunk.sum_size_of_linked (sound s List.mem_cons_self) linkedOwn.symm
    rw [Listing.span_append] at fits
    rcases List.mem_cons.mp h with same | later
    · have whole : (UInt16.ofNat base).toNat = base := by
        rw [UInt16.toNat_ofNat', Nat.mod_eq_of_lt]
        simp only [maxPayload] at fits
        omega
      cases same
      rw [whole]
      exact ⟨_, Listing.Tail.first base _⟩
    · rw [size] at later
      obtain ⟨rest, tail⟩ :=
        ih (fun t ht => sound t (List.mem_cons_of_mem s ht)) linkedOthers.symm (by omega) later
      exact ⟨rest, tail.behind⟩

end Section

namespace LinkedProgram

theorem link_eq (statics : List UInt8) (sections : List (Section Chunk)) :
    link statics sections =
      if maxPayload < statics.length then .error (.staticSegmentTooLarge statics.length)
      else if maxPayload < statics.length + (sections.map Section.size).sum then
        .error (.programTooLarge (statics.length + (sections.map Section.size).sum))
      else ((sections.flatMap Section.body).mapM
        (Chunk.resolve ((Section.addresses statics.length sections).lookup ·))).map
          fun parts => ⟨statics, parts.flatten, Section.addresses statics.length sections⟩ := by
  simp only [link]
  cases (sections.flatMap Section.body).mapM
    (Chunk.resolve ((Section.addresses statics.length sections).lookup ·)) <;> rfl

theorem link_ok_iff {statics : List UInt8} {sections : List (Section Chunk)} {p : LinkedProgram} :
    link statics sections = .ok p ↔
      statics.length + (sections.map Section.size).sum ≤ maxPayload ∧
        ∃ parts, (sections.flatMap Section.body).mapM
            (Chunk.resolve ((Section.addresses statics.length sections).lookup ·)) = .ok parts ∧
          ⟨statics, parts.flatten, Section.addresses statics.length sections⟩ = p := by
  simp only [link_eq, ite_eq_iff, reduceCtorEq, and_false, false_or, Result.map_eq_ok, Nat.not_lt]
  constructor
  · rintro ⟨_, fits, resolved⟩
    exact ⟨fits, resolved⟩
  · rintro ⟨fits, resolved⟩
    exact ⟨by omega, fits, resolved⟩

/-- Linking succeeds when every label has an address and all of it fits. -/
theorem link_eq_ok {statics : List UInt8} {sections : List (Section Chunk)} {p : LinkedProgram}
    (sound : ∀ s ∈ sections, ∀ c ∈ s.body, c.Sound) :
    link statics sections = .ok p ↔
      ∃ is : List Instruction,
        (sections.flatMap Section.body).map
          (Chunk.linked? ((Section.addresses statics.length sections).lookup ·)) = is.map some ∧
        statics.length + Listing.span is ≤ maxPayload ∧
        p = ⟨statics, is.flatMap Instruction.encode, Section.addresses statics.length sections⟩ := by
  have sound := List.forall_mem_flatMap.mpr sound
  rw [link_ok_iff, ← Section.sum_size_flatMap]
  constructor
  · rintro ⟨fits, parts, resolved, rfl⟩
    obtain ⟨is, linked, rfl⟩ := (Chunk.mapM_resolve sound).mp resolved
    rw [Chunk.sum_size_of_linked sound linked] at fits
    exact ⟨is, linked, fits, by rw [List.flatMap_def]⟩
  · rintro ⟨is, linked, fits, rfl⟩
    rw [← Chunk.sum_size_of_linked sound linked] at fits
    exact ⟨fits, _, (Chunk.mapM_resolve sound).mpr ⟨is, linked, rfl⟩, by rw [List.flatMap_def]⟩

/-- Sizes are checked first; then the first label that is not a name is reported. -/
theorem link_eq_error {statics : List UInt8} {sections : List (Section Chunk)} {e : LinkError}
    (sound : ∀ c ∈ sections.flatMap Section.body, c.Sound) :
    link statics sections = .error e ↔
      maxPayload < statics.length ∧ .staticSegmentTooLarge statics.length = e ∨
      statics.length ≤ maxPayload ∧
        (maxPayload < statics.length + (sections.map Section.size).sum ∧
            .programTooLarge (statics.length + (sections.map Section.size).sum) = e ∨
          statics.length + (sections.map Section.size).sum ≤ maxPayload ∧
            ∃ before label after,
              Chunk.labels (sections.flatMap Section.body) = before ++ label :: after ∧
                (∀ l ∈ before, l ∈ sections.map Section.name) ∧
                label ∉ sections.map Section.name ∧ .undefinedLabel label = e) := by
  simp only [link_eq, ite_eq_iff, Result.map_eq_error, Chunk.mapM_resolve_error sound,
    Except.error.injEq, Nat.not_lt, ne_eq, Section.lookup_addresses_eq_none, Classical.not_not]

/-- Linking succeeds when everything fits and every label is a name. -/
theorem exists_link {statics : List UInt8} {sections : List (Section Chunk)}
    (sound : ∀ c ∈ sections.flatMap Section.body, c.Sound) :
    (∃ p, link statics sections = .ok p) ↔
      statics.length + (sections.map Section.size).sum ≤ maxPayload ∧
        ∀ l ∈ Chunk.labels (sections.flatMap Section.body), l ∈ sections.map Section.name := by
  have resolved := @Chunk.exists_mapM_resolve
    ((Section.addresses statics.length sections).lookup ·) _ sound
  simp only [ne_eq, Section.lookup_addresses_eq_none, Classical.not_not] at resolved
  simp only [link_ok_iff, ← resolved]
  constructor
  · rintro ⟨_, fits, parts, done, rfl⟩
    exact ⟨fits, parts, done⟩
  · rintro ⟨fits, parts, done⟩
    exact ⟨_, fits, parts, done, rfl⟩

/-- Reading back the bytes of a linked program. -/
theorem ofBytes_toBytes (p : LinkedProgram) (fits : p.statics.length + p.code.length ≤ maxPayload) :
    Image.ofBytes p.toBytes = .ok ⟨some 0, p.statics, p.code, nofun, fits⟩ := by
  refine Image.ofBytes_eq_ok.mpr ⟨?_, Or.inl rfl⟩
  rw [toBytes, List.append_assoc]
  rfl

end LinkedProgram

end WordMachine
